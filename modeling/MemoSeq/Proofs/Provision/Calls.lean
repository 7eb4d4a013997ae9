/-
  MemoSeq/Proofs/Provision/Calls.lean
  ====================================
  **How often a producer has been called.**

  Every call that is answered leaves its trace on the tape: an item at the end of the log,
  or the end.  So the tape tells how often its producer has been called
  (`TapeState.calls`), and a call is made only by who has reached the end of the log
  (`Provision.Supplies.calls_of_advance`).
-/
import MemoSeq.Proofs.Provision.Basic

namespace MemoSeq

variable {H : Host}

namespace TapeState

variable {cell : TapeState H} {c : SequenceState}

/-- The producer has failed; that is the last item on its tape. -/
def hasFailed (cell : TapeState H) : Bool :=
  match cell.log.back? with
  | some (.error _) => true
  | _ => false

/-- How many calls the producer has answered: each item is an answer, and so is the end when
    it was reported. -/
def calls (cell : TapeState H) : Nat :=
  cell.log.size + if cell.hasEnded && !cell.hasFailed then 1 else 0

theorem log_size_le_calls (cell : TapeState H) : cell.log.size ≤ cell.calls :=
  Nat.le_add_right _ _

theorem calls_of_phase_ne_ended (h : cell.phase ≠ .ended) : cell.calls = cell.log.size := by
  have hgoing : cell.hasEnded = false := by
    unfold hasEnded
    split
    · exact (h ‹_›).elim
    · rfl
  simp [calls, hgoing]

theorem exists_error_of_hasFailed (h : cell.hasFailed = true) :
    ∃ i e, i + 1 = cell.log.size ∧ cell.log[i]? = some (.error e) := by
  unfold hasFailed at h
  split at h
  · rename_i e hlast
    have hlt : cell.log.size - 1 < cell.log.size :=
      (Array.getElem?_eq_some_iff.mp (Array.back?_eq_getElem? ▸ hlast)).1
    exact ⟨cell.log.size - 1, e, by omega, Array.back?_eq_getElem? ▸ hlast⟩
  · cases h

theorem Sound.hasFailed_eq_false (hsound : cell.Sound) (h : cell.phase ≠ .ended) :
    cell.hasFailed = false := by
  cases hfailed : cell.hasFailed with
  | false => rfl
  | true =>
    obtain ⟨i, e, -, hi⟩ := exists_error_of_hasFailed hfailed
    exact (hsound.not_error h i e hi).elim

/-- An answer is one more, whatever it is. -/
theorem Sound.calls_recorded (hsound : cell.Sound) (h : cell.phase ≠ .ended) (x : Option Item)
    (p : Producer H) : (cell.recorded x p).calls = cell.calls + 1 := by
  have hgoing := hsound.hasFailed_eq_false h
  rw [calls_of_phase_ne_ended h]
  match x with
  | none =>
    have hnow : (cell.recorded none p).hasFailed = false := hgoing
    have hended : (cell.recorded none p).hasEnded = true := rfl
    have hlog : (cell.recorded none p).log = cell.log := rfl
    simp [calls, hnow, hended, hlog]
  | some (.ok v) =>
    rw [calls_of_phase_ne_ended (by simp [TapeState.recorded])]
    simp [TapeState.recorded]
  | some (.error e) => simp [calls, hasFailed, TapeState.recorded]

end TapeState

/-- Who has taken no failure is not behind one. -/
theorem SequenceState.Copies.lt_of_hasFailed {c : SequenceState} {cell : TapeState H}
    (h : c.Copies cell) (hfailed : cell.hasFailed = true) : c.cache.size < cell.log.size := by
  obtain ⟨i, e, hi, hlog⟩ := TapeState.exists_error_of_hasFailed hfailed
  apply Nat.lt_of_le_of_ne h.cache_size_le
  intro heq
  have hlt : i < c.cache.size := by omega
  obtain ⟨v, hv, -⟩ := h.cached i _ (Array.getElem?_eq_getElem hlt)
  rw [hlog] at hv
  cases hv

namespace Provision

variable {P : Provision H} {E : Engine H} {n : Nat} {s : Sequence} {t : Tape} {w w' : World H}

/-- Reading calls the producer once if the reader is at the end of the log, and not at all
    if it is not. -/
theorem Stocks.calls_of_reads {r r' : Reader} {x : Option Item} (hP : P.Valid E r.tape.id n)
    (h : P.Stocks r.tape w) (hposition : r.position ≤ (w.tape r.tape).log.size)
    (hfailed : (w.tape r.tape).hasFailed = true → r.position < (w.tape r.tape).log.size)
    (hreads : r.Reads E w x r' w') :
    (w'.tape r.tape).calls = max (w.tape r.tape).calls (r.position + 1) := by
  have hle := (w.tape r.tape).log_size_le_calls
  cases hreads with
  | logged item hlog =>
    have hlt := (Array.getElem?_eq_some_iff.mp hlog).1
    omega
  | paused hlog hphase =>
    have hend : r.position = (w.tape r.tape).log.size :=
      Nat.le_antisymm hposition (by simpa using hlog)
    -- a failure would stand behind the reader
    have hgoing : (w.tape r.tape).hasFailed = false := by
      refine Bool.eq_false_iff.mpr fun hyes => ?_
      exact Nat.ne_of_lt (hfailed hyes) hend
    have hended : (w.tape r.tape).hasEnded = true := by
      have hstocked := h.phase
      cases hcell : (w.tape r.tape).phase with
      | idle p => exact (hphase p hcell).elim
      | running => simp only [hcell] at hstocked
      | ended => simp [TapeState.hasEnded, hcell]
    have hcalls : (w.tape r.tape).calls = r.position + 1 := by
      simp [TapeState.calls, hgoing, hended, hend]
    omega
  | drove p p' x v hlog hphase hnext =>
    have hend : r.position = (w.tape r.tape).log.size :=
      Nat.le_antisymm hposition (by simpa using hlog)
    have hidle : (w.tape r.tape).phase ≠ .ended := by simp [hphase]
    have hstart : w.Spares (· < r.tape.id) (· < n) (w.running r.tape) :=
      .running w r.tape (by simp) hidle
    have hfits : P.fits (w.tape r.tape).log.size p w := by
      have hstocked := h.phase
      simp only [hphase] at hstocked
      exact hstocked
    obtain ⟨y, q, u, hrun, -, -, hspares, -⟩ :=
      hP.next (hP.relies_mono h.relies hstart) (hP.fits_mono hfits hstart.continues)
    cases hnext.symm.trans hrun
    have hlt : r.tape.id < (w.running r.tape).tapes.size := by simpa using h.tape_lt
    have htape : v.tape r.tape = (w.tape r.tape).started := by
      rw [hspares.tapes r.tape (Nat.le_refl _) hlt, World.tape_running_self h.tape_lt]
    have hsound : (w.tape r.tape).started.Sound := h.sound.running hphase
    -- the producer leaves its own tape alone: what is recorded is the one call more
    rw [World.tape_recorded_self _ (Nat.lt_of_lt_of_le hlt hspares.tapesSize), htape,
      hsound.calls_recorded (by simp), TapeState.calls_of_phase_ne_ended (by simp),
      TapeState.calls_of_phase_ne_ended hidle, TapeState.log_started]
    omega

/-- Advancing a sequence calls the producer once if all that is on the tape is cached, and
    not at all otherwise. -/
theorem Supplies.calls_of_advance (hP : P.Valid E t.id s.id) (h : P.Supplies s t w)
    {y : Outcome (Option Value)} (hrun : (s.advance E).run.run w = .ok (y, w')) :
    (w'.tape t).calls = max (w.tape t).calls ((w.sequence s).cache.size + 1) := by
  have hle := (w.tape t).log_size_le_calls
  have hcopies := h.mirrors.toCopies
  cases Sequence.run_advance_iff.mp hrun with
  | failed e he =>
    have hreader : (w.sequence s).reader = none := by
      refine Option.eq_none_iff_forall_ne_some.mpr fun r hr => ?_
      rw [(h.mirrors.reading r hr).2.2] at he
      cases he
    obtain ⟨-, hleft⟩ := h.mirrors.done h.busy hreader
    rw [he] at hleft
    have hlt := (Array.getElem?_eq_some_iff.mp hleft).1
    omega
  | still hfailure hstill =>
    have hreader : (w.sequence s).reader = none := by simpa [h.busy] using hstill
    obtain ⟨hended, hleft⟩ := h.mirrors.done h.busy hreader
    rw [hfailure] at hleft
    have hend : (w.sequence s).cache.size = (w.tape t).log.size :=
      Nat.le_antisymm hcopies.cache_size_le (by simpa using hleft)
    have hgoing : (w.tape t).hasFailed = false := by
      refine Bool.eq_false_iff.mpr fun hyes => ?_
      exact Nat.ne_of_lt (hcopies.lt_of_hasFailed hyes) hend
    have hcalls : (w.tape t).calls = (w.sequence s).cache.size + 1 := by
      simp [TapeState.calls, hgoing, hended, hend]
    omega
  | pulled r r' x v hfailure hbusy hreader hreads =>
    obtain ⟨rfl, -, -⟩ := h.mirrors.reading r hreader
    have hwaits : w.Spares (· < t.id) (· < s.id) (w.waiting s) :=
      .updateSequence w s (by simp) _
    have hstocks : P.Stocks t (w.waiting s) :=
      h.toStocks.of_eq hP hwaits.continues (hP.relies_mono h.relies hwaits) rfl
    have hread := Stocks.calls_of_reads (r := ⟨t, (w.sequence s).cache.size⟩) hP hstocks
      hcopies.cache_size_le hcopies.lt_of_hasFailed hreads
    exact hread

end Provision

end MemoSeq

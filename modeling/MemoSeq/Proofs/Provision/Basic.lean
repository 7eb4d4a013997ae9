/-
  MemoSeq/Proofs/Provision/Basic.lean
  ====================================
  **Tapes whose producers are known to answer.**

  A `Provision` says what a tape may come to hold at each position, the end and a failure
  included, and when the producer of the tape is fit to give the rest.  It is valid for
  an engine (`Provision.Valid`) when driving a fit producer does give the next item and does
  nothing to the tapes and sequences from some numbers on; what the producer relies on
  among the earlier ones must stand.

  Reading is total then.  A reader gets what is on the tape at its position, be it there
  already or put there for it (`Provision.Stocks.run_read`); what advancing a sequence gives
  is the item behind its cache (`Provision.Supplies.run_advance`), and what an iteration
  gives is what it found cached and then the items behind that (`Follows.run_next`),
  whoever has read the tape in the meantime.
-/
import MemoSeq.Proofs.Contents
import MemoSeq.Proofs.Custody.Deeds

namespace MemoSeq

variable {H : Host}

/-! ### Tapes that go on -/

/-- What is on a tape stays there, and a tape that has ended stays as it is. -/
structure TapeState.Goes (cell cell' : TapeState H) : Prop where
  logged : ∀ (k : Nat) (x : Item), cell.log[k]? = some x → cell'.log[k]? = some x
  ended : cell.hasEnded = true → cell' = cell

namespace TapeState.Goes

variable {cell cell' cell'' : TapeState H}

theorem refl (cell : TapeState H) : cell.Goes cell := ⟨fun _ _ => id, fun _ => rfl⟩

theorem trans (h : cell.Goes cell') (h' : cell'.Goes cell'') : cell.Goes cell'' where
  logged k x hx := h'.logged k x (h.logged k x hx)
  ended hended := by
    have hsame := h.ended hended
    exact (h'.ended (hsame ▸ hended)).trans hsame

theorem size_le (h : cell.Goes cell') : cell.log.size ≤ cell'.log.size := by
  apply Nat.le_of_not_lt
  intro hlt
  have hlast := h.logged cell'.log.size _ (Array.getElem?_eq_getElem hlt)
  simp at hlast

/-- What a reader has been given is still there to be seen. -/
theorem getElem? (h : cell.Goes cell') {k : Nat} {x : Option Item} (hx : cell.log[k]? = x)
    (hnone : x = none → cell.hasEnded = true) : cell'.log[k]? = x := by
  cases x with
  | some x => exact h.logged k x hx
  | none =>
    rw [h.ended (hnone rfl)]
    exact hx

theorem started (h : cell.phase ≠ .ended) : cell.Goes cell.started where
  logged _ _ hx := hx
  ended hended := by
    rw [TapeState.hasEnded] at hended
    split at hended
    · exact (h ‹_›).elim
    · cases hended

theorem recorded (h : cell.phase ≠ .ended) (x : Option Item) (p : Producer H) :
    cell.Goes (cell.recorded x p) where
  logged _ _ hx := TapeState.recorded_of_logged hx
  ended hended := by
    rw [TapeState.hasEnded] at hended
    split at hended
    · exact (h ‹_›).elim
    · cases hended

end TapeState.Goes

/-! ### What is spared -/

/-- The second world goes on from the first.  Nothing has been done to the tapes and the
    sequences with these numbers that were there already, nor to the settings. -/
structure World.Spares (T S : Nat → Prop) (w w' : World H) : Prop where
  tapesSize : w.tapes.size ≤ w'.tapes.size
  sequencesSize : w.sequences.size ≤ w'.sequences.size
  goes : ∀ t : Tape, t.id < w.tapes.size → (w.tape t).Goes (w'.tape t)
  tapes : ∀ t : Tape, T t.id → t.id < w.tapes.size → w'.tape t = w.tape t
  sequences : ∀ s : Sequence, S s.id → s.id < w.sequences.size → w'.sequence s = w.sequence s
  limit : w'.limit = w.limit
  displayLength : w'.displayLength = w.displayLength

/-- The world goes on: nothing that was there has gone. -/
def World.Continues (w w' : World H) : Prop := w.Spares (fun _ => False) (fun _ => False) w'

namespace World.Spares

variable {T T' S S' : Nat → Prop} {w w' w'' : World H}

theorem refl (w : World H) : w.Spares T S w :=
  ⟨Nat.le_refl _, Nat.le_refl _, fun _ _ => .refl _, fun _ _ _ => rfl, fun _ _ _ => rfl, rfl, rfl⟩

theorem trans (h : w.Spares T S w') (h' : w'.Spares T S w'') : w.Spares T S w'' where
  tapesSize := Nat.le_trans h.tapesSize h'.tapesSize
  sequencesSize := Nat.le_trans h.sequencesSize h'.sequencesSize
  goes t hlt := (h.goes t hlt).trans (h'.goes t (Nat.lt_of_lt_of_le hlt h.tapesSize))
  tapes t ht hlt := (h'.tapes t ht (Nat.lt_of_lt_of_le hlt h.tapesSize)).trans (h.tapes t ht hlt)
  sequences s hs hlt :=
    (h'.sequences s hs (Nat.lt_of_lt_of_le hlt h.sequencesSize)).trans (h.sequences s hs hlt)
  limit := h'.limit.trans h.limit
  displayLength := h'.displayLength.trans h.displayLength

theorem mono (h : w.Spares T S w') (hT : ∀ k, T' k → T k) (hS : ∀ k, S' k → S k) :
    w.Spares T' S' w' :=
  ⟨h.tapesSize, h.sequencesSize, h.goes, fun t ht => h.tapes t (hT _ ht),
    fun s hs => h.sequences s (hS _ hs), h.limit, h.displayLength⟩

theorem continues (h : w.Spares T S w') : w.Continues w' :=
  h.mono (fun _ => False.elim) fun _ => False.elim

theorem updateTape (w : World H) (t : Tape) {f : TapeState H → TapeState H} (ht : ¬ T t.id)
    (hf : (w.tape t).Goes (f (w.tape t))) : w.Spares T S (w.updateTape t f) where
  tapesSize := by simp [World.updateTape]
  sequencesSize := Nat.le_refl _
  goes q _ := by
    rw [tape_updateTape]
    split
    case isTrue h =>
      obtain ⟨rfl, -⟩ := h
      exact hf
    case isFalse => exact .refl _
  tapes q hq _ := by
    refine tape_updateTape_of_ne f ?_
    rintro rfl
    exact ht hq
  sequences _ _ _ := rfl
  limit := rfl
  displayLength := rfl

theorem running (w : World H) (t : Tape) (ht : ¬ T t.id) (hphase : (w.tape t).phase ≠ .ended) :
    w.Spares T S (w.running t) :=
  updateTape w t ht (.started hphase)

theorem recorded (w : World H) (t : Tape) (ht : ¬ T t.id) (hphase : (w.tape t).phase ≠ .ended)
    (x : Option Item) (p : Producer H) : w.Spares T S (w.recorded t x p) :=
  updateTape w t ht (.recorded hphase x p)

theorem updateSequence (w : World H) (s : Sequence) (hs : ¬ S s.id)
    (f : SequenceState → SequenceState) : w.Spares T S (w.updateSequence s f) where
  tapesSize := Nat.le_refl _
  sequencesSize := by simp
  goes _ _ := .refl _
  tapes _ _ _ := rfl
  sequences u hu _ := by
    refine sequence_updateSequence_of_ne f ?_
    rintro rfl
    exact hs hu
  limit := rfl
  displayLength := rfl

theorem withSequence (w : World H) (p : Producer H) (infinite : Bool) :
    w.Spares T S (w.withSequence p infinite) where
  tapesSize := by simp
  sequencesSize := by simp
  goes t hlt := by
    rw [tape_withSequence, tape_withTape_of_lt p hlt]
    exact .refl _
  tapes _ _ hlt := tape_withTape_of_lt p hlt
  sequences _ _ hlt := sequence_withSequence_of_lt p infinite hlt
  limit := rfl
  displayLength := rfl

theorem host (w : World H) (h : H.State) : w.Spares T S { w with host := h } :=
  ⟨Nat.le_refl _, Nat.le_refl _, fun _ _ => .refl _, fun _ _ _ => rfl, fun _ _ _ => rfl, rfl, rfl⟩

end World.Spares

/-- All that has been done was done besides these tapes and sequences. -/
structure World.Bypasses (T : Tape → Prop) (S : Sequence → Prop) (w w' : World H) : Prop where
  tapesSize : w.tapes.size ≤ w'.tapes.size
  sequencesSize : w.sequences.size ≤ w'.sequences.size
  tapes : ∀ t, T t → t.id < w.tapes.size → w'.tape t = w.tape t
  sequences : ∀ s, S s → s.id < w.sequences.size → w'.sequence s = w.sequence s

namespace World.Bypasses

variable {T : Tape → Prop} {S : Sequence → Prop} {w w' : World H}

theorem refl (w : World H) : w.Bypasses T S w :=
  ⟨Nat.le_refl _, Nat.le_refl _, fun _ _ _ => rfl, fun _ _ _ => rfl⟩

theorem trans {T' : Tape → Prop} {S' : Sequence → Prop} {w' w'' : World H} (h : w.Bypasses T S w')
    (h' : w'.Bypasses T' S' w'') (hT : ∀ t, T t → t.id < w.tapes.size → T' t)
    (hS : ∀ s, S s → s.id < w.sequences.size → S' s) : w.Bypasses T S w'' where
  tapesSize := Nat.le_trans h.tapesSize h'.tapesSize
  sequencesSize := Nat.le_trans h.sequencesSize h'.sequencesSize
  tapes t ht hlt :=
    (h'.tapes t (hT t ht hlt) (Nat.lt_of_lt_of_le hlt h.tapesSize)).trans (h.tapes t ht hlt)
  sequences s hs hlt :=
    (h'.sequences s (hS s hs hlt) (Nat.lt_of_lt_of_le hlt h.sequencesSize)).trans
      (h.sequences s hs hlt)

theorem host (w : World H) (h : H.State) : w.Bypasses T S { w with host := h } :=
  ⟨Nat.le_refl _, Nat.le_refl _, fun _ _ _ => rfl, fun _ _ _ => rfl⟩

theorem updateTape (w : World H) {t : Tape} (ht : ¬ T t) (f : TapeState H → TapeState H) :
    w.Bypasses T S (w.updateTape t f) where
  tapesSize := by simp [World.updateTape]
  sequencesSize := Nat.le_refl _
  tapes q hq _ := tape_updateTape_of_ne f fun heq => ht (heq ▸ hq)
  sequences _ _ _ := rfl

theorem updateSequence (w : World H) {s : Sequence} (hs : ¬ S s)
    (f : SequenceState → SequenceState) : w.Bypasses T S (w.updateSequence s f) where
  tapesSize := Nat.le_refl _
  sequencesSize := by simp
  tapes _ _ _ := rfl
  sequences q hq _ := sequence_updateSequence_of_ne f fun heq => hs (heq ▸ hq)

theorem withTape (w : World H) (p : Producer H) : w.Bypasses T S (w.withTape p) where
  tapesSize := by simp
  sequencesSize := Nat.le_refl _
  tapes _ _ hlt := tape_withTape_of_lt p hlt
  sequences _ _ _ := rfl

theorem withSequence (w : World H) (p : Producer H) (infinite : Bool) :
    w.Bypasses T S (w.withSequence p infinite) where
  tapesSize := by simp
  sequencesSize := by simp
  tapes _ _ hlt := tape_withTape_of_lt p hlt
  sequences _ _ hlt := sequence_withSequence_of_lt p infinite hlt

theorem of_spares {T' S' : Nat → Prop} (h : w.Spares T' S' w') (hT : ∀ t, T t → T' t.id)
    (hS : ∀ s, S s → S' s.id) : w.Bypasses T S w' :=
  ⟨h.tapesSize, h.sequencesSize, fun t ht => h.tapes t (hT t ht),
    fun s hs => h.sequences s (hS s hs)⟩

end World.Bypasses

theorem SequenceState.Copies.of_goes {c : SequenceState} {cell cell' : TapeState H}
    (h : c.Copies cell) (hgoes : cell.Goes cell') : c.Copies cell' where
  cached i v hv := by
    obtain ⟨produced, hlog, hshown⟩ := h.cached i v hv
    exact ⟨produced, hgoes.logged i _ hlog, hshown⟩
  overwritten := h.overwritten

theorem SequenceState.Mirrors.of_goes {c : SequenceState} {t : Tape} {cell cell' : TapeState H}
    (h : c.Mirrors t cell) (hbusy : c.busy = false) (hgoes : cell.Goes cell') :
    c.Mirrors t cell' where
  toCopies := h.toCopies.of_goes hgoes
  reading := h.reading
  waiting hwaiting := by simp [hbusy] at hwaiting
  done _ hreader := by
    have hdone := h.done hbusy hreader
    rw [hgoes.ended hdone.1]
    exact hdone

theorem SequenceState.settled_waiting (c : SequenceState) (x : Option Item) (ended : Bool)
    (r : Reader) : c.waiting.settled x ended r = c.settled x ended r := by
  match x with
  | none | some (.ok _) | some (.error _) => rfl

/-! ### Provisions -/

/-- What a tape may come to hold at each position, and when a producer is fit to give
    what is due from a position on.  It may rely on something about the world besides. -/
structure Provision (H : Host) where
  allows : Nat → Option Item → Prop
  relies : World H → Prop
  fits : Nat → Producer H → World H → Prop

namespace Provision

/-- A fit producer gives an item that is allowed, and spares the tapes from number `m`
    and the sequences from number `n` on.  It relies on the earlier ones only. -/
structure Valid (P : Provision H) (E : Engine H) (m n : Nat) : Prop where
  ended : ∀ {k : Nat} {x : Option Item},
    P.allows k x → (∀ v, x ≠ some (.ok v)) → P.allows (k + 1) none
  relies_mono : ∀ {w w' : World H}, P.relies w → w.Spares (· < m) (· < n) w' → P.relies w'
  fits_mono : ∀ {k : Nat} {p : Producer H} {w w' : World H},
    P.fits k p w → w.Continues w' → P.fits k p w'
  next : ∀ {k : Nat} {p : Producer H} {w : World H}, P.relies w → P.fits k p w →
    ∃ x p' w', (E.next p).run w = .ok ((x, p'), w') ∧ P.allows k x ∧ P.relies w' ∧
      w.Spares (m ≤ ·) (n ≤ ·) w' ∧ ∀ v, x = some (.ok v) → P.fits (k + 1) p' w'

/-- A tape holds what is allowed, and its producer is fit to give the rest. -/
structure Stocks (P : Provision H) (t : Tape) (w : World H) : Prop where
  tape_lt : t.id < w.tapes.size
  sound : (w.tape t).Sound
  relies : P.relies w
  logged : ∀ (k : Nat) (x : Item), (w.tape t).log[k]? = some x → P.allows k (some x)
  phase : match (w.tape t).phase with
    | .idle p => P.fits (w.tape t).log.size p w
    | .running => False
    | .ended => P.allows (w.tape t).log.size none

/-- A sequence draws from a tape that is stocked. -/
structure Supplies (P : Provision H) (s : Sequence) (t : Tape) (w : World H) : Prop
    extends P.Stocks t w where
  sequence_lt : s.id < w.sequences.size
  mirrors : (w.sequence s).Mirrors t (w.tape t)
  busy : (w.sequence s).busy = false

variable {P : Provision H} {E : Engine H} {m n : Nat} {s : Sequence} {t : Tape} {w w' : World H}

/-- What a reader gets of a stocked tape is allowed where it stands. -/
theorem Stocks.allows (h : P.Stocks t w) {k : Nat} {x : Option Item}
    (hk : k ≤ (w.tape t).log.size) (hx : (w.tape t).log[k]? = x)
    (hnone : x = none → (w.tape t).hasEnded = true) : P.allows k x := by
  cases x with
  | some x => exact h.logged k x hx
  | none =>
    have hend : k = (w.tape t).log.size := Nat.le_antisymm hk (by simpa using hx)
    have hended := hnone rfl
    have hphase := h.phase
    rw [TapeState.hasEnded] at hended
    split at hended
    case h_2 => cases hended
    case h_1 hcell =>
      simp only [hcell] at hphase
      rw [hend]
      exact hphase

/-- A tape that was at work holds what is allowed when it notes an item that is. -/
theorem Stocks.of_recorded {v : World H} {cell : TapeState H} {x : Option Item} {p : Producer H}
    (hsound : cell.Sound)
    (hlogged : ∀ (k : Nat) (y : Item), cell.log[k]? = some y → P.allows k (some y))
    (hphase : cell.phase ≠ .ended) (hlt : t.id < v.tapes.size) (htape : v.tape t = cell.started)
    (hx : P.allows cell.log.size x)
    (hended : (∀ a, x ≠ some (.ok a)) → P.allows (cell.log.size + 1) none)
    (hrelies : P.relies (v.recorded t x p))
    (hfits : ∀ a, x = some (.ok a) → P.fits (cell.log.size + 1) p (v.recorded t x p)) :
    P.Stocks t (v.recorded t x p) := by
  have hcell := World.tape_recorded_self x hlt (p := p)
  rw [htape] at hcell
  refine ⟨by simpa using hlt, ?_, hrelies, ?_, ?_⟩
  · rw [hcell]
    refine TapeState.Sound.recorded ?_ rfl
    exact fun i e hi => (hsound.not_error hphase i e hi).elim
  · intro k y hk
    rw [hcell] at hk
    rcases Nat.lt_or_ge k cell.log.size with hlt | hge
    · refine hlogged k y ?_
      rw [TapeState.log_recorded, TapeState.log_started, Array.getElem?_append_left hlt] at hk
      exact hk
    · have hsize := (Array.getElem?_eq_some_iff.mp hk).1
      rw [World.size_log_recorded, TapeState.log_started] at hsize
      have hlast : k = cell.started.log.size := by
        rw [TapeState.log_started]
        split at hsize <;> omega
      rw [hlast, TapeState.recorded_log_size] at hk
      rw [hlast, ← hk]
      exact hx
  · rw [hcell]
    match x with
    | none => exact hx
    | some (.error e) =>
      have hend := hended (by simp)
      simpa [TapeState.recorded] using hend
    | some (.ok a) =>
      have hnext := hfits a rfl
      simpa [TapeState.recorded] using hnext

section Tapes

variable (hP : P.Valid E m n)
include hP

/-- A tape is stocked as long as its cell and what the producer relies on are the same. -/
theorem Stocks.of_eq (h : P.Stocks t w) (hw : w.Continues w') (hrelies : P.relies w')
    (htape : w'.tape t = w.tape t) : P.Stocks t w' where
  tape_lt := Nat.lt_of_lt_of_le h.tape_lt hw.tapesSize
  sound := htape ▸ h.sound
  relies := hrelies
  logged := by
    rw [htape]
    exact h.logged
  phase := by
    have hphase := h.phase
    rw [htape]
    cases hcell : (w.tape t).phase with
    | running => simp only [hcell] at hphase
    | ended => simpa only [hcell] using hphase
    | idle p =>
      simp only [hcell] at hphase ⊢
      exact hP.fits_mono hphase hw

/-- A tape that was at work has noted the item that was due. -/
theorem Stocks.recorded {v : World H} {x : Option Item} {p : Producer H} (h : P.Stocks t w)
    (hphase : (w.tape t).phase ≠ .ended) (hlt : t.id < v.tapes.size)
    (htape : v.tape t = (w.tape t).started) (hx : P.allows (w.tape t).log.size x)
    (hrelies : P.relies (v.recorded t x p))
    (hfits : ∀ a, x = some (.ok a) → P.fits ((w.tape t).log.size + 1) p v) :
    P.Stocks t (v.recorded t x p) :=
  .of_recorded h.sound h.logged hphase hlt htape hx (fun hvalue => hP.ended hx hvalue) hrelies
    fun a ha => hP.fits_mono (hfits a ha)
      (World.Spares.recorded (T := fun _ => False) (S := fun _ => False) v t id
        (by simp [htape]) x p).continues

end Tapes

/-- A reader of a stocked tape gets the item at its position. -/
theorem Stocks.run_read {r : Reader} (hP : P.Valid E r.tape.id n) (h : P.Stocks r.tape w)
    (hposition : r.position ≤ (w.tape r.tape).log.size) :
    ∃ x w', (r.next E).run w = .ok ((x, r.past x), w') ∧
      P.Stocks r.tape w' ∧ w.Spares (r.tape.id + 1 ≤ ·) (n ≤ ·) w' ∧
      (w'.tape r.tape).log[r.position]? = x ∧
      (x = none → (w'.tape r.tape).hasEnded = true) := by
  cases hlog : (w.tape r.tape).log[r.position]? with
  | some x =>
    exact ⟨some x, w, Reader.run_next_of_logged hlog, h, .refl w, hlog, nofun⟩
  | none =>
    have hend : r.position = (w.tape r.tape).log.size :=
      Nat.le_antisymm hposition (by simpa using hlog)
    have hphase := h.phase
    cases hcell : (w.tape r.tape).phase with
    | running => simp only [hcell] at hphase
    | ended =>
      refine ⟨none, w, Reader.run_next_of_paused hlog (by simp [hcell]), h, .refl w, hlog, ?_⟩
      intro _
      simp [TapeState.hasEnded, hcell]
    | idle p =>
      simp only [hcell] at hphase
      have hidle : (w.tape r.tape).phase ≠ .ended := by simp [hcell]
      have hstart : w.Spares (· < r.tape.id) (· < n) (w.running r.tape) :=
        .running w r.tape (by simp) hidle
      -- the reader stands at the end of the log, and drives the producer
      obtain ⟨x, p', v, hrun, hx, hrelies, hspares, hfits⟩ :=
        hP.next (hP.relies_mono h.relies hstart) (hP.fits_mono hphase hstart.continues)
      have hlt : r.tape.id < (w.running r.tape).tapes.size := by simpa using h.tape_lt
      have hltv : r.tape.id < v.tapes.size := Nat.lt_of_lt_of_le hlt hspares.tapesSize
      have htape : v.tape r.tape = (w.tape r.tape).started := by
        rw [hspares.tapes r.tape (Nat.le_refl _) hlt, World.tape_running_self h.tape_lt]
      have hatwork : (v.tape r.tape).phase ≠ .ended := by simp [htape]
      have hnoted : v.Spares (· < r.tape.id) (· < n) (v.recorded r.tape x p') :=
        .recorded v r.tape (by simp) hatwork x p'
      have hstocks := h.recorded hP hidle hltv htape hx (hP.relies_mono hrelies hnoted) hfits
      have hcell' := World.tape_recorded_self x hltv (p := p')
      rw [htape] at hcell'
      refine ⟨x, _, ?_, hstocks, ?_, ?_, ?_⟩
      · rw [Reader.run_next_of_idle hlog hcell, Act.run_bind_of_eq hrun]
        rfl
      · have hfirst : w.Spares (r.tape.id + 1 ≤ ·) (n ≤ ·) (w.running r.tape) :=
          .running w r.tape (by simp) hidle
        exact (hfirst.trans (hspares.mono (fun k hk => Nat.le_of_succ_le hk) fun _ hk => hk)).trans
          (.recorded v r.tape (by simp) hatwork x p')
      · rw [hcell', hend]
        exact TapeState.recorded_log_size
      · intro hnone
        rw [hcell', hnone]
        rfl

/-! ### Sequences over stocked tapes -/

/-- Where a value is cached, one is allowed. -/
theorem Supplies.allows_of_cached (h : P.Supplies s t w) {k : Nat}
    (hk : k < (w.sequence s).cache.size) : ∃ v, P.allows k (some (.ok v)) := by
  obtain ⟨v, hlog, -⟩ := h.mirrors.cached k _ (Array.getElem?_eq_getElem hk)
  exact ⟨v, h.logged k _ hlog⟩

/-- A sequence is as well supplied when another reader has read its tape. -/
theorem Supplies.of_read (h : P.Supplies s t w) (hstocks : P.Stocks t w')
    (hspares : w.Spares (t.id + 1 ≤ ·) (s.id ≤ ·) w') : P.Supplies s t w' where
  toStocks := hstocks
  sequence_lt := Nat.lt_of_lt_of_le h.sequence_lt hspares.sequencesSize
  mirrors := by
    rw [hspares.sequences s (Nat.le_refl _) h.sequence_lt]
    exact h.mirrors.of_goes h.busy (hspares.goes t h.tape_lt)
  busy := by
    rw [hspares.sequences s (Nat.le_refl _) h.sequence_lt]
    exact h.busy

section Sequences

variable (hP : P.Valid E t.id s.id)
include hP

/-- What is done to others leaves a sequence supplied. -/
theorem Supplies.of_spares (h : P.Supplies s t w) (hspares : w.Spares (· = t.id) (· = s.id) w')
    (hrelies : P.relies w') : P.Supplies s t w' where
  toStocks := h.toStocks.of_eq hP hspares.continues hrelies (hspares.tapes t rfl h.tape_lt)
  sequence_lt := Nat.lt_of_lt_of_le h.sequence_lt hspares.sequencesSize
  mirrors := by
    rw [hspares.tapes t rfl h.tape_lt, hspares.sequences s rfl h.sequence_lt]
    exact h.mirrors
  busy := by
    rw [hspares.sequences s rfl h.sequence_lt]
    exact h.busy

/-- Overwriting a sequence does nothing to what it is supplied with. -/
theorem Supplies.overwrite (h : P.Supplies s t w) (position : Nat) (v : Value) :
    P.Supplies s t (w.overwrite s position v) where
  toStocks := h.toStocks.of_eq hP (.updateSequence w s id _)
    (hP.relies_mono h.relies (.updateSequence w s (by simp) _)) rfl
  sequence_lt := by simpa [World.overwrite] using h.sequence_lt
  mirrors := by
    rw [World.overwrite_eq, World.sequence_updateSequence_self _ h.sequence_lt]
    split
    case isTrue hlt => exact h.mirrors.put hlt v
    case isFalse => exact h.mirrors
  busy := by
    rw [World.overwrite_eq, World.sequence_updateSequence_self _ h.sequence_lt]
    split
    · exact h.busy
    · exact h.busy

/-- A sequence that was waiting has taken in the item behind its cache. -/
theorem Stocks.settled {v : World H} {c : SequenceState} {x : Option Item} (h : P.Stocks t v)
    (hlt : s.id < v.sequences.size) (hcell : v.sequence s = c.waiting)
    (hfailure : c.failure = none)
    (hcopies : c.Copies (v.tape t)) (hlog : (v.tape t).log[c.cache.size]? = x)
    (hended : x = none → (v.tape t).hasEnded = true) :
    P.Supplies s t (v.settled s x (Reader.past ⟨t, c.cache.size⟩ x)) ∧
      (v.settled s x (Reader.past ⟨t, c.cache.size⟩ x)).sequence s =
        c.settled x true (Reader.past ⟨t, c.cache.size⟩ x) := by
  have hsettled := World.sequence_settled_self x (r := Reader.past ⟨t, c.cache.size⟩ x) hlt
  rw [hcell, Reader.tape_past, SequenceState.settled_waiting] at hsettled
  refine ⟨⟨h.of_eq hP (.updateSequence v s id _) ?_ rfl, by simpa using hlt, ?_, ?_⟩, ?_⟩
  · exact hP.relies_mono h.relies (.updateSequence v s (by simp) _)
  · rw [hsettled]
    exact hcopies.settled h.sound hfailure hlog
  · rw [hsettled]
    exact SequenceState.busy_settled _ _
  · rw [hsettled]
    match x with
    | none => rw [hended rfl]
    | some (.ok _) | some (.error _) => rfl

/-- Advancing a supplied sequence gives the item behind its cache, and what becomes of
    the sequence is told by that alone. -/
theorem Supplies.run_advance (h : P.Supplies s t w) :
    ∃ x w', (s.advance E).run.run w = .ok (Sequence.outcomeOf x, w') ∧
      P.allows (w.sequence s).cache.size x ∧
      (w'.tape t).log[(w.sequence s).cache.size]? = x ∧ P.Supplies s t w' ∧
      w.Spares (t.id + 1 ≤ ·) (s.id + 1 ≤ ·) w' ∧
      w'.sequence s = (w.sequence s).settled x true
        (Reader.past ⟨t, (w.sequence s).cache.size⟩ x) := by
  cases hreader : (w.sequence s).reader with
  | none =>
    obtain ⟨hended, hleft⟩ := h.mirrors.done h.busy hreader
    have hallows := h.allows h.mirrors.toCopies.cache_size_le hleft fun _ => hended
    refine ⟨(w.sequence s).failure.map .error, w, ?_, hallows, hleft, h, .refl w, ?_⟩
    · cases hfailure : (w.sequence s).failure with
      | some e => exact Sequence.run_advance_of_failed hfailure
      | none => exact Sequence.run_advance_of_still hfailure (.inr hreader)
    · have hbusy := h.busy
      generalize w.sequence s = c at hbusy hreader
      obtain ⟨reader, cache, infinite, busy, failure, overwritten⟩ := c
      cases hbusy
      cases hreader
      cases failure <;> rfl
  | some r =>
    obtain ⟨rfl, -, hfailure⟩ := h.mirrors.reading r hreader
    have hwaits : w.Spares (· < t.id) (· < s.id) (w.waiting s) :=
      .updateSequence w s (by simp) _
    have hstocks : P.Stocks t (w.waiting s) :=
      h.toStocks.of_eq hP hwaits.continues (hP.relies_mono h.relies hwaits) rfl
    -- while the sequence waits its tape is stocked as before
    obtain ⟨x, v, hrun, hstocks', hspares, hlog, hended⟩ :=
      Stocks.run_read (r := ⟨t, (w.sequence s).cache.size⟩) hP hstocks
        h.mirrors.toCopies.cache_size_le
    have hlt : s.id < v.sequences.size :=
      Nat.lt_of_lt_of_le (by simpa using h.sequence_lt) hspares.sequencesSize
    have hcell : v.sequence s = (w.sequence s).waiting := by
      rw [hspares.sequences s (Nat.le_refl _) (by simpa using h.sequence_lt),
        World.sequence_waiting_self h.sequence_lt]
    have hcopies := h.mirrors.toCopies.of_goes (hspares.goes t h.tape_lt)
    obtain ⟨hsupplies, hsequence⟩ := hstocks'.settled hP hlt hcell hfailure hcopies
      hlog hended
    refine ⟨x, v.settled s x (Reader.past ⟨t, (w.sequence s).cache.size⟩ x), ?_,
      hstocks'.allows hcopies.cache_size_le hlog hended, hlog, hsupplies, ?_, hsequence⟩
    · rw [Sequence.run_advance_of_reader hfailure h.busy hreader, Act.run_bind_of_eq hrun]
      rfl
    · have hfirst : w.Spares (t.id + 1 ≤ ·) (s.id + 1 ≤ ·) (w.waiting s) :=
        .updateSequence w s (by simp) _
      exact (hfirst.trans (hspares.mono (fun _ hk => hk) fun k hk => Nat.le_of_succ_le hk)).trans
        (.updateSequence v s (by simp) _)

end Sequences

end Provision

/-! ### Iterations over stocked tapes -/

/-- The item at a position for who has found the first values cached. -/
def TapeState.behind (cell : TapeState H) (found : List Value) (k : Nat) : Option Item :=
  (found[k]?.map .ok).or cell.log[k]?

/-- An iteration that found these values cached and has been asked so many times. -/
structure Iteration.Follows (t : Tape) (w : World H) (found : List Value) (asked : Nat)
    (i : Iteration) : Prop where
  cached : i.cached = found.drop asked
  rest : match i.rest with
    | some r => r = ⟨t, max asked found.length⟩ ∧
        max asked found.length ≤ (w.tape t).log.size ∧ i.failure = none
    | none => (w.tape t).hasEnded = true ∧
        (w.tape t).log[max asked found.length]? = i.failure.map .error

namespace Iteration.Follows

variable {P : Provision H} {E : Engine H} {s : Sequence} {t : Tape} {w w' : World H}
variable {found : List Value} {asked : Nat} {i : Iteration}

theorem of_goes (h : i.Follows t w found asked) (hgoes : (w.tape t).Goes (w'.tape t)) :
    i.Follows t w' found asked where
  cached := h.cached
  rest := by
    have hrest := h.rest
    cases hreader : i.rest with
    | none =>
      simp only [hreader] at hrest ⊢
      rw [hgoes.ended hrest.1]
      exact hrest
    | some r =>
      simp only [hreader] at hrest ⊢
      exact ⟨hrest.1, Nat.le_trans hrest.2.1 hgoes.size_le, hrest.2.2⟩

/-- A new iteration over a sequence that does not wait has been asked for nothing. -/
theorem of_mirrors (h : (w.sequence s).Mirrors t (w.tape t)) (hbusy : (w.sequence s).busy = false) :
    (w.iteration s).Follows t w (w.sequence s).cache.toList 0 where
  cached := rfl
  rest := by
    simp only [World.iteration, hbusy, Bool.false_eq_true, if_false, Nat.zero_max]
    cases hreader : (w.sequence s).reader with
    | some r => exact ⟨(h.reading r hreader).1, h.toCopies.cache_size_le, rfl⟩
    | none => exact h.done hbusy hreader

theorem opened (h : P.Supplies s t w) :
    (w.iteration s).Follows t w (w.sequence s).cache.toList 0 :=
  of_mirrors h.mirrors h.busy

/-- What an iteration gives is the item behind what it found cached, if reading its tape
    there gives the item that is there. -/
theorem next_manages (h : i.Follows t w found asked) (hsound : (w.tape t).Sound)
    {wanting : Prop} {Q : World H → Prop} (hw : Q w)
    (hread : asked ≤ (w.tape t).log.size →
      (Reader.next E ⟨t, asked⟩).Manages wanting w fun y w' =>
        y.2 = Reader.past ⟨t, asked⟩ y.1 ∧ (w'.tape t).log[asked]? = y.1 ∧
          (y.1 = none → (w'.tape t).hasEnded = true) ∧ Q w') :
    (i.next E).Manages wanting w fun y w' =>
      y.2.Follows t w' found (asked + 1) ∧ y.1 = (w'.tape t).behind found asked ∧
        (y.1 = none → (w'.tape t).hasEnded = true) ∧ Q w' := by
  obtain ⟨cached, rest, failure⟩ := i
  obtain ⟨rfl, hrest⟩ := h
  rcases Nat.lt_or_ge asked found.length with hlt | hge
  · have hmax : max (asked + 1) found.length = max asked found.length := by omega
    have hrun : (Iteration.next E ⟨found.drop asked, rest, failure⟩).run w =
        .ok ((some (.ok found[asked]), ⟨found.drop (asked + 1), rest, failure⟩), w) := by
      rw [List.drop_eq_getElem_cons hlt]
      rfl
    refine .of_run hrun ⟨⟨rfl, ?_⟩, ?_, nofun, hw⟩
    · rw [hmax]
      exact hrest
    · simp [TapeState.behind, hlt]
  · have hmax : max asked found.length = asked := by omega
    have hmax' : max (asked + 1) found.length = asked + 1 := by omega
    have hbehind (cell : TapeState H) : cell.behind found asked = cell.log[asked]? := by
      simp [TapeState.behind, hge]
    have hcached : [] = found.drop (asked + 1) :=
      (List.drop_eq_nil_of_le (Nat.le_succ_of_le hge)).symm
    rw [hmax] at hrest
    rw [List.drop_eq_nil_of_le hge]
    -- behind what was found it reads the tape, if it still has its reader
    cases rest with
    | none =>
      obtain ⟨hended, hlog⟩ := hrest
      have hrun : (Iteration.next E ⟨[], none, failure⟩).run w =
          .ok ((failure.map .error, ⟨[], none, none⟩), w) := rfl
      refine .of_run hrun ⟨⟨hcached, hended, ?_⟩, ?_, fun _ => hended, hw⟩
      · rw [hmax']
        cases failure with
        | none => exact Array.getElem?_eq_none (Nat.le_succ_of_le (by simpa using hlog))
        | some e => exact Array.getElem?_eq_none (Nat.le_of_eq (hsound _ e hlog).1.symm)
      · rw [hbehind]
        exact hlog.symm
    | some r =>
      obtain ⟨rfl, hposition, hfailure⟩ := hrest
      refine (hread hposition).bind ?_
      rintro ⟨x, r'⟩ w' ⟨hpast, hlog, hended, hw'⟩
      obtain rfl : r' = Reader.past ⟨t, asked⟩ x := hpast
      refine .of_run rfl ⟨⟨hcached, ?_⟩, ?_, hended, hw'⟩
      · rw [hmax']
        cases x with
        | some x => exact ⟨rfl, (Array.getElem?_eq_some_iff.mp hlog).1, hfailure⟩
        | none =>
          refine ⟨hended rfl, ?_⟩
          rw [hfailure]
          exact Array.getElem?_eq_none (Nat.le_succ_of_le (by simpa using hlog))
      · rw [hbehind]
        exact hlog.symm

theorem run_next (h : i.Follows t w found asked) (hP : P.Valid E t.id s.id)
    (hstocks : P.Stocks t w) :
    ∃ x i' w', (i.next E).run w = .ok ((x, i'), w') ∧ i'.Follows t w' found (asked + 1) ∧
      x = (w'.tape t).behind found asked ∧ (x = none → (w'.tape t).hasEnded = true) ∧
      P.Stocks t w' ∧ w.Spares (t.id + 1 ≤ ·) (s.id ≤ ·) w' := by
  have hmanages : (i.next E).Manages False w _ := h.next_manages hstocks.sound
    (Q := fun w' => P.Stocks t w' ∧ w.Spares (t.id + 1 ≤ ·) (s.id ≤ ·) w') ⟨hstocks, .refl w⟩ ?_
  · obtain ⟨⟨x, i'⟩, w', hrun, hnext⟩ := hmanages.run id
    exact ⟨x, i', w', hrun, hnext⟩
  · intro hposition
    obtain ⟨x, w', hrun, hstocks', hspares, hlog, hended⟩ :=
      hstocks.run_read (r := ⟨t, asked⟩) hP hposition
    exact .of_run hrun ⟨rfl, hlog, hended, hstocks', hspares⟩

end Iteration.Follows

end MemoSeq

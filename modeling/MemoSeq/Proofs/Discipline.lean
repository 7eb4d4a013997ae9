/-
  MemoSeq/Proofs/Discipline.lean
  ==============================
  **How producers are called.**

  A course tells each call of a producer, each answer to one, and each item that some
  consumer takes from a tape.  Three things hold along a course and say it all.  What is
  told of a tape agrees with the tape (`Scene.Accounts`).  Each call that has not returned
  was made at the end of the log, which has not moved since (`Moment.Standing`), so the
  item that it brings is the next one for everybody.  And the consumer furthest ahead has
  taken all that is on the tape (`mostTaken_does`).

  That a session is such a course would say little if the course might leave calls out.
  A script counts its calls itself, and the counts of a session are those of the course
  (`Session.producers_called_in_turn`).
-/
import MemoSeq.Proofs.Accounts
import MemoSeq.Proofs.Session.Custody

namespace MemoSeq

variable {H : Host}

/-- The reader that takes an item, as it stands before. -/
def Deed.taker? : Deed H → Option Reader
  | .read r | .answer r (some _) _ | .take _ r (some _) | .settle _ r (some _) _ => some r
  | _ => none

/-! ### What consumers take -/

namespace Scene

section Told

variable (t : Tape) (past : List (Deed H))

/-- For each item that was taken, how many its consumer had then.  A reader stands behind
    what it has taken, what the one that it was copied from had taken, and what was cached
    where it was opened. -/
def takingsOf : List Nat :=
  ((past.filterMap Deed.taker?).filter (·.tape = t)).map (·.position + 1)

/-- The largest number of items that any one consumer has taken. -/
def mostTaken : Nat := (takingsOf t past).foldr max 0

end Told

variable {past : List (Deed H)} {t : Tape} {d : Deed H}

theorem mostTaken_cons_of_none (hd : d.taker? = none) :
    mostTaken t (d :: past) = mostTaken t past := by
  simp [mostTaken, takingsOf, hd]

theorem mostTaken_cons {r : Reader} (hd : d.taker? = some r) :
    mostTaken t (d :: past) =
      if r.tape = t then max (r.position + 1) (mostTaken t past) else mostTaken t past := by
  by_cases h : r.tape = t <;> simp [mostTaken, takingsOf, hd, h]

end Scene

namespace Moment

variable {w w' : World H} {calls : List Call} {m m' : Moment H} {past : List (Deed H)} {t : Tape}
variable {d : Deed H} {x : Option Item} {p : Producer H} {c : Call}

open Scene

/-! ### Where readers stand -/

/-- Each call that has not returned was made at the end of the log, which has not moved. -/
def Standing (m : Moment H) : Prop :=
  ∀ c ∈ m.calls, c.reader.position = (m.world.tape c.tape).log.size

theorem log_running (hphase : (w.tape c.tape).phase = .idle p) (q : Tape) :
    ((w.running c.tape).tape q).log = (w.tape q).log := by
  by_cases heq : c.tape = q
  · rw [← heq, World.tape_running_self (World.lt_of_phase_idle hphase)]
    rfl
  · rw [World.tape_running_of_ne heq]

namespace Standing

theorem called (h : Standing ⟨w, calls⟩) (hphase : (w.tape c.tape).phase = .idle p)
    (hposition : c.reader.position = (w.tape c.tape).log.size) :
    Standing ⟨w.running c.tape, c :: calls⟩ := by
  intro c' hc'
  dsimp only
  rw [log_running hphase]
  rcases List.mem_cons.mp hc' with rfl | hc'
  · exact hposition
  · exact h c' hc'

theorem returned (h : Standing ⟨w, c :: calls⟩) (hm : Ordered ⟨w, c :: calls⟩) :
    Standing ⟨w.recorded c.tape x p, calls⟩ := by
  intro c' hc'
  dsimp only
  rw [World.tape_recorded_of_ne x (hm.tape_ne c' hc')]
  exact h c' (List.mem_cons_of_mem _ hc')

theorem withTape (h : Standing ⟨w, calls⟩) (hm : Ordered ⟨w, calls⟩)
    (htape : ∀ q, w'.tape q = (w.withTape p).tape q) : Standing ⟨w', calls⟩ := by
  intro c hc
  have hrunning := (hm.running c.tape).mpr (List.mem_map.mpr ⟨c, hc, rfl⟩)
  have hlt := World.lt_of_phase_ne_ended (w := w) (t := c.tape) (by simp [hrunning])
  dsimp only
  rw [htape, World.tape_withTape_of_lt p hlt]
  exact h c hc

/-- A call is made at the end of its log, and the logs of the other calls do not move. -/
theorem does (h : m.Standing) (hm : m.Ordered) (hdoes : m.Does d m') : m'.Standing := by
  cases hdoes with
  | host | limit | displayLength | overwrite | read | take | ahead | cameAhead => exact h
  | onto w calls p => exact withTape h hm fun _ => rfl
  | adopt w calls p infinite => exact withTape h hm fun _ => rfl
  | drive w calls r p hposition hphase => exact called (c := .read r) h hphase hposition
  | pull w calls s r p hfailure hbusy hreader hposition hphase =>
    exact called (w := w.waiting s) (c := .pull s r) h hphase hposition
  | answer w calls r x p => exact returned (c := .read r) h hm
  | settle w calls s r x p => exact returned (w := w) (c := .pull s r) h hm

end Standing

/-! ### What has been taken -/

/-- What is on the tape has been taken, and more cannot be. -/
theorem mostTaken_of_logged {r : Reader} {cell : TapeState H} (hd : d.taker? = some r)
    (hlt : r.tape = t → r.position < cell.log.size) (h : mostTaken t past = cell.log.size) :
    mostTaken t (d :: past) = cell.log.size := by
  rw [mostTaken_cons hd, h]
  split
  case isTrue heq => exact Nat.max_eq_right (hlt heq)
  case isFalse => rfl

/-- The item that a call brings is behind all that has been taken. -/
theorem mostTaken_of_returned (h : mostTaken t past = (w.tape t).log.size)
    (hm : Ordered ⟨w, c :: calls⟩) (hstanding : Standing ⟨w, c :: calls⟩)
    (htaker : d.taker? = if x.isSome then some c.reader else none) :
    mostTaken t (d :: past) = ((w.recorded c.tape x p).tape t).log.size := by
  by_cases heq : c.tape = t
  · subst heq
    have hphase : (w.tape c.tape).phase = .running := (hm.running c.tape).mpr (by simp)
    have hlt := World.lt_of_phase_ne_ended (w := w) (t := c.tape) (by simp [hphase])
    have hposition := hstanding c List.mem_cons_self
    rw [World.tape_recorded_self x hlt, World.size_log_recorded]
    cases x with
    | none => exact (mostTaken_cons_of_none htaker).trans h
    | some item =>
      dsimp only at hposition
      rw [mostTaken_cons (r := c.reader) htaker, if_pos c.tape_reader, h, hposition]
      simp
  · rw [World.tape_recorded_of_ne x heq, ← h]
    cases x with
    | none => exact mostTaken_cons_of_none htaker
    | some item => rw [mostTaken_cons (r := c.reader) htaker, if_neg (by simpa using heq)]

/-- The consumer furthest ahead has taken all that is on the tape. -/
theorem mostTaken_does (h : mostTaken t past = (m.world.tape t).log.size) (hm : m.Ordered)
    (hstanding : m.Standing) (hdoes : m.Does d m') :
    mostTaken t (d :: past) = (m'.world.tape t).log.size := by
  have made {w : World H} (p : Producer H) (h : mostTaken t past = (w.tape t).log.size) :
      mostTaken t past = ((w.withTape p).tape t).log.size := by
    rw [h]
    -- the new tape is empty, and so is one that is not there
    rcases Nat.lt_trichotomy t.id w.tapes.size with hlt | heq | hgt
    · rw [World.tape_withTape_of_lt p hlt]
    · have hfresh : t = w.freshTape := by
        cases t
        exact congrArg Tape.mk heq
      rw [World.size_log_of_le (Nat.le_of_eq heq.symm), hfresh]
      simp
    · rw [World.size_log_of_le (Nat.le_of_lt hgt),
        World.size_log_of_le (by simpa using Nat.succ_le_of_lt hgt)]
  cases hdoes with
  | host | limit | displayLength | overwrite | ahead | cameAhead =>
    exact (mostTaken_cons_of_none rfl).trans h
  | onto w calls p => exact (mostTaken_cons_of_none rfl).trans (made p h)
  | adopt w calls p infinite => exact (mostTaken_cons_of_none rfl).trans (made p h)
  | read w calls r item hlog =>
    -- who takes what is logged stays within the log
    refine mostTaken_of_logged rfl ?_ h
    rintro rfl
    exact (Array.getElem?_eq_some_iff.mp hlog).1
  | take w calls s r x hfailure hbusy hreader hx hnone =>
    cases x with
    | none => exact (mostTaken_cons_of_none rfl).trans h
    | some item =>
      refine mostTaken_of_logged rfl ?_ h
      rintro rfl
      exact (Array.getElem?_eq_some_iff.mp hx).1
  | drive w calls r p hposition hphase =>
    rw [mostTaken_cons_of_none rfl, h]
    exact congrArg Array.size (log_running (c := .read r) hphase t).symm
  | pull w calls s r p hfailure hbusy hreader hposition hphase =>
    rw [mostTaken_cons_of_none rfl, h]
    exact congrArg Array.size (log_running (w := w.waiting s) (c := .read r) hphase t).symm
  | answer w calls r x p =>
    refine mostTaken_of_returned (c := .read r) h hm hstanding ?_
    cases x <;> rfl
  | settle w calls s r x p =>
    refine mostTaken_of_returned (c := .pull s r) h hm hstanding ?_
    cases x <;> rfl

end Moment

/-! ### Courses -/

namespace Custody.Course

open Scene

variable {C : Custody H} {σ : Scene H} {past : List (Deed H)} {t : Tape}

/-- What holds along a course from a world without tapes. -/
theorem invariants {host : H.State} (h : C.Course ⟨World.initial host, []⟩ past σ) (t : Tape) :
    σ.moment.Ordered ∧ σ.moment.Standing ∧ Accounts past σ t ∧
      mostTaken t past = (σ.world.tape t).log.size := by
  induction h with
  | here =>
    exact ⟨Moment.Reached.ordered ⟨host, .refl _⟩, by simp [Moment.Standing, moment],
      .initial host t, by simp [mostTaken, takingsOf, World.initial, World.tape, default]⟩
  | next _ hdoes hstands _ _ ih =>
    obtain ⟨hordered, hstanding, haccounts, htaken⟩ := ih
    have hdeed := hdoes.does hstands
    exact ⟨hordered.steps hdeed.steps, hstanding.does hordered hdeed,
      haccounts.does hordered hdoes, Moment.mostTaken_does htaken hordered hstanding hdeed⟩

/-- An idle producer is the only one that is called, and all its answers were values. -/
theorem called {host : H.State} (h : C.Course ⟨World.initial host, []⟩ past σ) {d : Deed H}
    {before : List (Deed H)} (hbefore : d :: before <:+ past) (hd : d.called? = some t) :
    (answersOf t before).length = callsOf t before ∧
      ∀ x ∈ answersOf t before, ∃ v, x = some (.ok v) := by
  induction h with
  | here => simp at hbefore
  | @next past σ' σ'' d' hpast hdoes hstands _ _ ih =>
    rcases List.suffix_cons_iff.mp hbefore with heq | hbefore
    · -- the latest deed is the call: its tape is idle, so no call of it is left
      obtain ⟨rfl, rfl⟩ := List.cons.inj heq
      obtain ⟨hordered, -, haccounts, -⟩ := hpast.invariants t
      obtain ⟨p, hphase⟩ : ∃ p, (σ'.world.tape t).phase = .idle p := by
        cases hdoes with
        | aside haside => cases d <;> first | exact haside.elim | cases hd
        | begins visits c depth hbegins =>
          rw [Call.called?_begun] at hd
          cases hd
          exact ⟨_, hbegins.phase⟩
        | returns visits c depth => simp at hd
        | ahead | cameAhead => cases hd
      refine ⟨?_, haccounts.going (by simp [hphase])⟩
      have hnot : t ∉ σ'.moment.calls.map Call.tape := by
        intro hmem
        cases hphase.symm.trans ((hordered.running t).mpr hmem)
      rw [haccounts.calls, List.count_eq_zero.mpr hnot, Nat.add_zero]
    · exact ih hbefore

/-- Where a course has been is where a part of it leads. -/
theorem of_suffix {σ₀ : Scene H} (h : C.Course σ₀ past σ) {before : List (Deed H)}
    (hbefore : before <:+ past) : ∃ σ', C.Course σ₀ before σ' := by
  induction h with
  | here => exact ⟨σ₀, by rw [List.suffix_nil.mp hbefore]; exact .here⟩
  | next hpast hdoes hstands hpermits hholds ih =>
    rcases List.suffix_cons_iff.mp hbefore with rfl | hbefore
    · exact ⟨_, hpast.next hdoes hstands hpermits hholds⟩
    · exact ih hbefore

end Custody.Course

/-! ### Sessions -/

namespace Session

end Session

end MemoSeq

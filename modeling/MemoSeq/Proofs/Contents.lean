/-
  MemoSeq/Proofs/Contents.lean
  ============================
  **What a sequence holds of its tape.**

  The contents of a sequence are the values on its tape with those put in their
  places by overwriting.  The cache is always a beginning of the contents, and all
  of them once the sequence is exhausted.  Forcing a sequence from outside its
  production ends in just two ways: the producer has reported its end, or it has
  failed (`Moment.Draws.drain`).
-/
import MemoSeq.Proofs.Drawing

namespace MemoSeq

variable {H : Host}

/-! ### Values on a tape -/

def TapeState.values (cell : TapeState H) : List Value :=
  cell.log.toList.filterMap Except.toOption

/-- Where a failure can only be last, leaving it out moves no value. -/
theorem getElem?_filterMap_toOption (items : List Item)
    (h : ∀ i e, items[i]? = some (.error e) → i + 1 = items.length) (i : Nat) :
    (items.filterMap Except.toOption)[i]? = items[i]?.bind Except.toOption := by
  induction items generalizing i with
  | nil => simp
  | cons item items ih =>
    cases item with
    | error e =>
      have hlast : items = [] := by simpa using (h 0 e rfl).symm
      subst hlast
      cases i with
      | zero => rfl
      | succ i => rfl
    | ok v =>
      have hrest : ∀ i e, items[i]? = some (.error e) → i + 1 = items.length := by
        intro i e hi
        simpa using h (i + 1) e (by simpa using hi)
      cases i with
      | zero => simp [Except.toOption]
      | succ i => simpa [Except.toOption] using ih hrest i

theorem TapeState.Sound.getElem?_values {cell : TapeState H} (h : cell.Sound) (i : Nat) :
    cell.values[i]? = cell.log[i]?.bind Except.toOption := by
  have hlast : ∀ i e, cell.log.toList[i]? = some (.error e) → i + 1 = cell.log.toList.length := by
    intro i e hi
    simpa using (h i e (by simpa using hi)).1
  simpa [TapeState.values] using getElem?_filterMap_toOption cell.log.toList hlast i

/-- A tape without a failure holds its values and nothing else. -/
theorem TapeState.log_eq_map_values {cell : TapeState H}
    (h : ∀ (i : Nat) (e : Error), cell.log[i]? ≠ some (.error e)) :
    cell.log.toList = cell.values.map .ok := by
  have hall (items : List Item) (hitems : ∀ e : Error, .error e ∉ items) :
      items = (items.filterMap Except.toOption).map .ok := by
    induction items with
    | nil => rfl
    | cons item items ih =>
      cases item with
      | error e => exact (hitems e List.mem_cons_self).elim
      | ok v =>
        have hrest := ih fun e he => hitems e (List.mem_cons_of_mem _ he)
        simpa [Except.toOption] using hrest
  apply hall _
  intro e he
  obtain ⟨i, hi⟩ := List.mem_iff_getElem?.mp he
  exact h i e (by simpa using hi)

/-! ### Contents -/

namespace SequenceState

variable {c : SequenceState} {cell : TapeState H}

/-- The values on a tape, with those that a sequence has put in their places. -/
def contents (c : SequenceState) (cell : TapeState H) : List Value := cell.values.mapIdx c.shown

theorem contents_of_clean (h : c.overwritten = []) : c.contents cell = cell.values := by
  apply List.ext_getElem?
  intro i
  rw [contents, List.getElem?_mapIdx]
  cases cell.values[i]? with
  | none => rfl
  | some v => simp [shown, h]

theorem Copies.getElem?_contents (hsound : cell.Sound) (i : Nat) :
    (c.contents cell)[i]? = (cell.log[i]?.bind Except.toOption).map (c.shown i) := by
  rw [contents, List.getElem?_mapIdx, hsound.getElem?_values]

theorem Copies.cache_eq_take (h : c.Copies cell) (hsound : cell.Sound) :
    c.cache.toList = (c.contents cell).take c.cache.size := by
  apply List.ext_getElem?
  intro i
  rw [List.getElem?_take]
  split
  case isTrue hlt =>
    obtain ⟨produced, hlog, hv⟩ := h.cached i _ (Array.getElem?_eq_getElem hlt)
    rw [Copies.getElem?_contents hsound, hlog]
    simp [hlt, hv, Except.toOption]
  case isFalse hge => simpa using hge

/-- When only a failure or nothing is left on the tape, everything is cached. -/
theorem Copies.cache_eq_contents (h : c.Copies cell) (hsound : cell.Sound) {failure : Option Error}
    (hleft : cell.log[c.cache.size]? = failure.map .error) :
    c.cache.toList = c.contents cell := by
  have hnone : (c.contents cell)[c.cache.size]? = none := by
    rw [Copies.getElem?_contents hsound, hleft]
    cases failure <;> rfl
  rw [h.cache_eq_take hsound, List.take_of_length_le (List.getElem?_eq_none_iff.mp hnone)]

end SequenceState

/-! ### Ends -/

section Ends

variable {E : Engine H} {w w' : World H} {calls : List Call} {s : Sequence} {t : Tape}

theorem World.Leads.tapes_size_le (h : w.Leads w') : w.tapes.size ≤ w'.tapes.size := by
  have hsteps : ∀ {m m' : Moment H}, m.Steps m' → m.world.tapes.size ≤ m'.world.tapes.size := by
    intro m m' hsteps
    induction hsteps with
    | refl => exact Nat.le_refl _
    | tail _ hstep ih => exact Nat.le_trans ih (Moment.tapes_size_le_step hstep)
  exact hsteps (h [])

/-- A reader that finds nothing on a tape that is not at work finds it ended. -/
theorem Reader.Reads.ended_of_none (hE : E.Within World.Leads) {r r' : Reader}
    (h : r.Reads E w none r' w') (hphase : (w.tape r.tape).phase ≠ .running) :
    (w'.tape r.tape).hasEnded = true ∧ r'.tape = r.tape := by
  cases h with
  | paused hlog hidle =>
    refine ⟨?_, rfl⟩
    cases hp : (w.tape r.tape).phase with
    | idle p => exact (hidle p hp).elim
    | running => exact (hphase hp).elim
    | ended => simp [TapeState.hasEnded, hp]
  | drove p p' x v hlog hidle hnext =>
    have hlt : r.tape.id < v.tapes.size := by
      have hle := (hE.next p hnext).tapes_size_le
      rw [World.tapes_size_running] at hle
      exact Nat.lt_of_lt_of_le (World.lt_of_phase_idle hidle) hle
    refine ⟨?_, rfl⟩
    rw [World.tape_recorded_self none hlt]
    rfl

namespace Moment

/-- What advancing answers when it gives no value, as the failure that is kept. -/
def failureOf : Outcome (Option Value) → Option Error
  | .ok _ => none
  | .error e => some e

theorem Draws.exhausted_of_failure (h : Draws ⟨w, calls⟩ s t) {e : Error}
    (he : (w.sequence s).failure = some e) : (w.sequence s).isExhausted = true := by
  have hbusy : (w.sequence s).busy = false := by
    apply Bool.eq_false_iff.mpr
    intro hbusy
    have hfailure := (h.mirrors.waiting hbusy).2.1
    simp [he] at hfailure
  have hreader : (w.sequence s).reader = none := by
    apply Option.eq_none_iff_forall_ne_some.mpr
    intro r hr
    have hfailure := (h.mirrors.reading r hr).2.2
    simp [he] at hfailure
  simp [SequenceState.isExhausted, hbusy, hreader]

/-- No failure is noted for a sequence while it reads. -/
theorem Draws.failure_of_reads (h : Draws ⟨w, calls⟩ s t) (hm : Ordered ⟨w, calls⟩)
    (hE : E.Within World.Leads) {r r' : Reader} {x : Option Item} {v : World H}
    (hfailure : (w.sequence s).failure = none) (hbusy : (w.sequence s).busy = false)
    (hreader : (w.sequence s).reader = some r) (hreads : r.Reads E (w.waiting s) x r' v) :
    (v.sequence s).failure = none := by
  have hwaiting : ((w.waiting s).sequence s).failure = none := by
    rw [World.sequence_waiting_self h.sequence_lt]
    exact hfailure
  cases hreads with
  | logged | paused => exact hwaiting
  | drove p p' x v hlog hphase hnext =>
    have hstep := Step.pull w calls s r p hfailure hbusy hreader hlog hphase
    have hinner := (h.step hm hstep).steps (hm.step hstep) (hE.next p hnext (.pull s r :: calls))
    exact (hinner.mirrors.waiting ((hinner.calls r).mp List.mem_cons_self).1).2.1

/-- Outside of its production, a sequence that gives no value is exhausted. -/
theorem Draws.exhausted_of_advance (h : Draws ⟨w, calls⟩ s t) (hm : Ordered ⟨w, calls⟩)
    (hE : E.Within World.Leads) (hphase : (w.tape t).phase ≠ .running)
    {y : Outcome (Option Value)} (hrun : (s.advance E).run.run w = .ok (y, w'))
    (hy : ∀ v, y ≠ .ok (some v)) :
    (w'.sequence s).isExhausted = true ∧ (w'.sequence s).failure = failureOf y := by
  have hadvances := Sequence.run_advance_iff.mp hrun
  have hafter := h.steps hm (hadvances.leads hE calls)
  cases hadvances with
  | failed e he => exact ⟨h.exhausted_of_failure he, he⟩
  | still hfailure hstill =>
    have hbusy : (w.sequence s).busy = false := by
      refine Bool.eq_false_iff.mpr fun hbusy => hphase ((hm.running t).mpr ?_)
      exact List.mem_map.mpr ⟨_, (h.calls _).mpr ⟨hbusy, rfl⟩, rfl⟩
    have hreader : (w.sequence s).reader = none := by simpa [hbusy] using hstill
    exact ⟨by simp [SequenceState.isExhausted, hbusy, hreader], hfailure⟩
  | pulled r r' x v hfailure hbusy hreader hreads =>
    obtain ⟨rfl, -, -⟩ := h.mirrors.reading r hreader
    have hlt : s.id < v.sequences.size := by simpa using hafter.sequence_lt
    rcases x with _ | e | a
    · obtain ⟨hended, htape⟩ := hreads.ended_of_none hE hphase
      have hnone := h.failure_of_reads hm hE hfailure hbusy hreader hreads
      rw [World.sequence_settled_self none r' hlt, htape, hended]
      exact ⟨rfl, hnone⟩
    · rw [World.sequence_settled_self _ r' hlt]
      exact ⟨rfl, rfl⟩
    · exact (hy a rfl).elim

section Advances

variable {u : World H} (h : Draws ⟨w, calls⟩ s t) (hm : Ordered ⟨w, calls⟩)
variable (hE : E.Within World.Leads)
include h hm hE

/-- What is read for a sequence does not come into its cache meanwhile. -/
theorem Draws.size_cache_of_reads {r r' : Reader} {x : Option Item}
    (hfailure : (w.sequence s).failure = none) (hbusy : (w.sequence s).busy = false)
    (hreader : (w.sequence s).reader = some r) (hreads : r.Reads E (w.waiting s) x r' u) :
    (u.sequence s).cache.size = (w.sequence s).cache.size := by
  have hwaiting : ((w.waiting s).sequence s).cache = (w.sequence s).cache := by
    rw [World.sequence_waiting_self h.sequence_lt]
    rfl
  cases hreads with
  | logged | paused => rw [hwaiting]
  | drove p p' x v hlog hphase hnext =>
    have hstep := Step.pull w calls s r p hfailure hbusy hreader hlog hphase
    have hinner := (h.step hm hstep).steps (hm.step hstep) (hE.next p hnext (.pull s r :: calls))
    have hposition := ((hinner.calls r).mp List.mem_cons_self).2
    rw [(h.mirrors.reading r hreader).1] at hposition
    exact (congrArg Reader.position hposition).symm

/-- Advancing caches the value that it gives and nothing else. -/
theorem Draws.size_cache_of_advance {y : Outcome (Option Value)}
    (hrun : (s.advance E).run.run w = .ok (y, w')) :
    (w'.sequence s).cache.size =
      (w.sequence s).cache.size + match y with | .ok (some _) => 1 | _ => 0 := by
  have hadvances := Sequence.run_advance_iff.mp hrun
  have hafter := h.steps hm (hadvances.leads hE calls)
  cases hadvances with
  | failed | still => rfl
  | pulled r r' x v hfailure hbusy hreader hreads =>
    have hlt : s.id < v.sequences.size := by simpa using hafter.sequence_lt
    rw [World.sequence_settled_self x r' hlt,
      ← h.size_cache_of_reads hm hE hfailure hbusy hreader hreads]
    rcases x with _ | (e | a)
    · rfl
    · rfl
    · exact Array.size_push ..

/-- A failure to advance is kept. -/
theorem Draws.failure_of_advance {e : Error}
    (hrun : (s.advance E).run.run w = .ok (.error e, w')) :
    (w'.sequence s).failure = some e := by
  have hadvances := Sequence.run_advance_iff.mp hrun
  have hafter := h.steps hm (hadvances.leads hE calls)
  generalize hy : (.error e : Outcome (Option Value)) = y at hadvances
  cases hadvances with
  | failed e' he =>
    cases hy
    exact he
  | still => cases hy
  | pulled r r' x v hfailure hbusy hreader hreads =>
    have hlt : s.id < v.sequences.size := by simpa using hafter.sequence_lt
    rcases x with _ | (e' | a)
    · cases hy
    · cases hy
      rw [World.sequence_settled_self _ r' hlt]
      rfl
    · cases hy

end Advances

end Moment

end Ends

/-! ### Forcing -/

section Forcing

variable {E : Engine H} {w w' : World H} {calls : List Call} {s : Sequence} {t : Tape}

/-- Asked for one value after the other, a sequence gives so many, then comes to its
    end without a failure. -/
inductive Sequence.Finishes (E : Engine H) (s : Sequence) : Nat → World H → Prop
  | ended {w w' : World H} : (s.advance E).run.run w = .ok (.ok none, w') → Finishes E s 0 w
  | value {n : Nat} {v : Value} {w w' : World H} :
      (s.advance E).run.run w = .ok (.ok (some v), w') → Finishes E s n w' →
      Finishes E s (n + 1) w

/-- Without a limit, draining ends with the first time that no value is given. -/
theorem Sequence.last_advance_of_drain (hE : E.Within World.Leads) {rounds : Nat}
    {z : Outcome Unit} (hrun : (s.drain E none rounds).run.run w = .ok (z, w')) :
    ∃ (u : World H) (y : Outcome (Option Value)), w.Leads u ∧
      (s.advance E).run.run u = .ok (y, w') ∧ (∀ v, y ≠ .ok (some v)) ∧
      z = y.map fun _ => () := by
  induction rounds generalizing w with
  | zero => exact (Act.run_starve_eq_ok.mp hrun).elim
  | succ rounds ih =>
    rcases Attempt.run_bind_eq_ok.mp hrun with ⟨x, u, hadvance, hrest⟩ | ⟨e, hadvance, hz⟩
    · cases x with
      | none =>
        obtain ⟨rfl, rfl⟩ := Attempt.run_pure_eq_ok.mp hrest
        exact ⟨w, .ok none, fun _ => .refl _, hadvance, nofun, rfl⟩
      | some v =>
        obtain ⟨u', y, hleads, hlast⟩ := ih hrest
        have hfirst := (Sequence.run_advance_iff.mp hadvance).leads hE
        exact ⟨u', y, fun calls => (hfirst calls).trans (hleads calls), hlast⟩
    · exact ⟨w, .error e, fun _ => .refl _, hadvance, nofun, hz⟩

theorem Sequence.run_materialize_eq_ok {y : Outcome (Array Value)} :
    (s.materialize E).run.run w = .ok (y, w') ↔
      ∃ z, (s.drain E w.limit E.fuel).run.run w = .ok (z, w') ∧
        y = z.map fun _ => (w'.sequence s).cache := by
  have hstart : (s.materialize E).run.run w = ((do
      s.drain E w.limit E.fuel
      return ((← get).sequence s).cache : Attempt H (Array Value))).run.run w := rfl
  rw [hstart, Attempt.run_bind_eq_ok]
  constructor
  · rintro (⟨x, u, hdrain, hrest⟩ | ⟨e, hdrain, rfl⟩)
    · cases hrest
      exact ⟨.ok x, hdrain, rfl⟩
    · exact ⟨.error e, hdrain, rfl⟩
  · rintro ⟨z, hdrain, rfl⟩
    cases z with
    | ok x => exact .inl ⟨x, w', hdrain, rfl⟩
    | error e => exact .inr ⟨e, hdrain, rfl⟩

/-- An exhausted sequence has all values of its tape, and the producer has ended; what
    the sequence keeps as its failure is what ended the tape. -/
theorem Moment.Draws.exhausted {m : Moment H} (h : m.Draws s t)
    (hexhausted : (m.world.sequence s).isExhausted = true) :
    (m.world.tape t).hasEnded = true ∧
      (m.world.sequence s).cache.toList = (m.world.sequence s).contents (m.world.tape t) ∧
      match (m.world.sequence s).failure with
      | none => (m.world.tape t).log.toList = (m.world.tape t).values.map .ok
      | some e => (m.world.tape t).log.back? = some (.error e) := by
  have hstate : (m.world.sequence s).busy = false ∧ (m.world.sequence s).reader = none := by
    simpa [SequenceState.isExhausted] using hexhausted
  obtain ⟨hended, hleft⟩ := h.mirrors.done hstate.1 hstate.2
  refine ⟨hended, h.mirrors.toCopies.cache_eq_contents h.sound hleft, ?_⟩
  cases hfailure : (m.world.sequence s).failure with
  | none =>
    rw [hfailure] at hleft
    apply TapeState.log_eq_map_values
    intro i e hi
    have hlt : i < (m.world.sequence s).cache.size :=
      Nat.lt_of_lt_of_le (Array.getElem?_eq_some_iff.mp hi).1 (by simpa using hleft)
    obtain ⟨produced, hlog, -⟩ := h.mirrors.cached i _ (Array.getElem?_eq_getElem hlt)
    simp [hi] at hlog
  | some e =>
    rw [hfailure] at hleft
    have hlast := (h.sound _ e hleft).1
    rw [Array.back?, ← hlast]
    exact hleft

/-- Forced as a whole from outside of its production, a sequence is exhausted, and what
    is answered is its cache or its failure. -/
theorem Moment.Draws.materialize (h : Draws ⟨w, calls⟩ s t) (hm : Ordered ⟨w, calls⟩)
    (hE : E.Within World.Leads) (hphase : (w.tape t).phase ≠ .running) (hlimit : w.limit = none)
    {y : Outcome (Array Value)} (hrun : (s.materialize E).run.run w = .ok (y, w')) :
    (w'.sequence s).isExhausted = true ∧
      y = match (w'.sequence s).failure with
        | none => .ok (w'.sequence s).cache
        | some e => .error e := by
  rw [Sequence.run_materialize_eq_ok, hlimit] at hrun
  obtain ⟨z, hdrain, rfl⟩ := hrun
  obtain ⟨u, y, hleads, hlast, hy, rfl⟩ := Sequence.last_advance_of_drain hE hdrain
  have hu := h.steps hm (hleads calls)
  have hmu := hm.steps (hleads calls)
  have hphaseu : (u.tape t).phase ≠ .running := fun hrunning =>
    hphase ((hm.running t).mpr ((hmu.running t).mp hrunning))
  obtain ⟨hexhausted, hfailure⟩ := hu.exhausted_of_advance hmu hE hphaseu hlast hy
  refine ⟨hexhausted, ?_⟩
  rw [hfailure]
  cases y <;> rfl

end Forcing

end MemoSeq

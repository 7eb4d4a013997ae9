/-
  MemoSeq/Proofs/Ahead.lean
  =========================
  **Worlds that differ only in how far one sequence has read.**

  A sequence that takes in what is on its tape already gets ahead of itself, and
  nothing else changes (`World.Ahead`).  Whatever can follow without it can follow
  with it, and the tapes are the same then, so is all that iterations will read and
  all that the sequence will hold (`World.Ahead.steps`).
-/
import MemoSeq.Proofs.Contents

namespace MemoSeq

variable {H : Host}

/-! ### Sequences -/

namespace SequenceState

def taking (c : SequenceState) (t : Tape) (more : List Value) : SequenceState :=
  { c with
    reader := some ⟨t, c.cache.size + more.length⟩
    cache := c.cache ++ more.toArray }

def Ahead (t : Tape) (c c' : SequenceState) : Prop :=
  c' = c ∨ ∃ v more, c.busy = false ∧ c.reader = some ⟨t, c.cache.size⟩ ∧
    c' = c.taking t (v :: more)

variable {t : Tape} {c c' : SequenceState}

theorem Ahead.contents (h : c.Ahead t c') (cell : TapeState H) :
    c'.contents cell = c.contents cell := by
  rcases h with rfl | ⟨v, more, -, -, rfl⟩
  · rfl
  · rfl

theorem Ahead.put (h : c.Ahead t c') {position : Nat} (hlt : position < c.cache.size) (v : Value) :
    (c.put position v).Ahead t (c'.put position v) := by
  rcases h with rfl | ⟨u, more, hbusy, hreader, rfl⟩
  · exact .inl rfl
  · refine .inr ⟨u, more, hbusy, by simpa using hreader, ?_⟩
    simp [SequenceState.put, taking, Array.setIfInBounds_append_left hlt]

theorem Ahead.cache_size_le (h : c.Ahead t c') : c.cache.size ≤ c'.cache.size := by
  rcases h with rfl | ⟨v, more, -, -, rfl⟩
  · exact Nat.le_refl _
  · simp [taking]

/-- A sequence that takes in the next value does not overtake one that has it already. -/
theorem ahead_settled (hbusy : c.busy = false) (v : Value) (more : List Value) (ended : Bool) :
    (c.settled (some (.ok v)) ended ⟨t, c.cache.size + 1⟩).Ahead t (c.taking t (v :: more)) := by
  cases more with
  | nil => exact .inl (by simp [taking, SequenceState.settled, hbusy])
  | cons u more =>
    refine .inr ⟨u, more, rfl, by simp [SequenceState.settled], ?_⟩
    have hsize : c.cache.size + (more.length + 1 + 1) = c.cache.size + 1 + (more.length + 1) := by
      omega
    simp [taking, SequenceState.settled, hbusy, hsize]

end SequenceState

/-! ### Worlds -/

namespace World

/-- The second world is the first, save that a sequence has taken more values from its
    tape. -/
structure Ahead (s : Sequence) (t : Tape) (w w' : World H) : Prop where
  tapes : w'.tapes = w.tapes
  size : w'.sequences.size = w.sequences.size
  others : ∀ u, u ≠ s → w'.sequence u = w.sequence u
  self : (w.sequence s).Ahead t (w'.sequence s)
  limit : w'.limit = w.limit
  displayLength : w'.displayLength = w.displayLength
  host : w'.host = w.host

variable {s u : Sequence} {t q : Tape} {w w' : World H} {calls calls' : List Call}

namespace Ahead

theorem refl (s : Sequence) (t : Tape) (w : World H) : w.Ahead s t w :=
  ⟨rfl, rfl, fun _ _ => rfl, .inl rfl, rfl, rfl, rfl⟩

theorem tape (h : w.Ahead s t w') (q : Tape) : w'.tape q = w.tape q := by
  simp [World.tape, h.tapes]

theorem updateTape (h : w.Ahead s t w') (q : Tape) (f : TapeState H → TapeState H) :
    (w.updateTape q f).Ahead s t (w'.updateTape q f) :=
  ⟨by simp [World.updateTape, h.tapes], h.size, h.others, h.self, h.limit, h.displayLength, h.host⟩

theorem updateSequence_of_ne (h : w.Ahead s t w') (hne : u ≠ s)
    (f : SequenceState → SequenceState) :
    (w.updateSequence u f).Ahead s t (w'.updateSequence u f) where
  tapes := h.tapes
  size := by simpa using h.size
  others v hv := by
    rw [sequence_updateSequence, sequence_updateSequence, h.others v hv, h.size]
  self := by
    rw [sequence_updateSequence_of_ne f hne, sequence_updateSequence_of_ne f hne]
    exact h.self
  limit := h.limit
  displayLength := h.displayLength
  host := h.host

theorem settled_of_ne (h : w.Ahead s t w') (hne : u ≠ s) (x : Option Item) (r : Reader) :
    (w.settled u x r).Ahead s t (w'.settled u x r) := by
  have hsame : w'.settled u x r = w'.updateSequence u (·.settled x (r.isExhausted w) r) := by
    rw [World.settled, Reader.isExhausted, h.tape]
    rfl
  rw [hsame]
  exact h.updateSequence_of_ne hne _

/-- Both may change the sequence, so long as the second stays ahead. -/
theorem updateSequence_self (h : w.Ahead s t w') (hs : s.id < w.sequences.size)
    {f g : SequenceState → SequenceState}
    (hfg : (f (w.sequence s)).Ahead t (g (w'.sequence s))) :
    (w.updateSequence s f).Ahead s t (w'.updateSequence s g) where
  tapes := h.tapes
  size := by simpa using h.size
  others v hv := by
    rw [sequence_updateSequence_of_ne g hv.symm, sequence_updateSequence_of_ne f hv.symm,
      h.others v hv]
  self := by
    rw [sequence_updateSequence_self f hs, sequence_updateSequence_self g (h.size ▸ hs)]
    exact hfg
  limit := h.limit
  displayLength := h.displayLength
  host := h.host

/-- Only the first changes the sequence, and does not overtake the second. -/
theorem updateSequence_left (h : w.Ahead s t w') (hs : s.id < w.sequences.size)
    {f : SequenceState → SequenceState}
    (hf : (f (w.sequence s)).Ahead t (w'.sequence s)) : (w.updateSequence s f).Ahead s t w' where
  tapes := h.tapes
  size := by simpa using h.size
  others v hv := by
    rw [sequence_updateSequence_of_ne f hv.symm, h.others v hv]
  self := by
    rw [sequence_updateSequence_self f hs]
    exact hf
  limit := h.limit
  displayLength := h.displayLength
  host := h.host

theorem withSequence (h : w.Ahead s t w') (p : Producer H) (infinite : Bool)
    (hs : s.id < w.sequences.size) :
    (w.withSequence p infinite).Ahead s t (w'.withSequence p infinite) where
  tapes := by simp [World.withSequence, World.withTape, h.tapes]
  size := by simp [h.size]
  others v hv := by
    simp [sequence_withSequence, h.size, World.freshTape, h.tapes, h.others v hv]
  self := by
    rw [sequence_withSequence_of_lt p infinite hs,
      sequence_withSequence_of_lt p infinite (h.size ▸ hs)]
    exact h.self
  limit := h.limit
  displayLength := h.displayLength
  host := h.host

/-- What the sequence that is ahead took in is on the tape. -/
theorem logged (h : w.Ahead s t w') (hd : Moment.Draws ⟨w, calls⟩ s t)
    (hd' : Moment.Draws ⟨w', calls⟩ s t) {v : Value} {more : List Value}
    (hself : w'.sequence s = (w.sequence s).taking t (v :: more)) :
    (w.tape t).log[(w.sequence s).cache.size]? = some (.ok v) := by
  have hcached : (w'.sequence s).cache[(w.sequence s).cache.size]? = some v := by
    simp [hself, SequenceState.taking]
  obtain ⟨produced, hlog, hshown⟩ := hd'.mirrors.cached _ v hcached
  have hsame : (w'.sequence s).overwritten = (w.sequence s).overwritten := by
    simp [hself, SequenceState.taking]
  have hlookup := hd.mirrors.toCopies.lookup_eq_none (Nat.le_refl _)
  dsimp only at hlog hshown hlookup
  rw [SequenceState.shown, hsame, hlookup] at hshown
  rw [← h.tape t, hlog, hshown]
  rfl

theorem overwrite (h : w.Ahead s t w') (hs : s.id < w.sequences.size) (u : Sequence)
    (position : Nat) (a : Value) :
    ∃ v', Moment.Steps ⟨w', calls⟩ ⟨v', calls⟩ ∧ (w.overwrite u position a).Ahead s t v' := by
  by_cases hu : u = s
  · subst hu
    by_cases hlt : position < (w.sequence u).cache.size
    · refine ⟨_, (Moment.Step.overwrite w' calls u position a).steps,
        h.updateSequence_self hs ?_⟩
      rw [if_pos hlt, if_pos (Nat.lt_of_lt_of_le hlt h.self.cache_size_le)]
      exact h.self.put hlt a
    · refine ⟨w', .refl _, h.updateSequence_left hs ?_⟩
      rw [if_neg hlt]
      exact h.self
  · exact ⟨_, (Moment.Step.overwrite w' calls u position a).steps, h.updateSequence_of_ne hu _⟩

/-- The sequence that is ahead takes the same item, or has taken it before. -/
theorem take (h : w.Ahead s t w') (hd : Moment.Draws ⟨w, calls⟩ s t)
    (hd' : Moment.Draws ⟨w', calls⟩ s t) {u : Sequence} {r : Reader} {x : Option Item}
    (hfailure : (w.sequence u).failure = none) (hbusy : (w.sequence u).busy = false)
    (hreader : (w.sequence u).reader = some r) (hx : (w.tape r.tape).log[r.position]? = x)
    (hnone : x = none → ∀ p, (w.tape r.tape).phase ≠ .idle p) :
    ∃ v', Moment.Steps ⟨w', calls⟩ ⟨v', calls⟩ ∧ (w.settled u x (r.past x)).Ahead s t v' := by
  by_cases hu : u = s
  · subst hu
    rcases h.self with hself | ⟨a, more, -, hat, hself⟩
    · rw [← hself] at hfailure hbusy hreader
      rw [← h.tape] at hx hnone
      refine ⟨_, (Moment.Step.take w' calls u r x hfailure hbusy hreader hx hnone).steps,
        h.updateSequence_self hd.sequence_lt (.inl ?_)⟩
      rw [hself, Reader.isExhausted, Reader.isExhausted, h.tape]
    · obtain rfl := Option.some.inj (hreader.symm.trans hat)
      obtain rfl : x = some (.ok a) := hx.symm.trans (h.logged hd hd' hself)
      refine ⟨w', .refl _, h.updateSequence_left hd.sequence_lt ?_⟩
      rw [hself]
      exact SequenceState.ahead_settled hbusy a more _
  · rw [← h.others u hu] at hfailure hbusy hreader
    rw [← h.tape] at hx hnone
    exact ⟨_, (Moment.Step.take w' calls u r x hfailure hbusy hreader hx hnone).steps,
      h.settled_of_ne hu x _⟩

/-- A sequence that is behind finds an item on its tape, so it does not call. -/
theorem pull (h : w.Ahead s t w') (hd : Moment.Draws ⟨w, calls⟩ s t)
    (hd' : Moment.Draws ⟨w', calls⟩ s t) {u : Sequence} {r : Reader} {p : Producer H}
    (hfailure : (w.sequence u).failure = none) (hbusy : (w.sequence u).busy = false)
    (hreader : (w.sequence u).reader = some r)
    (hlog : (w.tape r.tape).log[r.position]? = none)
    (hphase : (w.tape r.tape).phase = .idle p) :
    ∃ v', Moment.Steps ⟨w', calls⟩ ⟨v', .pull u r :: calls⟩ ∧
      ((w.waiting u).running r.tape).Ahead s t v' := by
  by_cases hu : u = s
  · subst hu
    rcases h.self with hself | ⟨a, more, -, hat, hself⟩
    · rw [← hself] at hfailure hbusy hreader
      rw [← h.tape] at hlog hphase
      refine ⟨_, (Moment.Step.pull w' calls u r p hfailure hbusy hreader hlog hphase).steps, ?_⟩
      exact (h.updateSequence_self hd.sequence_lt (.inl (by rw [hself]))).updateTape _ _
    · obtain rfl := Option.some.inj (hreader.symm.trans hat)
      have hlogged := h.logged hd hd' hself
      dsimp only at hlog
      simp [hlog] at hlogged
  · rw [← h.others u hu] at hfailure hbusy hreader
    rw [← h.tape] at hlog hphase
    exact ⟨_, (Moment.Step.pull w' calls u r p hfailure hbusy hreader hlog hphase).steps,
      (h.updateSequence_of_ne hu _).updateTape _ _⟩

/-- A sequence whose call returns was waiting, so it is not behind. -/
theorem settle {u : Sequence} {r : Reader} (h : w.Ahead s t w')
    (hd : Moment.Draws ⟨w, .pull u r :: calls⟩ s t) (x : Option Item) (p : Producer H) :
    ∃ v', Moment.Steps ⟨w', .pull u r :: calls⟩ ⟨v', calls⟩ ∧
      ((w.recorded r.tape x p).settled u x (r.past x)).Ahead s t v' := by
  refine ⟨_, (Moment.Step.settle w' calls u r x p).steps, ?_⟩
  have hrecorded : (w.recorded r.tape x p).Ahead s t (w'.recorded r.tape x p) := h.updateTape _ _
  by_cases hu : u = s
  · subst hu
    have hbusy := ((hd.calls r).mp List.mem_cons_self).1
    rcases h.self with hself | ⟨a, more, hidle, -, -⟩
    · refine hrecorded.updateSequence_self hd.sequence_lt (.inl ?_)
      rw [Reader.isExhausted, Reader.isExhausted, hrecorded.tape, World.sequence_recorded,
        World.sequence_recorded, hself]
    · dsimp only at hbusy
      simp [hbusy] at hidle
  · exact hrecorded.settled_of_ne hu x _

/-- Each step that can be taken can be taken by the sequence that is ahead too, or has
    been taken by it before. -/
theorem step (h : w.Ahead s t w') (hd : Moment.Draws ⟨w, calls⟩ s t)
    (hd' : Moment.Draws ⟨w', calls⟩ s t) {v : World H}
    (hstep : Moment.Step ⟨w, calls⟩ ⟨v, calls'⟩) :
    ∃ v', Moment.Steps ⟨w', calls⟩ ⟨v', calls'⟩ ∧ v.Ahead s t v' := by
  cases hstep with
  | host _ _ state =>
    exact ⟨_, (Moment.Step.host w' calls state).steps, { h with host := rfl }⟩
  | limit _ _ limit =>
    exact ⟨_, (Moment.Step.limit w' calls limit).steps, { h with limit := rfl }⟩
  | displayLength _ _ length =>
    exact ⟨_, (Moment.Step.displayLength w' calls length).steps, { h with displayLength := rfl }⟩
  | onto _ _ p =>
    refine ⟨_, (Moment.Step.onto w' calls p).steps, { h with tapes := ?_ }⟩
    simp [World.withTape, h.tapes]
  | adopt _ _ p infinite =>
    exact ⟨_, (Moment.Step.adopt w' calls p infinite).steps,
      h.withSequence p infinite hd.sequence_lt⟩
  | overwrite _ _ u position a => exact h.overwrite hd.sequence_lt u position a
  | drive _ _ r p hlog hphase =>
    rw [← h.tape] at hlog hphase
    exact ⟨_, (Moment.Step.drive w' calls r p hlog hphase).steps, h.updateTape _ _⟩
  | answer _ _ r x p => exact ⟨_, (Moment.Step.answer w' _ r x p).steps, h.updateTape _ _⟩
  | take _ _ u r x hfailure hbusy hreader hx hnone =>
    exact h.take hd hd' hfailure hbusy hreader hx hnone
  | pull _ _ u r p hfailure hbusy hreader hlog hphase =>
    exact h.pull hd hd' hfailure hbusy hreader hlog hphase
  | settle _ _ u r x p => exact h.settle hd x p

/-- Whatever can follow can follow for the sequence that is ahead as well. -/
theorem steps (h : w.Ahead s t w') (hd : Moment.Draws ⟨w, calls⟩ s t)
    (hd' : Moment.Draws ⟨w', calls⟩ s t) (hm : Moment.Ordered ⟨w, calls⟩)
    (hm' : Moment.Ordered ⟨w', calls⟩) {m : Moment H} (hsteps : Moment.Steps ⟨w, calls⟩ m) :
    ∃ v', Moment.Steps ⟨w', calls⟩ ⟨v', m.calls⟩ ∧ m.world.Ahead s t v' := by
  induction hsteps with
  | refl => exact ⟨w', .refl _, h⟩
  | tail hbefore hstep ih =>
    obtain ⟨u', hu', hahead⟩ := ih
    obtain ⟨v', hv', hahead'⟩ :=
      hahead.step (hd.steps hm hbefore) (hd'.steps hm' hu') hstep
    exact ⟨v', hu'.trans hv', hahead'⟩

end Ahead

end World

end MemoSeq

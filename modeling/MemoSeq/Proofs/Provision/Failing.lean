/-
  MemoSeq/Proofs/Provision/Failing.lean
  =====================================
  **What forcing comes to when production fails.**

  A provision that fails at `k` (`Provision.FailsAt`) allows a value at each position
  before that, the failure there, and nothing behind.  A sequence supplied with it holds
  at most `k` values.  Forcing it no further succeeds; forcing it further fails with the
  same error each time, keeps what is cached and overwrites nothing
  (`Provision.Supplies.Refuses`).
-/
import MemoSeq.Proofs.Provision.Ending
import MemoSeq.Sequence.Derived
import MemoSeq.Sequence.Index
import MemoSeq.Sequence.Search

namespace MemoSeq

variable {H : Host}

/-- There is a value at each of the first `k` positions, then the failure, then nothing. -/
structure Provision.FailsAt (P : Provision H) (k : Nat) (e : Error) : Prop where
  before : ∀ {j : Nat} {x : Option Item}, P.allows j x → j < k → ∃ v, x = some (.ok v)
  failure : ∀ {x : Option Item}, P.allows k x → x = some (.error e)
  behind : ∀ {j : Nat} {x : Option Item}, P.allows j x → k < j → x = none

theorem Provision.ending_failsAt {B : Behavior H} {h m n : Nat} {I : World H → Prop} {e : Error}
    {known : List (Value → Prop)} :
    (ending B h I m n (some e) known).FailsAt known.length e where
  before {j x} hx hj := by
    simp only [ending, List.getElem?_eq_getElem hj] at hx
    obtain ⟨a, rfl, -⟩ := hx
    exact ⟨a, rfl⟩
  failure {x} hx := by simpa [ending] using hx
  behind {j x} hx hj := by
    simpa [ending, List.getElem?_eq_none (Nat.le_of_lt hj), Nat.ne_of_gt hj] using hx

/-- A sequence has been forced further.  What was cached is cached, nothing has been
    overwritten, and what is made later has not been touched. -/
structure Provision.Forced (P : Provision H) (s : Sequence) (t : Tape) (w w' : World H) :
    Prop where
  supplies : P.Supplies s t w'
  spares : w.Spares (t.id + 1 ≤ ·) (s.id + 1 ≤ ·) w'
  cache : (w.sequence s).cache.toList <+: (w'.sequence s).cache.toList
  overwritten : (w'.sequence s).overwritten = (w.sequence s).overwritten

/-- An attempt fails with this error and, at most, forces the sequence. -/
def Provision.Refuses (P : Provision H) (s : Sequence) (t : Tape) (e : Error) (w : World H)
    {α : Type} (a : Attempt H α) : Prop :=
  ∃ w', a.run.run w = .ok (.error e, w') ∧ P.Forced s t w w'

namespace Provision

variable {P : Provision H} {E : Engine H} {s : Sequence} {t : Tape} {w w' w'' : World H}
variable {k : Nat} {e : Error} {α β : Type}

namespace Forced

theorem refl (h : P.Supplies s t w) : P.Forced s t w w := ⟨h, .refl w, List.prefix_rfl, rfl⟩

theorem trans (h : P.Forced s t w w') (h' : P.Forced s t w' w'') : P.Forced s t w w'' where
  supplies := h'.supplies
  spares := h.spares.trans h'.spares
  cache := h.cache.trans h'.cache
  overwritten := h'.overwritten.trans h.overwritten

end Forced

/-- What follows an attempt that fails is not tried. -/
theorem Refuses.bind {a : Attempt H α} (ha : P.Refuses s t e w a) (f : α → Attempt H β) :
    P.Refuses s t e w (a >>= f) := by
  obtain ⟨w', hrun, hforced⟩ := ha
  exact ⟨w', Attempt.run_bind_eq_ok.mpr (.inr ⟨e, hrun, rfl⟩), hforced⟩

theorem Refuses.of_run {a : Attempt H α} {f : α → Attempt H β} {x : α}
    (hrun : a.run.run w = .ok (.ok x, w')) (hforced : P.Forced s t w w')
    (h : P.Refuses s t e w' (f x)) : P.Refuses s t e w (a >>= f) := by
  obtain ⟨w'', hrest, hforced'⟩ := h
  exact ⟨w'', (Attempt.run_bind_of_ok hrun).trans hrest, hforced.trans hforced'⟩

theorem FailsAt.cache_size_le (hF : P.FailsAt k e) (h : P.Supplies s t w) :
    (w.sequence s).cache.size ≤ k := by
  apply Nat.le_of_not_lt
  intro hlt
  obtain ⟨v, hv⟩ := h.allows_of_cached hlt
  cases hF.failure hv

section Forcing

variable (hP : P.Valid E t.id s.id) (hF : P.FailsAt k e)
include hP hF

/-- Before the failure, advancing takes one more value. -/
theorem Supplies.run_advance_of_lt (h : P.Supplies s t w) (hlt : (w.sequence s).cache.size < k) :
    ∃ v w', (s.advance E).run.run w = .ok (.ok (some v), w') ∧ P.Forced s t w w' ∧
      (w'.sequence s).cache.size = (w.sequence s).cache.size + 1 := by
  obtain ⟨x, w', hrun, hx, -, hsupplies, hspares, hcell⟩ := h.run_advance hP
  obtain ⟨v, rfl⟩ := hF.before hx hlt
  refine ⟨v, w', hrun, ⟨hsupplies, hspares, ?_, ?_⟩, ?_⟩
  · rw [hcell]
    exact Array.toList_push ▸ List.prefix_append _ _
  · rw [hcell, SequenceState.overwritten_settled]
  · rw [hcell]
    exact Array.size_push ..

/-- Once all values before the failure are cached, advancing fails. -/
theorem Supplies.refuses_advance (h : P.Supplies s t w) (heq : (w.sequence s).cache.size = k) :
    P.Refuses s t e w (s.advance E) := by
  obtain ⟨x, w', hrun, hx, -, hsupplies, hspares, hcell⟩ := h.run_advance hP
  rw [heq] at hx
  obtain rfl := hF.failure hx
  refine ⟨w', hrun, hsupplies, hspares, ?_, ?_⟩
  · rw [hcell]
    exact List.prefix_rfl
  · rw [hcell, SequenceState.overwritten_settled]

theorem Supplies.run_produce_of_le (count : Nat) (h : P.Supplies s t w)
    (hle : (w.sequence s).cache.size + count ≤ k) :
    ∃ w', (s.produce E count).run.run w = .ok (.ok true, w') ∧ P.Forced s t w w' ∧
      (w'.sequence s).cache.size = (w.sequence s).cache.size + count := by
  induction count generalizing w with
  | zero => exact ⟨w, rfl, .refl h, rfl⟩
  | succ count ih =>
    obtain ⟨v, u, hrun, hforced, hsize⟩ := h.run_advance_of_lt hP hF (by omega)
    obtain ⟨w', hrest, hforced', hsize'⟩ := ih hforced.supplies (by omega)
    refine ⟨w', ?_, hforced.trans hforced', by omega⟩
    rw [Sequence.produce, Attempt.run_bind_of_ok hrun]
    exact hrest

theorem Supplies.refuses_produce (count : Nat) (h : P.Supplies s t w)
    (hlt : k < (w.sequence s).cache.size + count) : P.Refuses s t e w (s.produce E count) := by
  induction count generalizing w with
  | zero =>
    have hle := hF.cache_size_le h
    omega
  | succ count ih =>
    rw [Sequence.produce]
    rcases Nat.lt_or_eq_of_le (hF.cache_size_le h) with hbefore | heq
    · obtain ⟨v, u, hrun, hforced, hsize⟩ := h.run_advance_of_lt hP hF hbefore
      exact .of_run hrun hforced (ih hforced.supplies (by omega))
    · exact (h.refuses_advance hP hF heq).bind _

theorem Supplies.refuses_drain (rounds : Nat) (h : P.Supplies s t w)
    (hlt : k < (w.sequence s).cache.size + rounds) :
    P.Refuses s t e w (s.drain E none rounds) := by
  induction rounds generalizing w with
  | zero =>
    have hle := hF.cache_size_le h
    omega
  | succ rounds ih =>
    rw [Sequence.drain]
    rcases Nat.lt_or_eq_of_le (hF.cache_size_le h) with hbefore | heq
    · obtain ⟨v, u, hrun, hforced, hsize⟩ := h.run_advance_of_lt hP hF hbefore
      exact .of_run hrun hforced (ih hforced.supplies (by omega))
    · exact (h.refuses_advance hP hF heq).bind _

variable (hlimit : w.limit = none) (hfuel : k < E.fuel)
include hlimit hfuel

theorem Supplies.refuses_materialize (h : P.Supplies s t w) :
    P.Refuses s t e w (s.materialize E) := by
  have hdrain := h.refuses_drain hP hF E.fuel (by omega)
  rw [← hlimit] at hdrain
  obtain ⟨w', hrun, hforced⟩ := hdrain
  exact ⟨w', Sequence.run_materialize_eq_ok.mpr ⟨_, hrun, rfl⟩, hforced⟩

theorem Supplies.refuses_length (h : P.Supplies s t w) : P.Refuses s t e w (s.length E) :=
  (h.refuses_materialize hP hF hlimit hfuel).bind _

theorem Supplies.refuses_count (h : P.Supplies s t w) (target : Value) :
    P.Refuses s t e w (s.count E target) :=
  (h.refuses_materialize hP hF hlimit hfuel).bind _

theorem Supplies.refuses_reverse (h : P.Supplies s t w) : P.Refuses s t e w (s.reverse E) :=
  (h.refuses_materialize hP hF hlimit hfuel).bind _

omit hlimit hfuel in
/-- A value before the failure can be read. -/
theorem Supplies.run_read_of_lt (h : P.Supplies s t w) {index : Int} (hindex : 0 ≤ index)
    (hlt : index < k) :
    ∃ v w', (s.read E index).run.run w = .ok (.ok v, w') ∧ P.Forced s t w w' := by
  have hle := hF.cache_size_le h
  obtain ⟨w', hrun, hforced, -⟩ :=
    h.run_produce_of_le hP hF (index.toNat + 1 - (w.sequence s).cache.size) (by omega)
  have hforce : (s.forceThrough E index.toNat).run.run w = .ok (.ok true, w') := hrun
  refine ⟨Sequence.wrapped (w'.sequence s).cache index, w', ?_, hforced⟩
  rw [Sequence.read, if_neg (Int.not_lt.mpr hindex), Attempt.run_bind_of_ok hforce]
  rfl

omit hlimit hfuel in
theorem Supplies.refuses_forceThrough (h : P.Supplies s t w) {index : Nat} (hle : k ≤ index) :
    P.Refuses s t e w (s.forceThrough E index) := by
  have hsize := hF.cache_size_le h
  exact h.refuses_produce hP hF (index + 1 - (w.sequence s).cache.size) (by omega)

/-- An index that points behind the values, or is counted from the end, finds the
    failure. -/
theorem Supplies.refuses_read (h : P.Supplies s t w) {index : Int}
    (hindex : index < 0 ∨ k ≤ index) : P.Refuses s t e w (s.read E index) := by
  rw [Sequence.read]
  split
  case isTrue => exact (h.refuses_materialize hP hF hlimit hfuel).bind _
  case isFalse hnot => exact (h.refuses_forceThrough hP hF (by omega)).bind _

/-- Nor can anything be put there. -/
theorem Supplies.refuses_overwrite (h : P.Supplies s t w) {index : Int}
    (hindex : index < 0 ∨ k ≤ index) {x : External H.Source} (hx : x.failure? = none) :
    P.Refuses s t e w (s.overwrite E index x) := by
  obtain ⟨y, u, hrun, hspares, hy⟩ := run_canonicalize x w
  simp only [hx] at hy
  obtain ⟨v, rfl, -⟩ := hy
  have hforced : P.Forced s t w u := {
    supplies := h.of_spares hP (hspares.mono (by simp) (by simp))
      (hP.relies_mono h.relies (hspares.mono (by simp) (by simp)))
    spares := hspares.mono (by simp) (by simp)
    cache := by simp [hspares.sequences s trivial h.sequence_lt]
    overwritten := by rw [hspares.sequences s trivial h.sequence_lt] }
  have hnone : u.limit = none := hspares.limit.trans hlimit
  refine .of_run hrun hforced ?_
  split
  case isTrue => exact (hforced.supplies.refuses_length hP hF hnone hfuel).bind _
  case isFalse hnot => exact (hforced.supplies.refuses_forceThrough hP hF (by omega)).bind _

end Forcing

end Provision

end MemoSeq

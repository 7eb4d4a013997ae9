/-
  MemoSeq/Proofs/Amounts/Indexing.lean
  =====================================
  **Reading by position, and what it costs.**

  A position finds what the sequence amounts to there, wrapped around behind the end, and a
  negative one is counted from the end.  A position that the sequence has a value at is
  forced no further than there, so the end is not looked for; any other one takes the whole
  sequence.  Asked again, it is answered from the cache (`Sequence.read_of_amountsTo`).
-/
import MemoSeq.Proofs.Amounts.Basic
import MemoSeq.Proofs.Limit.Bounded
import MemoSeq.Proofs.Views.Overwrites
import Mathlib.Data.ENat.Basic

namespace MemoSeq

variable {H : Host} {B : Behavior H} {E : Engine H} {S : Nat → Option Value} {s : Sequence}
variable {t : Tape} {calls : List Call} {reach n : Nat} {w w' : World H} {v : Value}

namespace Sequence

theorem wrapped_of_cached {values : Array Value} {index : Nat} (hv : values[index]? = some v) :
    wrapped values index = v := by
  have hlt := (Array.getElem?_eq_some_iff.mp hv).1
  have hwithin : (index : Int) % values.size = index :=
    Int.emod_eq_of_lt (Int.natCast_nonneg _) (by exact_mod_cast hlt)
  rw [wrapped, hwithin, Int.toNat_natCast, Array.getD_eq_getD_getElem?, hv, Option.getD_some]

/-- What has been forced is read from the cache. -/
theorem run_read_of_forced {index : Nat} {more : Bool}
    (hforce : (s.forceThrough E index).run.run w = .ok (.ok more, w')) :
    (s.read E index).run.run w = .ok (.ok (wrapped (w'.sequence s).cache index), w') := by
  rw [read, if_neg (Int.not_lt.mpr (Int.natCast_nonneg index)), Int.toNat_natCast,
    Attempt.run_bind_of_ok hforce]
  rfl

/-- A position that is cached is read without doing anything. -/
theorem run_read_of_cached {index : Nat} (hv : (w.sequence s).cache[index]? = some v) :
    (s.read E index).run.run w = .ok (.ok v, w) := by
  have hlt := (Array.getElem?_eq_some_iff.mp hv).1
  have hcount : index + 1 - (w.sequence s).cache.size = 0 := by omega
  have hforce : (s.forceThrough E index).run.run w = .ok (.ok true, w) := by
    change (s.produce E (index + 1 - (w.sequence s).cache.size)).run.run w = _
    rw [hcount]
    rfl
  rw [run_read_of_forced hforce, wrapped_of_cached hv]

/-- So is every position once nothing is left to be produced. -/
theorem Ended.run_read (h : s.Ended S w) (hfuel : 0 < E.fuel) (index : Int) :
    (s.read E index).run.run w = .ok (.ok (wrapped (w.sequence s).cache index), w) :=
  run_read_of_still (run_advance_of_exhausted h.exhausted h.failure) hfuel index

namespace Stands

variable (h : s.Stands E t S reach calls w) (hE : E.Within World.Leads)
variable (hended : ∀ k, S k = none → S (k + 1) = none)
include h hE hended

/-- A position at which there is a value is forced no further than there. -/
theorem run_read {index : Nat} (hv : S index = some v) (hreach : index < reach) :
    ∃ w', (s.read E index).run.run w = .ok (.ok v, w') ∧ s.Stands E t S reach calls w' ∧
      (w'.sequence s).cache[index]? = some v ∧
      (w'.sequence s).cache.size = max (w.sequence s).cache.size (index + 1) ∧
      (w'.sequence s).isExhausted = (w.sequence s).isExhausted := by
  obtain ⟨more, w', hforce, hw', hsize, hexhausted⟩ := h.run_forceThrough hE hended hv hreach
  have hcached : (w'.sequence s).cache[index]? = some v :=
    (hw'.cached index (by omega)).trans hv
  exact ⟨w', wrapped_of_cached hcached ▸ run_read_of_forced hforce, hw', hcached, hsize,
    hexhausted⟩

/-- Any other position takes the whole sequence. -/
theorem run_read_of_outside {index : Int} (hn : S n = none) (hreach : max n index.toNat < reach)
    (hfuel : n < E.fuel) (houtside : 0 ≤ index → S index.toNat = none) :
    ∃ w', (s.read E index).run.run w = .ok (.ok (wrapped (w'.sequence s).cache index), w') ∧
      s.Stands E t S reach calls w' ∧ s.Ended S w' := by
  rcases Int.lt_or_le index 0 with hneg | hnat
  · obtain ⟨w', hrun, hw', hend⟩ := h.run_materialize hE hended hn (by omega) hfuel
    refine ⟨w', ?_, hw', hend⟩
    rw [read, if_pos hneg]
    exact Attempt.run_bind_of_ok hrun
  · obtain ⟨k, rfl⟩ := Int.eq_ofNat_of_zero_le hnat
    obtain ⟨more, w', hforce, hw', hend⟩ :=
      h.run_forceThrough_of_none hE hended (houtside hnat) (by omega)
    exact ⟨w', run_read_of_forced hforce, hw', hend⟩

end Stands

/-! ### The law -/

/-- A sequence is made, and at any later time at which no call is open and no limit is set it
    amounts to `total` values.  A natural index can be read, and if they are finitely many
    every index.

    - An index that there is a value at finds it.  The sequence caches no more than up to
      there, and is exhausted only if it was so before.
    - Of finitely many values, every index finds the one that it points at when it wraps
      around, and zero if there are none.  If it does not point at one without that, all
      values are cached afterwards and the sequence is exhausted.

    The same index finds the same value again, and nothing is done then. -/
theorem read_of_amountsTo (hB : B.Lawful) {p : Producer H} {w₀ w₁ : World H}
    (hreached : Moment.Reached ⟨w₀, calls⟩) {infinite : Bool}
    (hmade : (adopt p infinite).run w₀ = .ok (s, w₁))
    (hlater : Moment.Steps ⟨w₁, calls⟩ ⟨w, []⟩) (hlimit : w.limit = none)
    (hS : s.AmountsTo B S w) {total : ℕ∞} (htotal : ∀ k : Nat, (S k).isSome = true ↔ k < total)
    (index : Int) (hindex : 0 ≤ index ∨ total ≠ ⊤) :
    ∃ enough, ∀ depth ≥ enough, ∃ v w',
      (s.read (.ofBehavior B depth) index).run.run w = .ok (.ok v, w') ∧
      (∀ k : Nat, index = k → k < total → S k = some v ∧
        (w'.sequence s).cache.size = max (w.sequence s).cache.size (k + 1) ∧
        (w'.sequence s).isExhausted = (w.sequence s).isExhausted) ∧
      (∀ n : Nat, total = n →
        (if n = 0 then v = .zero else S (index % n).toNat = some v) ∧
        (index < 0 ∨ n ≤ index →
          (w'.sequence s).cache.size = n ∧ (w'.sequence s).isExhausted = true)) ∧
      (s.read (.ofBehavior B depth) index).run.run w' = .ok (.ok v, w') := by
  have hnone (k : Nat) : S k = none ↔ total ≤ k := by
    rw [← not_lt, ← htotal, Bool.not_eq_true, Option.isSome_eq_false_iff, Option.isNone_iff_eq_none]
  have hended (k : Nat) (hk : S k = none) : S (k + 1) = none := by
    rw [hnone] at hk ⊢
    exact hk.trans (by exact_mod_cast k.le_succ)
  by_cases hinside : ∃ k : Nat, index = k ∧ (k : ℕ∞) < total
  · -- no more is produced than up to the index
    obtain ⟨k, rfl, hlt⟩ := hinside
    obtain ⟨v, hv⟩ := Option.isSome_iff_exists.mp ((htotal k).mpr hlt)
    obtain ⟨enough, hstands⟩ :=
      hS.exists_stands_of_made hreached hmade hlater List.not_mem_nil hlimit (k + 1)
    refine ⟨enough, fun depth hdepth => ?_⟩
    obtain ⟨w', hrun, -, hcached, hsize, hexhausted⟩ := (hstands depth hdepth).run_read
      (Engine.ofBehavior_leads hB depth) hended hv k.lt_succ_self
    refine ⟨v, w', hrun, ?_, ?_, run_read_of_cached hcached⟩
    · intro j hj _
      obtain rfl : k = j := by exact_mod_cast hj
      exact ⟨hv, hsize, hexhausted⟩
    · rintro n rfl
      have hkn : k < n := by exact_mod_cast hlt
      have hwithin : (k : Int) % n = k :=
        Int.emod_eq_of_lt (Int.natCast_nonneg _) (by exact_mod_cast hkn)
      rw [if_neg (by omega), hwithin, Int.toNat_natCast]
      exact ⟨hv, by omega⟩
  · -- everything is forced: there are finitely many values, and none at the index
    have hfinite : total ≠ ⊤ := by
      rintro rfl
      obtain ⟨k, rfl⟩ := Int.eq_ofNat_of_zero_le (hindex.resolve_right (absurd rfl))
      exact hinside ⟨k, rfl, ENat.natCast_lt_top k⟩
    obtain ⟨n, rfl⟩ := ENat.ne_top_iff_exists.mp hfinite
    have hout : 0 ≤ index → S index.toNat = none := by
      intro hnat
      refine (hnone _).mpr (not_lt.mp fun hlt => hinside ⟨index.toNat, ?_, hlt⟩)
      exact (Int.toNat_of_nonneg hnat).symm
    obtain ⟨enough, hstands⟩ := hS.exists_stands_of_made hreached hmade hlater List.not_mem_nil
      hlimit (max n index.toNat + 1)
    refine ⟨max enough (n + 2), fun depth hdepth => ?_⟩
    have hfuel : n < (Engine.ofBehavior B depth).fuel := Engine.lt_fuel (le_of_max_le_right hdepth)
    obtain ⟨w', hrun, hw', hend⟩ := (hstands depth (le_of_max_le_left hdepth)).run_read_of_outside
      (Engine.ofBehavior_leads hB depth) hended ((hnone n).mpr le_rfl) (Nat.lt_succ_self _) hfuel
      hout
    have hsize : (w'.sequence s).cache.size = n := by
      have hall := (hnone _).mp hend.all
      exact Nat.le_antisymm (hw'.le_of_none ((hnone n).mpr le_rfl)) (by exact_mod_cast hall)
    refine ⟨_, w', hrun, ?_, ?_, hend.run_read (Nat.zero_lt_of_lt hfuel) index⟩
    · rintro k rfl hlt
      exact (hinside ⟨k, rfl, hlt⟩).elim
    · intro m hm
      obtain rfl : n = m := by exact_mod_cast hm
      refine ⟨?_, fun _ => ⟨hsize, hend.exhausted⟩⟩
      split
      case isTrue hzero =>
        have hempty : (w'.sequence s).cache = #[] :=
          Array.eq_empty_of_size_eq_zero (hsize.trans hzero)
        rw [hempty]
        rfl
      case isFalse hne =>
        have hlt : (index % n).toNat < (w'.sequence s).cache.size := by
          have hmod := Int.emod_lt_of_pos index (show (0 : Int) < n by omega)
          have hpos := Int.emod_nonneg index (show (n : Int) ≠ 0 by omega)
          omega
        rw [← hw'.cached _ hlt, wrapped, hsize, Array.getD_eq_getD_getElem?,
          Array.getElem?_eq_getElem hlt, Option.getD_some]

end Sequence

namespace Session

/-- An iteration over the first sequence takes two of its three values. -/
def takesTwo : Act host (Option Item × Iteration) := do
  let (_, i) ← (overThree.iteration ⟨0⟩).next (.ofBehavior behavior 6)
  i.next (.ofBehavior behavior 6)

/-- When it has done so, a number is put in the place of the first one. -/
def readAhead : World host := putting 0 8 (after takesTwo overThree)

theorem readAhead_moves : (Engine.ofBehavior behavior 6).Moves overThree readAhead := by
  have htakes : takesTwo.Within (Engine.ofBehavior behavior 6).Moves :=
    (Iteration.next_moves _ _).bind fun _ => Iteration.next_moves _ _
  have hputs := Sequence.overwrite_moves (.ofBehavior behavior 6) ⟨0⟩ 0 (.int 8)
  exact .trans (after_moves htakes overThree) (after_moves hputs (after takesTwo overThree))

theorem amountsTo_readAhead :
    Sequence.AmountsTo behavior ⟨0⟩ ([.int 8, .int 2, .int 3][·]?) readAhead := by
  have hscalar : ∀ v ∈ [Value.int 1, .int 2, .int 3], v.asList? = none := by decide
  have hamounts := (Sequence.supplies_of_made behavior_lawful (.values hscalar) rfl
    ⟨default, .refl _⟩ rfl readAhead_moves).amountsTo_streamed (B := behavior) (.values hscalar)
  have hitems : (fun k => (readAhead.sequence ⟨0⟩).cache[k]?.or [.int 1, .int 2, .int 3][k]?) =
      ([.int 8, .int 2, .int 3][·]? : Nat → Option Value) := by
    funext k
    rcases k with _ | _ | _ | k <;> rfl
  exact hitems ▸ hamounts

/-- The second value is found where it is, and only so much is cached; behind the end it is
    found again, and then all is. -/
theorem read_readAhead :
    (∃ enough, ∀ depth ≥ enough, ∃ w',
      (Sequence.read (.ofBehavior behavior depth) ⟨0⟩ 1).run.run readAhead =
        .ok (.ok (.int 2), w') ∧
      (w'.sequence ⟨0⟩).cache.size = 2 ∧ (w'.sequence ⟨0⟩).isExhausted = false) ∧
    ∃ enough, ∀ depth ≥ enough, ∃ w',
      (Sequence.read (.ofBehavior behavior depth) ⟨0⟩ (-2)).run.run readAhead =
        .ok (.ok (.int 2), w') ∧
      (w'.sequence ⟨0⟩).cache.size = 3 ∧ (w'.sequence ⟨0⟩).isExhausted = true := by
  have htotal (k : Nat) :
      (([.int 8, .int 2, .int 3] : List Value)[k]?).isSome = true ↔ (k : ℕ∞) < (3 : Nat) := by
    rw [Option.isSome_iff_exists, Nat.cast_lt]
    exact ⟨fun ⟨v, hv⟩ => (List.getElem?_eq_some_iff.mp hv).1,
      fun hlt => ⟨_, List.getElem?_eq_getElem hlt⟩⟩
  have hmade : (Sequence.adopt (.values [.int 1, .int 2, .int 3]) false).run start =
      .ok (⟨0⟩, overThree) := rfl
  have hlaw (index : Int) := Sequence.read_of_amountsTo behavior_lawful ⟨default, .refl _⟩ hmade
    (Engine.moves_steps behavior_lawful readAhead_moves [])
    rfl amountsTo_readAhead htotal index (.inr (ENat.natCast_ne_top 3))
  refine ⟨?_, ?_⟩
  · obtain ⟨enough, hread⟩ := hlaw 1
    refine ⟨enough, fun depth hdepth => ?_⟩
    obtain ⟨v, w', hrun, hinside, -⟩ := hread depth hdepth
    obtain ⟨hv, hsize, hexhausted⟩ := hinside 1 rfl (by decide)
    cases hv
    exact ⟨w', hrun, hsize, hexhausted⟩
  · obtain ⟨enough, hread⟩ := hlaw (-2)
    refine ⟨enough, fun depth hdepth => ?_⟩
    obtain ⟨v, w', hrun, -, hfinite, -⟩ := hread depth hdepth
    obtain ⟨hv, hall⟩ := hfinite 3 rfl
    cases hv
    exact ⟨w', hrun, hall (.inl (by decide))⟩

end Session

end MemoSeq

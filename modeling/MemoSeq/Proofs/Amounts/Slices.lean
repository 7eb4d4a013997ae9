/-
  MemoSeq/Proofs/Amounts/Slices.lean
  ===================================
  **Slices with a stop.**

  A slice with a stop reads the positions of a range of integers, and each of them wraps
  around by itself (`Sequence.slice_of_amountsTo`).  Within the sequence and forwards the
  sequence is forced no further than to the last position that is read, and no position
  leaves the words that the bounds are written in.
-/
import MemoSeq.Proofs.Amounts.Indexing
import MemoSeq.Proofs.Amounts.Ranges

namespace MemoSeq

variable {H : Host} {B : Behavior H} {E : Engine H} {S : Nat → Option Value} {s : Sequence}
variable {t : Tape} {calls : List Call} {reach : Nat} {values : List Value} {w w' : World H}

namespace Sequence

/-- How many values there must be for each of these positions to be among them. -/
def reachOf (positions : List Int) : Nat :=
  positions.foldr (fun i reach => max (i.toNat + 1) reach) 0

/-- Reading forwards at positions that there are values at forces no more than up to the
    last one. -/
theorem Stands.run_readRange (hE : E.Within World.Leads)
    (hended : ∀ k, S k = none → S (k + 1) = none) {step : Int} (hstep : 0 < step) {stop : Nat}
    (hstop : ∀ k < stop, S k ≠ none) (hreach : stop ≤ reach) {index : Int} (hindex : 0 ≤ index)
    (done : Array Value) (h : s.Stands E t S reach calls w) :
    ∃ items w', (s.readRange E step (rangeCount index stop step) index done).run.run w =
        .ok (.ok items, w') ∧
      (w'.sequence s).cache.size =
        max (w.sequence s).cache.size (reachOf (rangeOf index stop step)) ∧
      (w'.sequence s).isExhausted = (w.sequence s).isExhausted := by
  generalize hcount : rangeCount index stop step = count
  induction count generalizing index done w with
  | zero =>
    have hempty : rangeOf index stop step = [] := by rw [rangeOf, hcount]; rfl
    rw [hempty]
    exact ⟨done.toList, w, rfl, (Nat.max_zero _).symm, rfl⟩
  | succ count ih =>
    have hbefore : Before stop step index := by
      have hsome : 0 < rangeCount index stop step := by omega
      rw [lt_rangeCount] at hsome
      simpa using hsome
    have hcons := rangeOf_of_before hbefore
    have hrest : rangeCount (index + step) stop step = count := by
      have hlength := congrArg List.length hcons
      simp only [rangeOf, List.length_map, List.length_range, List.length_cons] at hlength
      omega
    obtain ⟨k, rfl⟩ := Int.eq_ofNat_of_zero_le hindex
    have hlt : k < stop := by
      rcases hbefore with ⟨-, hlt⟩ | ⟨hneg, -⟩
      · exact_mod_cast hlt
      · omega
    obtain ⟨v, hv⟩ := Option.ne_none_iff_exists'.mp (hstop k hlt)
    obtain ⟨u, hrun, hu, -, hsize, hexhausted⟩ := h.run_read hE hended hv (by omega)
    obtain ⟨items, w', hmore, hsize', hexhausted'⟩ := ih (by omega) (done.push v) hu hrest
    refine ⟨items, w', ?_, ?_, hexhausted'.trans hexhausted⟩
    · rw [readRange, Attempt.run_bind_of_ok hrun]
      exact hmore
    · rw [hsize', hsize, hcons, reachOf, reachOf, List.foldr_cons, Int.toNat_natCast,
        Nat.max_assoc]

/-- If the means suffice, a slice with a stop reads the positions of its range. -/
theorem Stands.run_slice (hE : E.Within World.Leads) (hfuel : values.length < E.fuel)
    (h : s.Stands E t (values[·]?) (values.length + 1) calls w) (start : Option Int) (stop : Int)
    (step : Option Int) :
    ∃ w', (s.slice E start (some stop) step).run.run w = .ok (.ok (.items
      ((rangeOf (start.getD 0) (if stop < 0 then stop + values.length else stop)
        (Plain.stepOf step)).map (Plain.read values))), w') := by
  obtain ⟨w', hrun, -⟩ :=
    (Stands.unfolds hE fun _ => rfl).run_slice (fun _ hu => hu.limit) hfuel start stop step h
  rw [Plain.slice, Plain.window_eq_map] at hrun
  exact ⟨w', hrun⟩

/-- A sequence is made, and at any later time at which no call is open and no limit is set it
    amounts to finitely many values.  A slice of it with a stop, where a negative stop counts
    from the end, has the values at the positions of the range, each of which wraps around by
    itself; without any values it has zeros.

    - If the range goes forwards from the front of the sequence and does not go beyond its
      end, no more is forced than the positions take, and the end is not looked for.
    - If the bounds and the length are words of 64 bits, then so are the stop that is counted
      from the end and all positions, and going on as long as the next position is such a
      word leads through the whole range. -/
theorem slice_of_amountsTo (hB : B.Lawful) {p : Producer H} {w₀ w₁ : World H}
    (hreached : Moment.Reached ⟨w₀, calls⟩) {infinite : Bool}
    (hmade : (adopt p infinite).run w₀ = .ok (s, w₁))
    (hlater : Moment.Steps ⟨w₁, calls⟩ ⟨w, []⟩) (hlimit : w.limit = none)
    (hS : s.AmountsTo B (values[·]?) w) (start : Option Int) (stop : Int) (step : Option Int) :
    ∃ enough, ∀ depth ≥ enough, ∃ positions w',
      (s.slice (.ofBehavior B depth) start (some stop) step).run.run w =
        .ok (.ok (.items (positions.map (Plain.read values))), w') ∧
      (∀ k : Nat, positions[k]? =
        if Before (if stop < 0 then stop + values.length else stop) (Plain.stepOf step)
          (start.getD 0 + k * Plain.stepOf step) then
          some (start.getD 0 + k * Plain.stepOf step) else none) ∧
      (0 ≤ start.getD 0 → 0 ≤ stop → stop ≤ values.length → 0 < Plain.stepOf step →
        (w'.sequence s).cache.size = max (w.sequence s).cache.size (reachOf positions) ∧
        (w'.sequence s).isExhausted = (w.sequence s).isExhausted) ∧
      (Width.signed64.contains (start.getD 0) → Width.signed64.contains stop →
        Width.signed64.contains values.length →
        Width.signed64.contains (if stop < 0 then stop + values.length else stop) ∧
        (∀ i ∈ positions, Width.signed64.contains i) ∧
        Width.signed64.Walks (if stop < 0 then stop + values.length else stop)
          (Plain.stepOf step) (start.getD 0) positions) := by
  obtain ⟨enough, hstands⟩ := hS.exists_stands_of_made hreached hmade hlater List.not_mem_nil
    hlimit (values.length + 1)
  refine ⟨max enough (values.length + 2), fun depth hdepth => ?_⟩
  have hE := Engine.ofBehavior_leads hB depth
  have hnow := hstands depth (le_of_max_le_left hdepth)
  have hfuel := Engine.lt_fuel (B := B) (le_of_max_le_right hdepth)
  obtain ⟨w', hrun⟩ := hnow.run_slice hE hfuel start stop step
  refine ⟨_, w', hrun, fun k => getElem?_rangeOf, fun hstart hstop hle hstep => ?_,
    fun hstart hstop hlength => ?_⟩
  · have hended (k : Nat) (hk : values[k]? = none) : values[k + 1]? = none := by
      rw [List.getElem?_eq_none_iff] at hk ⊢
      exact Nat.le_succ_of_le hk
    obtain ⟨n, rfl⟩ := Int.eq_ofNat_of_zero_le hstop
    have hn : n ≤ values.length := by exact_mod_cast hle
    have hfound : ∀ k < n, values[k]? ≠ none := fun k hk => by
      rw [List.getElem?_eq_getElem (Nat.lt_of_lt_of_le hk hn)]
      exact Option.some_ne_none _
    -- the same run again, now with what it takes from the sequence
    obtain ⟨items, u, hread, hdriven⟩ := Stands.run_readRange hE hended hstep hfound
      (Nat.le_succ_of_le hn) hstart #[] hnow
    have hrun' := hrun
    rw [slice_eq] at hrun'
    simp only [if_neg (Int.not_lt.mpr hstop), pure_bind] at hrun' ⊢
    rw [Attempt.run_bind_of_ok hread] at hrun'
    cases hrun'
    exact hdriven
  · have hlast : Width.signed64.contains (if stop < 0 then stop + values.length else stop) := by
      split
      case isTrue hneg => exact Width.contains_of_between hstop hlength (by omega) (by omega)
      case isFalse => exact hstop
    exact ⟨hlast, (Width.walks_rangeOf hlast hstart).symm⟩

end Sequence

namespace Session

/-- From the last value on, two apart and around the end; and the first two values, for
    which only they are cached. -/
theorem slice_readAhead :
    (∃ enough, ∀ depth ≥ enough, ∃ w',
      (Sequence.slice (.ofBehavior behavior depth) ⟨0⟩ (some (-1)) (some (-1)) (some 2)).run.run
        readAhead = .ok (.ok (.items [.int 3, .int 2]), w')) ∧
    ∃ enough, ∀ depth ≥ enough, ∃ w',
      (Sequence.slice (.ofBehavior behavior depth) ⟨0⟩ none (some 2) none).run.run readAhead =
        .ok (.ok (.items [.int 8, .int 2]), w') ∧
      (w'.sequence ⟨0⟩).cache.size = 2 ∧ (w'.sequence ⟨0⟩).isExhausted = false := by
  have hmade : (Sequence.adopt (.values [.int 1, .int 2, .int 3]) false).run start =
      .ok (⟨0⟩, overThree) := rfl
  have hlaw := Sequence.slice_of_amountsTo behavior_lawful ⟨default, .refl _⟩ hmade
    (Engine.moves_steps behavior_lawful readAhead_moves []) rfl amountsTo_readAhead
  refine ⟨?_, ?_⟩
  · obtain ⟨enough, hslice⟩ := hlaw (some (-1)) (-1) (some 2)
    refine ⟨enough, fun depth hdepth => ?_⟩
    obtain ⟨positions, w', hrun, hpositions, -⟩ := hslice depth hdepth
    obtain rfl : positions = [-1, 1] := by
      apply List.ext_getElem?
      intro k
      rw [hpositions]
      rcases k with _ | _ | k
      · rfl
      · rfl
      · refine if_neg ?_
        change ¬ (0 < (2 : Int) ∧ -1 + ((k + 2 : Nat) : Int) * 2 < 2 ∨ (2 : Int) < 0 ∧ _)
        omega
    exact ⟨w', hrun⟩
  · obtain ⟨enough, hslice⟩ := hlaw none 2 none
    refine ⟨enough, fun depth hdepth => ?_⟩
    obtain ⟨positions, w', hrun, hpositions, hdriven, -⟩ := hslice depth hdepth
    obtain rfl : positions = [0, 1] := by
      apply List.ext_getElem?
      intro k
      rw [hpositions]
      rcases k with _ | _ | k
      · rfl
      · rfl
      · refine if_neg ?_
        change ¬ (0 < (1 : Int) ∧ 0 + ((k + 2 : Nat) : Int) * 1 < 2 ∨ (1 : Int) < 0 ∧ _)
        omega
    exact ⟨w', hrun, hdriven (by decide) (by decide) (by decide) (by decide)⟩

end Session

end MemoSeq

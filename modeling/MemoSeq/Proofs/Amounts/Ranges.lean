/-
  MemoSeq/Proofs/Amounts/Ranges.lean
  ===================================
  **Ranges of positions.**

  A range goes from its start on in steps of one size, as long as it is before its stop in
  the direction of the step.  It is counted in advance here, and `rangeOf_of_before` says
  that this comes to going on one step at a time.

  Whoever goes on with words of a fixed width must end when the next position cannot be
  written any more.  Between a start and a stop that can be written this makes no
  difference: such a position would be behind the stop (`Width.walks_rangeOf`).
-/
import MemoSeq.Number.Width
import MemoSeq.Proofs.Plain

namespace MemoSeq

variable {start stop step i : Int} {k : Nat}

/-- The position comes before `stop` in the direction of `step`. -/
def Before (stop step i : Int) : Prop := 0 < step ∧ i < stop ∨ step < 0 ∧ stop < i

instance (stop step i : Int) : Decidable (Before stop step i) :=
  inferInstanceAs (Decidable (_ ∨ _))

/-- What is counted are the positions before the stop. -/
theorem lt_rangeCount : k < rangeCount start stop step ↔ Before stop step (start + k * step) := by
  have hmul (gap : Int) : ((k : Int) + 1) * gap = k * gap + gap := by ring
  rw [rangeCount, Before]
  split
  case isTrue hstep =>
    rw [Int.lt_toNat, ← Int.add_one_le_iff, Int.le_ediv_iff_mul_le hstep, hmul]
    omega
  case isFalse hnot =>
    split
    case isTrue hstep =>
      rw [Int.lt_toNat, ← Int.add_one_le_iff, Int.le_ediv_iff_mul_le (neg_pos.mpr hstep), hmul,
        mul_neg]
      omega
    case isFalse => omega

def rangeOf (start stop step : Int) : List Int :=
  (List.range (rangeCount start stop step)).map fun (k : Nat) => start + k * step

theorem getElem?_rangeOf : (rangeOf start stop step)[k]? =
    if Before stop step (start + k * step) then some (start + k * step) else none := by
  rw [rangeOf, List.getElem?_map]
  split
  case isTrue h => rw [List.getElem?_range (lt_rangeCount.mpr h), Option.map_some]
  case isFalse h =>
    have hle : rangeCount start stop step ≤ k := Nat.le_of_not_lt (mt lt_rangeCount.mp h)
    rw [List.getElem?_eq_none (by simpa using hle), Option.map_none]

theorem rangeOf_of_not_before (h : ¬ Before stop step start) : rangeOf start stop step = [] := by
  rw [← List.getElem?_eq_none_iff.trans (Nat.le_zero.trans List.length_eq_zero_iff),
    getElem?_rangeOf]
  simpa using h

theorem rangeOf_of_before (h : Before stop step start) :
    rangeOf start stop step = start :: rangeOf (start + step) stop step := by
  apply List.ext_getElem?
  intro k
  cases k with
  | zero => simpa [getElem?_rangeOf] using h
  | succ k =>
    have hnext : start + ((k + 1 : Nat) : Int) * step = start + step + k * step := by
      push_cast
      ring
    rw [List.getElem?_cons_succ, getElem?_rangeOf, getElem?_rangeOf, hnext]

/-! ### Words of a fixed width -/

/-- What lies between numbers in range is in range. -/
theorem Width.contains_of_between {width : Width} {low high : Int} (hlow : width.contains low)
    (hhigh : width.contains high) (hle : low ≤ i) (hge : i ≤ high) : width.contains i := by
  cases width <;> simp only [contains, Bool.and_eq_true, decide_eq_true_eq] at * <;> omega

/-- Goes on from a position, one step at a time, to the end or until the next position is out
    of range. -/
inductive Width.Walks (width : Width) (stop step : Int) : Int → List Int → Prop
  | done {i : Int} : ¬ Before stop step i → Walks width stop step i []
  | stuck {i : Int} : Before stop step i → width.contains (i + step) = false →
      Walks width stop step i [i]
  | next {i : Int} {rest : List Int} : Before stop step i → width.contains (i + step) = true →
      Walks width stop step (i + step) rest → Walks width stop step i (i :: rest)

/-- A position that comes before the stop after one that is in range is in range itself. -/
theorem Width.contains_add_of_before {width : Width} (hstop : width.contains stop)
    (hi : width.contains i) (h : Before stop step (i + step)) : width.contains (i + step) := by
  rcases h with ⟨hpos, hlt⟩ | ⟨hneg, hgt⟩
  · exact contains_of_between hi hstop (by omega) hlt.le
  · exact contains_of_between hstop hi hgt.le (by omega)

/-- Between a start and a stop that are in range, the positions of the range are gone
    through, and all of them are in range. -/
theorem Width.walks_rangeOf {width : Width} (hstop : width.contains stop)
    (hstart : width.contains start) :
    width.Walks stop step start (rangeOf start stop step) ∧
      ∀ i ∈ rangeOf start stop step, width.contains i := by
  -- each step brings the stop nearer: the count of what is left goes down
  generalize hcount : rangeCount start stop step = count
  induction count generalizing start with
  | zero =>
    have hend : ¬ Before stop step start := by
      have hnone : ¬ 0 < rangeCount start stop step := by omega
      rw [lt_rangeCount] at hnone
      simpa using hnone
    rw [rangeOf_of_not_before hend]
    exact ⟨.done hend, by simp⟩
  | succ count ih =>
    have hbefore : Before stop step start := by
      have hsome : 0 < rangeCount start stop step := by omega
      rw [lt_rangeCount] at hsome
      simpa using hsome
    rw [rangeOf_of_before hbefore]
    by_cases hnext : Before stop step (start + step)
    · have hcontains := contains_add_of_before hstop hstart hnext
      have hrest : rangeCount (start + step) stop step = count := by
        have hlength := congrArg List.length (rangeOf_of_before hbefore)
        simp only [rangeOf, List.length_map, List.length_range, List.length_cons] at hlength
        omega
      obtain ⟨hwalks, hall⟩ := ih hcontains hrest
      exact ⟨.next hbefore hcontains hwalks, by simpa using ⟨hstart, hall⟩⟩
    · rw [rangeOf_of_not_before hnext]
      refine ⟨?_, by simpa using hstart⟩
      cases hcontains : width.contains (start + step) with
      | false => exact .stuck hbefore hcontains
      | true => exact .next hbefore hcontains (.done hnext)

namespace Plain

variable {values : List Value}

/-- A slice with a stop reads the positions of its range. -/
theorem window_eq_map (values : List Value) (start stop step : Int) :
    window values start stop step =
      (rangeOf start (if stop < 0 then stop + values.length else stop) step).map (read values) := by
  rw [window, rangeOf, List.map_map]
  rfl

/-- At a position that there is a value at, reading finds it. -/
theorem some_read (hpos : 0 ≤ i) (hlt : i < values.length) :
    some (read values i) = values[i.toNat]? := by
  rw [read, Int.emod_eq_of_lt hpos hlt, List.getD_eq_getElem?_getD,
    List.getElem?_eq_getElem (by omega), Option.getD_some]

/-! ### Strides -/

/-- Where a slice without a stop begins in so many values.  A negative start counts from the
    end, and one outside is moved to the nearer end if it is on the way. -/
def firstOf (length : Nat) (start step : Int) : Int :=
  if 0 < step then if start < 0 then max (start + length) 0 else min start length
  else if start < 0 then start + length else min start (length - 1)

/-- The stop that goes without saying: behind the end, or backwards before the front. -/
def boundOf (length : Nat) (step : Int) : Int := if 0 < step then length else -1

/-- The positions that a slice without a stop takes of so many values. -/
def strideOf (length : Nat) (start step : Int) : List Int :=
  rangeOf (firstOf length start step) (boundOf length step) step

theorem stride_eq_filterMap (values : List Value) (start step : Int) :
    stride values.toArray start step =
      (strideOf values.length start step).filterMap fun i => values[i.toNat]? := by
  rw [strideOf, rangeOf, List.filterMap_map]
  simp only [stride, List.size_toArray, List.getElem?_toArray]
  rfl

/-- From where it begins, a stride goes on as long as there are values. -/
theorem before_boundOf_iff {length : Nat} (hstep : step ≠ 0) :
    Before (boundOf length step) step (firstOf length start step + k * step) ↔
      0 ≤ firstOf length start step + k * step ∧ firstOf length start step + k * step < length := by
  rcases Int.lt_or_gt_of_ne hstep with hneg | hpos
  · have hback : (k : Int) * step ≤ 0 :=
      Int.mul_nonpos_of_nonneg_of_nonpos (Int.natCast_nonneg k) hneg.le
    have hfirst : firstOf length start step < length := by
      rw [firstOf, if_neg hneg.not_gt]
      split <;> omega
    rw [boundOf, if_neg hneg.not_gt, Before]
    omega
  · have hforth : 0 ≤ (k : Int) * step := Int.mul_nonneg (Int.natCast_nonneg k) hpos.le
    have hfirst : 0 ≤ firstOf length start step := by
      rw [firstOf, if_pos hpos]
      split <;> omega
    rw [boundOf, if_pos hpos, Before]
    omega

theorem getElem?_strideOf {length : Nat} (hstep : step ≠ 0) :
    (strideOf length start step)[k]? =
      if 0 ≤ firstOf length start step + k * step ∧
          firstOf length start step + k * step < length then
        some (firstOf length start step + k * step) else none := by
  rw [strideOf, getElem?_rangeOf]
  exact if_congr (before_boundOf_iff hstep) rfl rfl

/-- At each position of a stride there is a value. -/
theorem mem_strideOf {length : Nat} (hstep : step ≠ 0) (hi : i ∈ strideOf length start step) :
    0 ≤ i ∧ i < length := by
  obtain ⟨k, hk⟩ := List.mem_iff_getElem?.mp hi
  rw [getElem?_strideOf hstep] at hk
  split at hk
  case isTrue h =>
    cases hk
    exact h
  case isFalse => cases hk

/-- So the stride takes the values there. -/
theorem stride_eq_map (hstep : step ≠ 0) (start : Int) :
    stride values.toArray start step = (strideOf values.length start step).map (read values) := by
  rw [stride_eq_filterMap, ← List.filterMap_eq_map]
  refine List.filterMap_congr fun i hi => ?_
  obtain ⟨hpos, hlt⟩ := mem_strideOf hstep hi
  exact (some_read hpos hlt).symm

/-- Where a stride begins can be written if the start and the length can. -/
theorem contains_firstOf {width : Width} {length : Nat} (hsigned : width.contains (-1))
    (hstart : width.contains start) (hlength : width.contains length) (step : Int) :
    width.contains (firstOf length start step) := by
  have hzero : width.contains 0 :=
    Width.contains_of_between hsigned hlength (by omega) (Int.natCast_nonneg _)
  rw [firstOf]
  split
  case isTrue =>
    split
    case isTrue => exact Width.contains_of_between hzero hlength (by omega) (by omega)
    case isFalse => exact Width.contains_of_between hzero hstart (by omega) (by omega)
  case isFalse =>
    split
    case isTrue => exact Width.contains_of_between hstart hlength (by omega) (by omega)
    case isFalse => exact Width.contains_of_between hsigned hstart (by omega) (by omega)

/-- Going on as long as the next position can be written leads through the whole stride. -/
theorem walks_strideOf {width : Width} {length : Nat} (hsigned : width.contains (-1))
    (hstart : width.contains start) (hlength : width.contains length) (step : Int) :
    width.Walks (boundOf length step) step (firstOf length start step)
      (strideOf length start step) := by
  refine (Width.walks_rangeOf ?_ (contains_firstOf hsigned hstart hlength step)).1
  rw [boundOf]
  split
  case isTrue => exact hlength
  case isFalse => exact hsigned

/-- Forwards from a position that is not negative, a slice without a stop is one that stops
    at the end. -/
theorem stride_eq_window (hstart : 0 ≤ start) (hstep : 0 < step) :
    stride values.toArray start step = window values start values.length step := by
  rw [stride_eq_map hstep.ne', window_eq_map, if_neg (by omega), strideOf, firstOf, boundOf,
    if_pos hstep, if_neg (by omega), if_pos hstep]
  rcases Int.le_total start values.length with hle | hge
  · rw [min_eq_left hle]
  · rw [min_eq_right hge, rangeOf_of_not_before (by rw [Before]; omega),
      rangeOf_of_not_before (by rw [Before]; omega)]

end Plain

end MemoSeq

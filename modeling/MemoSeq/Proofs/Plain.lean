/-
  MemoSeq/Proofs/Plain.lean
  =========================
  **What the operations come to on plain lists.**

  The functions here know nothing of tapes, caches and iterations.  Reading wraps
  around, a slice with a stop reads each position of its range, and a slice without
  one walks along the list, or along its reverse, and leaves out a gap after each
  value that it takes.  `stride_toArray` proves that this is what `stride` does by
  counting.
-/
import MemoSeq.Sequence.Slice
import Mathlib.Data.List.Basic
import Mathlib.Tactic.Ring

namespace MemoSeq.Plain

/-- The value at an index, which wraps around; an empty list reads as zero. -/
def read (values : List Value) (index : Int) : Value :=
  values.getD (index % values.length).toNat .zero

/-- Leaves out `skip` values, takes one, and then leaves out `gap` after each it takes. -/
def skipping (gap : Nat) : Nat → List Value → List Value
  | _, [] => []
  | 0, v :: values => v :: skipping gap gap values
  | skip + 1, _ :: values => skipping gap skip values

/-- A slice without a stop.  A negative start counts from the end, a negative step goes
    backwards, and nothing wraps around. -/
def strided (values : List Value) (start step : Int) : List Value :=
  if 0 < step then
    skipping (step - 1).toNat (if start < 0 then start + values.length else start).toNat values
  else
    skipping (-step - 1).toNat
      (if start < 0 then -1 - start else values.length - 1 - start).toNat values.reverse

def window (values : List Value) (start stop step : Int) : List Value :=
  let stop := if stop < 0 then stop + values.length else stop
  (List.range (rangeCount start stop step)).map fun (k : Nat) => read values (start + k * step)

/-- A missing step is one, and so is a step of zero. -/
def stepOf (step : Option Int) : Int := if step.getD 1 = 0 then 1 else step.getD 1

/-- A slice.  A missing start is zero. -/
def slice (values : List Value) (start stop step : Option Int) : List Value :=
  match stop with
  | none => strided values (start.getD 0) (stepOf step)
  | some stop => window values (start.getD 0) stop (stepOf step)

/-- Where an index that does not wrap around points among so many values. -/
def position? (length : Nat) (index : Int) : Option Nat :=
  if index < 0 then if length + index < 0 then none else some (length + index).toNat
  else if index.toNat < length then some index.toNat else none

def overwrite (values : List Value) (index : Int) (v : Value) : List Value :=
  (position? values.length index).elim values (values.set · v)

def count (values : List Value) (target : Value) : Nat :=
  values.countP (·.sameScalar target)

def contains (values : List Value) (target : Value) : Bool :=
  values.any (·.sameScalar target)

theorem overwrite_of_position {values : List Value} {index : Int} {position : Nat}
    (h : position? values.length index = some position) (v : Value) :
    overwrite values index v = values.set position v := by
  rw [overwrite, h, Option.elim_some]

theorem overwrite_of_outside {values : List Value} {index : Int}
    (h : position? values.length index = none) (v : Value) : overwrite values index v = values := by
  rw [overwrite, h, Option.elim_none]

theorem stepOf_ne_zero (step : Option Int) : stepOf step ≠ 0 := by
  unfold stepOf
  split
  case isTrue => exact Int.one_ne_zero
  case isFalse hne => exact hne

theorem wrapped_toArray (values : List Value) (index : Int) :
    Sequence.wrapped values.toArray index = read values index := by
  simp [Sequence.wrapped, read, Array.getD_eq_getD_getElem?, List.getD_eq_getElem?_getD]

/-! ### Values that come up -/

theorem mem_of_mem_skipping {gap skip : Nat} {values : List Value} {v : Value}
    (h : v ∈ skipping gap skip values) : v ∈ values := by
  induction values generalizing skip with
  | nil =>
    rw [skipping] at h
    exact h
  | cons u values ih =>
    cases skip with
    | zero =>
      rcases List.mem_cons.mp h with rfl | htail
      · exact List.mem_cons_self
      · exact List.mem_cons_of_mem _ (ih htail)
    | succ skip => exact List.mem_cons_of_mem _ (ih h)

theorem read_mem_or_zero (values : List Value) (index : Int) :
    read values index ∈ values ∨ read values index = .zero := by
  rw [read, List.getD_eq_getElem?_getD]
  cases hv : values[(index % values.length).toNat]? with
  | none => exact .inr rfl
  | some v => exact .inl (List.mem_of_getElem? hv)

theorem mem_of_mem_strided {values : List Value} {start step : Int} {v : Value}
    (h : v ∈ strided values start step) : v ∈ values := by
  rw [strided] at h
  split at h
  · exact mem_of_mem_skipping h
  · exact List.mem_reverse.mp (mem_of_mem_skipping h)

/-- A slice has no values but those of the list and zero. -/
theorem mem_or_zero_of_mem_slice {values : List Value} {start stop step : Option Int} {v : Value}
    (h : v ∈ slice values start stop step) : v ∈ values ∨ v = .zero := by
  cases stop with
  | none => exact .inl (mem_of_mem_strided h)
  | some stop =>
    simp only [slice, window, List.mem_map] at h
    obtain ⟨k, -, rfl⟩ := h
    exact read_mem_or_zero values _

/-! ### Strides -/

/-- Skipping picks the positions `skip`, `skip + (gap + 1)`, and so on; any number of
    them that reaches behind the end will do. -/
theorem skipping_eq (gap : Nat) (values : List Value) (skip count : Nat)
    (h : values.length ≤ skip + count * (gap + 1)) :
    skipping gap skip values =
      (List.range count).filterMap fun k => values[skip + k * (gap + 1)]? := by
  induction values generalizing skip count with
  | nil => simp [skipping]
  | cons v values ih =>
    cases skip with
    | succ skip =>
      have hrest : values.length ≤ skip + count * (gap + 1) := by
        simp only [List.length_cons] at h
        omega
      rw [skipping, ih skip count hrest]
      refine congrArg (fun pick => (List.range count).filterMap pick) (funext fun k => ?_)
      rw [Nat.add_right_comm skip 1, List.getElem?_cons_succ]
    | zero =>
      cases count with
      | zero => simp at h
      | succ count =>
        have hrest : values.length ≤ gap + count * (gap + 1) := by
          simp only [List.length_cons, Nat.succ_mul] at h
          omega
        rw [skipping, ih gap count hrest, List.range_succ_eq_map]
        simp only [List.filterMap_cons, List.filterMap_map, Nat.zero_add, Nat.zero_mul,
          List.getElem?_cons_zero]
        refine congrArg (fun pick => v :: (List.range count).filterMap pick) (funext fun k => ?_)
        have hk : (k + 1) * (gap + 1) = gap + k * (gap + 1) + 1 := by ring
        rw [Function.comp_apply, Nat.succ_eq_add_one, hk, List.getElem?_cons_succ]

/-- The range that is counted reaches its stop, … -/
theorem le_add_rangeCount_mul (start stop : Int) {step : Int} (hstep : 0 < step) :
    stop ≤ start + rangeCount start stop step * step := by
  rw [rangeCount, if_pos hstep]
  have hceil := Int.lt_ediv_add_one_mul_self (stop - start + step - 1) hstep
  rw [add_mul, one_mul] at hceil
  have hnat : (stop - start + step - 1) / step * step ≤
      ((stop - start + step - 1) / step).toNat * step :=
    Int.mul_le_mul_of_nonneg_right (Int.self_le_toNat _) hstep.le
  omega

/-- … backwards too, … -/
theorem add_rangeCount_mul_le (start stop : Int) {step : Int} (hstep : step < 0) :
    start + rangeCount start stop step * step ≤ stop := by
  rw [rangeCount, if_neg hstep.not_gt, if_pos hstep]
  have hceil := Int.lt_ediv_add_one_mul_self (start - stop - step - 1) (neg_pos.mpr hstep)
  rw [add_mul, one_mul] at hceil
  have hnat : (start - stop - step - 1) / -step * -step ≤
      ((start - stop - step - 1) / -step).toNat * -step :=
    Int.mul_le_mul_of_nonneg_right (Int.self_le_toNat _) (neg_pos.mpr hstep).le
  simp only [mul_neg] at hnat hceil
  omega

/-- … and does not go on behind it. -/
theorem lt_add_mul_of_lt_rangeCount {start stop step : Int} (hstep : step < 0) {k : Nat}
    (hk : k < rangeCount start stop step) : stop < start + k * step := by
  rw [rangeCount, if_neg hstep.not_gt, if_pos hstep, Int.lt_toNat] at hk
  have hle : ((k : Int) + 1) * -step ≤ start - stop - step - 1 :=
    (Int.le_ediv_iff_mul_le (neg_pos.mpr hstep)).mp hk
  rw [add_mul, one_mul, mul_neg] at hle
  omega

/-- There are no more numbers in a range than lie between its ends. -/
theorem rangeCount_le (start stop step : Int) :
    rangeCount start stop step ≤ (stop - start).natAbs := by
  have hceil (distance gap : Int) (hgap : 0 < gap) :
      ((distance + gap - 1) / gap).toNat ≤ distance.natAbs := by
    have hmul : (distance.natAbs : Int) * 1 ≤ distance.natAbs * gap :=
      Int.mul_le_mul_of_nonneg_left hgap (Int.natCast_nonneg _)
    have hlt : (distance + gap - 1) / gap < (distance.natAbs : Int) + 1 := by
      refine Int.ediv_lt_of_lt_mul hgap ?_
      rw [add_mul, one_mul]
      omega
    omega
  rw [rangeCount]
  split
  case isTrue hstep => exact hceil (stop - start) step hstep
  case isFalse =>
    split
    case isTrue hstep =>
      have hback := hceil (start - stop) (-step) (neg_pos.mpr hstep)
      rw [← sub_eq_add_neg] at hback
      omega
    case isFalse => exact Nat.zero_le _

theorem length_skipping_le (gap skip : Nat) (values : List Value) :
    (skipping gap skip values).length ≤ values.length := by
  induction values generalizing skip with
  | nil =>
    rw [skipping]
  | cons v values ih =>
    cases skip with
    | zero => exact Nat.succ_le_succ (ih gap)
    | succ skip => exact (ih skip).trans (Nat.le_succ _)

theorem length_strided_le (values : List Value) (start step : Int) :
    (strided values start step).length ≤ values.length := by
  rw [strided]
  split
  · exact length_skipping_le _ _ _
  · exact (length_skipping_le _ _ _).trans (Nat.le_of_eq List.length_reverse)

theorem length_window_le (values : List Value) (start stop step : Int) :
    (window values start stop step).length ≤ values.length + start.natAbs + stop.natAbs := by
  rw [window, List.length_map, List.length_range]
  refine (rangeCount_le _ _ _).trans ?_
  split
  · omega
  · omega

/-- Counting forwards from a position of the list or from its end. -/
theorem filterMap_forwards (values : List Value) (first gap : Nat) :
    (List.range (rangeCount first values.length (gap + 1))).filterMap
        (fun (k : Nat) => values[((first : Int) + k * (gap + 1)).toNat]?) =
      skipping gap first values := by
  rw [skipping_eq gap values first (rangeCount first values.length (gap + 1))]
  · refine congrArg (fun pick => List.filterMap pick _) (funext fun k => ?_)
    have hk : (first : Int) + k * (gap + 1) = ((first + k * (gap + 1) : Nat) : Int) := by
      push_cast
      ring
    rw [hk, Int.toNat_natCast]
  · have hstep : (0 : Int) < gap + 1 := by omega
    have hreach := le_add_rangeCount_mul first values.length hstep
    exact_mod_cast hreach

/-- Counting backwards from a position of the list or from before its start is counting
    forwards along the reverse. -/
theorem filterMap_backwards (values : List Value) (first : Int) (gap : Nat)
    (hfirst : first < values.length) :
    (List.range (rangeCount first (-1) (-(gap + 1)))).filterMap
        (fun (k : Nat) => values[(first + k * -(gap + 1)).toNat]?) =
      skipping gap (values.length - 1 - first).toNat values.reverse := by
  have hstep : -((gap : Int) + 1) < 0 := by omega
  rw [skipping_eq gap values.reverse _ (rangeCount first (-1) (-(gap + 1)))]
  · apply List.filterMap_congr
    intro k hk
    have hback := lt_add_mul_of_lt_rangeCount hstep (List.mem_range.mp hk)
    rw [mul_neg] at hback ⊢
    have hcast : ((k * (gap + 1) : Nat) : Int) = k * (gap + 1) := by
      push_cast
      rfl
    rw [← hcast] at hback ⊢
    rw [List.getElem?_reverse (by omega)]
    refine congrArg (values[·]?) ?_
    omega
  · have hreach := add_rangeCount_mul_le first (-1) hstep
    rw [mul_neg] at hreach
    rw [List.length_reverse]
    have hcast : ((rangeCount first (-1) (-(gap + 1)) * (gap + 1) : Nat) : Int) =
        rangeCount first (-1) (-(gap + 1)) * (gap + 1) := by
      push_cast
      rfl
    rw [← hcast] at hreach
    omega

/-- Striding by counting is striding by skipping. -/
theorem stride_toArray (values : List Value) (start : Int) {step : Int} (hstep : step ≠ 0) :
    stride values.toArray start step = strided values start step := by
  simp only [stride, strided, List.size_toArray, List.getElem?_toArray]
  rcases Int.lt_or_gt_of_ne hstep with hneg | hpos
  · obtain ⟨gap, rfl⟩ : ∃ gap : Nat, step = -(gap + 1) := ⟨(-step - 1).toNat, by omega⟩
    have hgap : (- -((gap : Int) + 1) - 1).toNat = gap := by omega
    simp only [if_neg hneg.not_gt, hgap]
    split
    case isTrue hstart =>
      rw [filterMap_backwards values _ gap (by omega)]
      congr 1
      omega
    case isFalse hstart =>
      rw [filterMap_backwards values _ gap (by omega)]
      congr 1
      omega
  · obtain ⟨gap, rfl⟩ : ∃ gap : Nat, step = gap + 1 := ⟨(step - 1).toNat, by omega⟩
    have hgap : ((gap : Int) + 1 - 1).toNat = gap := by omega
    simp only [if_pos hpos, hgap]
    split
    case isTrue hstart =>
      have hfirst : max (start + values.length) 0 = ((start + values.length).toNat : Int) := by
        omega
      rw [hfirst, filterMap_forwards]
    case isFalse hstart =>
      rcases Int.le_total start values.length with hle | hge
      · have hfirst : min start values.length = (start.toNat : Int) := by omega
        rw [hfirst, filterMap_forwards]
      · have hfirst : min start values.length = (values.length : Int) := by omega
        rw [hfirst, filterMap_forwards, skipping_eq gap values _ 0 (by omega),
          skipping_eq gap values _ 0 (by omega)]
        rfl

end MemoSeq.Plain

/-
  MemoSeq/Proofs/Limit/Pointwise.lean
  ====================================
  **Plain lists that correspond value by value.**

  What the plain functions make of two lists whose values are related one by one is related
  in the same way.  All they ask of a relation is that it holds between zero and zero, which
  is what an empty list reads as.
-/
import Mathlib.Data.List.Forall2
import MemoSeq.Proofs.Plain

namespace MemoSeq.Plain

variable {R : Value → Value → Prop} {values values' : List Value}

theorem rel_skipping (h : List.Forall₂ R values values') (gap skip : Nat) :
    List.Forall₂ R (skipping gap skip values) (skipping gap skip values') := by
  induction h generalizing skip with
  | nil =>
    rw [skipping]
    exact .nil
  | cons hv _ ih =>
    cases skip with
    | zero => exact .cons hv (ih gap)
    | succ skip => exact ih skip

theorem rel_strided (h : List.Forall₂ R values values') (start step : Int) :
    List.Forall₂ R (strided values start step) (strided values' start step) := by
  rw [strided, strided, h.length_eq]
  split
  · exact rel_skipping h _ _
  · exact rel_skipping (List.rel_reverse h) _ _

theorem rel_set (h : List.Forall₂ R values values') (position : Nat) {v v' : Value} (hv : R v v') :
    List.Forall₂ R (values.set position v) (values'.set position v') := by
  induction h generalizing position with
  | nil => exact .nil
  | cons ha hrest ih =>
    cases position with
    | zero => exact .cons hv hrest
    | succ position => exact .cons ha (ih position)

variable (hzero : R .zero .zero)
include hzero

theorem rel_read (h : List.Forall₂ R values values') (index : Int) :
    R (read values index) (read values' index) := by
  rw [read, read, h.length_eq]
  generalize (index % values'.length).toNat = i
  induction h generalizing i with
  | nil => exact hzero
  | cons hv _ ih =>
    cases i with
    | zero => exact hv
    | succ i => exact ih i

end MemoSeq.Plain

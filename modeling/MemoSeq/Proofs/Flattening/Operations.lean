/-
  MemoSeq/Proofs/Flattening/Operations.lean
  ==========================================
  **Every operation but overwriting keeps to a grading.**

  Forcing, reading, slicing and searching advance lists and compare values, and derived lists
  are graded as their parts are.  So an operation leads from a graded world to a graded one,
  and the values and lists that it gives are there (`Value.Stands`).

  Overwriting is left out: it puts a value into a list whatever their numbers are.
-/
import MemoSeq.Exchange
import MemoSeq.Proofs.Flattening.Graded
import MemoSeq.Sequence.Derived
import MemoSeq.Sequence.Search
import MemoSeq.Sequence.Slice

namespace MemoSeq

variable {H : Host} {K : Pledge H} {G : Grading} {w w' : World H} {h : Nat}

open Pledge (Keeps Tries)

/-! ### What is there -/

theorem Pledge.Holds.cached_stands (hw : K.Holds G w) {s : Sequence} {v : Value}
    (hv : v ∈ (w.sequence s).cache) : v.Stands w := by
  obtain ⟨i, hi⟩ := Array.mem_iff_getElem?.mp hv
  exact hw.stands (hw.cached s i v hi)

/-- A slice is a list that is there, or consists of values that are. -/
def Slice.Stands (w : World H) : Slice → Prop
  | .lazy s => s.id < w.sequences.size
  | .items values => ∀ v ∈ values, v.Stands w

theorem Sequence.wrapped_stands {values : Array Value} (hvalues : ∀ v ∈ values, v.Stands w)
    (index : Int) : (wrapped values index).Stands w := by
  unfold wrapped
  rw [Array.getD_eq_getD_getElem?]
  cases hv : values[(index % values.size).toNat]? with
  | none => exact .of_scalar rfl
  | some v => exact hvalues v (Array.mem_of_getElem? hv)

/-! ### New tapes and lists -/

theorem Reader.onto_graded (hw : K.Holds G w) {p : Producer H} (hp : K.Producer G w h p) :
    K.Keeps G w (Reader.onto p) fun _ w' r => r.tape.id < w'.tapes.size := by
  intro r w' hrun
  cases hrun
  obtain ⟨G', hleads, -⟩ := hw.withTape hp
  exact ⟨G', hleads, by simp [World.freshTape]⟩

theorem Document.toSequence_graded (hw : K.Holds G w) {d : Document} (hd : d.Within h) :
    K.Tries G w (d.toSequence (H := H)) fun _ w' s => s.id < w'.sequences.size := by
  cases hd with
  | array hlt hitems =>
    exact .lift ((Sequence.adopt_graded hw (p := .documents _) hitems _).mono
      fun _ _ _ _ hs => hs.1)
  | other hd =>
    cases d with
    | array items => exact (hd items rfl).elim
    | null | boolean | integer | float | string | object => exact .throw hw

namespace Sequence

variable {s : Sequence}

theorem filter_graded (hw : K.Holds G w) (hs : s.id < w.sequences.size) {test : H.Test}
    (ht : K.test test) :
    K.Keeps G w (s.filter test) fun _ w' s' => s'.id < w'.sequences.size :=
  .get_bind ((adopt_graded hw (p := .filtered test (.pending s)) ⟨ht, hs, Nat.le_refl _⟩ _).mono
    fun _ _ _ _ hs' => hs'.1)

theorem append_graded (hw : K.Holds G w) (hs : s.id < w.sequences.size) {t : Sequence}
    (ht : t.id < w.sequences.size) :
    K.Keeps G w (s.append (H := H) t) fun _ w' s' => s'.id < w'.sequences.size := by
  let top := max (G.list s) (G.list t)
  have hleft : G.Iteration w top (w.iteration s) := hw.iteration ⟨hs, Nat.le_max_left _ _⟩
  have hright : G.Covers w top t := ⟨ht, Nat.le_max_right _ _⟩
  have hp : K.Producer G w top (.joined (some (w.iteration s)) (.pending t)) := by
    refine ⟨fun i hi => ?_, hright⟩
    cases hi
    exact hleft
  exact .get_bind ((adopt_graded hw hp _).mono fun _ _ _ _ hs' => hs'.1)

end Sequence

section Driving

variable {E : Engine H} (hE : K.Drives E)
include hE

/-! ### Forcing and reading -/

namespace Sequence

variable {s : Sequence}

theorem produce_graded (hw : K.Holds G w) (count : Nat) :
    K.Tries G w (s.produce E count) fun _ _ _ => True := by
  induction count generalizing G w with
  | zero => exact .pure hw trivial
  | succ count ih =>
    refine (advance_graded hE hw).bind fun x _ _ hleads _ => ?_
    cases x with
    | none => exact .pure hleads.holds trivial
    | some v => exact ih hleads.holds

theorem forceThrough_graded (hw : K.Holds G w) (index : Nat) :
    K.Tries G w (s.forceThrough E index) fun _ _ _ => True :=
  .get_bind (produce_graded hE hw _)

theorem length_graded (hw : K.Holds G w) : K.Tries G w (s.length E) fun _ _ _ => True :=
  (materialize_graded hE hw).bind fun _ _ _ hleads _ => .pure hleads.holds trivial

theorem read_graded (hw : K.Holds G w) (index : Int) :
    K.Tries G w (s.read E index) fun _ w' v => v.Stands w' := by
  unfold read
  split
  · refine (materialize_graded hE hw).bind fun values _ _ hleads hvalues => ?_
    exact .pure hleads.holds (wrapped_stands (fun v hv => hleads.holds.stands (hvalues v hv)) index)
  · refine (forceThrough_graded hE hw _).bind fun _ _ _ hleads _ => ?_
    exact .get_bind (.pure hleads.holds
      (wrapped_stands (fun _ hv => hleads.holds.cached_stands hv) index))

theorem readRange_graded (hw : K.Holds G w) (step : Int) (count : Nat) (index : Int)
    {read : Array Value} (hread : ∀ v ∈ read, v.Stands w) :
    K.Tries G w (s.readRange E step count index read)
      fun _ w' values => ∀ v ∈ values, v.Stands w' := by
  induction count generalizing G w index read with
  | zero => exact .pure hw (by simpa using hread)
  | succ count ih =>
    refine (read_graded hE hw index).bind fun v _ _ hleads hv => ?_
    refine ih hleads.holds _ fun u hu => ?_
    rcases Array.mem_push.mp hu with hu | rfl
    · exact (hread u hu).mono hleads.sequences
    · exact hv

theorem slice_graded (hw : K.Holds G w) (hs : s.id < w.sequences.size)
    (start stop step : Option Int) :
    K.Tries G w (s.slice E start stop step) fun _ w' slice => slice.Stands w' := by
  cases stop with
  | none =>
    refine (Tries.lift (adopt_graded hw (p := .strided _ _ (.pending s))
      (show G.Covers w (G.list s) s from ⟨hs, Nat.le_refl _⟩) _)).bind ?_
    exact fun s' _ _ hleads hs' => .pure hleads.holds hs'.1
  | some stop =>
    have items {G : Grading} {w : World H} (hw : K.Holds G w) (step : Int) (count : Nat)
        (index : Int) : K.Tries G w (do return Slice.items (← s.readRange E step count index #[]))
          fun _ w' slice => slice.Stands w' :=
      (readRange_graded hE hw step count index (by simp)).bind fun values _ _ hleads hvalues =>
        .pure hleads.holds hvalues
    unfold slice
    dsimp only
    split
    · refine (length_graded hE hw).bind fun _ _ _ hleads _ =>
        (Tries.pure (Q := fun _ _ _ => True) hleads.holds trivial).bind ?_
      exact fun _ _ _ hleads' _ => items hleads'.holds _ _ _
    · refine (Tries.pure (Q := fun _ _ _ => True) hw trivial).bind ?_
      exact fun _ _ _ hleads _ => items hleads.holds _ _ _

theorem reverse_graded (hw : K.Holds G w) :
    K.Tries G w (s.reverse E) fun _ w' s' => s'.id < w'.sequences.size := by
  refine (materialize_graded hE hw).bind fun values G' w' hleads hvalues => ?_
  have hp : K.Producer G' w' (G'.list s) (.values values.toList.reverse) :=
    fun v hv => hvalues v (by simpa using hv)
  exact .lift ((adopt_graded hleads.holds hp _).mono fun _ _ _ _ hs' => hs'.1)

end Sequence

namespace Slice

omit hE in
theorem toSequence_graded (hw : K.Holds G w) {slice : Slice} (hslice : slice.Stands w)
    (hbounds : ∀ v, v.Stands w → G.Bounds w h v) :
    K.Keeps G w (slice.toSequence (H := H)) fun _ w' s => s.id < w'.sequences.size := by
  cases slice with
  | lazy s => exact .pure hw hslice
  | items values =>
    have hp : K.Producer G w h (.values values) := fun v hv => hbounds v (hslice v hv)
    exact (Sequence.adopt_graded hw hp _).mono fun _ _ _ _ hs => hs.1

theorem toList_graded (hw : K.Holds G w) {slice : Slice} (hslice : slice.Stands w) :
    K.Tries G w (slice.toList E) fun _ w' values => ∀ v ∈ values, v.Stands w' := by
  cases slice with
  | lazy s =>
    refine (Sequence.materialize_graded hE hw).bind fun values _ _ hleads hvalues => ?_
    exact .pure hleads.holds fun v hv => hleads.holds.stands (hvalues v (by simpa using hv))
  | items values => exact .pure hw hslice

end Slice

/-! ### Searching -/

namespace Sequence

variable {s : Sequence} {target : Value}

theorem scan_graded (hw : K.Holds G w) (rounds : Nat) {i : Iteration} (hi : G.Iteration w h i) :
    K.Tries G w (scan E target rounds i) fun _ _ _ => True := by
  induction rounds generalizing G w i with
  | zero => exact .lift .starve
  | succ rounds ih =>
    refine (Tries.lift (Iteration.next_graded hE hw hi)).bind ?_
    rintro x G' w' hleads ⟨-, hi'⟩
    match x with
    | (none, _) => exact .pure hleads.holds trivial
    | (some (.error e), _) => exact .throw hleads.holds
    | (some (.ok v), i) =>
      refine (Tries.lift (v.same_graded hE hleads.holds target)).bind ?_
      intro found _ _ hleads' _
      cases found with
      | true => exact .pure hleads'.holds trivial
      | false => exact ih hleads'.holds (hi'.mono hleads'.toExtends (Nat.le_refl h))

theorem anySame_graded (hw : K.Holds G w) (values : List Value) :
    K.Keeps G w (anySame E target values) fun _ _ _ => True := by
  induction values generalizing G w with
  | nil => exact .pure hw trivial
  | cons v values ih =>
    refine (v.same_graded hE hw target).bind fun found _ _ hleads _ => ?_
    cases found with
    | true => exact .pure hleads.holds trivial
    | false => exact ih hleads.holds

theorem climb_graded (hw : K.Holds G w) (rounds : Nat) (last : Value) :
    K.Tries G w (s.climb E target rounds last) fun _ _ _ => True := by
  induction rounds generalizing G w last with
  | zero => exact .lift .starve
  | succ rounds ih =>
    unfold climb
    split
    · refine (advance_graded hE hw).bind fun x _ _ hleads _ => ?_
      cases x with
      | none => exact .pure hleads.holds trivial
      | some v =>
        refine (Tries.lift (v.same_graded hE hleads.holds target)).bind ?_
        intro found _ _ hleads' _
        cases found with
        | true => exact .pure hleads'.holds trivial
        | false => exact ih hleads'.holds v
    · exact .pure hw trivial

theorem contains_graded (hw : K.Holds G w) (hs : s.id < w.sequences.size) :
    K.Tries G w (s.contains E target) fun _ _ _ => True := by
  refine .get_bind ?_
  dsimp only
  split
  · refine (Tries.lift (anySame_graded hE hw _)).bind fun found _ _ hleads _ => ?_
    cases found with
    | true => exact .pure hleads.holds trivial
    | false => exact climb_graded hE hleads.holds _ _
  · exact scan_graded hE hw _ (hw.iteration ⟨hs, Nat.le_refl _⟩)

theorem countSame_graded (hw : K.Holds G w) (values : List Value) :
    K.Keeps G w (countSame E target values) fun _ _ _ => True := by
  unfold countSame
  generalize 0 = n
  induction values generalizing G w n with
  | nil => exact .pure hw trivial
  | cons v values ih =>
    rw [List.foldlM_cons]
    have hone : K.Keeps G w (do return if ← v.same E target then n + 1 else n : Act H Nat)
        fun _ _ _ => True :=
      (v.same_graded hE hw target).bind fun _ _ _ hleads _ => .pure hleads.holds trivial
    exact hone.bind fun _ _ _ hleads _ => ih hleads.holds _

theorem count_graded (hw : K.Holds G w) :
    K.Tries G w (s.count E target) fun _ _ _ => True :=
  (materialize_graded hE hw).bind fun _ _ _ hleads _ => .lift (countSame_graded hE hleads.holds _)

end Sequence

/-! ### Reading as a type of the host -/

theorem Value.read_graded (hw : K.Holds G w) (v : Value) (type : HostType) :
    K.Tries G w (v.read E type) fun _ _ _ => True :=
  (v.flattenWithin_graded hE hw _).bind fun _ _ _ hleads _ =>
    .ofOutcome hleads.holds fun _ _ => trivial

end Driving

end MemoSeq

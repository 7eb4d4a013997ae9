/-
  MemoSeq/Proofs/Limit/Asking.lean
  =================================
  **What sequences and iterations answer under a plan.**

  Whatever a sequence is asked for, it replies what the plan says, or, where that may
  happen, that a limit was met; in both cases the plan is followed afterwards
  (`World.Brings`).  The same goes for iterations that are driven to their end
  (`Iteration.Prospect.exhaust`).
-/
import MemoSeq.Proofs.Forcing
import MemoSeq.Proofs.Limit.Logging
import MemoSeq.Proofs.Pipeline.Program

namespace MemoSeq

variable {H : Host} {B : Behavior H} {π : Plan} {late : Prop}
variable {w w' : World H} {n k depth : Nat} {values : List Value}

/-- A plan that is well made, and a world that follows it with nothing at work. -/
structure World.Sound (B : Behavior H) (π : Plan) (w : World H) : Prop where
  proper : π.Proper
  holds : w.Holds B π ∅ ∅

/-- How far down the engine must reach. -/
def Plan.enough (π : Plan) : Nat := π.next + π.bound + 3

section Asking

variable (hproper : π.Proper) (hdepth : π.enough ≤ depth) (hw : w.Holds B π ∅ ∅)

include hproper hdepth hw

omit hproper hw in
theorem Plan.lt_fuel (hfits : values.length ≤ π.bound) :
    values.length + 1 < (Engine.ofBehavior B depth).fuel := by
  refine Nat.lt_of_le_of_lt (Nat.succ_le_succ hfits) (Engine.lt_fuel ?_)
  simp only [enough] at hdepth
  omega

/-! ### Iterations -/

theorem Iteration.Prospect.next_of_proper {i : Iteration}
    (h : i.Prospect π w π.next late values) :
    ∃ x i' w' left, (i.next (.ofBehavior B depth)).run w = .ok ((x, i'), w') ∧
      w.Proceeds B π ∅ ∅ w' ∧ Comes π w' (late ∧ π.spoilt) values x left ∧
      i'.Prospect π w' π.next (late ∧ Healthy x) left :=
  h.next (fun j _ => Reader.servedBy hproper j) (Nat.le_of_succ_le hdepth) (by simp) (by simp) hw

/-- An iteration with nothing in prospect, not even a failure, is at its end. -/
theorem Iteration.Prospect.exhaust_nil {i : Iteration} (h : i.Prospect π w π.next False [])
    {rounds : Nat} (hrounds : 0 < rounds) :
    ∃ i' w', (Pipeline.exhaust (.ofBehavior B depth) rounds i).run w = .ok (([], i'), w') ∧
      w.Proceeds B π ∅ ∅ w' ∧ i'.Prospect π w' π.next False [] := by
  obtain ⟨rounds, rfl⟩ := Nat.exists_eq_add_one_of_ne_zero (Nat.ne_of_gt hrounds)
  obtain ⟨x, i', w', left, hrun, hproceeds, hcomes, hi'⟩ := h.next_of_proper hproper hdepth hw
  cases hcomes with
  | struck _ _ hf _ => exact hf.1.elim
  | ended =>
    refine ⟨i', w', ?_, hproceeds, hi'.mono (Nat.le_refl _) (.refl _ _ _) (.refl _) And.left⟩
    rw [Pipeline.exhaust, Act.run_bind_of_eq hrun]
    rfl

/-- What an iteration gives that is driven to its end: all that it has in prospect, unless a
    limit has struck. -/
inductive Iteration.Exhausts (π : Plan) (w : World H) (late : Prop) (values : List Value) :
    List Item → Prop
  | all (items : List Value) : List.Forall₂ (Value.StandsFor π w) items values →
      Exhausts π w late values (items.map .ok)
  | struck (items : List Item) : late ∧ π.spoilt → Exhausts π w late values items

theorem Iteration.Prospect.exhaust {i : Iteration} (h : i.Prospect π w π.next late values)
    {rounds : Nat} (hrounds : values.length + 1 < rounds) :
    ∃ items i' w', (Pipeline.exhaust (.ofBehavior B depth) rounds i).run w =
        .ok ((items, i'), w') ∧
      w.Proceeds B π ∅ ∅ w' ∧ i'.Prospect π w' π.next late [] ∧
      Exhausts π w' late values items := by
  -- an iteration that has given a failure gives nothing any more
  have hfailed {i : Iteration} {u : World H} {e : Error} {rounds : Nat} (hu : u.Holds B π ∅ ∅)
      (hi : i.Prospect π u π.next (late ∧ Healthy (some (.error e))) []) (hrounds : 0 < rounds) :
      ∃ i' w', (Pipeline.exhaust (.ofBehavior B depth) rounds i).run u = .ok (([], i'), w') ∧
        u.Proceeds B π ∅ ∅ w' ∧ i'.Prospect π w' π.next late [] := by
    have hi' := hi.mono (Nat.le_refl _) (.refl _ _ _) (.refl u) fun hh => hh.2 e rfl
    obtain ⟨i', w', hrun, hproceeds, hspent⟩ := hi'.exhaust_nil hproper hdepth hu hrounds
    exact ⟨i', w', hrun, hproceeds, hspent.mono (Nat.le_refl _) (.refl _ _ _) (.refl _) False.elim⟩
  induction values generalizing w i rounds with
  | nil =>
    obtain ⟨rounds, rfl⟩ := Nat.exists_eq_add_one_of_ne_zero (Nat.ne_zero_of_lt hrounds)
    obtain ⟨x, i', u, left, hrun, hproceeds, hcomes, hi'⟩ := h.next_of_proper hproper hdepth hw
    rw [Pipeline.exhaust, Act.run_bind_of_eq hrun]
    cases hcomes with
    | ended =>
      exact ⟨[], i', u, rfl, hproceeds,
        hi'.mono (Nat.le_refl _) (.refl _ _ _) (.refl u) And.left, .all [] .nil⟩
    | struck _ e hf he =>
      obtain ⟨i'', w', hrest, hproceeds', hspent⟩ :=
        hfailed hproceeds.holds hi' (Nat.lt_of_succ_lt_succ hrounds)
      exact ⟨[.error e], i'', w', Act.run_bind_of_eq hrest, hproceeds.trans hproceeds', hspent,
        .struck _ hf⟩
  | cons a values ih =>
    obtain ⟨rounds, rfl⟩ := Nat.exists_eq_add_one_of_ne_zero (Nat.ne_zero_of_lt hrounds)
    obtain ⟨x, i', u, left, hrun, hproceeds, hcomes, hi'⟩ := h.next_of_proper hproper hdepth hw
    rw [Pipeline.exhaust, Act.run_bind_of_eq hrun]
    cases hcomes with
    | struck _ e hf he =>
      obtain ⟨i'', w', hrest, hproceeds', hspent⟩ :=
        hfailed hproceeds.holds hi' (Nat.zero_lt_of_lt (Nat.lt_of_succ_lt_succ hrounds))
      exact ⟨[.error e], i'', w', Act.run_bind_of_eq hrest, hproceeds.trans hproceeds', hspent,
        .struck _ hf⟩
    | due v _ _ hv =>
      have hi'' := hi'.mono (Nat.le_refl _) (.refl _ _ _) (.refl u) And.left
      obtain ⟨items, i'', w', hrest, hproceeds', hend, hitems⟩ :=
        ih hproceeds.holds hi'' (Nat.lt_of_succ_lt_succ hrounds)
      refine ⟨.ok v :: items, i'', w', Act.run_bind_of_eq hrest, hproceeds.trans hproceeds', hend,
        ?_⟩
      cases hitems with
      | all items hitems => exact .all (v :: items) (.cons (hv.later hproceeds'.toLater) hitems)
      | struck _ hf => exact .struck _ hf

/-! ### Sequences that answer -/

section Brings

variable {s : Sequence} (hs : w.Places π k s)
include hs

theorem Sequence.brings_advance_of_proper :
    w.Brings B π ∅ ∅ (π.frail k) False (s.advance (.ofBehavior B depth)) (s.Steps π w k) :=
  brings_advance (fun j _ => Reader.servedBy hproper j) (Nat.le_of_succ_le hdepth) (by simp)
    (by simp) hw hproper hs (hs.lt_next hproper)

theorem Sequence.brings_materialize_of_proper :
    w.Brings B π ∅ ∅ (π.limited ∨ π.frail k) False (s.materialize (.ofBehavior B depth))
      fun w' all => all = (w'.sequence s).cache ∧
        List.Forall₂ (Value.StandsFor π w') all.toList (π.face k) :=
  brings_materialize (fun j _ => Reader.servedBy hproper j) (Nat.le_of_succ_le hdepth) (by simp)
    (by simp) hw hproper hs (hs.lt_next hproper)

theorem Sequence.brings_length :
    w.Brings B π ∅ ∅ (π.limited ∨ π.frail k) False (s.length (.ofBehavior B depth))
      fun w' count => count = (π.face k).length ∧ (w'.sequence s).cache.size = count := by
  refine (brings_materialize_of_proper hproper hdepth hw hs).told fun u all hall => ?_
  obtain ⟨rfl, hshown⟩ := hall
  exact ⟨Array.length_toList.symm.trans hshown.length_eq, rfl⟩

/-- Producing some more values, as far as there are so many. -/
theorem Sequence.brings_produce (count : Nat) :
    w.Brings B π ∅ ∅ (π.frail k) False (s.produce (.ofBehavior B depth) count) fun w' enough =>
      enough = decide ((w.sequence s).cache.size + count ≤ (π.face k).length) ∧
      (w'.sequence s).cache.size = min ((w.sequence s).cache.size + count) (π.face k).length := by
  induction count generalizing w with
  | zero =>
    have hle := hw.size_cache_le hs (Set.notMem_empty k)
    refine .pure hw ⟨?_, by omega⟩
    rw [Nat.add_zero, decide_eq_true hle]
  | succ count ih =>
    refine (brings_advance_of_proper hproper hdepth hw hs).bind fun x u hproceeds hx => ?_
    cases hx with
    | ended hend hsize =>
      refine .pure hproceeds.holds ⟨?_, by omega⟩
      rw [decide_eq_false (by omega)]
    | next v a ha _ hsize =>
      have hlt := (List.getElem?_eq_some_iff.mp ha).1
      refine (ih hproceeds.holds (hproceeds.places hs)).imp (·) False.elim fun w' enough h => ?_
      have hnext : (u.sequence s).cache.size + count = (w.sequence s).cache.size + (count + 1) := by
        omega
      rw [hnext] at h
      exact h

/-- An index finds the value that wrapping around gives, however much is forced. -/
theorem Sequence.brings_read (index : Int) :
    w.Brings B π ∅ ∅ (π.limited ∨ π.frail k) False (s.read (.ofBehavior B depth) index)
      fun w' v => v.StandsFor π w' (Plain.read (π.face k) index) := by
  have hzero (u : World H) : Value.StandsFor π u .zero .zero := .scalar _ rfl
  -- a negative index needs the list as a whole, another one only what is before it
  by_cases hneg : index < 0
  · rw [read, if_pos hneg]
    refine (brings_materialize_of_proper hproper hdepth hw hs).told fun u all hforced => ?_
    have hwrapped : wrapped all index = Plain.read all.toList index :=
      Plain.wrapped_toArray all.toList index
    rw [hwrapped]
    exact Plain.rel_read (hzero u) hforced.2 index
  · rw [read, if_neg hneg]
    have hforce : w.Brings B π ∅ ∅ (π.frail k) False
        (s.forceThrough (.ofBehavior B depth) index.toNat) _ :=
      .get_bind (brings_produce hproper hdepth hw hs
        (index.toNat + 1 - (w.sequence s).cache.size))
    refine (hforce.weaken .inr).bind fun enough u hproceeds h => .get_bind ?_
    obtain ⟨shown, left, hshown, hcache⟩ :=
      hproceeds.holds.cached (hproceeds.places hs) (Set.notMem_empty k)
    have hcount : (u.sequence s).cache.size = shown.length :=
      Array.length_toList.symm.trans hcache.length_eq
    have hlength : (π.face k).length = shown.length + left.length := by
      rw [hshown, List.length_append]
    refine .pure hproceeds.holds ?_
    have hwrapped : wrapped (u.sequence s).cache index =
        Plain.read (u.sequence s).cache.toList index :=
      Plain.wrapped_toArray (u.sequence s).cache.toList index
    rw [hwrapped]
    have hread := Plain.rel_read (hzero u) hcache index
    -- what is not there yet would not be found there either
    have hface : Plain.read (π.face k) index = Plain.read shown index := by
      have htake : shown = (π.face k).take shown.length := by rw [hshown, List.take_left]
      rw [htake]
      exact (read_take (Int.not_lt.mp hneg) (by omega)).symm
    rwa [hface]

theorem Sequence.brings_readRange (step : Int) (count : Nat) (index : Int) (done : Array Value)
    (shown : List Value) (hdone : List.Forall₂ (Value.StandsFor π w) done.toList shown) :
    w.Brings B π ∅ ∅ (π.limited ∨ π.frail k) False
      (s.readRange (.ofBehavior B depth) step count index done) fun w' all =>
        List.Forall₂ (Value.StandsFor π w') all (shown ++ (List.range count).map fun (i : Nat) =>
          Plain.read (π.face k) (index + i * step)) := by
  induction count generalizing w index done shown with
  | zero =>
    rw [readRange, List.range_zero, List.map_nil, List.append_nil]
    exact .pure hw hdone
  | succ count ih =>
    have hfirst : Plain.read (π.face k) index =
        Plain.read (π.face k) (index + ((0 : Nat) : Int) * step) := by simp
    have hlater : (fun (i : Nat) => Plain.read (π.face k) (index + step + i * step)) =
        (fun (i : Nat) => Plain.read (π.face k) (index + i * step)) ∘ Nat.succ := by
      funext i
      refine congrArg (Plain.read (π.face k)) ?_
      push_cast
      ring
    refine (brings_read hproper hdepth hw hs index).bind fun v u hproceeds hv => ?_
    have hpushed : List.Forall₂ (Value.StandsFor π u) (done.push v).toList
        (shown ++ [Plain.read (π.face k) index]) := by
      rw [Array.toList_push]
      exact List.rel_append (hdone.imp fun _ _ ha => ha.later hproceeds.toLater) (.cons hv .nil)
    have hrest := ih hproceeds.holds (hproceeds.places hs) (index + step) (done.push v) _ hpushed
    rw [List.append_assoc, List.singleton_append, hlater] at hrest
    rw [List.range_succ_eq_map, List.map_cons, List.map_map, ← hfirst]
    exact hrest

/-- A slice with a stop reads each position of its range. -/
theorem Sequence.brings_slice (start : Option Int) (stop : Int) (step : Option Int) :
    w.Brings B π ∅ ∅ (π.limited ∨ π.frail k) False
      (s.slice (.ofBehavior B depth) start (some stop) step) fun w' slice =>
        ∃ items, slice = .items items ∧
          List.Forall₂ (Value.StandsFor π w') items
            (Plain.slice (π.face k) start (some stop) step) := by
  have hitems (stop : Int) {v : World H} (hv : v.Holds B π ∅ ∅) (hs : v.Places π k s) :
      v.Brings B π ∅ ∅ (π.limited ∨ π.frail k) False (do
        return Slice.items (← s.readRange (.ofBehavior B depth) (Plain.stepOf step)
          (rangeCount (start.getD 0) stop (Plain.stepOf step)) (start.getD 0) #[])) fun w' slice =>
        ∃ items, slice = .items items ∧ List.Forall₂ (Value.StandsFor π w') items
          ((List.range (rangeCount (start.getD 0) stop (Plain.stepOf step))).map
            fun (i : Nat) => Plain.read (π.face k) (start.getD 0 + i * Plain.stepOf step)) :=
    (brings_readRange hproper hdepth hv hs _ _ _ #[] [] .nil).told
      fun _ items h => ⟨items, rfl, h⟩
  simp only [slice_eq, Plain.slice, Plain.window]
  by_cases hneg : stop < 0
  · simp only [if_pos hneg]
    refine (brings_length hproper hdepth hw hs).bind fun count v hv hcount => ?_
    obtain ⟨rfl, -⟩ := hcount
    exact hitems _ hv.holds (hv.places hs)
  · simp only [if_neg hneg]
    exact hitems _ hw hs

end Brings

end Asking

end MemoSeq

/-
  MemoSeq/Proofs/Limit/Comparing.lean
  ====================================
  **Flattening and comparing under a plan.**

  To flatten a list is to force it and all lists within it, and two lists are compared by
  what they flatten to.  What that comes to can be told by the plan alone
  (`Outline.flatWithin` and what is built on it), unless a list that is met on the way
  cannot be forced because of a limit (`Plan.Shaky`).  There need not be an answer: a list
  may be within itself, and flattening it comes to no end.

  A comparison that fails counts as unequal, so while there is a limit an answer may be
  wrong.  Therefore all that is said of one that is shaky is that the plan is followed
  afterwards (`World.Answers`).
-/
import MemoSeq.Proofs.Climbing
import MemoSeq.Proofs.Limit.Asking

namespace MemoSeq

variable {H : Host} {B : Behavior H} {π : Plan} {late : Prop}
variable {w w' : World H} {n k depth : Nat} {values : List Value}

theorem World.Holds.infinite_eq {M N : Set Nat} {s : Sequence} (hw : w.Holds B π M N)
    (hs : w.Places π k s) (hfree : k ∉ N) : (w.sequence s).infinite = π.infinite k := by
  have hfollows := hw.sequences k s hs hfree
  generalize w.sequence s = c at hfollows
  cases hfollows with
  | reading | done | failed => rfl

/-! ### Acts that halt -/

theorem Act.run_bind_of_halt {α β : Type} {a : Act H α} {f : α → Act H β} {h : Halt}
    (hrun : a.run w = .error h) : (a >>= f).run w = .error h := by
  change (a.run w >>= fun p => (f p.1).run p.2) = .error h
  rw [hrun]
  rfl

theorem Attempt.run_lift_of_halt {α : Type} {a : Act H α} {h : Halt} (hrun : a.run w = .error h) :
    (liftM a : Attempt H α).run.run w = .error h := by
  change (Except.ok <$> a : Act H (Except Error α)).run w = .error h
  rw [map_eq_pure_bind]
  exact Act.run_bind_of_halt hrun

theorem World.Brings.lift_bind {α β : Type} {M N : Set Nat} {cause stuck : Prop} {a : Act H α}
    {x : α} {f : α → Attempt H β} {fine : World H → β → Prop} (hrun : a.run w = .ok (x, w'))
    (hproceeds : w.Proceeds B π M N w') (h : w'.Brings B π M N cause stuck (f x) fine) :
    w.Brings B π M N cause stuck ((liftM a : Attempt H α) >>= f) fine :=
  .run_bind (Attempt.run_lift_eq_ok.mpr ⟨x, hrun, rfl⟩) hproceeds h

/-- An act does not fail. -/
theorem World.Brings.of_lift {α : Type} {M N : Set Nat} {cause stuck : Prop} {a : Act H α}
    {good : World H → α → Prop} (h : w.Brings B π M N cause stuck (liftM a : Attempt H α) good) :
    w.Brings B π M N False stuck (liftM a : Attempt H α) good := by
  cases h with
  | comes x w' hrun hproceeds hx => exact .comes x w' hrun hproceeds hx
  | starves hrun hstuck => exact .starves hrun hstuck
  | fails e w' hrun =>
    obtain ⟨x, -, hx⟩ := Attempt.run_lift_eq_ok.mp hrun
    cases hx

/-! ### What a plan says -/

namespace Outline

variable (O : Outline)

/-- What a value flattens to, if nothing in it is nested more than so many levels deep. -/
def flatWithin : Nat → Value → Option Flat
  | _, .int n => return .int n
  | _, .rational r => return .float (.ofRat r)
  | _, .str text => return .str text
  | 0, .list _ => none
  | levels + 1, .list s => do
    return .list (← (O.face s.id).mapM (flatWithin levels))

def equals? (levels : Nat) (a b : Value) : Option Bool := do
  let f ← O.flatWithin levels a
  let g ← O.flatWithin levels b
  return f.equal g

/-- A list is equal to itself, whatever is in it. -/
def same? (levels : Nat) : Value → Value → Option Bool
  | .list s, .list t => if s = t then return true else O.equals? levels (.list s) (.list t)
  | a, b => return a.sameScalar b

def contains? (levels : Nat) (target : Value) : List Value → Option Bool
  | [] => return false
  | a :: values => do
    if ← O.same? levels a target then return true else contains? levels target values

def count? (levels : Nat) (target : Value) (values : List Value) : Option Nat :=
  values.foldlM (fun n a => return if ← O.same? levels a target then n + 1 else n) 0

/-- A list that is said to be infinite keeps that word, and a number is looked for in it that
    is not negative. -/
structure Climbs (k : Nat) (target : Value) : Prop where
  number : target.isNumber = true
  nonnegative : Value.zero.atMost target = true
  numbers : ∀ v ∈ O.face k, v.isNumber = true
  sorted : (O.face k).Pairwise fun v u => v.atMost u = true

/-- The lists that are forced when a value is flattened. -/
inductive Reaches : Value → Nat → Prop
  | here (k : Nat) : Reaches (.list ⟨k⟩) k
  | item (k j : Nat) (a : Value) : a ∈ O.face k → Reaches a j → Reaches (.list ⟨k⟩) j

end Outline

/-- A limit may be met when this value is flattened. -/
def Plan.Shaky (π : Plan) (a : Value) : Prop :=
  π.limited ∨ ∃ k, π.toOutline.Reaches a k ∧ π.frail k

theorem Plan.shaky_of_force (h : π.limited ∨ π.frail k) : π.Shaky (.list ⟨k⟩) :=
  h.imp_right fun hf => ⟨k, .here k, hf⟩

theorem Plan.Shaky.of_item {a : Value} (ha : a ∈ π.face k) (h : π.Shaky a) :
    π.Shaky (.list ⟨k⟩) :=
  h.imp_right fun ⟨j, hj, hf⟩ => ⟨j, .item k j a ha hj, hf⟩

/-- A limit may be met when this value is looked for in a list.  Only another list is looked
    into. -/
def Plan.Doubtful (π : Plan) (k : Nat) (target : Value) : Prop :=
  (π.limited ∨ π.frail k) ∨ target.asList? ≠ none ∧ (π.Shaky (.list ⟨k⟩) ∨ π.Shaky target)

/-! ### Attempts that answer -/

/-- Gives the answer if there is one, unless that is shaky.  It may lack the means to come to
    an end only where it goes deep. -/
abbrev World.Answers {α : Type} (B : Behavior H) (π : Plan) (w : World H) (shaky deep : Prop)
    (a : Attempt H α) (answer : Option α) : Prop :=
  w.Brings B π ∅ ∅ shaky (deep ∧ (shaky ∨ answer = none)) a fun _ x => shaky ∨ answer = some x

namespace World.Answers

variable {α β : Type} {shaky shaky' deep deep' : Prop} {a : Attempt H α} {answer : Option α}

theorem pure (hw : w.Holds B π ∅ ∅) (x : α) :
    w.Answers B π shaky deep (Pure.pure x : Attempt H α) (some x) :=
  Brings.pure hw (.inr rfl)

theorem imp (h : w.Answers B π shaky deep a answer) (hshaky : shaky → shaky')
    (hdeep : deep → deep') : w.Answers B π shaky' deep' a answer :=
  Brings.imp h hshaky (And.imp hdeep (Or.imp_left hshaky)) fun _ _ => Or.imp_left hshaky

theorem bind {f : α → Attempt H β} {g : α → Option β} (h : w.Answers B π shaky deep a answer)
    (hf : ∀ x w', w.Proceeds B π ∅ ∅ w' → shaky ∨ answer = some x →
      w'.Answers B π shaky deep (f x) (g x)) :
    w.Answers B π shaky deep (a >>= f) (answer >>= g) := by
  have hnone : answer = none → (answer >>= g) = none := by
    rintro rfl
    rfl
  refine Brings.bind (Brings.imp h (·) (And.imp_right (Or.imp_right hnone)) fun _ _ => (·))
    fun x w' hproceeds hx => ?_
  · -- where the first answer is in doubt, so is all that is behind it
    rcases hx with hshaky | rfl
    · exact Brings.imp (hf x w' hproceeds (.inl hshaky)) (·) (And.imp_right fun _ => .inl hshaky)
        fun _ _ _ => .inl hshaky
    · exact hf x w' hproceeds (.inr rfl)

theorem map {f : α → β} (h : w.Answers B π shaky deep a answer) :
    w.Answers B π shaky deep (a >>= fun x => Pure.pure (f x))
      (answer >>= fun x => Pure.pure (f x)) :=
  h.bind fun x _ hproceeds _ => .pure hproceeds.holds (f x)

/-- Something is forced first. -/
theorem of_brings {f : α → Attempt H β} {answer : Option β} {cause : Prop}
    {good : World H → α → Prop} (h : w.Brings B π ∅ ∅ cause False a good) (hcause : cause → shaky)
    (hf : ∀ x w', w.Proceeds B π ∅ ∅ w' → good w' x →
      w'.Answers B π shaky deep (f x) answer) :
    w.Answers B π shaky deep (a >>= f) answer :=
  Brings.bind (h.imp hcause False.elim fun _ _ => (·)) hf

end World.Answers

/-! ### Flattening -/

section Comparing

variable (hproper : π.Proper) (hdepth : π.enough ≤ depth) (hw : w.Holds B π ∅ ∅)
include hproper hdepth hw

theorem Value.answers_flattenWithin (levels : Nat) {v a : Value} (hv : v.StandsFor π w a) :
    w.Answers B π (π.Shaky a) True (v.flattenWithin (.ofBehavior B depth) levels)
      (π.flatWithin levels a) := by
  induction levels generalizing w v a with
  | zero =>
    cases hv with
    | list s k hs => exact .starves rfl ⟨trivial, .inr rfl⟩
    | scalar v hscalar =>
      cases v with
      | list s => cases hscalar
      | int | rational | str => exact .pure hw _
  | succ levels ih =>
    cases hv with
    | scalar v hscalar =>
      cases v with
      | list s => cases hscalar
      | int | rational | str => exact .pure hw _
    | list s k hs =>
      -- the items one by one, as far as they are items of this list
      have hitems {u : World H} {items shown : List Value} (hu : u.Holds B π ∅ ∅)
          (hitems : List.Forall₂ (Value.StandsFor π u) items shown) (hsub : shown ⊆ π.face k) :
          u.Answers B π (π.Shaky (.list ⟨k⟩)) True
            (items.mapM (Value.flattenWithin (.ofBehavior B depth) levels))
            (shown.mapM (π.flatWithin levels)) := by
        induction items generalizing u shown with
        | nil =>
          cases hitems
          exact .pure hu _
        | cons v items ihitems =>
          cases hitems with
          | @cons _ a _ shown hv hrest =>
            rw [List.mapM_cons, List.mapM_cons]
            have ha : a ∈ π.face k := hsub List.mem_cons_self
            refine World.Answers.bind ((ih hu hv).imp (.of_item ha) (·)) fun f u' hproceeds _ => ?_
            refine World.Answers.map (ihitems hproceeds.holds ?_ fun b hb => ?_)
            · exact hrest.imp fun _ _ hb => hb.later hproceeds.toLater
            · exact hsub (List.mem_cons_of_mem a hb)
      refine .of_brings (Sequence.brings_materialize_of_proper hproper hdepth hw hs)
        Plan.shaky_of_force fun all u hproceeds hall => ?_
      exact World.Answers.map (hitems hproceeds.holds hall.2 fun _ => (·))

/-- Nothing is nested deeper than the engine can go along a list. -/
theorem Value.answers_flatten {v a : Value} (hv : v.StandsFor π w a) :
    w.Answers B π (π.Shaky a) True (v.flatten (.ofBehavior B depth))
      (π.flatWithin (Engine.ofBehavior B depth).fuel a) :=
  Value.answers_flattenWithin hproper hdepth hw _ hv

/-! ### Comparing -/

theorem Sequence.answers_equals {s : Sequence} (hs : w.Places π k s) {v b : Value}
    (hv : v.StandsFor π w b) :
    w.Answers B π (π.Shaky (.list ⟨k⟩) ∨ π.Shaky b) True (s.equals (.ofBehavior B depth) v)
      (π.equals? (Engine.ofBehavior B depth).fuel (.list ⟨k⟩) b) := by
  have hleft := Value.answers_flatten hproper hdepth hw (.list s k hs)
  refine World.Answers.bind (hleft.imp Or.inl (·)) fun f u hproceeds _ => ?_
  exact World.Answers.map ((Value.answers_flatten hproper hdepth hproceeds.holds
    (hv.later hproceeds.toLater)).imp Or.inr (·))

theorem Sequence.answers_same {s t : Sequence} {l : Nat} (hs : w.Places π k s)
    (ht : w.Places π l t) :
    w.Answers B π (π.Shaky (.list ⟨k⟩) ∨ π.Shaky (.list ⟨l⟩)) True
      (liftM (s.same (.ofBehavior B depth) t) : Attempt H Bool)
      (π.same? (Engine.ofBehavior B depth).fuel (.list ⟨k⟩) (.list ⟨l⟩)) := by
  have hlift {b : Bool} {u : World H} (hrun : (s.same (.ofBehavior B depth) t).run w = .ok (b, u)) :
      (liftM (s.same (.ofBehavior B depth) t) : Attempt H Bool).run.run w = .ok (.ok b, u) :=
    Attempt.run_lift_eq_ok.mpr ⟨b, hrun, rfl⟩
  by_cases heq : s = t
  · subst heq
    obtain rfl := hw.single k l s hs ht
    refine .comes true w (hlift ?_) (.refl hw) (.inr ?_)
    · rw [Sequence.same, if_pos rfl]
      rfl
    · rw [Outline.same?, if_pos rfl]
      rfl
  · have hne : (⟨k⟩ : Sequence) ≠ ⟨l⟩ := by
      rintro ⟨⟩
      exact heq (hs.unique hproper ht)
    have hequals := answers_equals hproper hdepth hw hs (.list t l ht)
    rw [Outline.same?, if_neg hne]
    -- a comparison that fails counts as unequal, and that is what is in doubt
    cases hequals with
    | comes b u hrun hproceeds hb =>
      refine .comes b u (hlift ?_) hproceeds hb
      rw [Sequence.same, if_neg heq]
      exact Act.run_bind_of_eq hrun
    | fails e u hrun hproceeds hcause he =>
      refine .comes false u (hlift ?_) hproceeds (.inl hcause)
      rw [Sequence.same, if_neg heq]
      exact Act.run_bind_of_eq hrun
    | starves hrun hstuck =>
      refine .starves (Attempt.run_lift_of_halt ?_) hstuck
      rw [Sequence.same, if_neg heq]
      exact Act.run_bind_of_halt hrun

/-- Only a list that is compared with another one is looked into. -/
theorem Value.answers_same {v a t b : Value} (hv : v.StandsFor π w a) (ht : t.StandsFor π w b) :
    w.Answers B π (b.asList? ≠ none ∧ (π.Shaky a ∨ π.Shaky b)) (b.asList? ≠ none)
      (liftM (v.same (.ofBehavior B depth) t) : Attempt H Bool)
      (π.same? (Engine.ofBehavior B depth).fuel a b) := by
  -- without looking into them
  have hplain {x : Bool} (hsame : v.same (.ofBehavior B depth) t = Pure.pure x)
      (hanswer : π.same? (Engine.ofBehavior B depth).fuel a b = some x) :
      w.Answers B π (b.asList? ≠ none ∧ (π.Shaky a ∨ π.Shaky b)) (b.asList? ≠ none)
        (liftM (v.same (.ofBehavior B depth) t) : Attempt H Bool)
        (π.same? (Engine.ofBehavior B depth).fuel a b) := by
    rw [hsame, hanswer]
    exact .pure hw x
  cases hv with
  | scalar v hscalar =>
    refine hplain (Value.same_eq (.inl hscalar)) ?_
    cases v with
    | list s => cases hscalar
    | int | rational | str =>
      cases ht with
      | list => rfl
      | scalar => rfl
  | list s k hs =>
    cases ht with
    | list t l ht =>
      have hlist : (Value.list ⟨l⟩).asList? ≠ none := Option.some_ne_none _
      exact (Sequence.answers_same hproper hdepth hw hs ht).imp (⟨hlist, ·⟩) fun _ => hlist
    | scalar t hscalar =>
      refine hplain (Value.same_eq (.inr hscalar)) ?_
      cases t with
      | list s => cases hscalar
      | int | rational | str => rfl

/-! ### Searching and counting -/

omit hproper hdepth hw in
theorem World.Answers.or {shaky deep : Prop} (hw : w.Holds B π ∅ ∅) {b : Bool}
    {a : Attempt H Bool} {answer : Option Bool} (h : w.Answers B π shaky deep a answer) :
    w.Answers B π shaky deep (if b then Pure.pure true else a)
      (if b then some true else answer) := by
  cases b with
  | true => exact .pure hw true
  | false => exact h

theorem Iteration.Prospect.answers_scan {shaky : Prop} {i : Iteration}
    (h : i.Prospect π w π.next late values) (hlate : late ∧ π.spoilt → shaky)
    {t b : Value} (ht : t.StandsFor π w b)
    (hshaky : b.asList? ≠ none → ∀ a ∈ values, π.Shaky a ∨ π.Shaky b → shaky) {rounds : Nat}
    (hrounds : values.length < rounds) :
    w.Answers B π shaky (b.asList? ≠ none) (Sequence.scan (.ofBehavior B depth) t rounds i)
      (π.contains? (Engine.ofBehavior B depth).fuel b values) := by
  induction values generalizing w i rounds with
  | nil =>
    obtain ⟨rounds, rfl⟩ := Nat.exists_eq_add_one_of_ne_zero (Nat.ne_zero_of_lt hrounds)
    obtain ⟨x, i', u, left, hrun, hproceeds, hcomes, -⟩ := h.next_of_proper hproper hdepth hw
    refine .lift_bind hrun hproceeds ?_
    cases hcomes with
    | ended => exact World.Answers.pure hproceeds.holds false
    | struck _ e hf he => exact .fails e u rfl (.refl hproceeds.holds) (hlate hf) he
  | cons a values ih =>
    obtain ⟨rounds, rfl⟩ := Nat.exists_eq_add_one_of_ne_zero (Nat.ne_zero_of_lt hrounds)
    obtain ⟨x, i', u, left, hrun, hproceeds, hcomes, hi'⟩ := h.next_of_proper hproper hdepth hw
    refine .lift_bind hrun hproceeds ?_
    cases hcomes with
    | struck _ e hf he => exact .fails e u rfl (.refl hproceeds.holds) (hlate hf) he
    | due v _ _ hv =>
      have hi'' := hi'.mono (Nat.le_refl _) (.refl _ _ _) (.refl u) And.left
      have hfirst := Value.answers_same hproper hdepth hproceeds.holds hv
        (ht.later hproceeds.toLater)
      have hdoubt := fun (hdeep : b.asList? ≠ none ∧ (π.Shaky a ∨ π.Shaky b)) =>
        hshaky hdeep.1 a List.mem_cons_self hdeep.2
      refine World.Answers.bind (hfirst.imp hdoubt (·)) fun found u' hproceeds' _ => ?_
      refine .or hproceeds'.holds (ih hproceeds'.holds
        (hi''.mono (Nat.le_refl _) (.refl _ _ _) hproceeds'.toLater (·))
        ((ht.later hproceeds.toLater).later hproceeds'.toLater)
        (fun hdeep c hc => hshaky hdeep c (List.mem_cons_of_mem a hc))
        (Nat.lt_of_succ_lt_succ hrounds))

/-! ### Lists that are searched -/

section Answers

variable {s : Sequence} (hs : w.Places π k s) {t b : Value} (ht : t.StandsFor π w b)
include hs ht

/-- A list that is not said to be infinite is searched along a fresh iteration. -/
theorem Sequence.answers_contains_of_finite (hfinite : π.infinite k = false) :
    w.Answers B π (π.Doubtful k b) (b.asList? ≠ none)
      (s.contains (.ofBehavior B depth) t)
      (π.contains? (Engine.ofBehavior B depth).fuel b (π.face k)) := by
  have hword := (hw.infinite_eq hs (Set.notMem_empty k)).trans hfinite
  have hfuel := Nat.lt_of_succ_lt (Plan.lt_fuel (B := B) hdepth (hproper.face k))
  have hiteration : (w.iteration s).Prospect π w π.next (π.late k) (π.face k) :=
    hw.iteration hs (hs.lt_next hproper) (Set.notMem_empty k) (·)
  refine .get_bind ?_
  simp only [hword, Bool.false_eq_true, if_false]
  exact hiteration.answers_scan hproper hdepth hw (Or.inl ∘ Or.inr) ht
    (fun hdeep _ ha hshaky => .inr ⟨hdeep, hshaky.imp_left (.of_item ha)⟩) hfuel

omit hs in
theorem Sequence.answers_countSame {shaky : Prop} {items shown : List Value} (start : Nat)
    (hitems : List.Forall₂ (Value.StandsFor π w) items shown)
    (hshaky : b.asList? ≠ none → ∀ a ∈ shown, π.Shaky a ∨ π.Shaky b → shaky) :
    w.Answers B π shaky (b.asList? ≠ none)
      (liftM (items.foldlM (fun n v => return if ← v.same (.ofBehavior B depth) t then n + 1 else n)
        start : Act H Nat) : Attempt H Nat)
      (shown.foldlM (fun n a => do
        return if ← π.same? (Engine.ofBehavior B depth).fuel a b then n + 1 else n) start) := by
  induction items generalizing w shown start with
  | nil =>
    cases hitems
    exact .pure hw start
  | cons v items ih =>
    cases hitems with
    | @cons _ a _ shown hv hrest =>
      simp only [List.foldlM_cons, bind_assoc, pure_bind, liftM_bind]
      have hfirst := Value.answers_same hproper hdepth hw hv ht
      have hdoubt := fun (hdeep : b.asList? ≠ none ∧ (π.Shaky a ∨ π.Shaky b)) =>
        hshaky hdeep.1 a List.mem_cons_self hdeep.2
      refine World.Answers.bind (hfirst.imp hdoubt (·)) fun found u hproceeds _ => ?_
      exact ih hproceeds.holds (ht.later hproceeds.toLater) _
        (hrest.imp fun _ _ hc => hc.later hproceeds.toLater)
        fun hdeep c hc => hshaky hdeep c (List.mem_cons_of_mem a hc)

theorem Sequence.answers_count :
    w.Answers B π (π.Doubtful k b) (b.asList? ≠ none)
      (s.count (.ofBehavior B depth) t)
      (π.count? (Engine.ofBehavior B depth).fuel b (π.face k)) :=
  .of_brings (brings_materialize_of_proper hproper hdepth hw hs) Or.inl
    fun _ _ hproceeds hall => answers_countSame hproper hdepth hproceeds.holds
      (ht.later hproceeds.toLater) 0 hall.2
      fun hdeep _ ha hshaky => .inr ⟨hdeep, hshaky.imp_left (.of_item ha)⟩

/-! ### Searching a list that is said to be infinite -/

omit hs in
theorem Value.brings_same {cause : Prop} {v a : Value} (hv : v.StandsFor π w a) :
    w.Brings B π ∅ ∅ cause (b.asList? ≠ none)
      (liftM (v.same (.ofBehavior B depth) t) : Attempt H Bool) fun _ _ => True :=
  (Value.answers_same hproper hdepth hw hv ht).of_lift.imp False.elim And.left
    fun _ _ _ => trivial

omit hs in
theorem Sequence.brings_anySame {cause : Prop} {items shown : List Value}
    (hitems : List.Forall₂ (Value.StandsFor π w) items shown) :
    w.Brings B π ∅ ∅ cause (b.asList? ≠ none)
      (liftM (anySame (.ofBehavior B depth) t items) : Attempt H Bool) fun _ _ => True := by
  induction items generalizing w shown with
  | nil => exact .pure hw trivial
  | cons v items ih =>
    cases hitems with
    | cons hv hrest =>
      rw [anySame, liftM_bind]
      refine (Value.brings_same hproper hdepth hw ht hv).bind fun found u hproceeds _ => ?_
      cases found with
      | true => exact .pure hproceeds.holds trivial
      | false =>
        exact ih hproceeds.holds (ht.later hproceeds.toLater)
          (hrest.imp fun _ _ hc => hc.later hproceeds.toLater)

omit hproper hdepth hw hs ht in
/-- No list is ordered against anything. -/
theorem Value.asList?_of_atMost {v u : Value} (h : v.atMost u = true) : u.asList? = none := by
  cases u with
  | int | rational | str => rfl
  | list s =>
    have hnone : v.compare? (.list s) = none := by
      cases v with
      | int | rational | str | list => rfl
    rw [atMost, less, hnone] at h
    cases h

omit ht in
/-- A search that goes on while the latest value is small enough: each round caches one
    more.  What is looked for is not a list then. -/
theorem Sequence.brings_climb (last : Value) {rounds : Nat}
    (hrounds : (π.face k).length < (w.sequence s).cache.size + rounds) (hpos : 0 < rounds) :
    w.Brings B π ∅ ∅ (π.frail k) False (s.climb (.ofBehavior B depth) t rounds last)
      fun _ _ => True := by
  induction rounds generalizing w last with
  | zero => cases hpos
  | succ rounds ih =>
    rw [climb]
    split
    case isFalse => exact .pure hw trivial
    case isTrue hle =>
      refine (brings_advance_of_proper hproper hdepth hw hs).bind fun x u hproceeds hx => ?_
      cases hx with
      | ended => exact .pure hproceeds.holds trivial
      | next v a ha hv hsize =>
        have hlt := (List.getElem?_eq_some_iff.mp ha).1
        -- numbers and texts are compared at once
        have hsame : (v.same (.ofBehavior B depth) t).run u = .ok (v.sameScalar t, u) := by
          rw [Value.same_eq (.inr (Value.asList?_of_atMost hle))]
          rfl
        refine .lift_bind hsame (.refl hproceeds.holds) ?_
        cases v.sameScalar t with
        | true => exact .pure hproceeds.holds trivial
        | false => exact ih hproceeds.holds (hproceeds.places hs) v (by omega) (by omega)

theorem Sequence.brings_contains (hinfinite : π.infinite k = true) :
    w.Brings B π ∅ ∅ (π.frail k) (b.asList? ≠ none) (s.contains (.ofBehavior B depth) t)
      fun _ _ => True := by
  have hword := (hw.infinite_eq hs (Set.notMem_empty k)).trans hinfinite
  have hfuel := Nat.lt_of_succ_lt (Plan.lt_fuel (B := B) hdepth (hproper.face k))
  obtain ⟨shown, left, hshown, hcache⟩ := hw.cached hs (Set.notMem_empty k)
  refine .get_bind ?_
  simp only [hword, if_true]
  refine (brings_anySame hproper hdepth hw ht hcache).bind fun found u hproceeds _ => ?_
  cases found with
  | true => exact .pure hproceeds.holds trivial
  | false =>
    have hclimb := brings_climb hproper hdepth hproceeds.holds (hproceeds.places hs) (t := t)
      ((w.sequence s).cache.back?.getD .zero) (Nat.lt_add_left _ hfuel) (Nat.zero_lt_of_lt hfuel)
    exact hclimb.imp (·) False.elim fun _ _ => (·)

omit hproper hdepth hw hs ht in
theorem Value.StandsFor.eq_of_isNumber {v a : Value} (h : v.StandsFor π w a)
    (hnumber : v.isNumber = true ∨ a.isNumber = true) : v = a := by
  cases h with
  | scalar => rfl
  | list => exact hnumber.elim nofun nofun

omit hproper hdepth hw hs ht in
theorem Value.StandsFor.eq_of_numbers {items shown : List Value}
    (h : List.Forall₂ (Value.StandsFor π w) items shown)
    (hnumbers : (∀ v ∈ items, v.isNumber = true) ∨ ∀ a ∈ shown, a.isNumber = true) :
    items = shown := by
  induction h with
  | nil => rfl
  | cons hv _ ih =>
    rw [List.forall_mem_cons, List.forall_mem_cons] at hnumbers
    rw [hv.eq_of_isNumber (hnumbers.imp And.left And.left),
      ih (hnumbers.imp And.right And.right)]

omit hw ht in
/-- A list of numbers that cannot have been struck unfolds to what it shows. -/
theorem Sequence.unfolds_of_numbers (hnumbers : ∀ v ∈ π.face k, v.isNumber = true)
    (hsafe : ¬π.frail k) : s.Unfolds (.ofBehavior B depth) (π.face k) (w.Proceeds B π ∅ ∅ ·) := by
  refine ⟨fun u hu => ?_, fun u hu => ?_⟩
  · obtain ⟨shown, left, hshown, hcache⟩ :=
      hu.holds.cached (hu.places hs) (Set.notMem_empty k)
    have hsame : (u.sequence s).cache.toList = shown :=
      Value.StandsFor.eq_of_numbers hcache (.inr fun v hv =>
        hnumbers v (hshown ▸ List.mem_append_left left hv))
    rw [hshown, ← Array.length_toList, hsame, List.take_left]
  · cases brings_advance_of_proper hproper hdepth hu.holds (hu.places hs) with
    | starves _ hstuck => exact hstuck.elim
    | fails _ _ _ _ hf _ => exact (hsafe hf).elim
    | comes x v hrun hproceeds hx =>
      refine ⟨v, ?_, hu.trans hproceeds, ?_⟩
      · cases hx with
        | ended hend => rwa [List.getElem?_eq_none (Nat.le_of_eq hend.symm)]
        | next v a ha hv =>
          rwa [ha, ← hv.eq_of_isNumber (.inr (hnumbers a (List.mem_of_getElem? ha)))]
      · cases hx with
        | ended hend hsize => omega
        | next v a ha _ hsize =>
          have hlt := (List.getElem?_eq_some_iff.mp ha).1
          omega

omit hproper hdepth hw hs ht in
theorem Outline.contains?_of_scalar (O : Outline) (levels : Nat) (hb : b.asList? = none)
    (values : List Value) : O.contains? levels b values = some (Plain.contains values b) := by
  induction values with
  | nil => rfl
  | cons a values ih =>
    have hsame : O.same? levels a b = some (a.sameScalar b) := by
      cases b with
      | list => cases hb
      | int | rational | str =>
        cases a with
        | int | rational | str | list => rfl
    rw [contains?, hsame, Plain.contains, List.any_cons]
    cases a.sameScalar b with
    | true => rfl
    | false => exact ih

/-- A list is searched along a fresh iteration.  If it is said to be infinite, it is searched
    in what is cached, and further while the latest value is small enough. -/
theorem Sequence.answers_contains (hfair : π.infinite k = true → π.Climbs k b) :
    w.Answers B π (π.Doubtful k b) (b.asList? ≠ none)
      (s.contains (.ofBehavior B depth) t)
      (π.contains? (Engine.ofBehavior B depth).fuel b (π.face k)) := by
  cases hinfinite : π.infinite k with
  | false => exact answers_contains_of_finite hproper hdepth hw hs ht hinfinite
  | true =>
    obtain ⟨hnumber, hzero, hnumbers, hsorted⟩ := hfair hinfinite
    have hword := (hw.infinite_eq hs (Set.notMem_empty k)).trans hinfinite
    have hscalar := Value.asList?_of_isNumber hnumber
    obtain rfl := ht.eq_of_isNumber (.inr hnumber)
    have hsearch := brings_contains hproper hdepth hw hs ht hinfinite
    -- a list that could be struck may be cut short, so the search leaves its answer in doubt
    by_cases hf : π.frail k
    · have hdoubt : π.Doubtful k t := .inl (.inr hf)
      exact hsearch.imp (fun _ => hdoubt) (fun hdeep => ⟨hdeep, .inl hdoubt⟩)
        fun _ _ _ => .inl hdoubt
    · have hfuel := Nat.lt_of_succ_lt (Plan.lt_fuel (B := B) hdepth (hproper.face k))
      -- the others unfold to numbers that do not decrease
      obtain ⟨u, hrun, -⟩ := (unfolds_of_numbers hproper hdepth hs hnumbers hf
        ).run_contains_of_infinite hnumbers hsorted hnumber (fun _ => 0)
        (fun _ _ _ _ _ => Nat.zero_le _) (.refl hw) hword hfuel (.inr hzero)
      obtain ⟨found, u', hrun', hproceeds, -⟩ := hsearch.run_of_calm hf (not_not_intro hscalar)
      cases hrun.symm.trans hrun'
      rw [Outline.contains?_of_scalar _ _ hscalar]
      exact .comes _ u hrun hproceeds (.inr rfl)

end Answers

end Comparing

end MemoSeq

/-
  MemoSeq/Proofs/Flattening/Exchange.lean
  =======================================
  **Host values there and back.**

  A value is `HeldBy` what is found in it when all its lists are forced: integers,
  rationals, texts, and lists of these to any depth.  A host type of integers, texts and
  vectors reads it if and only if the shapes agree and every integer is in range, and then
  it reads what is held, leaf by leaf (`HostType.Reads`).  Otherwise the error is that of the
  first element that does not fit, where a list is looked at before its items and an item
  as a whole before the next one (`HostType.firstMisfit?`).

  A value of the host becomes a `Tree` without errors, so nothing is lost on its way through
  sequences.
-/
import MemoSeq.Exchange
import MemoSeq.Proofs.Flattening.Eager

namespace MemoSeq

variable {H : Host} {B : Behavior H} {w w' : World H}

/-! ### What a value holds -/

/-- A value, with its lists written out. -/
inductive Held where
  | int (n : Int)
  | rational (r : Rat)
  | str (text : String)
  | list (items : List Held)

namespace Held

/-- The kind as which it is flattened; a rational widens. -/
def kind : Held → Kind
  | .int _ => .int
  | .rational _ => .float
  | .str _ => .string
  | .list _ => .list

mutual

def depth : Held → Nat
  | .list items => depthAll items + 1
  | .int _ | .rational _ | .str _ => 0

def depthAll : List Held → Nat
  | [] => 0
  | h :: hs => max h.depth (depthAll hs)

end

mutual

def flat : Held → Flat
  | .int n => .int n
  | .rational r => .float (.ofRat r)
  | .str text => .str text
  | .list items => .list (flats items)

def flats : List Held → List Flat
  | [] => []
  | h :: hs => h.flat :: flats hs

end

variable (E : Engine H)

mutual

/-- The value holds this in the first world, and finding it out leads to the second one:
    a list is forced, which neither fails nor goes on for ever, and then its values are looked
    into one after the other. -/
def HeldBy : Held → Value → World H → World H → Prop
  | .list items, v, w, w' => ∃ s values u, v = .list s ∧
      (s.materialize E).run.run w = .ok (.ok values, u) ∧ AllHeldBy items values.toList u w'
  | .int n, v, w, w' => v = .int n ∧ w' = w
  | .rational r, v, w, w' => v = .rational r ∧ w' = w
  | .str text, v, w, w' => v = .str text ∧ w' = w

def AllHeldBy : List Held → List Value → World H → World H → Prop
  | [], values, w, w' => values = [] ∧ w' = w
  | h :: hs, values, w, w' => ∃ v rest u, values = v :: rest ∧ h.HeldBy v w u ∧
      AllHeldBy hs rest u w'

end

variable {E}

mutual

theorem HeldBy.run_flattenWithin : ∀ {h : Held} {v : Value} {w w' : World H} {n : Nat},
    h.HeldBy E v w w' → h.depth ≤ n → (v.flattenWithin E n).run.run w = .ok (.ok h.flat, w')
  | .int n, _, _, _, _, ⟨rfl, rfl⟩, _ => by rw [Value.flattenWithin]; rfl
  | .rational r, _, _, _, _, ⟨rfl, rfl⟩, _ => by rw [Value.flattenWithin]; rfl
  | .str text, _, _, _, _, ⟨rfl, rfl⟩, _ => by rw [Value.flattenWithin]; rfl
  | .list items, _, _, _, 0, _, hdepth => by
    rw [depth] at hdepth
    omega
  | .list items, _, _, _, n + 1, ⟨s, values, u, rfl, hforced, hitems⟩, hdepth => by
    rw [depth] at hdepth
    rw [Value.flattenWithin, Attempt.run_bind_of_ok hforced, flat]
    exact Attempt.run_bind_pure_of_eq
      (hitems.run_mapM (Nat.le_of_succ_le_succ hdepth)) Flat.list

theorem AllHeldBy.run_mapM : ∀ {hs : List Held} {values : List Value} {w w' : World H} {n : Nat},
    AllHeldBy E hs values w w' → depthAll hs ≤ n →
      (values.mapM (Value.flattenWithin E n)).run.run w = .ok (.ok (flats hs), w')
  | [], _, _, _, _, ⟨rfl, rfl⟩, _ => rfl
  | h :: hs, _, _, _, n, ⟨v, rest, u, rfl, hv, hrest⟩, hdepth => by
    rw [depthAll, Nat.max_le] at hdepth
    rw [List.mapM_cons, Attempt.run_bind_of_ok (hv.run_flattenWithin hdepth.1)]
    exact Attempt.run_bind_pure_of_eq (hrest.run_mapM hdepth.2) (h.flat :: ·)

end

theorem exists_allHeldBy {n : Nat}
    (hflat : ∀ {v : Value} {f : Flat} {w w' : World H},
      (v.flattenWithin E n).run.run w = .ok (.ok f, w') →
        ∃ h : Held, h.HeldBy E v w w' ∧ h.depth ≤ n ∧ h.flat = f)
    {values : List Value} {fs : List Flat}
    (hrun : (values.mapM (Value.flattenWithin E n)).run.run w = .ok (.ok fs, w')) :
    ∃ hs : List Held, AllHeldBy E hs values w w' ∧ depthAll hs ≤ n ∧ flats hs = fs := by
  induction values generalizing fs w with
  | nil =>
    cases hrun
    exact ⟨[], ⟨rfl, rfl⟩, Nat.zero_le n, rfl⟩
  | cons v rest ih =>
    rw [List.mapM_cons] at hrun
    rcases Attempt.run_bind_eq_ok.mp hrun with ⟨f, u, hv, hrest⟩ | ⟨e, -, he⟩
    · rcases Attempt.run_bind_eq_ok.mp hrest with ⟨gs, u', hgs, hpure⟩ | ⟨e, -, he⟩
      · cases hpure
        obtain ⟨h, hheld, hdepth, rfl⟩ := hflat hv
        obtain ⟨hs, hhelds, hdepths, rfl⟩ := ih hgs
        exact ⟨h :: hs, ⟨v, rest, u, rfl, hheld, hhelds⟩, Nat.max_le.mpr ⟨hdepth, hdepths⟩, rfl⟩
      · cases he
    · cases he

/-- Whatever can be flattened holds something: lists that neither fail nor go on for ever are
    all there is to it. -/
theorem exists_heldBy : ∀ {n : Nat} {v : Value} {f : Flat} {w w' : World H},
    (v.flattenWithin E n).run.run w = .ok (.ok f, w') →
      ∃ h : Held, h.HeldBy E v w w' ∧ h.depth ≤ n ∧ h.flat = f
  | n, .int m, _, _, _, hrun => by
    rw [Value.flattenWithin] at hrun
    cases hrun
    exact ⟨.int m, ⟨rfl, rfl⟩, Nat.zero_le n, rfl⟩
  | n, .rational r, _, _, _, hrun => by
    rw [Value.flattenWithin] at hrun
    cases hrun
    exact ⟨.rational r, ⟨rfl, rfl⟩, Nat.zero_le n, rfl⟩
  | n, .str text, _, _, _, hrun => by
    rw [Value.flattenWithin] at hrun
    cases hrun
    exact ⟨.str text, ⟨rfl, rfl⟩, Nat.zero_le n, rfl⟩
  | 0, .list s, _, _, _, hrun => by
    rw [Value.flattenWithin] at hrun
    cases hrun
  | n + 1, .list s, _, _, _, hrun => by
    rw [Value.flattenWithin] at hrun
    rcases Attempt.run_bind_eq_ok.mp hrun with ⟨values, u, hforced, hrest⟩ | ⟨e, -, he⟩
    · rcases Attempt.run_bind_eq_ok.mp hrest with ⟨fs, u', hfs, hpure⟩ | ⟨e, -, he⟩
      · cases hpure
        obtain ⟨hs, hhelds, hdepths, rfl⟩ := exists_allHeldBy (fun hv => exists_heldBy hv) hfs
        exact ⟨.list hs, ⟨s, values, u, rfl, hforced, hhelds⟩, Nat.succ_le_succ hdepths, rfl⟩
      · cases he
    · cases he

end Held

/-! ### What a type takes -/

namespace HostType

/-- The types of integers, texts and vectors of these to any depth. -/
def Lossless : HostType → Prop
  | .integer _ | .text => True
  | .vector element => element.Lossless
  | .double | .flat => False

def Has : HostType → HostValue → Prop
  | .integer width, .integer width' n => width' = width ∧ width.contains n = true
  | .text, .text _ => True
  | .vector element, .vector items => ∀ x ∈ items, element.Has x
  | _, _ => False

/-- A list at each vector, a text at each text and an integer at each integer. -/
def HasShape : HostType → Held → Prop
  | .integer _, .int _ => True
  | .text, .str _ => True
  | .vector element, .list items => ∀ h ∈ items, element.HasShape h
  | _, _ => False

/-- Every integer where one is asked for is in range. -/
def InRange : HostType → Held → Prop
  | .integer width, .int n => width.contains n = true
  | .vector element, .list items => ∀ h ∈ items, element.InRange h
  | _, _ => True

/-- The host value is what is held, leaf by leaf. -/
def Reads : HostType → Held → HostValue → Prop
  | .integer width, .int n, .integer width' m => width' = width ∧ m = n
  | .text, .str s, .text s' => s' = s
  | .vector element, .list items, .vector xs => List.Forall₂ element.Reads items xs
  | _, _, _ => False

/-- Why an element does not fit, whatever is inside of it. -/
def misfit? : HostType → Held → Option Error
  | .integer width, .int n => if width.contains n then none else some width.outOfRange
  | .integer width, h => some (.conversion width.expectation h.kind)
  | .text, .str _ => none
  | .text, h => some (.conversion .string h.kind)
  | .vector _, .list _ => none
  | .vector _, h => some (.conversion .list h.kind)
  | .double, _ | .flat, _ => none

/-- The elements in the order in which they are come upon, each with the type asked for. -/
def visits : HostType → Held → List (HostType × Held)
  | .vector element, .list items => (.vector element, .list items) :: items.flatMap element.visits
  | type, h => [(type, h)]

def firstMisfit? (type : HostType) (h : Held) : Option Error :=
  (type.visits h).findSome? fun (type, h) => type.misfit? h

/-! ### Reading what is held -/

theorem findSome?_flatMap {α β γ : Type} (f : α → List β) (g : β → Option γ) (xs : List α) :
    (xs.flatMap f).findSome? g = xs.findSome? fun x => (f x).findSome? g := by
  induction xs with
  | nil => rfl
  | cons x xs ih =>
    rw [List.flatMap_cons, List.findSome?_append, ih, List.findSome?_cons]
    cases (f x).findSome? g <;> rfl

theorem firstMisfit?_vector (element : HostType) (items : List Held) :
    (vector element).firstMisfit? (.list items) = items.findSome? element.firstMisfit? := by
  rw [firstMisfit?, visits, List.findSome?_cons]
  exact findSome?_flatMap _ _ items

/-- An element that is not a list in the place of a vector is looked at by itself. -/
theorem firstMisfit?_eq_misfit? {type : HostType} {h : Held}
    (hleaf : ∀ element items, type = .vector element → h ≠ .list items) :
    type.firstMisfit? h = type.misfit? h := by
  have hvisits : type.visits h = [(type, h)] := by
    cases type with
    | vector element =>
      cases h with
      | list items => exact (hleaf element items rfl rfl).elim
      | int | rational | str => rfl
    | integer | double | text | flat => rfl
  rw [firstMisfit?, hvisits, List.findSome?_singleton]

theorem firstMisfit?_eq_none_iff {type : HostType} (ht : type.Lossless) (h : Held) :
    type.firstMisfit? h = none ↔ type.HasShape h ∧ type.InRange h := by
  induction type generalizing h with
  | double | flat => exact ht.elim
  | integer width =>
    rw [firstMisfit?_eq_misfit? (by rintro _ _ ⟨⟩)]
    cases h <;> simp [misfit?, HasShape, InRange]
  | text =>
    rw [firstMisfit?_eq_misfit? (by rintro _ _ ⟨⟩)]
    cases h <;> simp [misfit?, HasShape, InRange]
  | vector element ih =>
    cases h with
    | list items =>
      rw [firstMisfit?_vector, List.findSome?_eq_none_iff]
      simp only [ih ht, HasShape, InRange, forall_and]
    | int | rational | str =>
      rw [firstMisfit?_eq_misfit? (by rintro _ _ _ ⟨⟩)]
      simp [misfit?, HasShape]

/-- Reading comes to the first misfit, or to what is held. -/
def Settles (type : HostType) (h : Held) : Prop :=
  match type.firstMisfit? h with
  | none => ∃ x, type.read h.flat = .ok x ∧ type.Reads h x
  | some e => type.read h.flat = .error e ∧ ∃ expected got, e = .conversion expected got

theorem mapM_read {element : HostType} {items : List Held}
    (hitems : ∀ h ∈ items, element.Settles h) :
    match items.findSome? element.firstMisfit? with
    | none => ∃ xs, (Held.flats items).mapM element.read = .ok xs ∧
        List.Forall₂ element.Reads items xs
    | some e => (Held.flats items).mapM element.read = .error e ∧
        ∃ expected got, e = .conversion expected got := by
  induction items with
  | nil => exact ⟨[], rfl, .nil⟩
  | cons h hs ih =>
    obtain ⟨hfirst, hrest⟩ := List.forall_mem_cons.mp hitems
    have hmapM : (Held.flats (h :: hs)).mapM element.read = (do
        return (← element.read h.flat) :: (← (Held.flats hs).mapM element.read)) := by
      rw [Held.flats, List.mapM_cons]
    rw [Settles] at hfirst
    rw [List.findSome?_cons, hmapM]
    cases hmisfit : element.firstMisfit? h with
    | some e =>
      simp only [hmisfit] at hfirst
      rw [hfirst.1]
      exact ⟨rfl, hfirst.2⟩
    | none =>
      simp only [hmisfit] at hfirst
      obtain ⟨x, hx, hreads⟩ := hfirst
      replace ih := ih hrest
      rw [hx]
      cases hmisfits : hs.findSome? element.firstMisfit? with
      | some e =>
        simp only [hmisfits] at ih
        rw [ih.1]
        exact ⟨rfl, ih.2⟩
      | none =>
        simp only [hmisfits] at ih
        obtain ⟨xs, hxs, hreadss⟩ := ih
        rw [hxs]
        exact ⟨x :: xs, rfl, .cons hreads hreadss⟩

theorem outOfRange_eq_conversion (width : Width) :
    ∃ expected got, width.outOfRange = .conversion expected got := by
  cases width <;> exact ⟨_, _, rfl⟩

theorem settles {type : HostType} (ht : type.Lossless) (h : Held) : type.Settles h := by
  induction type generalizing h with
  | double | flat => exact ht.elim
  | integer width =>
    rw [Settles, firstMisfit?_eq_misfit? (by rintro _ _ ⟨⟩)]
    cases h with
    | int n =>
      simp only [misfit?, Held.flat, read]
      cases hn : width.contains n with
      | true => exact ⟨_, rfl, rfl, rfl⟩
      | false => exact ⟨rfl, outOfRange_eq_conversion width⟩
    | rational | str => exact ⟨rfl, _, _, rfl⟩
    | list items =>
      refine ⟨?_, _, _, rfl⟩
      rw [Held.flat]
      rfl
  | text =>
    rw [Settles, firstMisfit?_eq_misfit? (by rintro _ _ ⟨⟩)]
    cases h with
    | str s => exact ⟨_, rfl, rfl⟩
    | int | rational => exact ⟨rfl, _, _, rfl⟩
    | list items =>
      refine ⟨?_, _, _, rfl⟩
      rw [Held.flat]
      rfl
  | vector element ih =>
    cases h with
    | int | rational | str =>
      rw [Settles, firstMisfit?_eq_misfit? (by rintro _ _ _ ⟨⟩)]
      exact ⟨rfl, _, _, rfl⟩
    | list items =>
      have hmapM := mapM_read fun h (_ : h ∈ items) => ih ht h
      rw [Settles, firstMisfit?_vector, Held.flat, read]
      cases hmisfits : items.findSome? element.firstMisfit? with
      | some e =>
        simp only [hmisfits] at hmapM
        rw [hmapM.1]
        exact ⟨rfl, hmapM.2⟩
      | none =>
        simp only [hmisfits] at hmapM
        -- no element misfits, so all of them are read, each as what it stands for
        obtain ⟨xs, hxs, hreads⟩ := hmapM
        rw [hxs]
        exact ⟨.vector xs, rfl, hreads⟩

end HostType

/-! ### What host values become -/

mutual

def Flat.tree : Flat → Tree
  | .int n => .leaf (.ok (.int n))
  | .float x => .leaf x.canonical
  | .str text => .leaf (.ok (.str text))
  | .list items => .node (Flat.trees items)

def Flat.trees : List Flat → List Tree
  | [] => []
  | f :: fs => f.tree :: Flat.trees fs

end

mutual

def HostValue.tree : HostValue → Tree
  | .integer _ n => .leaf (.ok (.int n))
  | .single x => .leaf x.widen.canonical
  | .double x => .leaf x.canonical
  | .text s => .leaf (.ok (.str s))
  | .flat f => f.tree
  | .vector items => .node (HostValue.trees items)

def HostValue.trees : List HostValue → List Tree
  | [] => []
  | x :: xs => x.tree :: HostValue.trees xs

end

variable (B) in
mutual

theorem Flat.tree_shownBy : ∀ f : Flat, f.tree.ShownBy B f.toExternal
  | .int _ | .float _ | .str _ => by
    rw [Flat.toExternal]
    exact rfl
  | .list items => by
    rw [Flat.toExternal]
    exact Flat.trees_shownBy items

theorem Flat.trees_shownBy : ∀ fs : List Flat,
    Tree.AllShownBy B (Flat.trees fs) (fs.map Flat.toExternal)
  | [] => trivial
  | f :: fs => ⟨f.tree_shownBy, Flat.trees_shownBy fs⟩

end

variable (B) in
mutual

/-- A host value becomes its tree. -/
theorem HostValue.tree_shownBy : ∀ x : HostValue, x.tree.ShownBy B x.toExternal
  | .integer _ _ | .single _ | .double _ | .text _ => by
    rw [HostValue.toExternal]
    exact rfl
  | .flat f => by
    rw [HostValue.toExternal]
    exact f.tree_shownBy B
  | .vector items => by
    rw [HostValue.toExternal]
    exact HostValue.trees_shownBy items

theorem HostValue.trees_shownBy : ∀ xs : List HostValue,
    Tree.AllShownBy B (HostValue.trees xs) (xs.map HostValue.toExternal)
  | [] => trivial
  | x :: xs => ⟨x.tree_shownBy, HostValue.trees_shownBy xs⟩

end

namespace HostType

theorem eagerAll_trees {element : HostType}
    (hread : ∀ x, element.Has x → ∃ f, x.tree.eager = .ok f ∧ element.read f = .ok x) :
    ∀ {items : List HostValue}, (∀ x ∈ items, element.Has x) →
      (HostValue.trees items).findSome? Tree.refusal? = none ∧
      ∃ fs, Tree.eagerAll (HostValue.trees items) = .ok fs ∧ fs.mapM element.read = .ok items
  | [], _ => ⟨rfl, [], rfl, rfl⟩
  | x :: items, hitems => by
    obtain ⟨hx, hrest⟩ := List.forall_mem_cons.mp hitems
    obtain ⟨f, heager, hf⟩ := hread x hx
    obtain ⟨hnone, fs, heagers, hfs⟩ := eagerAll_trees hread hrest
    refine ⟨?_, f :: fs, ?_, ?_⟩
    · rw [HostValue.trees, List.findSome?_cons, Tree.refusal?_of_eager heager]
      exact hnone
    · rw [HostValue.trees, Tree.eagerAll, heager, heagers]
      rfl
    · rw [List.mapM_cons, hf, hfs]
      rfl

/-- What becomes of a value of a type flattens to what reads as the value. -/
theorem Has.eager {type : HostType} {x : HostValue} (h : type.Has x) :
    ∃ f, x.tree.eager = .ok f ∧ type.read f = .ok x := by
  induction type generalizing x with
  | integer width =>
    cases x with
    | integer width' n =>
      obtain ⟨rfl, hn⟩ := h
      refine ⟨.int n, rfl, ?_⟩
      rw [read, if_pos hn]
    | _ => exact h.elim
  | text =>
    cases x with
    | text s => exact ⟨.str s, rfl, rfl⟩
    | _ => exact h.elim
  | vector element ih =>
    cases x with
    | vector items =>
      obtain ⟨hnone, fs, heagers, hfs⟩ := eagerAll_trees (fun _ => ih) h
      refine ⟨.list fs, ?_, ?_⟩
      · rw [HostValue.tree, Tree.eager, hnone, heagers]
        rfl
      · rw [read, hfs]
        rfl
    | _ => exact h.elim
  | double | flat => cases x <;> exact h.elim

end HostType

/-! ### There and back -/

/-- A host value is made canonical, and the value is read as a type. -/
def HostValue.passed (E : Engine H) (type : HostType) (x : HostValue) : Attempt H HostValue := do
  (← canonicalize x.toExternal).read E type

/-- A list is made of host values, and the list is read as a vector. -/
def HostValue.passedAsList (E : Engine H) (element : HostType) (items : List HostValue) :
    Attempt H HostValue := do
  let s ← Sequence.ofItems (H := H) (items.map HostValue.toExternal)
  Value.read E (.list s) (.vector element)

theorem HostValue.run_passed_of_has {type : HostType} {x : HostValue} (hx : type.Has x)
    (hfits : x.tree.Fits w.limit) {depth : Nat} (hdepth : x.tree.size < depth) :
    ∃ w', (passed (.ofBehavior B depth) type x).run.run w = .ok (.ok x, w') := by
  obtain ⟨f, heager, hread⟩ := hx.eager
  obtain ⟨item, w₀, hrun, hsprouts⟩ := (x.tree_shownBy B).run_canonicalize w
  obtain ⟨w', hflat⟩ := hsprouts.run_bind_flatten_of_fits hfits hdepth hrun
  refine ⟨w', ?_⟩
  have hpassed : passed (.ofBehavior B depth) type x = (do
      .ofOutcome (type.read (← (do (← canonicalize x.toExternal).flatten (.ofBehavior B depth))))) := by
    simp only [passed, Value.read, bind_assoc]
  rw [hpassed, Attempt.run_bind_of_ok (hflat.trans (by rw [heager])), hread]
  rfl

theorem HostValue.passedAsList_eq (E : Engine H) (element : HostType) (items : List HostValue) :
    passedAsList E element items = passed E (.vector element) (.vector items) := by
  simp only [passed, passedAsList, toExternal, canonicalize, bind_assoc, pure_bind]

/-- What a type without loss makes of a value, if the value holds what is written out. -/
theorem Held.HeldBy.run_read {E : Engine H} {type : HostType} (ht : type.Lossless) {h : Held}
    {v : Value} (hv : h.HeldBy E v w w') (hdepth : h.depth ≤ E.fuel) :
    (type.HasShape h ∧ type.InRange h →
      ∃ x, (v.read E type).run.run w = .ok (.ok x, w') ∧ type.Reads h x) ∧
    (¬(type.HasShape h ∧ type.InRange h) → ∃ expected got,
      type.firstMisfit? h = some (.conversion expected got) ∧
      (v.read E type).run.run w = .ok (.error (.conversion expected got), w')) := by
  have hsettles := HostType.settles ht h
  have hrun : (v.read E type).run.run w = .ok (type.read h.flat, w') := by
    rw [Value.read, Value.flatten, Attempt.run_bind_of_ok (hv.run_flattenWithin hdepth)]
    rfl
  rw [← HostType.firstMisfit?_eq_none_iff ht, hrun]
  rw [HostType.Settles] at hsettles
  cases hmisfit : type.firstMisfit? h with
  | none =>
    simp only [hmisfit] at hsettles
    obtain ⟨x, hx, hreads⟩ := hsettles
    exact ⟨fun _ => ⟨x, by rw [hx], hreads⟩, fun hne => (hne rfl).elim⟩
  | some e =>
    simp only [hmisfit] at hsettles
    obtain ⟨he, expected, got, rfl⟩ := hsettles
    exact ⟨nofun, fun _ => ⟨expected, got, rfl, by rw [he]⟩⟩

/-- Values of integers, texts and vectors come back as they were, out of a value and, if they
    are vectors, out of a list; forcing must be allowed for lists as long as the vectors.

    A value that can be forced all through is read as such a type if and only if it has the
    shape of the type and its integers are in range, and what is read is what is held.
    Otherwise the error is a conversion error, that of the first element that does not fit. -/
theorem HostType.exchanged (B : Behavior H) {type : HostType} (ht : type.Lossless) :
    (∀ x (w : World H) depth, type.Has x → x.tree.Fits w.limit → x.tree.size < depth →
      ∃ w', (x.passed (.ofBehavior B depth) type).run.run w = .ok (.ok x, w')) ∧
    (∀ items (w : World H) depth, (vector type).Has (.vector items) →
      (HostValue.vector items).tree.Fits w.limit → (HostValue.vector items).tree.size < depth →
      ∃ w', (HostValue.passedAsList (.ofBehavior B depth) type items).run.run w =
        .ok (.ok (.vector items), w')) ∧
    ∀ (E : Engine H) (h : Held) v w w', h.HeldBy E v w w' → h.depth ≤ E.fuel →
      (type.HasShape h ∧ type.InRange h →
        ∃ x, (v.read E type).run.run w = .ok (.ok x, w') ∧ type.Reads h x) ∧
      (¬(type.HasShape h ∧ type.InRange h) → ∃ expected got,
        type.firstMisfit? h = some (.conversion expected got) ∧
        (v.read E type).run.run w = .ok (.error (.conversion expected got), w')) := by
  refine ⟨fun x w depth hx hfits hdepth => HostValue.run_passed_of_has hx hfits hdepth,
    fun items w depth hitems hfits hdepth => ?_,
    fun E h v w w' hv hdepth => hv.run_read ht hdepth⟩
  rw [HostValue.passedAsList_eq]
  exact HostValue.run_passed_of_has hitems hfits hdepth

namespace Session

/-- A world with a list of two numbers, and a list of that list. -/
def nestedWorld : World host :=
  (start.withSequence (.values [.int 1, .int (2 ^ 31)]) false).withSequence
    (.values [.list ⟨0⟩]) false

def nestedHeld : Held := .list [.list [.int 1, .int (2 ^ 31)]]

def nestedType (width : Width) : HostType := .vector (.vector (.integer width))

def nestedValue : HostValue := .vector [.integer .signed32 (-1), .integer .signed32 7]

/-- A vector comes back.  The second number is too large for a word of 32 bits, and it is read
    as one of 64 bits. -/
theorem exchanged_nested :
    (∃ w', ((HostValue.vector [nestedValue]).passed (engine 9) (nestedType .signed32)).run.run start =
      .ok (.ok (.vector [nestedValue]), w')) ∧
    (∃ w', (HostValue.passedAsList (engine 9) (.vector (.integer .signed32)) [nestedValue]).run.run
      start = .ok (.ok (.vector [nestedValue]), w')) ∧
    (∃ expected got w', (nestedType .signed32).firstMisfit? nestedHeld =
        some (.conversion expected got) ∧
      (Value.read (engine 9) (.list ⟨1⟩) (nestedType .signed32)).run.run nestedWorld =
        .ok (.error (.conversion expected got), w')) ∧
    ∃ x w', (Value.read (engine 9) (.list ⟨1⟩) (nestedType .signed64)).run.run nestedWorld =
      .ok (.ok x, w') ∧ (nestedType .signed64).Reads nestedHeld x := by
  have hheld : ∃ w', nestedHeld.HeldBy (engine 9) (.list ⟨1⟩) nestedWorld w' :=
    ⟨_, _, _, _, rfl, rfl, _, _, _, rfl, ⟨_, _, _, rfl, rfl,
      _, _, _, rfl, ⟨rfl, rfl⟩, _, _, _, rfl, ⟨rfl, rfl⟩, rfl, rfl⟩, rfl, rfl⟩
  obtain ⟨w', hheld⟩ := hheld
  have hvalue : (nestedType .signed32).Has (.vector [nestedValue]) := by
    simp [nestedType, nestedValue, HostType.Has, Width.contains]
  have hlarge : ¬((nestedType .signed32).HasShape nestedHeld ∧
      (nestedType .signed32).InRange nestedHeld) := by
    simp [nestedType, nestedHeld, HostType.InRange, Width.contains]
  have hfits : (nestedType .signed64).HasShape nestedHeld ∧
      (nestedType .signed64).InRange nestedHeld := by
    simp [nestedType, nestedHeld, HostType.HasShape, HostType.InRange, Width.contains]
  have hlossless (width : Width) : (nestedType width).Lossless := trivial
  have helement : (HostType.vector (.integer .signed32)).Lossless := trivial
  obtain ⟨hpassed, -, hread⟩ := HostType.exchanged behavior (hlossless .signed32)
  obtain ⟨-, hlist, -⟩ := HostType.exchanged behavior helement
  obtain ⟨-, -, hread'⟩ := HostType.exchanged behavior (hlossless .signed64)
  obtain ⟨expected, got, hmisfit, herror⟩ :=
    (hread (engine 9) nestedHeld (.list ⟨1⟩) nestedWorld w' hheld (by decide)).2 hlarge
  obtain ⟨x, hx, hreads⟩ :=
    (hread' (engine 9) nestedHeld (.list ⟨1⟩) nestedWorld w' hheld (by decide)).1 hfits
  exact ⟨hpassed _ start 9 hvalue (Tree.fits_none _) (by decide),
    hlist _ start 9 hvalue (Tree.fits_none _) (by decide),
    ⟨expected, got, w', hmisfit, herror⟩, x, w', hx, hreads⟩

end Session

end MemoSeq

/-
  MemoSeq/Proofs/Flattening/Documents.lean
  ========================================
  **JSON documents there and back.**

  A document is made canonical, an array as a sequence whose elements are converted when
  they are reached, and the value is given back as a document.  That succeeds just when
  nothing without a canonical value is reached through arrays; else the error names the
  kind of the first such node, where the elements of an array come before what is inside
  of them (`Document.firstRefused?`).  A document of arrays, texts, integers of 64 bits and
  numbers that are not whole comes back as it was, the numbers bit for bit
  (`Document.run_passed`).
-/
import MemoSeq.Json.Writer
import MemoSeq.Proofs.Flattening.Eager
import MemoSeq.Proofs.Number.ReadBack

namespace MemoSeq

variable {H : Host} {B : Behavior H} {w w' : World H}

namespace Document

/-! ### Trees of documents -/

mutual

/-- What a document becomes when all of it is reached. -/
def tree : Document → Tree
  | .integer n => .leaf (.ok (.int n))
  | .float x => .leaf x.canonical
  | .string text => .leaf (.ok (.str text))
  | .array items => .node (trees items)
  | .null => .leaf (.error (.conversion .convertible .null))
  | .boolean _ => .leaf (.error (.conversion .convertible .boolean))
  | .object _ => .leaf (.error (.conversion .convertible .object))

def trees : List Document → List Tree
  | [] => []
  | d :: ds => d.tree :: trees ds

end

mutual

/-- To make a document canonical is to sprout its tree. -/
theorem run_canonicalize : ∀ (d : Document) (w : World H), ∃ item w',
    (d.canonicalize (H := H)).run.run w = .ok (item, w') ∧ d.tree.Sprouts B item w w'
  | .integer n, w => ⟨_, w, rfl, rfl, rfl, by rintro v ⟨⟩; rfl⟩
  | .float x, w => ⟨_, w, rfl, rfl, rfl, fun _ => Binary.asList?_canonical⟩
  | .string text, w => ⟨_, w, rfl, rfl, rfl, by rintro v ⟨⟩; rfl⟩
  | .array items, w => ⟨_, _, rfl, .documents items, rfl, rfl, bornBy_documents items⟩
  | .null, w | .boolean _, w | .object _, w => ⟨_, w, rfl, rfl, rfl, nofun⟩

theorem bornBy_documents : ∀ ds : List Document,
    Tree.BornBy B (trees ds) (.documents (H := H) ds)
  | [] => fun _ w => ⟨.documents [], w.host, rfl⟩
  | d :: ds => fun depth w => by
    obtain ⟨item, w', hrun, hsprouts⟩ := run_canonicalize d w
    exact ⟨item, .documents ds, w.host, w', Act.run_bind_of_eq hrun, hsprouts,
      fun _ _ => bornBy_documents ds⟩

end

/-! ### What is refused -/

/-- The kind of a document that is neither a number nor a text nor an array. -/
def unconvertible? : Document → Option Kind
  | .null => some .null
  | .boolean _ => some .boolean
  | .object _ => some .object
  | .integer _ | .float _ | .string _ | .array _ => none

mutual

/-- The kind of the first node that is neither a number nor a text nor an array: of an array
    the elements are looked at from left to right before anything inside of them, and then
    one element after the other as a whole. -/
def firstRefused? : Document → Option Kind
  | .array items => (items.findSome? unconvertible?).or (firstRefusedIn? items)
  | .null => some .null
  | .boolean _ => some .boolean
  | .object _ => some .object
  | .integer _ | .float _ | .string _ => none

def firstRefusedIn? : List Document → Option Kind
  | [] => none
  | d :: ds => d.firstRefused?.or (firstRefusedIn? ds)

end

/-- A document is reached from itself and from every array with an element from which it
    is reached. -/
inductive Reaches : Document → Document → Prop
  | self (d : Document) : Reaches d d
  | element {items : List Document} {d e : Document} :
      d ∈ items → Reaches d e → Reaches (.array items) e

theorem forall_reaches_array {P : Document → Prop} {items : List Document} :
    (∀ e, (Document.array items).Reaches e → P e) ↔
      P (.array items) ∧ ∀ d ∈ items, ∀ e, d.Reaches e → P e := by
  constructor
  · exact fun h => ⟨h _ (.self _), fun d hd e he => h e (.element hd he)⟩
  · rintro ⟨hself, hitems⟩ e (_ | ⟨hd, he⟩)
    · exact hself
    · exact hitems _ hd e he

/-- From a document that is no array only itself is reached. -/
theorem forall_reaches {P : Document → Prop} {d : Document} (h : ∀ items, d ≠ .array items) :
    (∀ e, d.Reaches e → P e) ↔ P d := by
  constructor
  · exact fun hall => hall d (.self d)
  · rintro hself e (_ | ⟨hd, he⟩)
    · exact hself
    · exact (h _ rfl).elim

mutual

theorem firstRefused?_eq_none_iff : ∀ d : Document,
    d.firstRefused? = none ↔ ∀ e, d.Reaches e → e.unconvertible? = none
  | .array items => by
    rw [firstRefused?, Option.or_eq_none_iff, firstRefusedIn?_eq_none_iff items,
      List.findSome?_eq_none_iff, forall_reaches_array]
    constructor
    · exact fun h => ⟨rfl, h.2⟩
    · exact fun h => ⟨fun d hd => h.2 d hd d (.self d), h.2⟩
  | .null | .boolean _ | .object _ | .integer _ | .float _ | .string _ => by
    refine Iff.symm (forall_reaches ?_)
    nofun

theorem firstRefusedIn?_eq_none_iff : ∀ ds : List Document,
    firstRefusedIn? ds = none ↔ ∀ d ∈ ds, ∀ e, d.Reaches e → e.unconvertible? = none
  | [] => by simp [firstRefusedIn?]
  | d :: ds => by
    rw [firstRefusedIn?, Option.or_eq_none_iff, firstRefused?_eq_none_iff d,
      firstRefusedIn?_eq_none_iff ds, List.forall_mem_cons]

end

/-! ### What comes of the others -/

/-- All numbers that are reached are finite, as those of a JSON text are. -/
def Finite (d : Document) : Prop :=
  ∀ e, d.Reaches e → ∀ x, e = .float x → x.isFinite = true

theorem Finite.element {items : List Document} (h : (Document.array items).Finite) :
    ∀ d ∈ items, d.Finite :=
  (forall_reaches_array.mp h).2

theorem refusal?_tree {d : Document} (h : d.Finite) :
    d.tree.refusal? = d.unconvertible?.map (.conversion .convertible) := by
  cases d with
  | float x =>
    rw [tree, Binary.canonical, if_pos (h _ (.self _) x rfl)]
    rfl
  | null | boolean | integer | string | array | object => rfl

theorem findSome?_refusal? {ds : List Document} (h : ∀ d ∈ ds, d.Finite) :
    (trees ds).findSome? Tree.refusal? =
      (ds.findSome? unconvertible?).map (.conversion .convertible) := by
  induction ds with
  | nil => rfl
  | cons d ds ih =>
    obtain ⟨hd, hds⟩ := List.forall_mem_cons.mp h
    rw [trees, List.findSome?_cons, List.findSome?_cons, refusal?_tree hd]
    cases d.unconvertible? with
    | none => exact ih hds
    | some kind => rfl

def errorOf {α : Type} : Outcome α → Option Error
  | .ok _ => none
  | .error e => some e

theorem errorOf_map {α β : Type} (f : α → β) (y : Outcome α) :
    errorOf (y.map f) = errorOf y := by
  cases y <;> rfl

theorem errorOf_bind_map {α β γ : Type} (f : α → β → γ) (y : Outcome α) (z : Outcome β) :
    errorOf (y.bind fun a => z.map (f a)) = (errorOf y).or (errorOf z) := by
  cases y with
  | error e => rfl
  | ok a => exact errorOf_map (f a) z

mutual

/-- The error of the tree of a document is about the first node that is refused. -/
theorem errorOf_eager : ∀ d : Document, d.Finite →
    errorOf d.tree.eager = d.firstRefused?.map (.conversion .convertible)
  | .array items, h => by
    rw [tree, Tree.eager, findSome?_refusal? h.element, firstRefused?]
    cases items.findSome? unconvertible? with
    | some kind => rfl
    | none =>
      rw [Option.map_none, Option.none_or, errorOf_map]
      exact errorOf_eagerAll items h.element
  | .float x, h => by
    rw [tree, Binary.canonical, if_pos (h _ (.self _) x rfl)]
    rfl
  | .null, _ | .boolean _, _ | .object _, _ | .integer _, _ | .string _, _ => rfl

theorem errorOf_eagerAll : ∀ ds : List Document, (∀ d ∈ ds, d.Finite) →
    errorOf (Tree.eagerAll (trees ds)) = (firstRefusedIn? ds).map (.conversion .convertible)
  | [], _ => rfl
  | d :: ds, h => by
    obtain ⟨hd, hds⟩ := List.forall_mem_cons.mp h
    rw [trees, Tree.eagerAll, errorOf_bind_map, errorOf_eager d hd, errorOf_eagerAll ds hds,
      firstRefusedIn?, Option.map_or]

end

/-! ### What comes back as it was -/

/-- Integers of 64 bits and finite numbers that are not whole are kept, texts and arrays
    always. -/
def Kept : Document → Prop
  | .integer n => Width.signed64.contains n = true
  | .float x => x.isFinite = true ∧ x.toRat.den ≠ 1
  | .string _ | .array _ => True
  | .null | .boolean _ | .object _ => False

mutual

theorem eager_of_kept : ∀ d : Document, (∀ e, d.Reaches e → e.Kept) →
    ∃ f, d.tree.eager = .ok f ∧ f.toDocument = d
  | .array items, h => by
    obtain ⟨fs, heager, hback, hnone⟩ :=
      eagerAll_of_kept items (forall_reaches_array.mp h).2
    refine ⟨.list fs, ?_, ?_⟩
    · rw [tree, Tree.eager, hnone, heager]
      rfl
    · rw [Flat.toDocument, hback]
  | .integer n, h => by
    have hrange : Width.signed64.contains n = true := h _ (.self _)
    refine ⟨.int n, rfl, ?_⟩
    rw [Flat.toDocument, if_pos hrange]
  | .float x, h => by
    obtain ⟨hfinite, hwhole⟩ := h _ (.self _)
    have hcode : x.code ≠ 0 := by
      intro hzero
      apply hwhole
      simp [Binary.toRat, hzero, Format.quanta]
    refine ⟨.float x, ?_, ?_⟩
    · rw [tree, Binary.canonical, if_pos hfinite, Value.ofRat,
        if_neg (Binary.den_shortestRat_ne_one hfinite hwhole), Tree.eager, Except.map,
        Value.widened, Binary.ofRat_shortestRat hfinite hcode]
    · rw [Flat.toDocument, if_pos hfinite]
  | .string text, _ => ⟨.str text, rfl, by rw [Flat.toDocument]⟩
  | .null, h | .boolean _, h | .object _, h => (h _ (.self _)).elim

theorem eagerAll_of_kept : ∀ ds : List Document, (∀ d ∈ ds, ∀ e, d.Reaches e → e.Kept) →
    ∃ fs, Tree.eagerAll (trees ds) = .ok fs ∧ fs.map Flat.toDocument = ds ∧
      (trees ds).findSome? Tree.refusal? = none
  | [], _ => ⟨[], rfl, rfl, rfl⟩
  | d :: ds, h => by
    obtain ⟨hd, hds⟩ := List.forall_mem_cons.mp h
    obtain ⟨f, heager, hback⟩ := eager_of_kept d hd
    obtain ⟨fs, heagers, hbacks, hnone⟩ := eagerAll_of_kept ds hds
    refine ⟨f :: fs, ?_, ?_, ?_⟩
    · rw [trees, Tree.eagerAll, heager, heagers]
      rfl
    · rw [List.map_cons, hback, hbacks]
    · rw [trees, List.findSome?_cons, Tree.refusal?_of_eager heager]
      exact hnone

end

/-! ### There and back -/

/-- A document is made canonical and given back as a document. -/
def passed (E : Engine H) (d : Document) : Attempt H Document := do
  let v ← d.canonicalize
  let f ← v.flatten E
  return f.toDocument

/-- The document that comes back, or the error, is that of the eager value. -/
theorem run_passed_eq (B : Behavior H) (d : Document) (hlimit : w.limit = none) {depth : Nat}
    (hdepth : d.tree.size < depth) :
    ∃ w', (d.passed (.ofBehavior B depth)).run.run w =
      .ok (d.tree.eager.map Flat.toDocument, w') := by
  obtain ⟨item, w₀, hrun, hsprouts⟩ := d.run_canonicalize (B := B) w
  obtain ⟨w', hflat⟩ := hsprouts.run_bind_flatten hlimit hdepth hrun
  refine ⟨w', ?_⟩
  have hpassed := Attempt.run_bind_pure_of_eq hflat Flat.toDocument
  rwa [bind_assoc] at hpassed

/-- A document whose numbers are finite is made canonical and given back.

    - If all that is reached are arrays, texts, integers of 64 bits and numbers that are not
      whole, the document comes back as it was.
    - Something comes back just when everything reached is an array, a text or a number.
    - Otherwise the error names the first node that is neither. -/
theorem run_passed (B : Behavior H) {d : Document} (hfinite : d.Finite) (hlimit : w.limit = none)
    {depth : Nat} (hdepth : d.tree.size < depth) :
    ((∀ e, d.Reaches e → e.Kept) →
      ∃ w', (d.passed (.ofBehavior B depth)).run.run w = .ok (.ok d, w')) ∧
    ((∃ d' w', (d.passed (.ofBehavior B depth)).run.run w = .ok (.ok d', w')) ↔
      ∀ e, d.Reaches e → e.unconvertible? = none) ∧
    ((¬ ∀ e, d.Reaches e → e.unconvertible? = none) → ∃ kind w',
      d.firstRefused? = some kind ∧
      (d.passed (.ofBehavior B depth)).run.run w = .ok
        (.error (.conversion .convertible kind), w') ∧
      (Error.conversion .convertible kind).message =
        "expected number, string or array, got " ++ kind.name) := by
  obtain ⟨w', hrun⟩ := d.run_passed_eq B hlimit hdepth
  have herror := errorOf_eager d hfinite
  refine ⟨fun hkept => ?_, ?_, ?_⟩
  · obtain ⟨f, heager, hback⟩ := eager_of_kept d hkept
    rw [heager, Except.map, hback] at hrun
    exact ⟨w', hrun⟩
  · rw [← firstRefused?_eq_none_iff]
    constructor
    · rintro ⟨d', u, hrun'⟩
      cases heager : d.tree.eager with
      | error e =>
        rw [heager] at hrun
        cases hrun.symm.trans hrun'
      | ok f =>
        rw [heager] at herror
        exact Option.map_eq_none_iff.mp herror.symm
    · intro hnone
      rw [hnone] at herror
      cases heager : d.tree.eager with
      | error e =>
        rw [heager] at herror
        cases herror
      | ok f =>
        rw [heager] at hrun
        exact ⟨f.toDocument, w', hrun⟩
  · rw [← firstRefused?_eq_none_iff]
    intro hsome
    obtain ⟨kind, hkind⟩ := Option.ne_none_iff_exists'.mp hsome
    rw [hkind] at herror
    cases heager : d.tree.eager with
    | ok f =>
      rw [heager] at herror
      cases herror
    | error e =>
      rw [heager] at herror hrun
      cases herror
      exact ⟨kind, w', hkind, hrun, rfl⟩

/-- The double nearest to a tenth. -/
def tenth : Double := ⟨false, 4591870180066957722, by decide⟩

/-- An array with a truth value deep inside and a null behind that. -/
def withRefused : Document :=
  .array [.integer 1, .array [.array [.boolean true]], .null, .boolean false]

def withoutRefused : Document := .array [.string "a", .array [.float tenth, .integer (-3)]]

theorem passed_withoutRefused_and_withRefused :
    (∃ w, (withoutRefused.passed (Session.engine 9)).run.run Session.start =
      .ok (.ok withoutRefused, w)) ∧
    ∃ kind w, withRefused.firstRefused? = some kind ∧
      (withRefused.passed (Session.engine 9)).run.run Session.start =
        .ok (.error (.conversion .convertible kind), w) ∧
      (Error.conversion .convertible kind).message =
        "expected number, string or array, got " ++ kind.name := by
  have hkept : ∀ e, withoutRefused.Reaches e → e.Kept := by
    have htenth : tenth.isFinite = true ∧ tenth.toRat.den ≠ 1 := by decide +kernel
    simp [withoutRefused, forall_reaches_array, forall_reaches, Kept, htenth, Width.contains]
  have hfinite : withoutRefused.Finite := by
    rintro e he x rfl
    exact (hkept _ he).1
  have hfinite' : withRefused.Finite := by
    simp [withRefused, Finite, forall_reaches_array, forall_reaches]
  have hrefused : ¬ ∀ e, withRefused.Reaches e → e.unconvertible? = none := by
    rw [← firstRefused?_eq_none_iff]
    nofun
  obtain ⟨hback, -⟩ := run_passed Session.behavior hfinite (w := Session.start) rfl
    (by decide : withoutRefused.tree.size < 9)
  obtain ⟨-, -, hrefusal⟩ := run_passed Session.behavior hfinite' (w := Session.start) rfl
    (by decide : withRefused.tree.size < 9)
  exact ⟨hback hkept, hrefusal hrefused⟩

end Document

end MemoSeq

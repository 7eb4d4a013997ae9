/-
  MemoSeq/Proofs/Flattening/Eager.lean
  ====================================
  **Making canonical lazily and flattening is evaluating eagerly.**

  A value from outside is made canonical, which for a container makes one sequence only,
  and then flattened, which forces that sequence and makes and forces the nested ones.
  What comes of it is what `Tree.eager` says of the tree that the value becomes, errors
  included, and flattening the same value again comes to the same
  (`External.flatten_eq_eager`).

  Terms of sessions and scripts without hooks become trees (`Session.Term.Grows`).
-/
import MemoSeq.Proofs.Flattening.Planting
import MemoSeq.Proofs.Session.Steady

namespace MemoSeq

variable {H : Host} {B : Behavior H} {w w' : World H} {tree : Tree} {item : Item}

/-- In a world of which nothing is known but that forcing is not limited too much for the
    tree, what has sprouted flattens to the eager value of the tree, time and again. -/
theorem Tree.Sprouts.run_flatten_of_fits (h : tree.Sprouts B item w w')
    (hfits : tree.Fits w.limit) {depth : Nat} (hdepth : tree.size < depth) {v : Value}
    (hitem : item = .ok v) :
    ∃ w₁ w₂, (v.flatten (.ofBehavior B depth)).run.run w' = .ok (tree.eager, w₁) ∧
      (v.flatten (.ofBehavior B depth)).run.run w₁ = .ok (tree.eager, w₂) := by
  obtain ⟨G, -, hplanted, -, hshown⟩ := h.planted (World.planted_empty rfl)
  subst hitem
  obtain ⟨w₁, G₁, hrun, hext, hplanted₁⟩ := hplanted.run_flatten_of_fits hdepth hfits hshown
  obtain ⟨w₂, -, hrun', -⟩ := hplanted₁.run_flatten_of_fits hdepth hfits (hshown.mono hext)
  exact ⟨w₁, w₂, hrun, hrun'⟩

theorem Tree.Sprouts.run_flatten (h : tree.Sprouts B item w w') (hlimit : w.limit = none)
    {depth : Nat} (hdepth : tree.size < depth) {v : Value} (hitem : item = .ok v) :
    ∃ w₁ w₂, (v.flatten (.ofBehavior B depth)).run.run w' = .ok (tree.eager, w₁) ∧
      (v.flatten (.ofBehavior B depth)).run.run w₁ = .ok (tree.eager, w₂) :=
  h.run_flatten_of_fits (hlimit ▸ tree.fits_none) hdepth hitem

theorem Tree.Sprouts.eager_of_error (h : tree.Sprouts B item w w') {e : Error}
    (hitem : item = .error e) : tree.eager = .error e := by
  subst hitem
  cases tree with
  | leaf y =>
    obtain ⟨rfl, -⟩ := h
    rfl
  | node children =>
    obtain ⟨p, hitem, -⟩ := h
    cases hitem

/-- To sprout a tree and to flatten the value is to evaluate the tree. -/
theorem Tree.Sprouts.run_bind_flatten_of_fits (h : tree.Sprouts B item w w')
    (hfits : tree.Fits w.limit) {depth : Nat} (hdepth : tree.size < depth) {a : Attempt H Value}
    (ha : a.run.run w = .ok (item, w')) :
    ∃ w₁, (do (← a).flatten (.ofBehavior B depth)).run.run w = .ok (tree.eager, w₁) := by
  cases item with
  | error e =>
    rw [h.eager_of_error rfl]
    exact ⟨w', Attempt.run_bind_eq_ok.mpr (.inr ⟨e, ha, rfl⟩)⟩
  | ok v =>
    obtain ⟨w₁, -, hflat, -⟩ := h.run_flatten_of_fits hfits hdepth rfl
    exact ⟨w₁, (Attempt.run_bind_of_ok ha).trans hflat⟩

theorem Tree.Sprouts.run_bind_flatten (h : tree.Sprouts B item w w') (hlimit : w.limit = none)
    {depth : Nat} (hdepth : tree.size < depth) {a : Attempt H Value}
    (ha : a.run.run w = .ok (item, w')) :
    ∃ w₁, (do (← a).flatten (.ofBehavior B depth)).run.run w = .ok (tree.eager, w₁) :=
  h.run_bind_flatten_of_fits (hlimit ▸ tree.fits_none) hdepth ha

/-- A value from outside that becomes what a tree says is made canonical and flattened.
    That gives the eager value of the tree or its error.  If the value was made canonical
    at all, flattening it gives the same once more. -/
theorem External.flatten_eq_eager {x : External H.Source} (hx : tree.ShownBy B x)
    (hlimit : w.limit = none) {depth : Nat} (hdepth : tree.size < depth) :
    (∃ w', (do (← canonicalize x).flatten (.ofBehavior B depth)).run.run w =
      .ok (tree.eager, w')) ∧
    ∀ v w₀, (canonicalize x).run.run w = .ok (.ok v, w₀) →
      ∃ w₁ w₂, (v.flatten (.ofBehavior B depth)).run.run w₀ = .ok (tree.eager, w₁) ∧
        (v.flatten (.ofBehavior B depth)).run.run w₁ = .ok (tree.eager, w₂) := by
  obtain ⟨item, w₀, hrun, hsprouts⟩ := hx.run_canonicalize w
  refine ⟨hsprouts.run_bind_flatten hlimit hdepth hrun, fun v w₀' hrun' => ?_⟩
  cases hrun.symm.trans hrun'
  exact hsprouts.run_flatten hlimit hdepth rfl

-- A refusal deep in an earlier child gives way to one among the leaves directly below.
example (e e' : Error) :
    (Tree.node [.node [.leaf (.error e)], .leaf (.error e')]).eager = .error e' := rfl

namespace Session

/-! ### Terms that become trees -/

/-- Whenever the term is read, the value becomes what the tree says, and nothing else has
    happened but to the counts of calls. -/
def Term.Grows (t : Term) (tree : Tree) : Prop :=
  ∀ w, ∃ x host', t.read.run.run w = .ok (.ok x, { w with host := host' }) ∧
    tree.ShownBy behavior x

/-- What an entry of a script gives is a term that becomes the tree, or a failure. -/
def Entry.Grows (entry : Entry) (tree : Tree) : Prop :=
  (∃ t, entry = .term t ∧ t.Grows tree) ∨
    ∃ message, entry = .failure message ∧ tree = .leaf (.error (.producer message))

theorem Term.Grows.of_plain {t : Term} {x : External Script} {y : Outcome Value}
    (ht : t.plain? = some x) (hx : x.plain? = some y) : t.Grows (.leaf y) :=
  fun w => ⟨x, w.host, Term.run_read_of_plain ht w, hx⟩

theorem Term.Grows.items {terms : List Term} {trees : List Tree}
    (h : List.Forall₂ Term.Grows terms trees) : (Term.items terms).Grows (.node trees) := by
  have hall : ∀ w, ∃ xs host', (Term.readAll terms).run.run w =
      .ok (.ok xs, { w with host := host' }) ∧ Tree.AllShownBy behavior trees xs := by
    induction h with
    | nil => exact fun w => ⟨[], w.host, rfl, trivial⟩
    | cons ht _ ih =>
      intro w
      obtain ⟨x, host₁, hread, hx⟩ := ht w
      obtain ⟨xs, host₂, hreads, hxs⟩ := ih { w with host := host₁ }
      refine ⟨x :: xs, host₂, ?_, hx, hxs⟩
      rw [Term.readAll, Attempt.run_bind_of_ok hread, Attempt.run_bind_of_ok hreads]
      rfl
  intro w
  obtain ⟨xs, host', hreads, hxs⟩ := hall w
  exact ⟨.items xs, host', Attempt.run_bind_of_ok hreads, hxs⟩

/-- A script that has gone through its first calls gives what the other entries say. -/
theorem Script.givenBy {entries : List Entry} {trees : List Tree}
    (h : List.Forall₂ Entry.Grows entries trees) (done : List Entry) (counter : Option Nat) :
    Tree.GivenBy behavior trees ⟨.once (done ++ entries), done.length, counter⟩ := by
  induction h generalizing done with
  | nil =>
    intro depth w
    refine ⟨⟨.once (done ++ []), done.length + 1, counter⟩, w.host.countCall counter, ?_⟩
    change (Script.pull _ _).run w = _
    rw [Script.pull, Act.run_bind_of_eq (run_countCall counter w)]
    simp only [Supply.entry?, List.append_nil, List.getElem?_length]
    rfl
  | @cons entry tree entries trees hentry _ ih =>
    intro depth w
    have hrest := ih (done ++ [entry])
    rw [List.append_assoc, List.length_append] at hrest
    have hcall : Supply.entry? (.once (done ++ entry :: entries)) done.length = some entry := by
      simp [Supply.entry?]
    have run {given : Option (Outcome (External Script))} {host' : Desk}
        (hgive : (entry.give (.ofBehavior behavior depth)).run
          { w with host := w.host.countCall counter } = .ok (given, { w with host := host' })) :
        (behavior.pull (.ofBehavior behavior depth)
          ⟨.once (done ++ entry :: entries), done.length, counter⟩).run w =
          .ok ((given, ⟨.once (done ++ entry :: entries), done.length + 1, counter⟩),
            { w with host := host' }) := by
      change (Script.pull _ _).run w = _
      rw [Script.pull, Act.run_bind_of_eq (run_countCall counter w)]
      simp only [hcall]
      exact Act.run_bind_of_eq hgive
    rcases hentry with ⟨t, rfl, ht⟩ | ⟨message, rfl, rfl⟩
    · obtain ⟨x, host', hread, hx⟩ := ht { w with host := w.host.countCall counter }
      exact ⟨.ok x, _, host', run (Act.run_bind_of_eq hread), hx, hrest⟩
    · exact ⟨.error (.producer message), _, _, run rfl, rfl⟩

theorem Term.Grows.iterator {entries : List Entry} {trees : List Tree}
    (h : List.Forall₂ Entry.Grows entries trees) (counter : Option String) :
    (Term.iterator (.once entries) counter).Grows (.node trees) := by
  intro w
  exact ⟨.iterator ⟨.once entries, 0, (w.host.newCount counter).1⟩, (w.host.newCount counter).2,
    rfl, Script.givenBy h [] _⟩

def half : Rat := ⟨1, 2, by decide, by decide⟩

/-- A container of a number, an iterator over a number and a container, and a text. -/
def nestedTerm : Term :=
  .items [.int 1, .iterator (.once [.term (.rational half), .term (.items [.str "a"])]) none,
    .str "b"]

def nestedTree : Tree :=
  .node [.leaf (.ok (.int 1)),
    .node [.leaf (.ok (.rational half)), .node [.leaf (.ok (.str "a"))]],
    .leaf (.ok (.str "b"))]

theorem nestedTerm_grows : nestedTerm.Grows nestedTree :=
  .items (.cons (.of_plain rfl rfl) (.cons
    (.iterator (.cons (.inl ⟨_, rfl, .of_plain rfl rfl⟩)
      (.cons (.inl ⟨_, rfl, .items (.cons (.of_plain rfl rfl) .nil)⟩) .nil)) none)
    (.cons (.of_plain rfl rfl) .nil)))

theorem flatten_nestedTerm :
    ∃ x host' w', nestedTerm.read.run.run start = .ok (.ok x, { start with host := host' }) ∧
      (do (← canonicalize x).flatten (engine 8)).run.run { start with host := host' } =
        .ok (.ok (.list [.int 1, .list [.float (.ofRat half), .list [.str "a"]], .str "b"]),
          w') := by
  obtain ⟨x, host', hread, hx⟩ := nestedTerm_grows start
  obtain ⟨⟨w', hrun⟩, -⟩ := External.flatten_eq_eager hx (w := { start with host := host' }) rfl
    (by decide : nestedTree.size < 8)
  exact ⟨x, host', w', hread, hrun⟩

end Session

end MemoSeq

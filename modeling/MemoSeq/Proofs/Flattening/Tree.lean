/-
  MemoSeq/Proofs/Flattening/Tree.lean
  ===================================
  **Trees of what external values become.**

  A container from outside is made canonical element by element, when its elements are
  reached.  Its `Tree` says what would be found if all of it were reached at once: a value
  or an error for each number and text, and the trees of the elements for each container
  and iterator.  `Tree.eager` is what flattening comes to on the tree itself, without any
  sequence.

  The values from outside that become what a tree says are `Tree.ShownBy`; iterators are
  given by what each call of them gives, whatever the world is.  A producer over them
  delivers an item for each child, and for a child with children of its own it makes one
  more sequence, over a producer of those (`Tree.BornBy`).
-/
import MemoSeq.Canonical
import MemoSeq.Flat
import MemoSeq.Production
import MemoSeq.Proofs.Provision.Steady

namespace MemoSeq

variable {H : Host}

/-- What an external value becomes when all of it is reached. -/
inductive Tree where
  /-- A number or a text, or the reason why there is none. -/
  | leaf (y : Outcome Value)
  | node (children : List Tree)

/-- A number or a text as a flat value; a sequence has none by itself. -/
def Value.widened : Value → Flat
  | .int n => .int n
  | .rational r => .float (.ofRat r)
  | .str text => .str text
  | .list _ => .list []

namespace Tree

/-! ### Eager evaluation -/

def refusal? : Tree → Option Error
  | .leaf (.error e) => some e
  | .leaf (.ok _) | .node _ => none

mutual

/-- The flat value of a tree.  Of a node all children that are leaves are looked at first,
    and the first error among them is the node's; else the children are evaluated in turn,
    and the first of them that fails makes the node fail. -/
def eager : Tree → Outcome Flat
  | .leaf y => y.map Value.widened
  | .node children =>
    match children.findSome? refusal? with
    | some e => .error e
    | none => (eagerAll children).map .list

def eagerAll : List Tree → Outcome (List Flat)
  | [] => .ok []
  | t :: ts => t.eager.bind fun f => (eagerAll ts).map (f :: ·)

end

theorem refusal?_of_eager {t : Tree} {f : Flat} (h : t.eager = .ok f) : t.refusal? = none := by
  cases t with
  | node children => rfl
  | leaf y =>
    cases y with
    | ok v => rfl
    | error e => cases h

mutual

def size : Tree → Nat
  | .leaf _ => 1
  | .node children => sizeAll children + 1

def sizeAll : List Tree → Nat
  | [] => 0
  | t :: ts => t.size + sizeAll ts

end

theorem size_pos (t : Tree) : 0 < t.size := by
  cases t with
  | leaf y => exact Nat.one_pos
  | node children => exact Nat.succ_pos _

theorem length_le_sizeAll (ts : List Tree) : ts.length ≤ sizeAll ts := by
  induction ts with
  | nil => exact Nat.le_refl 0
  | cons t ts ih =>
    have hpos := t.size_pos
    rw [sizeAll, List.length_cons]
    omega

theorem size_le_sizeAll {t : Tree} {ts : List Tree} (h : t ∈ ts) : t.size ≤ sizeAll ts := by
  induction ts with
  | nil => cases h
  | cons u ts ih =>
    rw [sizeAll]
    rcases List.mem_cons.mp h with rfl | h
    · exact Nat.le_add_right _ _
    · exact Nat.le_trans (ih h) (Nat.le_add_left _ _)

mutual

/-- No node has more children than the limit, if there is one. -/
def Fits (limit : Option Nat) : Tree → Prop
  | .leaf _ => True
  | .node children => (∀ bound, limit = some bound → children.length ≤ bound) ∧
    AllFit limit children

def AllFit (limit : Option Nat) : List Tree → Prop
  | [] => True
  | t :: ts => t.Fits limit ∧ AllFit limit ts

end

theorem AllFit.of_mem {limit : Option Nat} {t : Tree} {ts : List Tree} (h : AllFit limit ts)
    (ht : t ∈ ts) : t.Fits limit := by
  induction ts with
  | nil => cases ht
  | cons u ts ih =>
    rcases List.mem_cons.mp ht with rfl | ht
    · exact h.1
    · exact ih h.2 ht

mutual

theorem fits_none : ∀ t : Tree, t.Fits none
  | .leaf _ => trivial
  | .node children => ⟨nofun, allFit_none children⟩

theorem allFit_none : ∀ ts : List Tree, AllFit none ts
  | [] => trivial
  | t :: ts => ⟨fits_none t, allFit_none ts⟩

end

/-! ### Values from outside -/

variable (B : Behavior H)

mutual

def ShownBy : Tree → External H.Source → Prop
  | .leaf y, x => x.plain? = some y
  | .node children, .items items => AllShownBy children items
  | .node children, .iterator source => GivenBy children source
  | .node _, _ => False

def AllShownBy : List Tree → List (External H.Source) → Prop
  | [], [] => True
  | t :: ts, x :: xs => t.ShownBy x ∧ AllShownBy ts xs
  | _, _ => False

/-- The iterator gives one value after the other, then its end, and does nothing to the
    world but to the state of the host.  A failure of its own is the last thing of interest. -/
def GivenBy : List Tree → H.Source → Prop
  | [], s => ∀ depth w, ∃ s' host,
      (B.pull (.ofBehavior B depth) s).run w = .ok ((none, s'), { w with host })
  | t :: ts, s => ∀ depth w, ∃ given s' host,
      (B.pull (.ofBehavior B depth) s).run w = .ok ((some given, s'), { w with host }) ∧
      match given with
      | .ok x => t.ShownBy x ∧ GivenBy ts s'
      | .error e => t = .leaf (.error e)

end

/-! ### Producers -/

mutual

/-- The item of a child and the world that it leaves: a number, a text or an error leaves
    the world as it was, and further children get a sequence of their own. -/
def Sprouts : Tree → Item → World H → World H → Prop
  | .leaf y, item, w, w' => item = y ∧ w' = w ∧ ∀ v, y = .ok v → v.asList? = none
  | .node children, item, w, w' => ∃ p, item = .ok (.list w.freshSequence) ∧
      w' = w.withSequence p false ∧ BornBy children p

/-- The producer delivers an item for each child, then its end.  An error is the last item. -/
def BornBy : List Tree → Producer H → Prop
  | [], p => ∀ depth w, ∃ p' host,
      (p.next (.ofBehavior B (depth + 1))).run w = .ok ((none, p'), { w with host })
  | t :: ts, p => ∀ depth w, ∃ item p' host w',
      (p.next (.ofBehavior B (depth + 1))).run w = .ok ((some item, p'), w') ∧
      t.Sprouts item { w with host } w' ∧ ∀ v, item = .ok v → BornBy ts p'

end

variable {B}

mutual

/-- To make a value from outside canonical is to sprout its tree. -/
theorem ShownBy.run_canonicalize : ∀ {t : Tree} {x : External H.Source}, t.ShownBy B x →
    ∀ w, ∃ item w', (canonicalize x).run.run w = .ok (item, w') ∧ t.Sprouts B item w w'
  | .leaf y, x, h, w => by
    obtain ⟨hscalar, hrun⟩ := External.run_canonicalize_of_plain h
    exact ⟨y, w, hrun w, rfl, rfl, hscalar⟩
  | .node children, .items items, h, w =>
    ⟨_, _, rfl, .container items, rfl, rfl, AllShownBy.bornBy h⟩
  | .node children, .iterator source, h, w =>
    ⟨_, _, rfl, .source source, rfl, rfl, GivenBy.bornBy h⟩

theorem AllShownBy.bornBy : ∀ {ts : List Tree} {xs : List (External H.Source)},
    AllShownBy B ts xs → BornBy B ts (.container xs)
  | [], [], _ => fun _ w => ⟨.container [], w.host, rfl⟩
  | t :: ts, x :: xs, h => fun depth w => by
    obtain ⟨item, w', hrun, hsprouts⟩ := h.1.run_canonicalize w
    exact ⟨item, .container xs, w.host, w', Act.run_bind_of_eq hrun, hsprouts,
      fun _ _ => AllShownBy.bornBy h.2⟩

theorem GivenBy.bornBy : ∀ {ts : List Tree} {s : H.Source},
    GivenBy B ts s → BornBy B ts (.source s)
  | [], s, h => fun depth w => by
    obtain ⟨s', host, hrun⟩ := h depth w
    exact ⟨.source s', host, Act.run_bind_of_eq hrun⟩
  | t :: ts, s, h => fun depth w => by
    obtain ⟨given, s', host, hrun, hgiven⟩ := h depth w
    cases given with
    | error e =>
      subst hgiven
      exact ⟨.error e, .source s', host, _, Act.run_bind_of_eq hrun, ⟨rfl, rfl, nofun⟩, nofun⟩
    | ok x =>
      obtain ⟨item, w', hcanon, hsprouts⟩ := hgiven.1.run_canonicalize { w with host }
      exact ⟨item, .source s', host, w',
        (Act.run_bind_of_eq hrun).trans (Act.run_bind_of_eq hcanon), hsprouts,
        fun _ _ => GivenBy.bornBy hgiven.2⟩

end

end Tree

end MemoSeq

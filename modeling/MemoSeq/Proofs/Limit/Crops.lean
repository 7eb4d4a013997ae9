/-
  MemoSeq/Proofs/Limit/Crops.lean
  ================================
  **What fixed producers yield when their items may be lists.**

  A producer that is fixed yields numbers and texts, lists that are there already, and
  lists of its own.  The latter are new each time: which handle such a list gets is only
  known when its turn comes, and a producer of its own goes with it.  A `Crop` says what
  comes, nested lists and all, whatever the handles are.
-/
import MemoSeq.Proofs.Moments

namespace MemoSeq

variable {H : Host} {B : Behavior H}

def Value.relabel (f : Nat → Nat) : Value → Value
  | .list s => .list ⟨f s.id⟩
  | v => v

/-- Values that are there already, and lists that are new. -/
inductive Crop where
  | done
  | value (v : Value) (rest : Crop)
  | nested (infinite : Bool) (child rest : Crop)
deriving DecidableEq, Repr

namespace Crop

def relabel (f : Nat → Nat) : Crop → Crop
  | .done => .done
  | .value v rest => .value (v.relabel f) (rest.relabel f)
  | .nested infinite child rest => .nested infinite (child.relabel f) (rest.relabel f)

/-- How many values there are in all, those in nested lists included. -/
def size : Crop → Nat
  | .done => 0
  | .value _ rest => rest.size + 1
  | .nested _ child rest => child.size + rest.size + 1

def names : Crop → List Nat
  | .done => []
  | .value v rest => (v.asList?.map Sequence.id).toList ++ rest.names
  | .nested _ child rest => child.names ++ rest.names

end Crop

/-- Yields what the crop says and then ends, and changes nothing but the state of the host.
    A nested list comes with a producer of its own. -/
def Producer.Yields (B : Behavior H) : Crop → Producer H → Prop
  | .done, p => ∀ depth w, ∃ p' host,
      (p.next (.ofBehavior B (depth + 1))).run w = .ok ((none, p'), { w with host })
  | .value v rest, p => ∀ depth w, ∃ p' host,
      (p.next (.ofBehavior B (depth + 1))).run w = .ok ((some (.ok v), p'), { w with host }) ∧
      p'.Yields B rest
  | .nested infinite child rest, p => ∀ depth w, ∃ p' q host,
      (p.next (.ofBehavior B (depth + 1))).run w =
        .ok ((some (.ok (.list w.freshSequence)), p'), { w.withSequence q infinite with host }) ∧
      q.Yields B child ∧ p'.Yields B rest

/-! ### Containers -/

/-- What a container gives when its values are made canonical one by one: a container in it
    becomes a list, and so does an iterator. -/
inductive Crop.Reaped (B : Behavior H) : List (External H.Source) → Crop → Prop
  | done : Reaped B [] .done
  | value (x : External H.Source) (v : Value) (items : List (External H.Source)) (rest : Crop) :
      (∀ w : World H, (canonicalize x).run.run w = .ok (.ok v, w)) → Reaped B items rest →
      Reaped B (x :: items) (.value v rest)
  | container (children items : List (External H.Source)) (child rest : Crop) :
      Reaped B children child → Reaped B items rest →
      Reaped B (.items children :: items) (.nested false child rest)
  | iterator (source : H.Source) (items : List (External H.Source)) (child rest : Crop) :
      (Producer.source source).Yields B child → Reaped B items rest →
      Reaped B (.iterator source :: items) (.nested false child rest)

theorem Producer.yields_container {items : List (External H.Source)} {crop : Crop}
    (h : crop.Reaped B items) : (Producer.container items).Yields B crop := by
  induction h with
  | done => exact fun depth w => ⟨_, w.host, rfl⟩
  | value x v items rest hx _ ih =>
    refine fun depth w => ⟨_, w.host, ?_, ih⟩
    have hcanonical : (canonicalize x).outcome.run w = .ok (.ok v, w) := hx w
    exact Act.run_bind_of_eq hcanonical
  | container children items child rest _ _ ihchild ihrest =>
    exact fun depth w => ⟨_, _, w.host, rfl, ihchild, ihrest⟩
  | iterator source items child rest hsource _ ih =>
    exact fun depth w => ⟨_, _, w.host, rfl, hsource, ih⟩

end MemoSeq

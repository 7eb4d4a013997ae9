/-
  MemoSeq/Engine.lean
  ===================
  **Acts on a world, and the engine that drives producers.**

  Production can go arbitrarily deep: a producer reads a sequence whose producer
  is a host iterator that reads further sequences.  The operations of this
  library are therefore written against an `Engine`, which stands for "drive
  this producer", "ask this host iterator" and "put this test", and are not
  recursive themselves.  `Engine.ofBehavior` (in `MemoSeq.Production`) builds the
  engine of each depth from the one below.

  An act comes to a `Halt` instead of an outcome when it would go deeper or longer
  than its engine allows, and when something in it is aborted.  Whatever the act
  is a part of comes to the same halt.
-/
import MemoSeq.World

namespace MemoSeq

variable {H : Host} {α : Type}

inductive Halt where
  | starved
  /-- Something was demanded that must not be done. -/
  | aborted
deriving DecidableEq, Repr

abbrev Act (H : Host) := StateT (World H) (Except Halt)

/-- An act that may fail.  What it has done before it fails stays done. -/
abbrev Attempt (H : Host) := ExceptT Error (Act H)

/-- The act that lacks the means to go on. -/
def Act.starve : Act H α := fun _ => .error .starved

/-- The act that must not be done. -/
def Act.abort : Act H α := fun _ => .error .aborted

/-- Hands the outcome on to its receiver, be it good or a failure. -/
def Attempt.ofOutcome (r : Outcome α) : Attempt H α := ExceptT.mk (pure r)

/-- Runs an attempt and keeps its failure as an outcome. -/
def Attempt.outcome (a : Attempt H α) : Act H (Outcome α) := a.run

/-- The means to go one level deeper. -/
structure Engine (H : Host) where
  pull : H.Source → Act H (Option (Outcome (External H.Source)) × H.Source)
  test : H.Test → Value → Attempt H Bool
  next : Producer H → Act H (Option Item × Producer H)
  /-- How often a loop may go round. -/
  fuel : Nat

def Engine.idle : Engine H :=
  ⟨fun _ => Act.starve, fun _ _ => Act.starve, fun _ => Act.starve, 0⟩

/-- What the host's own iterators and predicates do, given the means to work on
    the world themselves. -/
structure Behavior (H : Host) where
  pull : Engine H → H.Source → Act H (Option (Outcome (External H.Source)) × H.Source)
  test : Engine H → H.Test → Value → Attempt H Bool

end MemoSeq

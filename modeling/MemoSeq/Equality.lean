/-
  MemoSeq/Equality.lean
  =====================
  **Flattening, and equality of values.**

  To flatten a sequence is to force it and flatten its values from the first to
  the last; the first failure ends it.  Two sequences are equal when they are
  the same one or flatten to the same values.  Comparing values therefore drives
  producers; a failure on the way counts as unequal.
-/
import MemoSeq.Flat
import MemoSeq.Sequence.Basic

namespace MemoSeq

variable {H : Host}

/-- Reduces a value to plain containers and scalars, nested at most `depth` deep. -/
def Value.flattenWithin (E : Engine H) : Nat → Value → Attempt H Flat
  | _, .int n => return .int n
  | _, .rational r => return .float (.ofRat r)
  | _, .str text => return .str text
  | 0, .list _ => Act.starve
  | depth + 1, .list s => do
    let values ← s.materialize E
    return .list (← values.toList.mapM (Value.flattenWithin E depth))

/-- Reduces a value to plain containers and scalars; forces every sequence in it. -/
def Value.flatten (E : Engine H) (v : Value) : Attempt H Flat :=
  v.flattenWithin E E.fuel

/-- Structural equality after flattening, the sequence first. -/
def Sequence.equals (E : Engine H) (s : Sequence) (v : Value) : Attempt H Bool := do
  let ours ← Value.flatten E (.list s)
  let theirs ← v.flatten E
  return ours.equal theirs

/-- Equality of sequences: the same one, or equal items. -/
def Sequence.same (E : Engine H) (s t : Sequence) : Act H Bool := do
  if s = t then return true
  match ← (s.equals E (.list t)).outcome with
  | .ok b => return b
  | .error _ => return false

/-- Equality of values: numbers by size, texts and sequences by what they hold.
    A number never equals a text or a sequence. -/
def Value.same (E : Engine H) : Value → Value → Act H Bool
  | .list a, .list b => a.same E b
  | a, b => return a.sameScalar b

end MemoSeq

/-
  MemoSeq/Canonical.lean
  ======================
  **Making external values canonical.**

  Numbers and texts become values at once or fail at once.  Containers and
  iterators become sequences and cannot fail: their elements are made canonical
  when they are reached.
-/
import MemoSeq.Sequence.Basic

namespace MemoSeq

variable {H : Host}

/-- The canonical value of an external one. -/
def canonicalize : External H.Source → Attempt H Value
  | .int n => return .int n
  | .rational r => return .ofRat r
  | .float x => .ofOutcome x.canonical
  | .str text => return .str text
  | .value v => return v
  | .symbolic s => .ofOutcome s.canonical
  | .items items => return .list (← Sequence.ofItems items)
  | .iterator source => return .list (← Sequence.ofSource source false)

/-- The sequence over the elements of a JSON array, converted one by one. -/
def Document.toSequence : Document → Attempt H Sequence
  | .array items => Sequence.adopt (H := H) (.documents items) false
  | other => throw (.conversion .array other.kind)

/-- The canonical value of a JSON document; an array becomes a sequence. -/
def Document.canonicalize : Document → Attempt H Value
  | .integer n => return .int n
  | .float x => .ofOutcome x.canonical
  | .string text => return .str text
  | .array items => return .list (← (Document.array items).toSequence)
  | other => throw (.conversion .convertible other.kind)

end MemoSeq

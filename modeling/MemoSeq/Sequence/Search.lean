/-
  MemoSeq/Sequence/Search.lean
  ============================
  **Searching a sequence.**

  A sequence that is said to be infinite is taken to be non-decreasing: what is
  cached is searched, and then production goes on only while the latest value is
  at most the one that is looked for.  Any other sequence is searched along a
  fresh iteration.
-/
import MemoSeq.Equality

namespace MemoSeq

variable {H : Host}

namespace Sequence

def scan (E : Engine H) (target : Value) : Nat → Iteration → Attempt H Bool
  | 0, _ => Act.starve
  | rounds + 1, i => do
    match ← i.next E with
    | (none, _) => return false
    | (some (.error e), _) => throw e
    | (some (.ok v), i) => if ← v.same E target then return true else scan E target rounds i

/-- Holds if a listed value equals `target`; compares no further than the first
    that does. -/
def anySame (E : Engine H) (target : Value) : List Value → Act H Bool
  | [] => return false
  | v :: values => do
    if ← v.same E target then return true else anySame E target values

/-- Produces values for as long as the latest is at most `target`. -/
def climb (E : Engine H) (s : Sequence) (target : Value) : Nat → Value → Attempt H Bool
  | 0, _ => Act.starve
  | rounds + 1, last => do
    if last.atMost target then
      match ← s.advance E with
      | none => return false
      | some v => if ← v.same E target then return true else s.climb E target rounds v
    else return false

def contains (E : Engine H) (s : Sequence) (target : Value) : Attempt H Bool := do
  let w ← get
  let cell := w.sequence s
  if cell.infinite then
    if ← anySame E target cell.cache.toList then return true
    else s.climb E target E.fuel (cell.cache.back?.getD .zero)
  else scan E target E.fuel (w.iteration s)

/-- How many of the listed values equal `target`. -/
def countSame (E : Engine H) (target : Value) (values : List Value) : Act H Nat :=
  values.foldlM (fun n v => return if ← v.same E target then n + 1 else n) 0

/-- The number of values equal to `target`; forces the whole sequence. -/
def count (E : Engine H) (s : Sequence) (target : Value) : Attempt H Nat := do
  countSame E target (← s.materialize E).toList

end Sequence

end MemoSeq

/-
  MemoSeq/Session/Answer.lean
  ===========================
  **What steps answer.**

  A value is answered as a snapshot: of a sequence only what is cached at that
  moment, and nothing is forced to write it.
-/
import MemoSeq.Exchange
import MemoSeq.Json.Writer
import MemoSeq.Render

namespace MemoSeq

inductive Snapshot where
  | int (n : Int)
  | rational (r : Rat)
  | str (text : String)
  | list (cached : List Snapshot) (exhausted infinite : Bool)

/-- The snapshot of a value, nested at most `depth` deep. -/
def World.snapshotWithin {H : Host} (w : World H) : Nat → Value → Snapshot
  | _, .int n => .int n
  | _, .rational r => .rational r
  | _, .str text => .str text
  | 0, .list s => .list [] (w.sequence s).isExhausted (w.sequence s).infinite
  | depth + 1, .list s =>
    let cell := w.sequence s
    .list (cell.cache.toList.map (w.snapshotWithin depth)) cell.isExhausted cell.infinite

def World.snapshot {H : Host} (w : World H) (v : Value) : Snapshot :=
  w.snapshotWithin (w.sequences.size + 1) v

namespace Session

inductive Answer where
  | nothing
  | flag (b : Bool)
  | flags (first second : Bool)
  | number (n : Int)
  | text (text : String)
  | value (v : Snapshot)
  | values (vs : List Snapshot)
  /-- Items of an iteration, and whether it was seen to end. -/
  | items (items : List (Outcome Snapshot)) (ended : Bool)
  | sliceSequence (isLazy : Bool) (s : Snapshot)
  | sliceItems (isLazy : Bool) (vs : List Snapshot)
  | ratio (r : Rat)
  | flat (f : Flat)
  | flattened (kind : Kind) (f : Flat)
  | host (v : HostValue)
  | description (kind : Kind) (isNumber isList : Bool) (display structureText : String)
  | comparison (equal : Bool) (order : Option Ordering) (lt le gt ge : Bool)
  | failure (e : Error)
  /-- A step that makes no sense, such as one that uses an unbound name. -/
  | complaint (message : String)

/-- What happened during a step. -/
inductive Event where
  /-- A hook's step was answered. -/
  | answered (a : Answer)
  /-- A function that makes a producer was called. -/
  | called

/-- A named sequence as a report shows it. -/
structure SequenceReport where
  name : String
  cachedLength : Nat
  exhausted : Bool
  infinite : Bool

/-- The answer to a step with what is to be seen of the session after it. -/
structure Report where
  answer : Answer
  sequences : List SequenceReport
  /-- How often each counted producer was called. -/
  calls : List (String × Nat)
  events : List Event

structure Transcript where
  /-- The reports on the steps taken. -/
  reports : List Report
  /-- Set when the step after these was aborted, which ends the session. -/
  aborted : Bool

end Session

end MemoSeq

/-
  MemoSeq/Proofs/Requests.lean
  ============================
  **What can be asked of a sequence, and what it replies.**

  The operations of a sequence as data, so that statements can be about all of them in any
  order.  A reply tells everything except which sequence was made, if one was: that
  depends on how many there were before.
-/
import MemoSeq.Equality
import MemoSeq.Render
import MemoSeq.Sequence.Derived
import MemoSeq.Sequence.Search
import MemoSeq.Sequence.Slice

namespace MemoSeq

variable {H : Host}

inductive Sequence.Request (H : Host) where
  | advance
  | read (index : Int)
  | overwrite (index : Int) (x : External H.Source)
  | length
  | materialize
  | count (target : Value)
  | contains (target : Value)
  | slice (start stop step : Option Int)
  | reverse
  | filter (test : H.Test)
  | append (other : Sequence)
  | flatten
  | equals (v : Value)
  -- what can be seen without forcing anything
  | cached
  | exhausted
  | display
  | structureText

inductive Sequence.Reply where
  | done
  /-- A sequence has been made. -/
  | made
  | item (v : Option Value)
  | values (vs : List Value)
  | number (n : Nat)
  | flag (b : Bool)
  | text (text : String)
deriving DecidableEq, Repr

def Slice.reply : Slice → Sequence.Reply
  | .lazy _ => .made
  | .items vs => .values vs

namespace Sequence

def Request.act (E : Engine H) (s : Sequence) : Request H → Attempt H Reply
  | .advance => return .item (← s.advance E)
  | .read index => return .item (some (← s.read E index))
  | .overwrite index x => do
    s.overwrite E index x
    return .done
  | .length => return .number (← s.length E)
  | .materialize => return .values (← s.materialize E).toList
  | .count target => return .number (← s.count E target)
  | .contains target => return .flag (← s.contains E target)
  | .slice start stop step => return (← s.slice E start stop step).reply
  | .reverse => do
    let _ ← s.reverse E
    return .made
  | .filter test => do
    let _ ← s.filter (H := H) test
    return .made
  | .append other => do
    let _ ← s.append (H := H) other
    return .made
  | .flatten => do
    let _ ← Value.flatten E (.list s)
    return .done
  | .equals v => return .flag (← s.equals E v)
  | .cached => return .values ((← get).sequence s).cache.toList
  | .exhausted => return .flag ((← get).sequence s).isExhausted
  | .display => return .text ((← get).display (.list s))
  | .structureText => return .text ((← get).structureOf (.list s))

end Sequence

end MemoSeq

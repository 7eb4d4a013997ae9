/-
  MemoSeq/Sequence/Slice.lean
  ===========================
  **Slices.**

  A slice with a stop is computed at once, by reading the position of every
  number in the range with wraparound.  A slice without a stop is a new lazy
  sequence; once it is driven it forces the whole sequence and strides over it,
  without wraparound.
-/
import MemoSeq.Sequence.Index

namespace MemoSeq

variable {H : Host}

inductive Slice where
  /-- Without a stop: another sequence. -/
  | lazy (s : Sequence)
  /-- With a stop: the values. -/
  | items (values : List Value)
deriving DecidableEq, Repr

/-- How many of the numbers `start`, `start + step`, … come before `stop` in the
    direction of `step`. -/
def rangeCount (start stop step : Int) : Nat :=
  if 0 < step then ((stop - start + step - 1) / step).toNat
  else if step < 0 then ((start - stop - step - 1) / -step).toNat
  else 0

/-- Every `step`-th value from `start` on, where a negative `start` counts from
    the end and one outside is moved to the nearer end. -/
def stride (values : Array Value) (start step : Int) : List Value :=
  let length : Int := values.size
  let first :=
    if 0 < step then if start < 0 then max (start + length) 0 else min start length
    else if start < 0 then start + length else min start (length - 1)
  let count := rangeCount first (if 0 < step then length else -1) step
  (List.range count).filterMap fun (k : Nat) => values[(first + k * step).toNat]?

namespace Sequence

/-- Reads `count` values, `step` apart, the first at `start`. -/
def readRange (E : Engine H) (s : Sequence) (step : Int) :
    Nat → Int → Array Value → Attempt H (List Value)
  | 0, _, read => return read.toList
  | count + 1, index, read => do
    let v ← s.read E index
    s.readRange E step count (index + step) (read.push v)

/-- Slices a sequence.  A missing start is zero, a step of zero is one, and a
    negative stop counts from the end of the forced sequence. -/
def slice (E : Engine H) (s : Sequence) (start stop step : Option Int) : Attempt H Slice := do
  let start := start.getD 0
  let step := match step with
    | none | some 0 => 1
    | some step => step
  match stop with
  | none => return .lazy (← adopt (H := H) (.strided start step (.pending s)) false)
  | some stop =>
    let stop ← if stop < 0 then do
        let length ← s.length E
        pure (stop + length)
      else pure stop
    return .items (← s.readRange E step (rangeCount start stop step) start #[])

end Sequence

namespace Slice

def toSequence : Slice → Act H Sequence
  | .lazy s => return s
  | .items values => Sequence.ofValues values

/-- The values of the slice; forces a lazy one. -/
def toList (E : Engine H) : Slice → Attempt H (List Value)
  | .lazy s => return (← s.materialize E).toList
  | .items values => return values

end Slice

end MemoSeq

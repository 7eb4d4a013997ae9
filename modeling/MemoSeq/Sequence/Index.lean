/-
  MemoSeq/Sequence/Index.lean
  ===========================
  **Reading and overwriting by position.**

  Reading wraps around: at or past the end of a finite sequence an index is
  taken modulo the length, and a negative one counts from the end.  An empty
  sequence reads as zero everywhere.  Overwriting does not wrap, and changes the
  cache only.
-/
import MemoSeq.Canonical

namespace MemoSeq

variable {H : Host}

/-- Puts a value into the cache of a sequence, in place of the one that is there. -/
def World.overwrite (w : World H) (s : Sequence) (position : Nat) (v : Value) : World H :=
  w.updateSequence s fun c =>
    if position < c.cache.size then
      { c with
        cache := c.cache.setIfInBounds position v
        overwritten := (position, v) :: c.overwritten }
    else c

namespace Sequence

/-- The value that an index finds among all values of a finite sequence. -/
def wrapped (values : Array Value) (index : Int) : Value :=
  values.getD (index % values.size).toNat .zero

/-- The value at an index.  A natural index forces production as far as it
    points, a negative one to the end. -/
def read (E : Engine H) (s : Sequence) (index : Int) : Attempt H Value := do
  if index < 0 then
    return wrapped (← s.materialize E) index
  else
    let _ ← s.forceThrough E index.toNat
    return wrapped ((← get).sequence s).cache index

/-- Overwrites the value at an index.  The new value is made canonical before
    anything is forced. -/
def overwrite (E : Engine H) (s : Sequence) (index : Int) (x : External H.Source) :
    Attempt H Unit := do
  let v ← canonicalize x
  if index < 0 then
    let length ← s.length E
    if length + index < 0 then throw (.indexOutOfBounds index length)
    modify (·.overwrite s (length + index).toNat v)
  else if ← s.forceThrough E index.toNat then
    modify (·.overwrite s index.toNat v)
  else
    throw (.indexOutOfBounds index ((← get).sequence s).cache.size)

end Sequence

end MemoSeq

/-
  MemoSeq/Sequence/Derived.lean
  =============================
  **Sequences made from sequences.**

  A filter opens its iteration on its first pull.  A concatenation opens the one
  on the left at once and the one on the right when the left has ended.  Both
  are lazy and inherit the word that a part is infinite.  A reversal is made of
  values.
-/
import MemoSeq.Sequence.Basic

namespace MemoSeq

variable {H : Host}

namespace Sequence

def filter (s : Sequence) (test : H.Test) : Act H Sequence := do
  adopt (.filtered test (.pending s)) ((← get).sequence s).infinite

def append (s t : Sequence) : Act H Sequence := do
  let w ← get
  adopt (.joined (some (w.iteration s)) (.pending t))
    ((w.sequence s).infinite || (w.sequence t).infinite)

/-- The values from the last to the first; forces the whole sequence. -/
def reverse (E : Engine H) (s : Sequence) : Attempt H Sequence := do
  let values ← s.materialize E
  ofValues (H := H) values.toList.reverse

end Sequence

end MemoSeq

/-
  MemoSeq/Flat.lean
  =================
  **Flat values**: numbers, texts and nested containers without sequences, which
  is what comparison and emission work on.

  A rational that is not whole widens to the nearest double, so a flat value can
  forget more than the canonical one that it came from.
-/
import MemoSeq.Value

namespace MemoSeq

/-- A value reduced to plain containers and scalars. -/
inductive Flat where
  | int (n : Int)
  | float (x : Double)
  | str (text : String)
  | list (items : List Flat)
deriving Repr

namespace Flat

instance : Inhabited Flat := ⟨.int 0⟩

/-- The kind of a flat value, as error texts and answers name it. -/
def kind : Flat → Kind
  | .int _ => .int
  | .float _ => .float
  | .str _ => .string
  | .list _ => .list

mutual

/-- Numeric equality of flat values.  An integer equals a floating-point number
    when it rounds to it. -/
def equal : Flat → Flat → Bool
  | .int a, .int b => a == b
  | .float a, .float b => a.equal b
  | .int a, .float b => (Binary.ofInt a).equal b
  | .float a, .int b => (Binary.ofInt b).equal a
  | .str a, .str b => a == b
  | .list a, .list b => equalItems a b
  | _, _ => false

def equalItems : List Flat → List Flat → Bool
  | [], [] => true
  | a :: as, b :: bs => equal a b && equalItems as bs
  | _, _ => false

end

end Flat

end MemoSeq

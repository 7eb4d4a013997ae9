/-
  MemoSeq/Text/Order.lean
  =======================
  **The order of texts**: by the code points of their characters, from the first
  on, and a text comes before those that continue it.
-/

namespace MemoSeq.Text

/-- Compares two runs of characters. -/
def compareChars : List Char → List Char → Ordering
  | [], [] => .eq
  | [], _ :: _ => .lt
  | _ :: _, [] => .gt
  | a :: as, b :: bs =>
    if a.toNat < b.toNat then .lt
    else if b.toNat < a.toNat then .gt
    else compareChars as bs

def order (a b : String) : Ordering := compareChars a.toList b.toList

/-- Holds when the first text comes before the second. -/
def before (a b : String) : Bool := order a b == .lt

end MemoSeq.Text

/-
  MemoSeq/Number/Width.lean
  =========================
  **Ranges of integers**: the words of 32 and 64 bits, and all integers.
-/

namespace MemoSeq

/-- The range of a kind of integers. -/
inductive Width where
  | signed32
  | signed64
  | unsigned64
  | unbounded
deriving DecidableEq, Repr

/-- Holds of the integers in range. -/
def Width.contains : Width → Int → Bool
  | .signed32, n => -2147483648 ≤ n && n < 2147483648
  | .signed64, n => -9223372036854775808 ≤ n && n < 9223372036854775808
  | .unsigned64, n => 0 ≤ n && n < 18446744073709551616
  | .unbounded, _ => true

end MemoSeq

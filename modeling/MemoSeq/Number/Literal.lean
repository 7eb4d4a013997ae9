/-
  MemoSeq/Number/Literal.lean
  ===========================
  **Decimal literals** such as `-12`, `3.25`, `.5` and `1e-3`.

  A literal is an optional sign, digits with at most one point among them, and
  an optional exponent.  Its value is exact.  What a literal scales by is
  bounded: the power of ten that remains when the point is moved behind the last
  digit lies within `10 ^ ±10000`, so that reading a short text cannot make an
  enormous number.
-/
import MemoSeq.Number.Decimal
import MemoSeq.Number.Width
import MemoSeq.Text.Blank

namespace MemoSeq

/-- The parts of a decimal literal: the digits before and after its point are
    kept as written. -/
structure Literal where
  negative : Bool
  whole : List Char
  fraction : List Char
  exponent : Int
deriving DecidableEq, Repr

namespace Literal

def digitsValue (digits : List Char) : Nat :=
  digits.foldl (fun value c => 10 * value + (c.toNat - '0'.toNat)) 0

/-- Takes an optional sign off the front, and says whether it was a minus. -/
def splitSign : List Char → Bool × List Char
  | '-' :: rest => (true, rest)
  | '+' :: rest => (false, rest)
  | rest => (false, rest)

/-- Reads what follows the exponent mark: an optional sign and at least one digit. -/
def exponent? (text : List Char) : Option Int :=
  let (negative, digits) := splitSign text
  if digits.isEmpty || !digits.all Char.isDigit then none
  else some (if negative then -digitsValue digits else digitsValue digits)

/-- Holds of the two letters that open the exponent. -/
def isExponentMark (c : Char) : Bool := c == 'e' || c == 'E'

/-- Takes a text without surrounding blanks apart. -/
def parse? (text : List Char) : Option Literal := do
  let (negative, unsigned) := splitSign text
  let mantissa := unsigned.takeWhile (!isExponentMark ·)
  let exponent ← match unsigned.dropWhile (!isExponentMark ·) with
    | [] => some 0
    | _ :: rest => exponent? rest
  let whole := mantissa.takeWhile (· != '.')
  let fraction := (mantissa.dropWhile (· != '.')).drop 1
  if whole.isEmpty && fraction.isEmpty then none
  else if (whole ++ fraction).all Char.isDigit then some ⟨negative, whole, fraction, exponent⟩
  else none

/-- The power of ten that the digits without their point are scaled by. -/
def scale (l : Literal) : Int := l.exponent - l.fraction.length

/-- The largest power of ten, up or down, that a literal may scale by. -/
def maxScale : Nat := 10000

/-- Holds of the literals whose scale is within bounds, and whose exponent and
    number of places fit a signed word of 32 bits. -/
def inBounds (l : Literal) : Bool :=
  Width.signed32.contains l.exponent && Width.signed32.contains l.fraction.length &&
    l.scale.natAbs ≤ maxScale

/-- The digits before the point, with the sign. -/
def integer (l : Literal) : Int :=
  if l.negative then -digitsValue l.whole else digitsValue l.whole

def value (l : Literal) : Rat :=
  let magnitude := (Decimal.mk (digitsValue (l.whole ++ l.fraction)) l.scale).toRat
  if l.negative then -magnitude else magnitude

/-- Reads a text as a decimal literal, surrounding blanks aside. -/
def read? (text : String) : Option Rat := do
  let l ← parse? (Text.trim text.toList)
  if l.inBounds then some l.value else none

end Literal

end MemoSeq

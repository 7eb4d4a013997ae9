/-
  MemoSeq/Number/Style.lean
  =========================
  **How a decimal is written down.**

  Two layouts exist: the positional one (`0.00012`, `1500`) and the scientific
  one (`1.2e-4`).  A `Style` says which of the two a decimal gets, judged by the
  place of its leading digit, and settles the few points on which texts of the
  same number differ.
-/
import MemoSeq.Number.Decimal

namespace MemoSeq

structure Style where
  /-- Which of two equally near shortest decimals is written. -/
  tie : Decimal.Tie
  /-- Holds of the places of a leading digit that are written positionally. -/
  positional : Int → Bool
  /-- Whole numbers written positionally end in a point and a zero. -/
  pointZero : Bool
  /-- Exponents from zero on carry a plus sign. -/
  plusSign : Bool

namespace Decimal

/-- The digits, the most significant one first. -/
def chars (d : Decimal) : List Char := Nat.toDigits 10 d.digits

def leadingPlace (d : Decimal) : Int := d.place + d.chars.length - 1

/-- The digits around a point, filled up with zeros on either side of it.
    Without digits after the point, `whole` is written in its stead. -/
def positional (d : Decimal) (whole : List Char) : List Char :=
  let zeros (n : Nat) := List.replicate n '0'
  if 0 ≤ d.place then d.chars ++ zeros d.place.toNat ++ whole
  else
    let after := (-d.place).toNat
    let padded := zeros (after + 1 - d.chars.length) ++ d.chars
    padded.take (padded.length - after) ++ '.' :: padded.drop (padded.length - after)

/-- One digit, a point if more follow, and the exponent of ten. -/
def scientific (d : Decimal) (plusSign : Bool) : List Char :=
  let mantissa := match d.chars with
    | first :: second :: rest => first :: '.' :: second :: rest
    | short => short
  let e := d.leadingPlace
  let sign := if e < 0 then ['-'] else if plusSign then ['+'] else []
  mantissa ++ 'e' :: sign ++ Nat.toDigits 10 e.natAbs

end Decimal

namespace Style

/-- The shortest decimal text of a finite magnitude. -/
def magnitude (s : Style) (F : Format) (code : Nat) : List Char :=
  let d := Decimal.shortest F s.tie code
  if s.positional d.leadingPlace then d.positional (if s.pointZero then ['.', '0'] else [])
  else d.scientific s.plusSign

/-- The text of a floating-point number.  What is no number has no sign. -/
def write {F : Format} (s : Style) (x : Binary F) : String :=
  if x.isNaN then "NaN"
  else
    let magnitude := if x.isFinite then s.magnitude F x.code else ['i', 'n', 'f']
    String.ofList (if x.negative then '-' :: magnitude else magnitude)

/-- Never an exponent, and no point after a whole number: `1`, `0.1`, `-0`. -/
def plain : Style := ⟨.up, fun _ => true, false, false⟩

/-- Whole numbers keep a point, and the scientific layout is taken from `1e16`
    on and below `0.0001`. -/
def structural : Style := ⟨.up, fun place => -4 ≤ place && place < 16, true, false⟩

end Style

end MemoSeq

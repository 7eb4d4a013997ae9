/-
  MemoSeq/Number/Binary.lean
  ==========================
  **Binary floating-point numbers as exact data.**

  A `Binary F` is a sign and a magnitude code: the exponent field and the
  fraction field of the interchange format `F`, read as one natural number.
  Nothing here computes with machine floats, so every statement about a number
  is a statement about natural numbers and rationals.

  Every finite magnitude is a whole multiple of the smallest positive one, the
  *quantum* `1 / 2 ^ F.places`.  `Format.quanta` counts those multiples; it is
  strictly increasing in the code, which is why rounding may be done on codes:
  `Format.nearest` rounds a quotient of naturals to the code of a nearest
  magnitude, ties to the even code, and everything from the upper edge of the
  largest finite magnitude on to the code of infinity.
-/
import MemoSeq.Number.Words

namespace MemoSeq

/-! ### Formats -/

/-- An interchange format: the widths in bits of its fraction and exponent fields. -/
structure Format where
  fraction : Nat
  exponent : Nat
deriving DecidableEq, Repr

namespace Format

def double : Format := ⟨52, 11⟩

def single : Format := ⟨23, 8⟩

/-- The number of binary places after the point of the smallest positive magnitude. -/
def places (F : Format) : Nat := Nat.pow 2 (F.exponent - 1) - 2 + F.fraction

/-- The code of infinity: the exponent field full, the fraction field empty.
    Codes below it are finite, codes above it are no numbers. -/
def infinity (F : Format) : Nat := (Nat.pow 2 F.exponent - 1) * Nat.pow 2 F.fraction

theorem infinity_lt (F : Format) : F.infinity < Nat.pow 2 (F.exponent + F.fraction) := by
  have split : Nat.pow 2 (F.exponent + F.fraction) = Nat.pow 2 F.exponent * Nat.pow 2 F.fraction :=
    Nat.pow_add 2 F.exponent F.fraction
  rw [split, Format.infinity]
  exact Nat.mul_lt_mul_of_pos_right (Nat.sub_lt (Nat.two_pow_pos _) Nat.one_pos)
    (Nat.two_pow_pos _)

/-- How many quanta the finite magnitude with code `code` is worth.  An empty
    exponent field stands for a subnormal; otherwise a leading one is implied. -/
def quanta (F : Format) (code : Nat) : Nat :=
  let stored := code % Nat.pow 2 F.fraction
  match code / Nat.pow 2 F.fraction with
  | 0 => stored
  | e + 1 => (Nat.pow 2 F.fraction + stored) * Nat.pow 2 e

end Format

/-! ### Rounding -/

/-- The whole number nearest to `n / d`; a tie goes to the even neighbour. -/
def roundHalfEven (n d : Nat) : Nat :=
  let q := n / d
  let r := n % d
  if 2 * r < d then q
  else if d < 2 * r then q + 1
  else q + q % 2

/-- The code of the magnitude nearest to `n / d`; a tie goes to the even code,
    and beyond the largest finite magnitude the answer is infinity.

    In units of the quantum the quotient is `n * 2 ^ places / d`.  Dropping
    `shift` of its bits leaves at most `fraction + 1` of them, the precision of
    the format, and `shift` is also what the exponent field counts. -/
def Format.nearest (F : Format) (n d : Nat) : Nat :=
  let n := n * Nat.pow 2 F.places
  let shift := (n / d).log2 - F.fraction
  min (shift * Nat.pow 2 F.fraction + roundHalfEven n (d * Nat.pow 2 shift)) F.infinity

theorem Format.nearest_lt (F : Format) (n d : Nat) :
    F.nearest n d < Nat.pow 2 (F.exponent + F.fraction) :=
  Nat.lt_of_le_of_lt (Nat.min_le_right _ _) F.infinity_lt

/-! ### Numbers -/

/-- A floating-point number of format `F`: its sign and its magnitude code. -/
structure Binary (F : Format) where
  negative : Bool
  code : Nat
  code_lt : code < Nat.pow 2 (F.exponent + F.fraction)
deriving DecidableEq, Repr

abbrev Double := Binary .double

abbrev Single := Binary .single

namespace Binary

variable {F : Format}

/-- Reads the number off its bit pattern; bits beyond the format's width are ignored. -/
def ofBits (bits : Nat) : Binary F :=
  ⟨bits.testBit (F.exponent + F.fraction), bits % Nat.pow 2 (F.exponent + F.fraction),
    Nat.mod_lt _ (Nat.two_pow_pos _)⟩

/-- The bit pattern: the sign bit above the magnitude code. -/
def toBits (x : Binary F) : Nat :=
  (if x.negative then Nat.pow 2 (F.exponent + F.fraction) else 0) + x.code

def zero (negative : Bool) : Binary F := ⟨negative, 0, Nat.two_pow_pos _⟩

def infinite (negative : Bool) : Binary F := ⟨negative, F.infinity, F.infinity_lt⟩

instance : Inhabited (Binary F) := ⟨zero false⟩

/-- Holds of every number but the infinities and the codes above them. -/
def isFinite (x : Binary F) : Bool := x.code < F.infinity

/-- Holds of the codes that stand for no number. -/
def isNaN (x : Binary F) : Bool := F.infinity < x.code

def toRat (x : Binary F) : Rat :=
  let magnitude := mkRat (F.quanta x.code) (Nat.pow 2 F.places)
  if x.negative then -magnitude else magnitude

/-- The number nearest to a rational.  What underflows keeps its sign; zero is positive. -/
def ofRat (r : Rat) : Binary F :=
  ⟨r.num < 0, F.nearest r.num.natAbs r.den, F.nearest_lt _ _⟩

/-- The number that an integer is rounded to: the nearest one, by the bits that
    rounding looks at. -/
def ofInt (n : Int) : Binary F :=
  ⟨n < 0, F.nearest (sightedBits n.natAbs) 1, F.nearest_lt _ _⟩

/-- Numeric equality: the two zeros are equal, and what is no number equals nothing. -/
def equal (x y : Binary F) : Bool :=
  !x.isNaN && !y.isNaN && x.code == y.code && (x.code == 0 || x.negative == y.negative)

end Binary

end MemoSeq

/-
  MemoSeq/Number/Decimal.lean
  ===========================
  **Decimals, and the shortest one that reads back.**

  A `Decimal` is a whole number of units of a power of ten.  The decimal places
  form grids, each ten times finer than the one before.  `Decimal.shortest`
  walks from a grid that is too coarse to the grid on which the given magnitude
  lies itself, and stops at the first one where a neighbour of the magnitude
  reads back as it.  If any point of a grid reads back, so does one of the two
  neighbours, because the magnitudes that read back form an interval around the
  given one; hence no decimal with fewer digits reads back.
-/
import MemoSeq.Number.Binary

namespace MemoSeq

/-- The decimal `digits * 10 ^ place`. -/
structure Decimal where
  digits : Nat
  place : Int
deriving DecidableEq, Repr

/-- The greatest `k` with `10 ^ k ≤ n`, and zero for zero. -/
def decimalLog (n : Nat) : Nat :=
  if n < 10 then 0 else decimalLog (n / 10) + 1

namespace Decimal

/-- The value as a quotient of naturals. -/
def quotient (d : Decimal) : Nat × Nat :=
  if 0 ≤ d.place then (d.digits * Nat.pow 10 d.place.toNat, 1)
  else (d.digits, Nat.pow 10 (-d.place).toNat)

def toRat (d : Decimal) : Rat :=
  mkRat d.quotient.1 d.quotient.2

/-- The code of the magnitude that `d` reads back as. -/
def read (F : Format) (d : Decimal) : Nat :=
  F.nearest d.quotient.1 d.quotient.2

/-- The floating-point number of a given sign that `d` reads back as. -/
def toBinary (F : Format) (negative : Bool) (d : Decimal) : Binary F :=
  ⟨negative, d.read F, F.nearest_lt _ _⟩

/-- Which of two equally near neighbours on a grid is taken. -/
inductive Tie where
  | up
  | even
deriving DecidableEq, Repr

/-- The grid point nearest to `n / d` counted in units of one, where `low` is
    the neighbour below. -/
def Tie.nearest (tie : Tie) (n d low : Nat) : Nat :=
  let r := n % d
  if 2 * r < d then low
  else if d < 2 * r then low + 1
  else match tie with
    | .up => low + 1
    | .even => low + low % 2

/-- The neighbour of the magnitude on the grid of `place` that reads back as it:
    of two such neighbours the nearer one, if there is any. -/
def onGrid (F : Format) (tie : Tie) (code : Nat) (place : Int) : Option Nat :=
  let n := F.quanta code * Nat.pow 10 (-place).toNat
  let d := Nat.pow 2 F.places * Nat.pow 10 place.toNat
  let low := n / d
  let below := read F ⟨low, place⟩ == code
  let above := read F ⟨low + 1, place⟩ == code
  if below && above then some (tie.nearest n d low)
  else if below then some low
  else if above then some (low + 1)
  else none

/-- Walks from the grid of place `steps - places` down to the finest one, of
    place `-places`, on which the magnitude itself lies. -/
def search (F : Format) (tie : Tie) (code : Nat) : Nat → Decimal
  | 0 => ⟨F.quanta code * Nat.pow 5 F.places, -F.places⟩
  | steps + 1 =>
    let place : Int := steps + 1 - F.places
    match onGrid F tie code place with
    | some digits => ⟨digits, place⟩
    | none => search F tie code steps

/-- The decimal with the fewest digits that reads back as the finite magnitude
    with code `code`, and among those the nearest to it. -/
def shortest (F : Format) (tie : Tie) (code : Nat) : Decimal :=
  if code = 0 then ⟨0, 0⟩
  else
    let leading : Int := decimalLog (F.quanta code) - decimalLog (Nat.pow 2 F.places)
    search F tie code (leading + 1 + F.places).toNat

end Decimal

namespace Binary

variable {F : Format}

/-- The exact value of the shortest decimal of a finite number. -/
def shortestRat (x : Binary F) : Rat :=
  let magnitude := (Decimal.shortest F .up x.code).toRat
  if x.negative then -magnitude else magnitude

/-- The double nearest to a single's shortest decimal.  Signs, infinities and
    what is no number are kept. -/
def widen (x : Single) : Double :=
  if x.isFinite then (Decimal.shortest .single .up x.code).toBinary .double x.negative
  else if x.isNaN then ⟨x.negative, Format.double.infinity + 1, by decide⟩
  else infinite x.negative

end Binary

end MemoSeq

/-
  MemoSeq/External.lean
  =====================
  **Values from outside.**  An `External` is what a host or a symbolic layer
  hands over before it is canonical.  This module holds the rules for the ones
  that become a number or a text at once; containers and iterators become
  sequences, which takes a world to put them in.

  A floating-point number becomes the rational that its shortest decimal
  denotes, not the one that its bits denote: `0.1` is a tenth.
-/
import MemoSeq.Number.Literal
import MemoSeq.Value

namespace MemoSeq

/-! ### Symbolic numbers -/

/-- The structural class of a symbolic number. -/
inductive SymbolicForm where
  | integer
  | rational
  | product
  | factorial
  | other
deriving DecidableEq, Repr

/-- What a symbolic number tells of itself. -/
structure Symbolic where
  form : SymbolicForm
  /-- Its value, if it is known to be an integer. -/
  integer : Option Int
  /-- Its exact value, if that is rational. -/
  rational : Option Rat
  evaluation : Double
  description : String
deriving DecidableEq, Repr

/-! ### External values -/

/-- A value from outside; `ι` is the type of the host's own iterators. -/
inductive External (ι : Type) where
  | int (n : Int)
  | rational (r : Rat)
  | float (x : Double)
  | str (text : String)
  /-- A value that is canonical already. -/
  | value (v : Value)
  | symbolic (s : Symbolic)
  | items (items : List (External ι))
  | iterator (source : ι)

instance {ι : Type} : Inhabited (External ι) := ⟨.int 0⟩

/-! ### Canonical numbers -/

/-- The number that the shortest decimal of a finite floating-point number denotes. -/
def Binary.canonical (x : Double) : Outcome Value :=
  if x.isFinite then .ok (.ofRat x.shortestRat) else .error (.nonFinite x)

/-- The canonical form of a symbolic number.  Products and factorials go through
    their numerical value; the others need an exact one. -/
def Symbolic.canonical (s : Symbolic) : Outcome Value :=
  match s.form with
  | .product | .factorial => s.evaluation.canonical
  | .integer =>
    match s.integer with
    | some n => .ok (.int n)
    | none => .error (.unrepresentable s.description)
  | .rational | .other =>
    match s.integer, s.rational with
    | some n, _ => .ok (.int n)
    | none, some r => .ok (.ofRat r)
    | none, none => .error (.unrepresentable s.description)

def decimalOfText (text : String) : Outcome Rat :=
  match Literal.read? text with
  | some r => .ok r
  | none => .error (.invalidDecimal text)

end MemoSeq

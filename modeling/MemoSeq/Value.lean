/-
  MemoSeq/Value.lean
  ==================
  **Canonical values**: integers, rationals that are not whole, texts, and
  sequences by reference.

  Every number has one form (`Value.Canonical`), so equal numbers are the same
  value.  A sequence is named by a handle; copying the handle shares the
  sequence.  What depends on the items of a sequence, such as structural
  equality, is therefore not defined here but where sequences can be forced.
-/
import MemoSeq.Error
import MemoSeq.Text.Order

namespace MemoSeq

/-- A shared handle of a memoizing sequence. -/
structure Sequence where
  id : Nat
deriving DecidableEq, Repr

inductive Value where
  | int (n : Int)
  | rational (r : Rat)
  | str (text : String)
  | list (s : Sequence)
deriving DecidableEq, Repr

namespace Value

/-- The integer zero, which indexing finds in an empty sequence. -/
def zero : Value := .int 0

instance : Inhabited Value := ⟨zero⟩

/-- The canonical form of a rational: whole ones are integers. -/
def ofRat (r : Rat) : Value :=
  if r.den = 1 then .int r.num else .rational r

/-- The quotient of two integers, unless the second is zero. -/
def ratio? (num den : Int) : Option Value :=
  if den = 0 then none else some (ofRat (Rat.divInt num den))

/-- Holds when no whole number is held as a rational. -/
def Canonical : Value → Prop
  | .rational r => r.den ≠ 1
  | _ => True

instance : DecidablePred Canonical := fun v => by
  cases v <;> unfold Canonical <;> infer_instance

theorem canonical_ofRat (r : Rat) : (ofRat r).Canonical := by
  unfold ofRat
  split
  · exact trivial
  · assumption

/-- The kind of a value, as error texts and answers name it. -/
def kind : Value → Kind
  | .int _ => .int
  | .rational _ => .rational
  | .str _ => .string
  | .list _ => .list

def isNumber : Value → Bool
  | .int _ | .rational _ => true
  | _ => false

def asList? : Value → Option Sequence
  | .list s => some s
  | _ => none

def asRat? : Value → Option Rat
  | .int n => some n
  | .rational r => some r
  | _ => none

/-- Equality of numbers by size and of texts; no other values are equal here. -/
def sameScalar : Value → Value → Bool
  | .str a, .str b => a == b
  | a, b =>
    match a.asRat?, b.asRat? with
    | some x, some y => x == y
    | _, _ => false

/-! ### Order

Numbers are ordered by size and texts by code points.  Every other pair is
unordered, and so no comparison of it holds. -/

/-- How two values compare, if they are ordered. -/
def compare? : Value → Value → Option Ordering
  | .str a, .str b => some (Text.order a b)
  | a, b => do
    let x ← a.asRat?
    let y ← b.asRat?
    some (if x < y then .lt else if x = y then .eq else .gt)

def less (a b : Value) : Bool := a.compare? b == some .lt

def atMost (a b : Value) : Bool := a.less b || a.compare? b == some .eq

def greater (a b : Value) : Bool := a.compare? b == some .gt

def atLeast (a b : Value) : Bool := a.greater b || a.compare? b == some .eq

end Value

end MemoSeq

/-
  MemoSeq/Error.lean
  ==================
  **What can go wrong** while items are produced, made canonical, addressed or
  read back.  An `Error` names a cause; `Error.message` is the one place where
  causes are put into words.

  The end of a producer is never an error.
-/
import MemoSeq.Number.Style
import MemoSeq.Text.Quoted

namespace MemoSeq

inductive Kind where
  | null
  | boolean
  | number
  | array
  | object
  | int
  | rational
  | float
  | string
  | list
  | integer
  | bigInteger
deriving DecidableEq, Repr

def Kind.name : Kind → String
  | .null => "null"
  | .boolean => "boolean"
  | .number => "number"
  | .array => "array"
  | .object => "object"
  | .int => "int"
  | .rational => "rational"
  | .float => "float"
  | .string => "string"
  | .list => "list"
  | .integer => "integer"
  | .bigInteger => "big integer"

inductive Expectation where
  | convertible
  | array
  | integer
  | signed64
  | signed32
  | natural
  | number
  | string
  | list
deriving DecidableEq, Repr

def Expectation.name : Expectation → String
  | .convertible => "number, string or array"
  | .array => "array"
  | .integer => "integer"
  | .signed64 => "integer in i64 range"
  | .signed32 => "integer in i32 range"
  | .natural => "non-negative integer"
  | .number => "number"
  | .string => "string"
  | .list => "list"

inductive Error where
  /-- Forcing a whole sequence went past the limit in force. -/
  | materializeLimit (limit : Nat)
  /-- A floating-point number without a rational value. -/
  | nonFinite (x : Double)
  /-- A symbolic number without a canonical form, by its own description. -/
  | unrepresentable (description : String)
  /-- A text that is no decimal literal. -/
  | invalidDecimal (text : String)
  /-- An overwrite at a position that the sequence does not have. -/
  | indexOutOfBounds (index : Int) (length : Nat)
  /-- A failure that a producer or a predicate raised itself. -/
  | producer (message : String)
  /-- A value that does not have the form asked for. -/
  | conversion (expected : Expectation) (got : Kind)
deriving DecidableEq, Repr

def Error.message : Error → String
  | .materializeLimit limit => s!"materialization exceeded the limit of {limit} elements"
  | .nonFinite x =>
    "cannot represent non-finite number " ++ Style.plain.write x ++ " as a rational"
  | .unrepresentable description => "cannot canonicalize value: " ++ description
  | .invalidDecimal text => "invalid decimal literal: " ++ Text.quote text
  | .indexOutOfBounds index length =>
    s!"index {index} out of bounds for list of length {length}"
  | .producer message => "producer failed: " ++ message
  | .conversion expected got => "expected " ++ expected.name ++ ", got " ++ got.name

/-- One step of production: a good item or the failure that ends production. -/
abbrev Outcome (α : Type) := Except Error α

end MemoSeq

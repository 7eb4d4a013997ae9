/-
  MemoSeq/Json/Writer.lean
  ========================
  **Documents from flat values, and compact JSON text from documents.**

  Integers beyond 64 bits become strings of their digits, and what is not finite
  becomes `null`, because JSON numbers are not read back exactly elsewhere.
-/
import MemoSeq.Flat
import MemoSeq.Json.Document
import MemoSeq.Number.Width

namespace MemoSeq

namespace Flat

def toDocument : Flat → Document
  | .int n => if Width.signed64.contains n then .integer n else .string (toString n)
  | .float x => if x.isFinite then .float x else .null
  | .str text => .string text
  | .list items => .array (items.map toDocument)

end Flat

/-- Floating-point numbers in JSON: the even one of two equally near decimals,
    always a point in the positional layout and always a sign on the exponent. -/
def Style.json : Style := ⟨.even, fun place => -5 ≤ place && place < 16, true, true⟩

namespace Document

/-- One character inside a JSON string.  Only quotes, backslashes and controls
    are escaped. -/
def escape (c : Char) : List Char :=
  match c with
  | '"' => ['\\', '"']
  | '\\' => ['\\', '\\']
  | '\x08' => ['\\', 'b']
  | '\x0c' => ['\\', 'f']
  | '\n' => ['\\', 'n']
  | '\r' => ['\\', 'r']
  | '\t' => ['\\', 't']
  | c =>
    if c.toNat < 0x20 then
      '\\' :: 'u' :: '0' :: '0' :: Nat.digitChar (c.toNat / 16) :: [Nat.digitChar (c.toNat % 16)]
    else [c]

def quote (text : String) : String :=
  String.ofList ('"' :: text.toList.flatMap escape ++ ['"'])

/-- The compact text of a document. -/
def write : Document → String
  | .null => "null"
  | .boolean b => if b then "true" else "false"
  | .integer n => toString n
  | .float x => Style.json.write x
  | .string text => quote text
  | .array items => "[" ++ ",".intercalate (items.map write) ++ "]"
  | .object fields =>
    "\x7b" ++ ",".intercalate (fields.attach.map fun ⟨field, _⟩ =>
      quote field.1 ++ ":" ++ write field.2) ++ "\x7d"
termination_by d => sizeOf d
decreasing_by
  · rename_i h
    have := List.sizeOf_lt_of_mem h
    simp; omega
  · rename_i h
    have := List.sizeOf_lt_of_mem h
    cases field
    simp at *; omega

end Document

end MemoSeq

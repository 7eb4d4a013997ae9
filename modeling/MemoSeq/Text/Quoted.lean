/-
  MemoSeq/Text/Quoted.lean
  ========================
  **Quoted texts**: a text between double quotes in which every character that
  would be misread or could not be seen is escaped.
-/
import MemoSeq.Text.Extending
import MemoSeq.Text.Ignorable
import MemoSeq.Text.Unprintable

namespace MemoSeq.Text

/-- The code point in lower-case hexadecimal digits, in braces after `\u`. -/
def escapeCode (c : Char) : List Char :=
  '\\' :: 'u' :: '\x7b' :: Nat.toDigits 16 c.toNat ++ ['\x7d']

/-- Holds of the characters that are written by their code. -/
def needsCode (c : Char) : Bool :=
  if 0x20 ≤ c.toNat && c.toNat < 0x7f then false
  else isUnprintable c || isIgnorable c || isMerging c

/-- One character inside double quotes. -/
def escape (c : Char) : List Char :=
  match c with
  | '"' => ['\\', '"']
  | '\\' => ['\\', '\\']
  | '\n' => ['\\', 'n']
  | '\r' => ['\\', 'r']
  | '\t' => ['\\', 't']
  | '\x00' => ['\\', '0']
  | c => if needsCode c then escapeCode c else [c]

/-- The text between double quotes, escaped. -/
def quote (text : String) : String :=
  String.ofList ('"' :: text.toList.flatMap escape ++ ['"'])

end MemoSeq.Text

/-
  MemoSeq/Json/Reader.lean
  ========================
  **Reading JSON text.**

  A number without a point and an exponent that fits 64 bits, signed or not, is
  an integer, and any other number is the nearest double; `-0` is the negative
  zero.  A number beyond the range of doubles is refused.
-/
import MemoSeq.Json.Document
import MemoSeq.Number.Literal
import MemoSeq.Number.Width

namespace MemoSeq

namespace Document

/-! ### Numbers -/

/-- Decimals below ten to this power are nearer to zero than to any other
    double, and those above its inverse are beyond all doubles. -/
def extremePlace : Int := -400

def nearestDouble (l : Literal) : Double :=
  let digits := Literal.digitsValue (l.whole ++ l.fraction)
  let place := decimalLog digits + l.scale
  if digits = 0 || place < extremePlace then .zero l.negative
  else if -extremePlace < place then .infinite l.negative
  else (Decimal.mk digits l.scale).toBinary .double l.negative

/-- Holds of the integers that fit 64 bits, signed or not. -/
def fitsWord (n : Int) : Bool := Width.signed64.contains n || Width.unsigned64.contains n

/-- The number that a run of characters denotes. -/
def ofNumeral? (token : List Char) : Option Document := do
  let l ← Literal.parse? token
  if token.all (fun c => c.isDigit || c == '-') && fitsWord l.integer
      && !(l.negative && l.integer == 0) then
    some (.integer l.integer)
  else
    let x := nearestDouble l
    if x.isFinite then some (.float x) else none

/-- Holds of the characters that numbers are made of. -/
def isNumeric (c : Char) : Bool := c.isDigit || "+-.eE".contains c

/-! ### Strings -/

/-- The number that four hexadecimal digits denote. -/
def hexValue? (digits : List Char) : Option Nat :=
  digits.foldlM (fun n c =>
    if c.isDigit then some (16 * n + (c.toNat - '0'.toNat))
    else if 'a' ≤ c && c ≤ 'f' then some (16 * n + (c.toNat - 'a'.toNat + 10))
    else if 'A' ≤ c && c ≤ 'F' then some (16 * n + (c.toNat - 'A'.toNat + 10))
    else none) 0

def unescape? : Char → Option Char
  | '"' => some '"'
  | '\\' => some '\\'
  | '/' => some '/'
  | 'b' => some '\x08'
  | 'f' => some '\x0c'
  | 'n' => some '\n'
  | 'r' => some '\r'
  | 't' => some '\t'
  | _ => none

/-- The character that two halves of a pair stand for. -/
def pair? (high low : Nat) : Option Char :=
  if 0xd800 ≤ high && high < 0xdc00 && 0xdc00 ≤ low && low < 0xe000 then
    some (Char.ofNat (0x10000 + (high - 0xd800) * 0x400 + (low - 0xdc00)))
  else none

/-- Reads the rest of a string up to its closing quote. -/
def readString : List Char → Option (List Char × List Char)
  | '"' :: rest => some ([], rest)
  | '\\' :: 'u' :: a :: b :: c :: d :: '\\' :: 'u' :: e :: f :: g :: h :: rest => do
    let high ← hexValue? [a, b, c, d]
    if 0xd800 ≤ high && high < 0xe000 then
      let paired ← pair? high (← hexValue? [e, f, g, h])
      let (text, rest) ← readString rest
      some (paired :: text, rest)
    else
      let (text, rest) ← readString ('\\' :: 'u' :: e :: f :: g :: h :: rest)
      some (Char.ofNat high :: text, rest)
  | '\\' :: 'u' :: a :: b :: c :: d :: rest => do
    let code ← hexValue? [a, b, c, d]
    if 0xd800 ≤ code && code < 0xe000 then none
    else
      let (text, rest) ← readString rest
      some (Char.ofNat code :: text, rest)
  | '\\' :: c :: rest => do
    let unescaped ← unescape? c
    let (text, rest) ← readString rest
    some (unescaped :: text, rest)
  | c :: rest =>
    if c.toNat < 0x20 then none
    else do
      let (text, rest) ← readString rest
      some (c :: text, rest)
  | [] => none

/-! ### Documents -/

def skipBlanks (text : List Char) : List Char :=
  text.dropWhile fun c => c == ' ' || c == '\n' || c == '\r' || c == '\t'

mutual

/-- Reads a document off the front of a text, nested at most `depth` deep. -/
def readWithin : Nat → List Char → Option (Document × List Char)
  | 0, _ => none
  | depth + 1, text =>
    match skipBlanks text with
    | 'n' :: 'u' :: 'l' :: 'l' :: rest => some (.null, rest)
    | 't' :: 'r' :: 'u' :: 'e' :: rest => some (.boolean true, rest)
    | 'f' :: 'a' :: 'l' :: 's' :: 'e' :: rest => some (.boolean false, rest)
    | '"' :: rest => do
      let (text, rest) ← readString rest
      some (.string (String.ofList text), rest)
    | '[' :: rest =>
      match skipBlanks rest with
      | ']' :: rest => some (.array [], rest)
      | rest => do
        let (items, rest) ← readItems depth rest
        some (.array items, rest)
    | '\x7b' :: rest =>
      match skipBlanks rest with
      | '\x7d' :: rest => some (.object [], rest)
      | rest => do
        let (fields, rest) ← readFields depth rest
        some (.object fields, rest)
    | text => do
      let number ← ofNumeral? (text.takeWhile isNumeric)
      some (number, text.dropWhile isNumeric)

/-- Reads the elements of an array up to its closing bracket. -/
def readItems : Nat → List Char → Option (List Document × List Char)
  | 0, _ => none
  | depth + 1, text => do
    let (item, rest) ← readWithin depth text
    match skipBlanks rest with
    | ']' :: rest => some ([item], rest)
    | ',' :: rest =>
      let (items, rest) ← readItems depth rest
      some (item :: items, rest)
    | _ => none

/-- Reads the fields of an object up to its closing brace. -/
def readFields : Nat → List Char → Option (List (String × Document) × List Char)
  | 0, _ => none
  | depth + 1, text =>
    match skipBlanks text with
    | '"' :: rest => do
      let (name, rest) ← readString rest
      match skipBlanks rest with
      | ':' :: rest =>
        let (value, rest) ← readWithin depth rest
        let field := (String.ofList name, value)
        match skipBlanks rest with
        | '\x7d' :: rest => some ([field], rest)
        | ',' :: rest =>
          let (fields, rest) ← readFields depth rest
          some (field :: fields, rest)
        | _ => none
      | _ => none
    | _ => none

end

/-- Reads a text as one document.  Every level of nesting takes a character, so
    the length of the text bounds the depth. -/
def read? (text : String) : Option Document :=
  match readWithin (text.length + 1) text.toList with
  | some (d, rest) => if (skipBlanks rest).isEmpty then some d else none
  | none => none

end Document

end MemoSeq

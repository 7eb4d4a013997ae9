/-
  MemoSeq/Render.lean
  ===================
  **Texts of values and sequences.**

  Rendering shows what has been produced and forces nothing.  The *display* text
  of a sequence joins the texts of its first cached values with bars and ends in
  an ellipsis when there is, or may be, more to see.  The *structural* text names
  the parts of a value.

  A sequence may come to hold itself, by its own producer or by an overwrite.
  Nesting is therefore cut off at the number of sequences there are, which the
  nesting of any other sequence does not exceed.
-/
import MemoSeq.Flat
import MemoSeq.Sequence.Basic

namespace MemoSeq

variable {H : Host}

/-- Texts with a separator between them. -/
def joinTexts (separator : String) (texts : List String) : String :=
  separator.intercalate texts

/-- The entries between brackets, with commas. -/
def bracketed (texts : List String) : String := "[" ++ joinTexts ", " texts ++ "]"

/-- Numerator and denominator around a slash, for a rational that is not whole. -/
def rationalText (r : Rat) : String :=
  if r.den = 1 then toString r.num else s!"{r.num}/{r.den}"

/-! ### Display texts -/

def ellipsis : String := "..."

/-- The text of a value, nested at most `depth` deep. -/
def World.displayWithin (w : World H) : Nat → Value → String
  | _, .int n => toString n
  | _, .rational r => rationalText r
  | _, .str text => Text.quote text
  | 0, .list _ => ellipsis
  | depth + 1, .list s =>
    let cell := w.sequence s
    let shown := (cell.cache.toList.take w.displayLength).map (w.displayWithin depth)
    let more := !cell.isExhausted || w.displayLength < cell.cache.size
    let bar := if more && !cell.cache.isEmpty then "|" else ""
    "⟨" ++ joinTexts "|" shown ++ bar ++ (if more then ellipsis else "") ++ "⟩"

def World.display (w : World H) (v : Value) : String :=
  w.displayWithin (w.sequences.size + 1) v

/-! ### Structural texts -/

/-- The structural text of a value, nested at most `depth` deep. -/
def World.structureWithin (w : World H) : Nat → Value → String
  | _, .int n => s!"Int({n})"
  | _, .rational r => "Rational(" ++ rationalText r ++ ")"
  | _, .str text => "Str(" ++ Text.quote text ++ ")"
  | 0, .list _ => ellipsis
  | depth + 1, .list s =>
    let cell := w.sequence s
    "LazyList \x7b cached: " ++ bracketed (cell.cache.toList.map (w.structureWithin depth)) ++
      s!", infinite: {cell.infinite}, exhausted: {cell.isExhausted}" ++ " \x7d"

def World.structureOf (w : World H) (v : Value) : String :=
  w.structureWithin (w.sequences.size + 1) v

def World.structureOfExternal {ι : Type} (w : World H) : External ι → String
  | .int n => s!"Int({n})"
  | .rational r => "Rational(" ++ rationalText r ++ ")"
  | .float x => "Float(" ++ Style.plain.write x ++ ")"
  | .str text => "Str(" ++ Text.quote text ++ ")"
  | .value v => "Value(" ++ w.structureOf v ++ ")"
  | .symbolic s => "Symbolic(" ++ s.description ++ ")"
  | .items items => "Items(" ++ bracketed (items.map w.structureOfExternal) ++ ")"
  | .iterator _ => "Iter(..)"

def Flat.structureText : Flat → String
  | .int n => s!"Int({n})"
  | .float x => "Float(" ++ Style.structural.write x ++ ")"
  | .str text => "Str(" ++ Text.quote text ++ ")"
  | .list items => "List(" ++ bracketed (items.map structureText) ++ ")"

end MemoSeq

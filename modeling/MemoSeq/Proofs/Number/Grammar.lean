/-
  MemoSeq/Proofs/Number/Grammar.lean
  ==================================
  **The grammar of decimal literals.**

  The reader of literals takes a text apart from the left; the grammar says which texts
  there are, by putting them together: a sign that may be missing, digits with at most one
  point among them, an exponent that may be missing (`Literal.Spelling`).  A text is taken
  apart exactly if it can be put together, and in the same way (`parse?_eq_some_iff`); so
  nothing outside the grammar is accepted, whatever its parts look like.

  What a literal denotes is a rational, and so in lowest terms.
-/
import MemoSeq.External
import Mathlib.Algebra.Order.Ring.Rat
import Mathlib.Data.Nat.Digits.Defs
import Mathlib.Data.List.Induction
import Mathlib.Data.List.TakeWhile
import Mathlib.Tactic.Linarith
import Mathlib.Tactic.Ring

namespace MemoSeq

/-! ### Blanks at both ends -/

namespace Text

/-- Holds if `core` is `text` without the blanks at its ends, and has none itself. -/
structure Trims (text core : List Char) : Prop where
  split : ∃ before after, text = before ++ core ++ after ∧
    (∀ c ∈ before, isBlank c = true) ∧ ∀ c ∈ after, isBlank c = true
  first : ∀ c ∈ core.head?, isBlank c = false
  last : ∀ c ∈ core.getLast?, isBlank c = false

theorem head?_dropWhile {p : Char → Bool} {text : List Char} {c : Char}
    (h : c ∈ (text.dropWhile p).head?) : p c = false := by
  have hhead := text.head?_dropWhile_not p
  rwa [Option.mem_def.mp h] at hhead

theorem dropWhile_blanks {blanks rest : List Char} (h : ∀ c ∈ blanks, isBlank c = true)
    (hrest : ∀ c ∈ rest.head?, isBlank c = false) : (blanks ++ rest).dropWhile isBlank = rest := by
  rw [List.dropWhile_append_of_pos h]
  cases rest with
  | nil => rfl
  | cons c rest => rw [List.dropWhile_cons, hrest c rfl, if_neg Bool.false_ne_true]

theorem trims_trim (text : List Char) : Trims text (trim text) := by
  have hlead := List.takeWhile_append_dropWhile (p := isBlank) (l := text)
  have htrail := List.takeWhile_append_dropWhile (p := isBlank)
    (l := (text.dropWhile isBlank).reverse)
  have hcore : text.dropWhile isBlank =
      trim text ++ ((text.dropWhile isBlank).reverse.takeWhile isBlank).reverse := by
    rw [trim, ← List.reverse_append, htrail, List.reverse_reverse]
  refine ⟨⟨text.takeWhile isBlank, ((text.dropWhile isBlank).reverse.takeWhile isBlank).reverse,
    ?_, fun c hc => List.mem_takeWhile_imp hc, fun c hc => ?_⟩, fun c hc => ?_, fun c hc => ?_⟩
  · rw [List.append_assoc, ← hcore, hlead]
  · exact List.mem_takeWhile_imp (List.mem_reverse.mp hc)
  · have hhead : c ∈ (text.dropWhile isBlank).head? := by
      rw [hcore, List.head?_append, Option.mem_def.mp hc]
      rfl
    exact head?_dropWhile hhead
  · rw [trim, List.getLast?_reverse] at hc
    exact head?_dropWhile hc

theorem Trims.eq_trim {text core : List Char} (h : Trims text core) : core = trim text := by
  obtain ⟨⟨before, after, rfl, hbefore, hafter⟩, hfirst, hlast⟩ := h
  have hback : ∀ c ∈ after.reverse, isBlank c = true := fun c hc =>
    hafter c (List.mem_reverse.mp hc)
  have hend : ∀ c ∈ core.reverse.head?, isBlank c = false := by rwa [List.head?_reverse]
  cases hcore : core with
  | nil =>
    have hall : ∀ c ∈ before ++ after, isBlank c = true :=
      List.forall_mem_append.mpr ⟨hbefore, hafter⟩
    rw [List.append_nil, trim, List.dropWhile_eq_nil_iff.mpr hall]
    rfl
  | cons c rest =>
    rw [← hcore]
    have hstart : ∀ c ∈ (core ++ after).head?, isBlank c = false := by
      rw [hcore] at hfirst ⊢
      exact hfirst
    rw [List.append_assoc, trim, dropWhile_blanks hbefore hstart, List.reverse_append,
      dropWhile_blanks hback hend, List.reverse_reverse]

theorem trims_iff {text core : List Char} : Trims text core ↔ core = trim text :=
  ⟨Trims.eq_trim, fun h => h ▸ trims_trim text⟩

end Text

namespace Literal

/-! ### The grammar -/

def Digits (text : List Char) : Prop := ∀ c ∈ text, c.isDigit = true

/-- The number that digits denote by their places. -/
def placeValue (digits : List Char) : Nat :=
  Nat.ofDigits 10 (digits.reverse.map fun c => c.toNat - '0'.toNat)

def signed (negative : Bool) (n : Nat) : Int := if negative then -n else n

/-- A sign, which may be missing, and whether it is a minus. -/
inductive Sign : List Char → Bool → Prop
  | absent : Sign [] false
  | plus : Sign ['+'] false
  | minus : Sign ['-'] true

/-- The digits before and after the point; a mantissa without a point has none after it. -/
inductive Mantissa : List Char → List Char → List Char → Prop
  | plain {whole} (digits : Digits whole) (some_digit : whole ≠ []) : Mantissa whole whole []
  | pointed {whole fraction} (before : Digits whole) (after : Digits fraction)
      (some_digit : whole ≠ [] ∨ fraction ≠ []) :
      Mantissa (whole ++ '.' :: fraction) whole fraction

/-- A sign, which may be missing, and digits, which may not. -/
inductive SignedDigits : List Char → Int → Prop
  | intro {sign digits negative} (hsign : Sign sign negative) (hdigits : Digits digits)
      (some_digit : digits ≠ []) :
      SignedDigits (sign ++ digits) (signed negative (placeValue digits))

/-- An exponent, which may be missing, and its value. -/
inductive Exponent : List Char → Int → Prop
  | absent : Exponent [] 0
  | lower {text e} (h : SignedDigits text e) : Exponent ('e' :: text) e
  | upper {text e} (h : SignedDigits text e) : Exponent ('E' :: text) e

/-- Holds if the text spells the literal. -/
inductive Spelling : List Char → Literal → Prop
  | intro {sign mantissa exponent negative whole fraction e} (hsign : Sign sign negative)
      (hmantissa : Mantissa mantissa whole fraction) (hexponent : Exponent exponent e) :
      Spelling (sign ++ mantissa ++ exponent) ⟨negative, whole, fraction, e⟩

/-- Holds if the exponent and the number of places fit a signed word of 32 bits, and their
    difference lies between `-10000` and `10000`. -/
structure Bounded (l : Literal) : Prop where
  exponent_ge : -2 ^ 31 ≤ l.exponent
  exponent_lt : l.exponent < 2 ^ 31
  places_lt : l.fraction.length < 2 ^ 31
  scale_ge : -10000 ≤ l.exponent - l.fraction.length
  scale_le : l.exponent - l.fraction.length ≤ 10000

/-- The sign, the digits without the point as an integer, and a power of ten. -/
def denotes (l : Literal) : ℚ :=
  (if l.negative then -1 else 1) * placeValue (l.whole ++ l.fraction) *
    10 ^ (l.exponent - l.fraction.length)

/-! ### Values -/

theorem digitsValue_concat (digits : List Char) (c : Char) :
    digitsValue (digits ++ [c]) = 10 * digitsValue digits + (c.toNat - '0'.toNat) := by
  simp only [digitsValue, List.foldl_append, List.foldl_cons, List.foldl_nil]

theorem digitsValue_eq_placeValue (digits : List Char) :
    digitsValue digits = placeValue digits := by
  induction digits using List.reverseRecOn with
  | nil => rfl
  | append_singleton digits c ih =>
    rw [digitsValue_concat, ih, placeValue, placeValue, List.reverse_concat, List.map_cons,
      Nat.ofDigits_cons, Nat.add_comm]

end Literal

/-- A decimal as a rational: its digits and the power of ten of its place. -/
theorem Decimal.toRat_eq (d : Decimal) : d.toRat = (d.digits : ℚ) * 10 ^ d.place := by
  rw [toRat, Rat.mkRat_eq_div, quotient]
  split
  case isTrue hplace =>
    obtain ⟨n, hn⟩ := Int.eq_ofNat_of_zero_le hplace
    rw [hn, zpow_natCast]
    push_cast [Int.toNat_natCast, Nat.pow_eq]
    ring
  case isFalse hplace =>
    obtain ⟨n, hn⟩ := Int.eq_ofNat_of_zero_le (Int.neg_nonneg_of_nonpos (Int.le_of_not_le hplace))
    rw [show d.place = -(n : Int) by omega, zpow_neg, zpow_natCast]
    push_cast [Int.neg_neg, Int.toNat_natCast, Nat.pow_eq]
    ring

namespace Literal

theorem value_eq_denotes (l : Literal) : l.value = l.denotes := by
  rw [value, denotes, Decimal.toRat_eq, digitsValue_eq_placeValue, scale]
  cases l.negative with
  | true => simp only [if_true]; ring
  | false => simp only [Bool.false_eq_true, if_false]; ring

theorem inBounds_iff (l : Literal) : l.inBounds = true ↔ l.Bounded := by
  have hscale : (l.exponent - l.fraction.length).natAbs ≤ 10000 ↔
      -10000 ≤ l.exponent - l.fraction.length ∧ l.exponent - l.fraction.length ≤ 10000 := by omega
  simp only [inBounds, Width.contains, scale, maxScale, Bool.and_eq_true, decide_eq_true_eq, hscale]
  constructor
  · rintro ⟨⟨⟨hge, hlt⟩, -, hplaces⟩, hlow, hhigh⟩
    exact ⟨by omega, by omega, by omega, hlow, hhigh⟩
  · rintro ⟨hge, hlt, hplaces, hlow, hhigh⟩
    exact ⟨⟨⟨by omega, by omega⟩, by omega, by omega⟩, hlow, hhigh⟩

/-! ### Characters of the parts -/

theorem Digits.ne {text : List Char} (h : Digits text) {c : Char} (hc : c ∈ text) {d : Char}
    (hd : d.isDigit = false) : c ≠ d := by
  rintro rfl
  rw [h c hc] at hd
  cases hd

theorem digits_append {a b : List Char} : Digits (a ++ b) ↔ Digits a ∧ Digits b :=
  List.forall_mem_append

theorem all_isDigit_iff (text : List Char) : text.all Char.isDigit = true ↔ Digits text :=
  List.all_eq_true

theorem isExponentMark_iff (c : Char) : isExponentMark c = true ↔ c = 'e' ∨ c = 'E' := by
  simp only [isExponentMark, Bool.or_eq_true, beq_iff_eq]

/-- A mantissa consists of digits and points. -/
theorem Mantissa.mem {text whole fraction : List Char} (h : Mantissa text whole fraction)
    {c : Char} (hc : c ∈ text) : c.isDigit = true ∨ c = '.' := by
  cases h with
  | plain digits => exact .inl (digits c hc)
  | pointed before after =>
    rcases List.mem_append.mp hc with hwhole | hrest
    · exact .inl (before c hwhole)
    · rcases List.mem_cons.mp hrest with hpoint | hfraction
      · exact .inr hpoint
      · exact .inl (after c hfraction)

theorem Mantissa.ne_nil {text whole fraction : List Char} (h : Mantissa text whole fraction) :
    text ≠ [] := by
  cases h with
  | plain _ some_digit => exact some_digit
  | pointed => simp

theorem Mantissa.not_mark {text whole fraction : List Char} (h : Mantissa text whole fraction) :
    ∀ c ∈ text, (!isExponentMark c) = true := by
  intro c hc
  rcases h.mem hc with hdigit | rfl
  · cases hmark : isExponentMark c with
    | false => rfl
    | true =>
      rcases (isExponentMark_iff c).mp hmark with rfl | rfl <;> cases hdigit
  · rfl

/-! ### Signs -/

theorem Sign.splitSign {sign rest : List Char} {negative : Bool} (h : Sign sign negative)
    (hrest : ∀ c ∈ rest.head?, c ≠ '-' ∧ c ≠ '+') :
    splitSign (sign ++ rest) = (negative, rest) := by
  cases h with
  | plus => rfl
  | minus => rfl
  | absent =>
    cases rest with
    | nil => rfl
    | cons c rest =>
      obtain ⟨hminus, hplus⟩ := hrest c rfl
      rw [List.nil_append, Literal.splitSign]
      · rintro rest' h
        exact hminus (List.cons.inj h).1
      · rintro rest' h
        exact hplus (List.cons.inj h).1

theorem sign_splitSign (text : List Char) : ∃ sign, Sign sign (splitSign text).1 ∧
    text = sign ++ (splitSign text).2 := by
  unfold Literal.splitSign
  split
  · exact ⟨['-'], .minus, rfl⟩
  · exact ⟨['+'], .plus, rfl⟩
  · exact ⟨[], .absent, rfl⟩

theorem Digits.head {digits : List Char} (h : Digits digits) {c : Char} (hc : c ∈ digits.head?) :
    c ≠ '-' ∧ c ≠ '+' :=
  ⟨h.ne (List.mem_of_mem_head? hc) rfl, h.ne (List.mem_of_mem_head? hc) rfl⟩

/-! ### Exponents -/

theorem exponent?_eq_some_iff {text : List Char} {e : Int} :
    exponent? text = some e ↔ SignedDigits text e := by
  have hvalue : ∀ negative digits,
      (if negative then -digitsValue digits else digitsValue digits : Int) =
      signed negative (placeValue digits) := by
    intro negative digits
    rw [digitsValue_eq_placeValue]
    rfl
  constructor
  · intro h
    obtain ⟨sign, hsign, htext⟩ := sign_splitSign text
    unfold exponent? at h
    split at h
    rename_i negative digits hsplit
    rw [hsplit] at hsign htext
    split at h
    case isTrue => cases h
    case isFalse hdigits =>
      simp only [Bool.or_eq_true, List.isEmpty_iff, Bool.not_eq_true', not_or, Bool.not_eq_false,
        all_isDigit_iff] at hdigits
      cases h
      rw [hvalue, htext]
      exact .intro hsign hdigits.2 hdigits.1
  · rintro ⟨hsign, hdigits, hne⟩
    rename_i sign digits negative
    have hall : (digits.isEmpty || !digits.all Char.isDigit) = false := by
      simp only [Bool.or_eq_false_iff, Bool.not_eq_false', all_isDigit_iff]
      exact ⟨List.isEmpty_eq_false_iff.mpr hne, hdigits⟩
    rw [exponent?, hsign.splitSign fun c hc => hdigits.head hc]
    simp only [hall, Bool.false_eq_true, if_false, hvalue]

/-- The value of what the mantissa leaves over: nothing, or a mark and more. -/
def exponentOf : List Char → Option Int
  | [] => some 0
  | _ :: rest => exponent? rest

theorem exponentOf_eq_some_iff {text : List Char} {e : Int}
    (h : ∀ c ∈ text.head?, isExponentMark c = true) :
    exponentOf text = some e ↔ Exponent text e := by
  cases text with
  | nil =>
    refine ⟨fun he => ?_, fun he => ?_⟩
    · cases he
      exact .absent
    · cases he
      rfl
  | cons mark rest =>
    rw [exponentOf, exponent?_eq_some_iff]
    refine ⟨fun he => ?_, fun he => ?_⟩
    · rcases (isExponentMark_iff mark).mp (h mark rfl) with rfl | rfl
      · exact .lower he
      · exact .upper he
    · cases he with
      | lower he => exact he
      | upper he => exact he

theorem Exponent.head {text : List Char} {e : Int} (h : Exponent text e) :
    ∀ c ∈ text.head?, isExponentMark c = true := by
  cases h with
  | absent => exact fun c hc => by cases hc
  | lower => exact fun c hc => by cases hc; rfl
  | upper => exact fun c hc => by cases hc; rfl

/-! ### Mantissas -/

def beforePoint (mantissa : List Char) : List Char := mantissa.takeWhile (· != '.')

def afterPoint (mantissa : List Char) : List Char := (mantissa.dropWhile (· != '.')).drop 1

theorem Digits.no_point {digits : List Char} (h : Digits digits) :
    ∀ c ∈ digits, (c != '.') = true :=
  fun _ hc => bne_iff_ne.mpr (h.ne hc rfl)

theorem Mantissa.parts {text whole fraction : List Char} (h : Mantissa text whole fraction) :
    beforePoint text = whole ∧ afterPoint text = fraction ∧ Digits (whole ++ fraction) ∧
      (whole ≠ [] ∨ fraction ≠ []) := by
  cases h with
  | plain digits some_digit =>
    refine ⟨List.takeWhile_eq_self_iff.mpr digits.no_point, ?_, ?_, .inl some_digit⟩
    · rw [afterPoint, List.dropWhile_eq_nil_iff.mpr digits.no_point]
      rfl
    · rw [List.append_nil]
      exact digits
  | pointed before after some_digit =>
    refine ⟨?_, ?_, digits_append.mpr ⟨before, after⟩, some_digit⟩
    · rw [beforePoint, List.takeWhile_append_of_pos before.no_point]
      exact List.append_nil _
    · rw [afterPoint, List.dropWhile_append_of_pos before.no_point]
      rfl

theorem mantissa_of_parts {text : List Char}
    (hdigits : Digits (beforePoint text ++ afterPoint text))
    (hsome : beforePoint text ≠ [] ∨ afterPoint text ≠ []) :
    Mantissa text (beforePoint text) (afterPoint text) := by
  obtain ⟨hbefore, hafter⟩ := digits_append.mp hdigits
  have hsplit : beforePoint text ++ text.dropWhile (· != '.') = text :=
    List.takeWhile_append_dropWhile
  cases hrest : text.dropWhile (· != '.') with
  | nil =>
    have hnone : afterPoint text = [] := by rw [afterPoint, hrest]; rfl
    rw [hrest, List.append_nil] at hsplit
    rw [hnone, hsplit]
    rw [hsplit, hnone] at hsome
    rw [hsplit] at hbefore
    exact .plain hbefore (hsome.resolve_right fun hne => hne rfl)
  | cons point fraction =>
    have hpoint : point = '.' := by
      have hhead : point ∈ (text.dropWhile (· != '.')).head? := by rw [hrest]; rfl
      exact bne_eq_false_iff_eq.mp (Text.head?_dropWhile (p := (· != '.')) hhead)
    have hfraction : afterPoint text = fraction := by rw [afterPoint, hrest]; rfl
    have htext : text = beforePoint text ++ '.' :: afterPoint text := by
      rw [hfraction, ← hpoint, ← hrest, hsplit]
    conv => arg 1; rw [htext]
    exact .pointed hbefore hafter hsome

/-! ### Taking apart and putting together -/

/-- The literal of a sign, a mantissa and what the mantissa leaves over. -/
def assemble (negative : Bool) (mantissa exponent : List Char) : Option Literal :=
  (exponentOf exponent).bind fun e =>
    if (beforePoint mantissa).isEmpty && (afterPoint mantissa).isEmpty then none
    else if (beforePoint mantissa ++ afterPoint mantissa).all Char.isDigit then
      some ⟨negative, beforePoint mantissa, afterPoint mantissa, e⟩
    else none

theorem parse?_eq_assemble (text : List Char) : parse? text =
    assemble (splitSign text).1 ((splitSign text).2.takeWhile (!isExponentMark ·))
      ((splitSign text).2.dropWhile (!isExponentMark ·)) := by
  rw [Literal.parse?]
  split
  rename_i negative unsigned hsplit
  rw [hsplit, assemble]
  dsimp only
  cases unsigned.dropWhile (!isExponentMark ·) <;> rfl

theorem assemble_eq_some_iff {negative : Bool} {mantissa exponent : List Char} {l : Literal} :
    assemble negative mantissa exponent = some l ↔
      ∃ e, exponentOf exponent = some e ∧ (beforePoint mantissa ≠ [] ∨ afterPoint mantissa ≠ []) ∧
        Digits (beforePoint mantissa ++ afterPoint mantissa) ∧
        l = ⟨negative, beforePoint mantissa, afterPoint mantissa, e⟩ := by
  rw [assemble, Option.bind_eq_some_iff]
  refine exists_congr fun e => and_congr_right fun _ => ?_
  split
  case isTrue hnone =>
    simp only [Bool.and_eq_true, List.isEmpty_iff] at hnone
    simp only [hnone, ne_eq, not_true_eq_false, or_false, false_and, reduceCtorEq]
  case isFalse hsome =>
    rw [Bool.and_eq_true, List.isEmpty_iff, List.isEmpty_iff, not_and_or] at hsome
    rw [← all_isDigit_iff]
    split
    case isTrue hdigits =>
      simp only [ne_eq, hsome, hdigits, Option.some.injEq, true_and]
      exact eq_comm
    case isFalse hdigits => simp only [hdigits, false_and, and_false, reduceCtorEq]

/-- What is put together by the grammar is taken apart the same way. -/
theorem Spelling.parse? {text : List Char} {l : Literal} (h : Spelling text l) :
    parse? text = some l := by
  obtain ⟨hsign, hmantissa, hexponent⟩ := h
  rename_i sign mantissa exponent negative whole fraction e
  have hhead : ∀ c ∈ (mantissa ++ exponent).head?, c ≠ '-' ∧ c ≠ '+' := by
    intro c hc
    rw [List.head?_append, List.head?_eq_some_head hmantissa.ne_nil] at hc
    rcases hmantissa.mem (Option.mem_some.mp hc ▸ List.head_mem hmantissa.ne_nil) with hdigit | rfl
    · constructor <;> (rintro rfl; cases hdigit)
    · exact ⟨by decide, by decide⟩
  obtain ⟨rfl, rfl, hdigits, hsome⟩ := hmantissa.parts
  have hstop : exponent.takeWhile (!isExponentMark ·) = [] ∧
      exponent.dropWhile (!isExponentMark ·) = exponent := by
    cases hexponent <;> exact ⟨rfl, rfl⟩
  rw [parse?_eq_assemble, List.append_assoc, hsign.splitSign hhead,
    List.takeWhile_append_of_pos hmantissa.not_mark, hstop.1, List.append_nil,
    List.dropWhile_append_of_pos hmantissa.not_mark, hstop.2]
  exact assemble_eq_some_iff.mpr
    ⟨e, (exponentOf_eq_some_iff hexponent.head).mpr hexponent, hsome, hdigits, rfl⟩

/-- What is taken apart has been put together by the grammar. -/
theorem spelling_of_parse? {text : List Char} {l : Literal} (h : Literal.parse? text = some l) :
    Spelling text l := by
  rw [parse?_eq_assemble] at h
  obtain ⟨e, he, hsome, hdigits, rfl⟩ := assemble_eq_some_iff.mp h
  obtain ⟨sign, hsign, htext⟩ := sign_splitSign text
  have hmark : ∀ c ∈ ((splitSign text).2.dropWhile (!isExponentMark ·)).head?,
      isExponentMark c = true := by
    intro c hc
    simpa using Text.head?_dropWhile hc
  have hsplit : text = sign ++ (splitSign text).2.takeWhile (!isExponentMark ·) ++
      (splitSign text).2.dropWhile (!isExponentMark ·) := by
    rw [List.append_assoc, List.takeWhile_append_dropWhile]
    exact htext
  conv => arg 1; rw [hsplit]
  exact .intro hsign (mantissa_of_parts hdigits hsome) ((exponentOf_eq_some_iff hmark).mp he)

theorem parse?_eq_some_iff {text : List Char} {l : Literal} :
    Literal.parse? text = some l ↔ Spelling text l :=
  ⟨spelling_of_parse?, Spelling.parse?⟩

theorem read?_eq_some_iff {text : String} {r : ℚ} : read? text = some r ↔
    ∃ l, Spelling (Text.trim text.toList) l ∧ l.Bounded ∧ r = l.denotes := by
  rw [read?, Option.bind_eq_bind, Option.bind_eq_some_iff]
  refine exists_congr fun l => ?_
  rw [parse?_eq_some_iff, ← inBounds_iff, ← value_eq_denotes]
  refine and_congr_right fun _ => ?_
  split
  case isTrue hbounds => simp only [hbounds, Option.some.injEq, true_and, eq_comm]
  case isFalse hbounds => simp only [hbounds, false_and, reduceCtorEq, Bool.false_eq_true]

end Literal

open Literal in
/-- A text is accepted if and only if it is spelled by the grammar, the blanks at its ends
    aside, with an exponent and a number of places in bounds; what it then stands for is exact.
    In all other cases the error names the text as it was given. -/
theorem decimalOfText_eq_ok_iff_spelling (text : String) :
    ∃ core, (∀ s, Text.Trims text.toList s ↔ s = core) ∧
      (∀ r, decimalOfText text = .ok r ↔ ∃ l, Spelling core l ∧ l.Bounded ∧ r = l.denotes) ∧
      ((¬∃ l, Spelling core l ∧ l.Bounded) →
        decimalOfText text = .error (.invalidDecimal text)) := by
  refine ⟨Text.trim text.toList, fun s => Text.trims_iff, fun r => ?_, fun hnone => ?_⟩
  · rw [← read?_eq_some_iff, decimalOfText]
    cases read? text with
    | none => simp only [reduceCtorEq]
    | some r' => simp only [Except.ok.injEq, Option.some.injEq]
  · have hread : read? text = none := by
      refine Option.eq_none_iff_forall_ne_some.mpr fun r hr => hnone ?_
      obtain ⟨l, hl, hbounded, -⟩ := read?_eq_some_iff.mp hr
      exact ⟨l, hl, hbounded⟩
    rw [decimalOfText, hread]

end MemoSeq

/-
  MemoSeq/Proofs/Number/Narrowing.lean
  ====================================
  **Floating-point numbers as canonical values, and back.**

  A double becomes the exact value of its shortest decimal.  That is also what the reader of
  literals makes of the text of the double (`Style.decimalOfText_write_plain`), which has no
  more places than the quantum of the format.  The value is an integer just when the double
  is whole: the search for the shortest decimal of a whole magnitude goes no further than
  the units, because there the magnitude itself lies on the grid
  (`Decimal.place_shortest_of_dvd`).

  On the way back a rational is rounded to nearest, and so is an integer of up to two words.
  Of longer integers that is assumed: a tie that only bits which rounding passes over would
  break is misjudged, and such a double comes back as its neighbour.
-/
import MemoSeq.Canonical
import MemoSeq.Exchange
import MemoSeq.Proofs.Number.Grammar
import MemoSeq.Proofs.Number.ReadBack
import MemoSeq.Proofs.Runs
import MemoSeq.Session.Run
import Mathlib.Data.Nat.Log

namespace MemoSeq

variable {F : Format}

/-! ### Decimals of whole magnitudes -/

theorem decimalLog_eq_log (n : Nat) : decimalLog n = Nat.log 10 n := by
  induction n using decimalLog.induct with
  | case1 n hlt => rw [decimalLog, if_pos hlt, Nat.log_of_lt hlt]
  | case2 n hge ih =>
    rw [decimalLog, if_neg hge, ih, Nat.log_of_one_lt_of_le (by decide) (Nat.le_of_not_lt hge)]

namespace Decimal

variable {tie : Tie} {code : Nat}

/-- A whole magnitude lies on the grid of the units. -/
theorem onGrid_units (h : code < F.infinity) (hdvd : 2 ^ F.places ∣ F.quanta code) :
    ∃ digits, onGrid F tie code 0 = some digits := by
  obtain ⟨n, hn⟩ := hdvd
  have hread : read F ⟨n, 0⟩ = code := by
    have hquotient : quotient ⟨n, 0⟩ = (n, 1) := by simp [quotient]
    have hnearest := F.nearest_mul (Nat.two_pow_pos F.places) n 1
    rw [← hn, Nat.mul_one, Format.nearest_quanta h] at hnearest
    rw [read, hquotient]
    exact hnearest.symm
  have hlow : F.quanta code * Nat.pow 10 (-(0 : Int)).toNat /
      (Nat.pow 2 F.places * Nat.pow 10 (0 : Int).toNat) = n := by
    simp only [Int.neg_zero, Int.toNat_zero, Nat.pow_eq, Nat.pow_zero, Nat.mul_one, hn]
    exact Nat.mul_div_cancel_left n (Nat.two_pow_pos _)
  unfold onGrid
  dsimp only
  rw [hlow, hread, beq_self_eq_true]
  cases read F ⟨n + 1, 0⟩ == code with
  | true => exact ⟨_, rfl⟩
  | false => exact ⟨_, rfl⟩

/-- A search that finds something among the units does not go below them. -/
theorem place_search_of_units (hunits : ∃ digits, onGrid F tie code 0 = some digits) (more : Nat) :
    0 ≤ (search F tie code (F.places + more)).place := by
  induction more with
  | zero =>
    obtain ⟨digits, hdigits⟩ := hunits
    rw [Nat.add_zero]
    cases hplaces : F.places with
    | zero =>
      rw [search, hplaces]
      exact Int.le_refl 0
    | succ steps =>
      have hplace : (steps : Int) + 1 - F.places = 0 := by omega
      rw [search, hplace, hdigits]
  | succ more ih =>
    rw [← Nat.add_assoc, search]
    split
    case h_1 => dsimp only; omega
    case h_2 => exact ih

theorem neg_places_le_place_search (steps : Nat) :
    -(F.places : Int) ≤ (search F tie code steps).place := by
  induction steps with
  | zero => exact Int.le_refl _
  | succ steps ih =>
    rw [search]
    split
    case h_1 => dsimp only; omega
    case h_2 => exact ih

theorem neg_places_le_place_shortest : -(F.places : Int) ≤ (shortest F tie code).place := by
  unfold shortest
  split
  case isTrue => exact Int.neg_nonpos_of_nonneg (Int.natCast_nonneg _)
  case isFalse => exact neg_places_le_place_search _

/-- The shortest decimal of a whole magnitude has no places after its point. -/
theorem place_shortest_of_dvd (h : code < F.infinity) (hdvd : 2 ^ F.places ∣ F.quanta code) :
    0 ≤ (shortest F tie code).place := by
  unfold shortest
  split
  case isTrue => exact Int.le_refl 0
  case isFalse hne =>
    have hpos := Format.quanta_pos h hne
    have hlog : decimalLog (Nat.pow 2 F.places) ≤ decimalLog (F.quanta code) := by
      rw [decimalLog_eq_log, decimalLog_eq_log]
      exact Nat.log_mono_right (Nat.le_of_dvd hpos hdvd)
    have hsteps : ((decimalLog (F.quanta code) : Int) - decimalLog (Nat.pow 2 F.places) + 1 +
        F.places).toNat = F.places + (decimalLog (F.quanta code) -
          decimalLog (Nat.pow 2 F.places) + 1) := by omega
    dsimp only
    rw [hsteps]
    exact place_search_of_units (onGrid_units h hdvd) _

theorem den_toRat_of_place {d : Decimal} (h : 0 ≤ d.place) : d.toRat.den = 1 := by
  rw [toRat, quotient, if_pos h, Rat.den_mkRat, if_neg Nat.one_ne_zero, Nat.gcd_one_left,
    Nat.div_one]

end Decimal

/-! ### Decimals as texts -/

namespace Literal

theorem digitsValue_zeros (n : Nat) (digits : List Char) :
    digitsValue (List.replicate n '0' ++ digits) = digitsValue digits := by
  induction n with
  | zero => rfl
  | succ n ih => exact ih

theorem digitsValue_append_zeros (digits : List Char) (n : Nat) :
    digitsValue (digits ++ List.replicate n '0') = digitsValue digits * 10 ^ n := by
  induction n with
  | zero => rw [List.replicate_zero, List.append_nil, Nat.pow_zero, Nat.mul_one]
  | succ n ih =>
    rw [List.replicate_succ', ← List.append_assoc, digitsValue_concat, ih, Nat.pow_succ]
    simp only [Nat.sub_self, Nat.add_zero]
    rw [Nat.mul_comm, Nat.mul_assoc]

theorem digits_zeros (n : Nat) : Digits (List.replicate n '0') := by
  intro c hc
  rw [List.eq_of_mem_replicate hc]
  rfl

end Literal

namespace Decimal

open Literal

theorem digits_chars (d : Decimal) : Digits d.chars :=
  fun _ hc => Nat.isDigit_of_mem_toDigits (by decide) (by decide) hc

theorem digitsValue_chars (d : Decimal) : digitsValue d.chars = d.digits :=
  Nat.ofDigitChars_toDigits (by decide) (by decide)

theorem chars_ne_nil (d : Decimal) : d.chars ≠ [] := Nat.toDigits_ne_nil

/-- The positional layout is a mantissa, of the value of the decimal. -/
theorem mantissa_positional (d : Decimal) : ∃ whole fraction,
    Mantissa (d.positional []) whole fraction ∧ fraction.length = (-d.place).toNat ∧
      (placeValue (whole ++ fraction) : ℚ) * 10 ^ (-(fraction.length : Int)) = d.toRat := by
  unfold positional
  dsimp only
  split
  case isTrue hplace =>
    obtain ⟨n, hn⟩ := Int.eq_ofNat_of_zero_le hplace
    refine ⟨d.chars ++ List.replicate d.place.toNat '0', [], ?_, ?_, ?_⟩
    · rw [List.append_nil]
      exact .plain (digits_append.mpr ⟨d.digits_chars, digits_zeros _⟩)
        (List.append_ne_nil_of_left_ne_nil d.chars_ne_nil _)
    · rw [List.length_nil]
      omega
    · rw [List.append_nil, ← digitsValue_eq_placeValue, digitsValue_append_zeros,
        digitsValue_chars, toRat_eq, hn, Int.toNat_natCast, List.length_nil, zpow_natCast]
      simp
  case isFalse hplace =>
    generalize hpadded : List.replicate ((-d.place).toNat + 1 - d.chars.length) '0' ++ d.chars =
      padded
    have hdigits : Digits padded := hpadded ▸ digits_append.mpr ⟨digits_zeros _, d.digits_chars⟩
    have hvalue : digitsValue padded = d.digits := by
      rw [← hpadded, digitsValue_zeros, digitsValue_chars]
    have hlength : (-d.place).toNat + 1 ≤ padded.length := by
      rw [← hpadded, List.length_append, List.length_replicate]
      omega
    have hfraction : (padded.drop (padded.length - (-d.place).toNat)).length =
      (-d.place).toNat := by
      rw [List.length_drop]
      omega
    refine ⟨_, _, .pointed (fun c hc => hdigits c (List.mem_of_mem_take hc))
      (fun c hc => hdigits c (List.mem_of_mem_drop hc)) (.inr ?_), hfraction, ?_⟩
    · refine List.ne_nil_of_length_pos ?_
      rw [hfraction]
      omega
    · rw [List.take_append_drop, ← digitsValue_eq_placeValue, hvalue, hfraction, toRat_eq]
      congr 2
      omega

end Decimal

/-! ### Texts that are read back -/

namespace Text

theorem isBlank_digit {c : Char} (h : c.isDigit = true) : isBlank c = false := by
  have hrange : 48 ≤ c.toNat ∧ c.toNat ≤ 57 := by
    simp only [Char.isDigit, Bool.and_eq_true, decide_eq_true_eq] at h
    exact h
  simp only [isBlank, blankRanges, List.any_cons, List.any_nil, Bool.or_false, Bool.or_eq_false_iff,
    Bool.and_eq_false_iff, decide_eq_false_iff_not]
  omega

theorem trim_eq_self {text : List Char} (h : ∀ c ∈ text, isBlank c = false) : trim text = text :=
  (trims_iff.mp ⟨⟨[], [], by simp, nofun, nofun⟩, fun c hc => h c (List.mem_of_mem_head? hc),
    fun c hc => h c (List.mem_of_getLast? hc)⟩).symm

end Text

namespace Literal

theorem Sign.mem {sign : List Char} {negative : Bool} (h : Sign sign negative) {c : Char}
    (hc : c ∈ sign) : c = '-' ∨ c = '+' := by
  cases h with
  | absent => cases hc
  | plus => exact .inr (List.mem_singleton.mp hc)
  | minus => exact .inl (List.mem_singleton.mp hc)

/-- A signed mantissa has nothing to trim. -/
theorem trim_signed_mantissa {sign mantissa whole fraction : List Char} {negative : Bool}
    (hsign : Sign sign negative) (hmantissa : Mantissa mantissa whole fraction) :
    Text.trim (sign ++ mantissa) = sign ++ mantissa := by
  refine Text.trim_eq_self fun c hc => ?_
  rcases List.mem_append.mp hc with hc | hc
  · rcases hsign.mem hc with rfl | rfl <;> rfl
  · rcases hmantissa.mem hc with hdigit | rfl
    · exact Text.isBlank_digit hdigit
    · rfl

end Literal

open Literal in
/-- The plain text of a finite number is a literal of its shortest decimal. -/
theorem Style.decimalOfText_write_plain (hF : F.places ≤ 10000) {x : Binary F}
    (hx : x.isFinite = true) : decimalOfText (plain.write x) = .ok x.shortestRat := by
  have hnan := Binary.isNaN_of_isFinite hx
  obtain ⟨whole, fraction, hmantissa, hlength, hvalue⟩ :=
    (Decimal.shortest F .up x.code).mantissa_positional
  have hplaces : -(F.places : Int) ≤ (Decimal.shortest F .up x.code).place :=
    Decimal.neg_places_le_place_shortest
  have hfraction : fraction.length ≤ 10000 := by omega
  obtain ⟨sign, hsign, htext⟩ : ∃ sign, Sign sign x.negative ∧ (plain.write x).toList =
      sign ++ (Decimal.shortest F .up x.code).positional [] := by
    have hmagnitude : plain.magnitude F x.code = (Decimal.shortest F .up x.code).positional [] :=
      rfl
    rw [write, hnan, if_neg Bool.false_ne_true, if_pos hx, hmagnitude]
    cases x.negative with
    | true => exact ⟨['-'], .minus, String.toList_ofList⟩
    | false => exact ⟨[], .absent, String.toList_ofList⟩
  have hspelling : Spelling (Text.trim (plain.write x).toList)
    ⟨x.negative, whole, fraction, 0⟩ := by
    have hspelling := Spelling.intro hsign hmantissa .absent
    rwa [List.append_nil, ← trim_signed_mantissa hsign hmantissa, ← htext] at hspelling
  have hbounded : (⟨x.negative, whole, fraction, 0⟩ : Literal).Bounded :=
    ⟨by norm_num, by norm_num, by dsimp only; omega, by dsimp only; omega, by dsimp only; omega⟩
  have hread : read? (plain.write x) = some x.shortestRat := by
    refine read?_eq_some_iff.mpr ⟨_, hspelling, hbounded, ?_⟩
    rw [denotes, Int.zero_sub, mul_assoc, hvalue, Binary.shortestRat]
    cases x.negative with
    | true => simp
    | false => simp
  rw [decimalOfText, hread]

/-! ### There and back -/

namespace Binary

/-- A finite number has a whole shortest decimal just when it is whole itself. -/
theorem den_shortestRat_eq_one_iff {x : Binary F} (hx : x.isFinite = true) :
    x.shortestRat.den = 1 ↔ x.toRat.den = 1 := by
  refine ⟨fun h => by_contra fun hne => den_shortestRat_ne_one hx hne h, fun hwhole => ?_⟩
  have hcode : x.code < F.infinity := by simpa [isFinite] using hx
  have hden : (mkRat (F.quanta x.code) (Nat.pow 2 F.places)).den = 1 := by
    unfold toRat at hwhole
    dsimp only at hwhole
    split at hwhole
    · rwa [Rat.neg_den] at hwhole
    · exact hwhole
  have hdvd : 2 ^ F.places ∣ F.quanta x.code := by
    rw [Rat.den_mkRat, Nat.pow_eq, if_neg (Nat.ne_of_gt (Nat.two_pow_pos _)),
      Int.natAbs_natCast] at hden
    have hgcd := Nat.div_mul_cancel (Nat.gcd_dvd_left (2 ^ F.places) (F.quanta x.code))
    rw [hden, Nat.one_mul] at hgcd
    exact hgcd ▸ Nat.gcd_dvd_right _ _
  rw [x.shortestRat_parts.2]
  exact Decimal.den_toRat_of_place (Decimal.place_shortest_of_dvd hcode hdvd)

/-- An integer of up to two words is rounded to nearest. -/
theorem ofInt_eq_ofRat {n : Int} (h : n.natAbs < 2 ^ 128) : (ofInt n : Binary F) = ofRat n := by
  simp only [ofInt, ofRat, sightedBits_of_lt h, Rat.num_intCast, Rat.den_intCast]
  rfl

-- the bound is needed: this is the shortest decimal of a double, right above a tie
example : (ofInt (4829794487124118 * 10 ^ 23) : Double) ≠
    ofRat (4829794487124118 * 10 ^ 23 : Int) := by decide +kernel

def withoutZeroSign (x : Binary F) : Binary F := if x.code = 0 then zero false else x

theorem ofRat_shortestRat_eq {x : Binary F} (hx : x.isFinite = true) :
    ofRat x.shortestRat = x.withoutZeroSign := by
  unfold withoutZeroSign
  split
  case isTrue hzero =>
    have hrat : x.shortestRat = 0 := by
      have hshortest : (Decimal.shortest F .up x.code).toRat = 0 := by
        rw [hzero, Decimal.shortest, if_pos rfl, Decimal.toRat_eq, Nat.cast_zero, zero_mul]
      rw [shortestRat, hshortest, neg_zero, ite_self]
    rw [hrat, ofRat]
    simp only [Rat.num_ofNat, Int.natAbs_zero, Rat.den_ofNat, Format.nearest_zero]
    rfl
  case isFalse hne => exact ofRat_shortestRat hx hne

variable {H : Host} {w : World H}

/-- A double is made canonical, and the value is read as a double. -/
def passed (E : Engine H) (x : Double) : Attempt H HostValue := do
  (← canonicalize (.float x)).read E .double

/-- A double comes back from a value in which it is held by its shortest decimal. -/
theorem run_read_ofRat (E : Engine H) {x : Double} (hx : x.isFinite = true)
    (hround : ∀ n : Int, x.shortestRat = n → 2 ^ 128 ≤ n.natAbs → (ofInt n : Double) = ofRat n) :
    ((Value.ofRat x.shortestRat).read E .double).run.run w =
      .ok (.ok (.double x.withoutZeroSign), w) := by
  rw [← ofRat_shortestRat_eq hx]
  unfold Value.ofRat
  split
  case isTrue hwhole =>
    have hint : x.shortestRat = (x.shortestRat.num : ℚ) := (Rat.den_eq_one_iff _).mp hwhole |>.symm
    have hnearest : (ofInt x.shortestRat.num : Double) = ofRat x.shortestRat := by
      rcases Nat.lt_or_ge x.shortestRat.num.natAbs (2 ^ 128) with hlt | hge
      · rw [ofInt_eq_ofRat hlt, ← hint]
      · rw [hround _ hint hge, ← hint]
    rw [← hnearest, Value.read, Value.flatten, Value.flattenWithin]
    rfl
  case isFalse =>
    rw [Value.read, Value.flatten, Value.flattenWithin]
    rfl

theorem isNumber_ofRat (r : ℚ) : (Value.ofRat r).isNumber = true := by
  unfold Value.ofRat
  split <;> rfl

theorem ofRat_eq_int_iff (r : ℚ) : (∃ n, Value.ofRat r = .int n) ↔ r.den = 1 := by
  unfold Value.ofRat
  split
  case isTrue hwhole => exact ⟨fun _ => hwhole, fun _ => ⟨_, rfl⟩⟩
  case isFalse hne => exact ⟨fun ⟨_, h⟩ => (nomatch h), fun h => absurd h hne⟩

/-- Finite doubles, and no others, become numbers: integers just when they are whole, and
    the same numbers that their texts are read as.  Read as a double, each gives the double
    that it came from, but a negative zero gives zero.  Of an integer of more than two words
    this last takes that it is rounded to nearest when it becomes a double. -/
theorem passed_eq (E : Engine H) (x : Double) (w : World H) :
    (x.isFinite = false →
      (canonicalize (H := H) (.float x)).run.run w = .ok (.error (.nonFinite x), w)) ∧
    (x.isFinite = true → ∃ v,
      (canonicalize (H := H) (.float x)).run.run w = .ok (.ok v, w) ∧
      (decimalOfText (Style.plain.write x)).map Value.ofRat = .ok v ∧
      v.isNumber = true ∧ ((∃ n, v = .int n) ↔ x.toRat.den = 1) ∧
      ((∀ n : Int, x.shortestRat = n → 2 ^ 128 ≤ n.natAbs → (ofInt n : Double) = ofRat n) →
        (passed E x).run.run w = .ok (.ok (.double x.withoutZeroSign), w))) := by
  refine ⟨fun hx => ?_, fun hx => ?_⟩
  · rw [canonicalize, canonical, if_neg (by simpa using hx)]
    rfl
  · have hcanonical : (canonicalize (H := H) (.float x)).run.run w =
        .ok (.ok (.ofRat x.shortestRat), w) := by
      rw [canonicalize, canonical, if_pos hx]
      rfl
    refine ⟨.ofRat x.shortestRat, hcanonical, ?_, isNumber_ofRat _, ?_, fun hround => ?_⟩
    · rw [Style.decimalOfText_write_plain (by decide) hx]
      rfl
    · rw [ofRat_eq_int_iff, den_shortestRat_eq_one_iff hx]
    · rw [passed, Attempt.run_bind_of_ok hcanonical]
      exact run_read_ofRat E hx hround

/-- The double nearest to `10 ^ 200`. -/
def huge : Double := ⟨false, 7598952565167317594, by decide⟩

theorem passed_huge :
    (canonicalize (.float huge)).run.run Session.start =
      .ok (.ok (.int (10 ^ 200)), Session.start) ∧
    (passed (Session.engine 1) huge).run.run Session.start =
      .ok (.ok (.double huge), Session.start) := by
  have hdecimal : huge.shortestRat = ((10 ^ 200 : Int) : ℚ) := by decide +kernel
  have hround : (ofInt (10 ^ 200) : Double) = ofRat (10 ^ 200 : Int) := by decide +kernel
  obtain ⟨-, hfinite⟩ := passed_eq (Session.engine 1) huge Session.start
  obtain ⟨v, hcanonical, htext, -, -, hread⟩ := hfinite (by decide)
  have hpassed := hread fun n hn _ => by
    rwa [Rat.intCast_injective (hn.symm.trans hdecimal)]
  have hvalue : v = .int (10 ^ 200) := by
    rw [Style.decimalOfText_write_plain (by decide) (by decide), hdecimal] at htext
    cases htext
    decide
  exact ⟨hvalue ▸ hcanonical, hpassed⟩

end Binary

end MemoSeq

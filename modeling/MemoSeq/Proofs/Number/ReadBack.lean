/-
  MemoSeq/Proofs/Number/ReadBack.lean
  ===================================
  **Shortest decimals read back.**

  The search for the shortest decimal of a magnitude stops at a decimal that reads back as
  it, at the latest on the grid on which the magnitude lies itself
  (`Decimal.read_shortest`).  So a number that is finite and not zero is the one nearest to
  the exact value of its shortest decimal (`Binary.ofRat_shortestRat`); and that value is
  whole only if the number is (`Binary.den_shortestRat_ne_one`).
-/
import MemoSeq.Proofs.Number.Rounding

namespace MemoSeq

variable {F : Format}

/-! ### Decimals -/

namespace Decimal

variable {tie : Tie} {code : Nat}

theorem quotient_den_pos (d : Decimal) : 0 < d.quotient.2 := by
  unfold quotient
  split
  · exact Nat.one_pos
  · exact Nat.pow_pos (by decide)

theorem Tie.nearest_eq_or (tie : Tie) (n d low : Nat) :
    tie.nearest n d low = low ∨ tie.nearest n d low = low + 1 := by
  unfold Tie.nearest
  dsimp only
  split
  · exact .inl rfl
  · split
    · exact .inr rfl
    · cases tie with
      | up => exact .inr rfl
      | even =>
        dsimp only
        omega

theorem read_of_onGrid {place : Int} {digits : Nat}
    (h : onGrid F tie code place = some digits) : read F ⟨digits, place⟩ = code := by
  unfold onGrid at h
  dsimp only at h
  split at h
  case isTrue hboth =>
    simp only [Bool.and_eq_true, beq_iff_eq] at hboth
    cases h
    rcases tie.nearest_eq_or _ _ _ with hlow | hhigh
    · rw [hlow]
      exact hboth.1
    · rw [hhigh]
      exact hboth.2
  case isFalse =>
    split at h
    case isTrue hbelow =>
      cases h
      exact beq_iff_eq.mp hbelow
    case isFalse =>
      split at h
      case isTrue habove =>
        cases h
        exact beq_iff_eq.mp habove
      case isFalse => cases h

/-- The finest grid that is searched is the one on which the magnitude lies. -/
theorem read_search_zero (h : code < F.infinity) :
    (search F tie code 0).read F = code := by
  have hquotient : (search F tie code 0).quotient =
      (5 ^ F.places * F.quanta code, 5 ^ F.places * 2 ^ F.places) := by
    have hten : 10 ^ F.places = 5 ^ F.places * 2 ^ F.places := Nat.mul_pow 5 2 F.places
    rw [search, quotient]
    split
    case isTrue hplace =>
      have hzero : F.places = 0 := by
        dsimp only at hplace
        omega
      simp [hzero]
    case isFalse =>
      simp [hten, Nat.mul_comm]
  rw [read, hquotient, Format.nearest_mul F (Nat.pow_pos (by decide)), Format.nearest_quanta h]

theorem read_search (h : code < F.infinity) (steps : Nat) :
    (search F tie code steps).read F = code := by
  induction steps with
  | zero => exact read_search_zero h
  | succ steps ih =>
    rw [search]
    split
    case h_1 hgrid => exact read_of_onGrid hgrid
    case h_2 => exact ih

/-- The shortest decimal of a finite magnitude reads back as it. -/
theorem read_shortest (h : code < F.infinity) : (shortest F tie code).read F = code := by
  unfold shortest
  split
  case isTrue hzero =>
    subst hzero
    have hread := Format.nearest_mul F (Nat.two_pow_pos F.places) 0 1
    have hquanta : F.quanta 0 = 0 := by simp [Format.quanta]
    rw [Nat.mul_zero, Nat.mul_one, ← hquanta, Format.nearest_quanta h] at hread
    rw [hquanta] at hread
    exact hread.symm
  case isFalse => exact read_search h _

end Decimal

/-! ### Rationals -/

/-- Rounding a rational looks at its value only. -/
theorem Format.nearest_mkRat (F : Format) (n : Nat) {d : Nat} (hd : 0 < d) :
    F.nearest (mkRat n d).num.natAbs (mkRat n d).den = F.nearest n d := by
  generalize hr : mkRat n d = r
  obtain ⟨num, den, hne, hreduced⟩ := r
  obtain ⟨k, hk, hn, rfl⟩ := Rat.mkRat_num_den (Nat.ne_of_gt hd) hr
  have hnum : n = k * num.natAbs := by
    have habs := congrArg Int.natAbs hn
    rwa [Int.natAbs_natCast, Int.natAbs_mul, Int.natAbs_natCast, Nat.mul_comm] at habs
  rw [hnum, Nat.mul_comm den, F.nearest_mul (Nat.pos_of_ne_zero hk)]

namespace Decimal

theorem nearest_toRat (F : Format) (d : Decimal) :
    F.nearest d.toRat.num.natAbs d.toRat.den = d.read F :=
  F.nearest_mkRat _ d.quotient_den_pos

theorem num_toRat_nonneg (d : Decimal) : 0 ≤ d.toRat.num := by
  rw [toRat, Rat.num_mkRat]
  split
  · exact Int.le_refl 0
  · exact Int.ediv_nonneg (Int.natCast_nonneg _) (Int.natCast_nonneg _)

end Decimal

/-! ### Numbers -/

namespace Binary

variable {x : Binary F}

theorem isNaN_of_isFinite (hx : x.isFinite = true) : x.isNaN = false := by
  simp only [isFinite, isNaN, decide_eq_true_eq, decide_eq_false_iff_not] at hx ⊢
  omega

/-- The decimal without its sign. -/
theorem shortestRat_parts (x : Binary F) :
    x.shortestRat.num = (if x.negative then -1 else 1) * (Decimal.shortest F .up x.code).toRat.num ∧
      x.shortestRat.den = (Decimal.shortest F .up x.code).toRat.den := by
  unfold shortestRat
  dsimp only
  split
  · rw [Rat.neg_num, Rat.neg_den, Int.neg_one_mul]
    exact ⟨rfl, rfl⟩
  · rw [Int.one_mul]
    exact ⟨rfl, rfl⟩

theorem nearest_shortestRat (hx : x.isFinite = true) :
    F.nearest x.shortestRat.num.natAbs x.shortestRat.den = x.code := by
  have hcode : x.code < F.infinity := by simpa [isFinite] using hx
  have hsign : (if x.negative then -1 else 1 : Int).natAbs = 1 := by
    split <;> rfl
  obtain ⟨hnum, hden⟩ := x.shortestRat_parts
  rw [hnum, hden, Int.natAbs_mul, hsign, Nat.one_mul, Decimal.nearest_toRat,
    Decimal.read_shortest hcode]

/-- A finite number other than zero is the one nearest to its shortest decimal. -/
theorem ofRat_shortestRat (hx : x.isFinite = true) (hne : x.code ≠ 0) :
    ofRat x.shortestRat = x := by
  have hnearest := nearest_shortestRat hx
  have hpos : 0 < (Decimal.shortest F .up x.code).toRat.num := by
    refine Int.lt_iff_le_and_ne.mpr ⟨Decimal.num_toRat_nonneg _, fun hzero => hne ?_⟩
    rw [x.shortestRat_parts.1, ← hzero, Int.mul_zero, Int.natAbs_zero] at hnearest
    rw [← hnearest, Format.nearest_zero]
  have hsign : decide (x.shortestRat.num < 0) = x.negative := by
    rw [x.shortestRat_parts.1]
    cases x.negative with
    | true => simpa using hpos
    | false => simpa using Int.le_of_lt hpos
  obtain ⟨negative, code, hlt⟩ := x
  simp only [ofRat, mk.injEq]
  exact ⟨hsign, hnearest⟩

/-- A finite number that is not whole has a shortest decimal that is not. -/
theorem den_shortestRat_ne_one (hx : x.isFinite = true) (hwhole : x.toRat.den ≠ 1) :
    x.shortestRat.den ≠ 1 := by
  intro hone
  have hcode : x.code < F.infinity := by simpa [isFinite] using hx
  have hnearest := nearest_shortestRat hx
  rw [hone] at hnearest
  have hdvd := Format.dvd_quanta_nearest (F := F) (n := x.shortestRat.num.natAbs)
    (hnearest.symm ▸ hcode)
  rw [hnearest] at hdvd
  apply hwhole
  have hden : (mkRat (F.quanta x.code) (Nat.pow 2 F.places)).den = 1 := by
    rw [Rat.den_mkRat, Nat.pow_eq, if_neg (Nat.ne_of_gt (Nat.two_pow_pos _)), Int.natAbs_natCast,
      Nat.gcd_eq_left hdvd, Nat.div_self (Nat.two_pow_pos _)]
  unfold toRat
  dsimp only
  split
  · rw [Rat.neg_den, hden]
  · exact hden

end Binary

end MemoSeq

/-
  MemoSeq/Proofs/Number/Widening.lean
  ===================================
  **A single keeps its own decimal.**

  A single is handed over as the double nearest to its shortest decimal, and that double is
  then made canonical by a shortest decimal of its own.  It is the same decimal
  (`Decimal.shortest_double_read`): no digit changes on the way.

  Two things are compared with the distance between the points of the grid on which the
  search for the decimal of the single ends.  That distance is not much less than the step
  from the single to the next one, for on any grid of less than half that step the point
  after the single would have read back (`Decimal.magnitude_le_shortest`).  And doubles are
  so much denser than singles that what reads back as the same double differs by less
  (`Decimal.abs_toRat_sub_le`).  So on this grid and all coarser ones the decimal is the
  only one that reads back as the double, and it is found there.
-/
import MemoSeq.Proofs.Number.Narrowing
import Mathlib.Algebra.Order.Field.Power
import Mathlib.Data.Nat.Cast.Order.Field
import Mathlib.Data.Rat.Floor
import Mathlib.Tactic.FieldSimp

namespace MemoSeq

variable {F : Format}

/-! ### How far rounding goes -/

theorem cast_div_bounds (n : Nat) {d : Nat} (hd : 0 < d) :
    ((n / d : Nat) : ℚ) ≤ n / d ∧ (n : ℚ) / d < (n / d : Nat) + 1 := by
  have hpos : (0 : ℚ) < d := by exact_mod_cast hd
  refine ⟨Nat.cast_div_le, ?_⟩
  rw [div_lt_iff₀' hpos]
  exact_mod_cast Nat.lt_mul_div_succ n hd

theorem abs_div_sub_roundHalfEven_le (n : Nat) {d : Nat} (hd : 0 < d) :
    |(n : ℚ) / d - roundHalfEven n d| ≤ 1 := by
  obtain ⟨hlow, hhigh⟩ := cast_div_bounds n hd
  have hle : ((n / d : Nat) : ℚ) ≤ roundHalfEven n d := by exact_mod_cast le_roundHalfEven n d
  have hge : (roundHalfEven n d : ℚ) ≤ (n / d : Nat) + 1 := by exact_mod_cast roundHalfEven_le n d
  rw [abs_le]
  constructor <;> linarith

namespace Format

/-- The magnitude with a given code. -/
def magnitude (F : Format) (code : Nat) : ℚ := F.quanta code / 2 ^ F.places

theorem magnitude_zero (F : Format) : F.magnitude 0 = 0 := by
  simp [magnitude, quanta]

theorem magnitude_significand {s m : Nat}
    (hm : s = 0 ∧ m < 2 ^ F.fraction ∨ 2 ^ F.fraction ≤ m ∧ m < 2 ^ (F.fraction + 1)) :
    F.magnitude (s * 2 ^ F.fraction + m) = (m * 2 ^ s : ℚ) / 2 ^ F.places := by
  rw [magnitude, quanta_significand hm]
  push_cast
  rfl

/-- Rounding moves a quotient by no more than the unit that it is rounded to, which is one
    quantum or a small part of the quotient. -/
theorem abs_sub_magnitude_le {n d : Nat} (hd : 0 < d) (h : F.nearest n d < F.infinity) :
    |(n : ℚ) / d - F.magnitude (F.nearest n d)| ≤
      max (1 / 2 ^ F.places) ((n : ℚ) / d / 2 ^ F.fraction) := by
  have hquanta : |((n * 2 ^ F.places : Nat) : ℚ) / d - F.quanta (F.nearest n d)| ≤
      max 1 (((n * 2 ^ F.places : Nat) : ℚ) / d / 2 ^ F.fraction) := by
    rw [quanta_nearest h]
    generalize n * 2 ^ F.places = q
    generalize hs : F.shift (q / d) = s
    have hunit : (q : ℚ) / d - (roundHalfEven q (d * 2 ^ s) * 2 ^ s : Nat) =
        ((q : ℚ) / (d * 2 ^ s : Nat) - roundHalfEven q (d * 2 ^ s)) * 2 ^ s := by
      push_cast
      field_simp
    have hpow : (0 : ℚ) < 2 ^ s := by positivity
    have hround := abs_div_sub_roundHalfEven_le q (Nat.mul_pos hd (Nat.two_pow_pos s))
    rw [hunit, abs_mul, abs_of_pos hpow]
    refine (mul_le_of_le_one_left hpow.le hround).trans ?_
    rcases (F.significand_bounds (q / d)).1 with hzero | hle
    · rw [← hs, hzero, pow_zero]
      exact le_max_left _ _
    · rw [hs, Nat.le_div_iff_mul_le (Nat.two_pow_pos s)] at hle
      refine le_max_of_le_right ?_
      rw [le_div_iff₀ (by positivity), mul_comm]
      refine le_trans ?_ (Nat.cast_div_le (m := q) (n := d))
      exact_mod_cast hle
  have hscaled : (n : ℚ) / d = ((n * 2 ^ F.places : Nat) : ℚ) / d / 2 ^ F.places := by
    push_cast
    field_simp
  have hplaces : (0 : ℚ) < 2 ^ F.places := by positivity
  rw [magnitude, hscaled, ← sub_div, abs_div, abs_of_pos hplaces, div_right_comm,
    max_div_div_right hplaces.le]
  exact div_le_div_of_nonneg_right hquanta hplaces.le

/-- What is not too large is rounded to a finite magnitude. -/
theorem nearest_lt_infinity {n d bits : Nat} (hbits : bits + 2 < 2 ^ F.exponent - 1 + F.fraction)
    (hexponent : 2 < 2 ^ F.exponent - 1) (h : n * 2 ^ F.places < d * 2 ^ bits) :
    F.nearest n d < F.infinity := by
  rw [nearest_eq]
  generalize n * 2 ^ F.places = q at h ⊢
  have hlog : F.shift (q / d) ≤ bits - F.fraction := by
    unfold shift
    refine Nat.sub_le_sub_right ?_ _
    rcases eq_or_ne (q / d) 0 with hzero | hne
    · simp [hzero]
    · exact Nat.le_of_lt ((Nat.log2_lt hne).mpr (Nat.div_lt_of_lt_mul h))
  have hround : roundHalfEven q (d * 2 ^ F.shift (q / d)) ≤ 2 ^ (F.fraction + 1) := by
    refine (roundHalfEven_le _ _).trans ?_
    rw [← Nat.div_div_eq_div_mul]
    exact (F.significand_bounds (q / d)).2
  rw [Nat.pow_succ'] at hround
  calc min _ F.infinity
      ≤ F.shift (q / d) * 2 ^ F.fraction + roundHalfEven q (d * 2 ^ F.shift (q / d)) :=
        Nat.min_le_left _ _
    _ ≤ (bits - F.fraction) * 2 ^ F.fraction + 2 * 2 ^ F.fraction :=
        Nat.add_le_add (Nat.mul_le_mul_right _ hlog) hround
    _ = (bits - F.fraction + 2) * 2 ^ F.fraction := (Nat.add_mul _ _ _).symm
    _ < (2 ^ F.exponent - 1) * 2 ^ F.fraction :=
        Nat.mul_lt_mul_of_pos_right (by omega) (Nat.two_pow_pos _)

end Format

namespace Decimal

variable {tie : Tie} {code : Nat} {d d' : Decimal}

theorem toRat_eq_div (d : Decimal) : d.toRat = (d.quotient.1 : ℚ) / d.quotient.2 := by
  rw [toRat, Rat.mkRat_eq_div, Int.cast_natCast]

/-- What is read depends on the value only. -/
theorem read_congr (h : d.toRat = d'.toRat) : d.read F = d'.read F := by
  rw [← d.nearest_toRat, ← d'.nearest_toRat, h]

theorem abs_toRat_sub_magnitude_le (h : d.read F < F.infinity) :
    |d.toRat - F.magnitude (d.read F)| ≤ max (1 / 2 ^ F.places) (d.toRat / 2 ^ F.fraction) := by
  rw [toRat_eq_div]
  exact Format.abs_sub_magnitude_le d.quotient_den_pos h

/-! ### What a grid has -/

/-- The magnitude in units of the grid, as the quotient of naturals that is searched with. -/
theorem magnitude_div_eq (F : Format) (code : Nat) (place : Int) :
    F.magnitude code / 10 ^ place =
      ((F.quanta code * Nat.pow 10 (-place).toNat : Nat) : ℚ) /
        (Nat.pow 2 F.places * Nat.pow 10 place.toNat : Nat) := by
  rw [Format.magnitude, Nat.pow_eq, Nat.pow_eq, Nat.pow_eq]
  rcases le_total 0 place with hplace | hplace
  · obtain ⟨n, rfl⟩ := Int.eq_ofNat_of_zero_le hplace
    rw [Int.toNat_natCast, Int.toNat_of_nonpos (by omega), zpow_natCast, pow_zero, mul_one]
    push_cast
    rw [div_div]
  · obtain ⟨n, rfl⟩ := Int.exists_eq_neg_ofNat hplace
    rw [neg_neg, Int.toNat_natCast, Int.toNat_of_nonpos (by omega), zpow_neg, zpow_natCast,
      pow_zero, mul_one]
    push_cast
    rw [div_inv_eq_mul, div_mul_eq_mul_div]

/-- A point next to the magnitude is found on its grid, if it reads back. -/
theorem onGrid_ne_none {place : Int} {digits : Nat} (hread : read F ⟨digits, place⟩ = code)
    (hlow : (digits : ℚ) - 1 ≤ F.magnitude code / 10 ^ place)
    (hhigh : F.magnitude code / 10 ^ place < digits + 1) :
    onGrid F tie code place ≠ none := by
  rw [magnitude_div_eq] at hlow hhigh
  unfold onGrid
  dsimp only
  generalize F.quanta code * Nat.pow 10 (-place).toNat = n at hlow hhigh ⊢
  have hpos : 0 < Nat.pow 2 F.places * Nat.pow 10 place.toNat :=
    Nat.mul_pos (Nat.two_pow_pos _) (Nat.pow_pos (by decide))
  generalize Nat.pow 2 F.places * Nat.pow 10 place.toNat = d at hlow hhigh hpos ⊢
  have hneighbour : digits = n / d ∨ digits = n / d + 1 := by
    obtain ⟨hfloor, hceil⟩ := cast_div_bounds n hpos
    have hge : ((n / d : Nat) : ℚ) < digits + 1 := hfloor.trans_lt hhigh
    have hle : (digits : ℚ) < (n / d : Nat) + 1 + 1 := by linarith
    have hge' : n / d < digits + 1 := by exact_mod_cast hge
    have hle' : digits < n / d + 1 + 1 := by exact_mod_cast hle
    omega
  rcases hneighbour with rfl | rfl
  · rw [hread, beq_self_eq_true]
    cases read F ⟨n / d + 1, place⟩ == code <;> exact Option.some_ne_none _
  · rw [hread, beq_self_eq_true]
    cases read F ⟨n / d, place⟩ == code <;> exact Option.some_ne_none _

/-! ### Where the search ends -/

theorem le_place_search {place : Int} {steps : Nat} (hgrid : onGrid F tie code place ≠ none)
    (hlow : -(F.places : Int) ≤ place) (hhigh : place ≤ steps - F.places) :
    place ≤ (search F tie code steps).place := by
  induction steps with
  | zero =>
    simp only [search]
    omega
  | succ steps ih =>
    rw [search]
    split
    case h_1 => exact_mod_cast hhigh
    case h_2 hnone =>
      refine ih ?_
      rcases eq_or_lt_of_le hhigh with heq | hlt
      · refine absurd ?_ hgrid
        rw [heq]
        exact_mod_cast hnone
      · omega

/-- The search starts on a grid of more than the magnitude. -/
theorem le_place_shortest {place : Int} (hne : code ≠ 0)
    (hgrid : onGrid F tie code place ≠ none) (hlow : -(F.places : Int) ≤ place)
    (hhigh : (10 : ℚ) ^ place ≤ 10 * F.magnitude code) :
    place ≤ (shortest F tie code).place := by
  rw [shortest, if_neg hne]
  dsimp only
  rw [decimalLog_eq_log, decimalLog_eq_log, Nat.pow_eq]
  have hquanta : (F.quanta code : ℚ) < 10 ^ (Nat.log 10 (F.quanta code) + 1) := by
    exact_mod_cast Nat.lt_pow_succ_log_self (by decide) _
  have hplaces : (10 : ℚ) ^ Nat.log 10 (2 ^ F.places) ≤ 2 ^ F.places := by
    exact_mod_cast Nat.pow_log_le_self 10 (Nat.two_pow_pos _).ne'
  have hfew : Nat.log 10 (2 ^ F.places) ≤ F.places :=
    (Nat.log_mono_right (Nat.pow_le_pow_left (by decide) _)).trans
      (Nat.log_pow (by decide) F.places).le
  generalize Nat.log 10 (F.quanta code) = top at hquanta ⊢
  generalize Nat.log 10 (2 ^ F.places) = scale at hplaces hfew ⊢
  have hstart : (10 : ℚ) ^ place < 10 ^ ((top : Int) - scale + 2) :=
    calc (10 : ℚ) ^ place ≤ 10 * (F.quanta code / 2 ^ F.places) := hhigh
      _ < 10 * (10 ^ (top + 1) / 10 ^ scale) := by gcongr
      _ = 10 ^ ((top : Int) - scale + 2) := by
        rw [show (top : Int) - scale + 2 = (top + 1 : Nat) - (scale : Nat) + 1 by push_cast; ring,
          zpow_add_one₀ (by norm_num), zpow_sub₀ (by norm_num), zpow_natCast, zpow_natCast,
          mul_comm]
  rw [zpow_lt_zpow_iff_right₀ (by norm_num)] at hstart
  exact le_place_search hgrid hlow (by omega)

/-! ### How close the shortest decimal is -/

/-- What is found on a grid is one of the two points around the magnitude. -/
theorem eq_or_of_onGrid {place : Int} {digits : Nat}
    (h : onGrid F tie code place = some digits) :
    digits = F.quanta code * Nat.pow 10 (-place).toNat /
        (Nat.pow 2 F.places * Nat.pow 10 place.toNat) ∨
      digits = F.quanta code * Nat.pow 10 (-place).toNat /
        (Nat.pow 2 F.places * Nat.pow 10 place.toNat) + 1 := by
  unfold onGrid at h
  dsimp only at h
  split at h
  case isTrue =>
    cases h
    exact tie.nearest_eq_or _ _ _
  case isFalse =>
    split at h
    case isTrue => exact .inl (Option.some.inj h).symm
    case isFalse =>
      split at h
      case isTrue => exact .inr (Option.some.inj h).symm
      case isFalse => cases h

theorem near_of_onGrid {place : Int} {digits : Nat}
    (h : onGrid F tie code place = some digits) :
    (digits : ℚ) - 1 ≤ F.magnitude code / 10 ^ place ∧
      F.magnitude code / 10 ^ place < digits + 1 := by
  rw [magnitude_div_eq]
  have hdigits := eq_or_of_onGrid h
  have hpos : 0 < Nat.pow 2 F.places * Nat.pow 10 place.toNat :=
    Nat.mul_pos (Nat.two_pow_pos _) (Nat.pow_pos (by decide))
  generalize F.quanta code * Nat.pow 10 (-place).toNat = n at hdigits ⊢
  generalize Nat.pow 2 F.places * Nat.pow 10 place.toNat = d at hdigits hpos ⊢
  obtain ⟨hlow, hhigh⟩ := cast_div_bounds n hpos
  rcases hdigits with rfl | rfl
  · constructor <;> linarith
  · push_cast
    constructor <;> linarith

/-- The shortest decimal is next to the magnitude on its grid. -/
theorem near_search (steps : Nat) :
    ((search F tie code steps).digits : ℚ) - 1 ≤
        F.magnitude code / 10 ^ (search F tie code steps).place ∧
      F.magnitude code / 10 ^ (search F tie code steps).place <
        (search F tie code steps).digits + 1 := by
  induction steps with
  | zero =>
    have hexact : F.magnitude code / 10 ^ (search F tie code 0).place =
        (search F tie code 0).digits := by
      rw [search, Format.magnitude, zpow_neg, zpow_natCast, div_inv_eq_mul, Nat.pow_eq,
        show (10 : ℚ) = 5 * 2 by norm_num, mul_pow]
      push_cast
      field_simp
    rw [hexact]
    exact ⟨by linarith, by linarith⟩
  | succ steps ih =>
    rw [search]
    split
    case h_1 hgrid => exact near_of_onGrid hgrid
    case h_2 => exact ih

theorem near_shortest (F : Format) (tie : Tie) (hne : code ≠ 0) :
    ((shortest F tie code).digits : ℚ) - 1 ≤
        F.magnitude code / 10 ^ (shortest F tie code).place ∧
      F.magnitude code / 10 ^ (shortest F tie code).place <
        (shortest F tie code).digits + 1 := by
  rw [shortest, if_neg hne]
  exact near_search _

/-- A decimal that exceeds a magnitude by less than half the step to the next one reads back
    as it. -/
theorem read_of_near {s m : Nat} (h : s * 2 ^ F.fraction + m < F.infinity)
    (hm : s = 0 ∧ m < 2 ^ F.fraction ∨ 2 ^ F.fraction ≤ m ∧ m < 2 ^ (F.fraction + 1))
    (hlow : (m * 2 ^ s : ℚ) / 2 ^ F.places ≤ d.toRat)
    (hhigh : d.toRat < ((2 * m + 1) * 2 ^ s : ℚ) / (2 * 2 ^ F.places)) :
    d.read F = s * 2 ^ F.fraction + m := by
  have hpos : (0 : ℚ) < d.quotient.2 := by exact_mod_cast d.quotient_den_pos
  rw [toRat_eq_div] at hlow hhigh
  refine Format.nearest_of_near h hm ?_ ?_
  · rw [div_le_div_iff₀ (by positivity) hpos] at hlow
    have hcast : (m : ℚ) * (d.quotient.2 * 2 ^ s) ≤ d.quotient.1 * 2 ^ F.places := by linarith
    exact_mod_cast hcast
  · rw [div_lt_div_iff₀ hpos (by positivity)] at hhigh
    have hcast : (2 : ℚ) * (d.quotient.1 * 2 ^ F.places) <
        (2 * m + 1) * (d.quotient.2 * 2 ^ s) := by linarith
    exact_mod_cast hcast

/-- On a grid of less than half the step to the next magnitude, the point after the magnitude
    reads back. -/
theorem exists_next {s m : Nat} (h : s * 2 ^ F.fraction + m < F.infinity)
    (hm : s = 0 ∧ m < 2 ^ F.fraction ∨ 2 ^ F.fraction ≤ m ∧ m < 2 ^ (F.fraction + 1))
    {place : Int} (hstep : (10 : ℚ) ^ place < 2 ^ s / (2 * 2 ^ F.places)) :
    onGrid F tie (s * 2 ^ F.fraction + m) place ≠ none := by
  have hunit : (0 : ℚ) < 10 ^ place := by positivity
  have hfloor := Nat.floor_le (show 0 ≤ (m * 2 ^ s : ℚ) / 2 ^ F.places / 10 ^ place by positivity)
  have hceil := Nat.lt_floor_add_one ((m * 2 ^ s : ℚ) / 2 ^ F.places / 10 ^ place)
  generalize ⌊(m * 2 ^ s : ℚ) / 2 ^ F.places / 10 ^ place⌋₊ = low at hfloor hceil
  have hread : read F ⟨low + 1, place⟩ = s * 2 ^ F.fraction + m := by
    refine read_of_near h hm ?_ ?_
    · rw [toRat_eq, Nat.cast_succ]
      exact ((div_lt_iff₀ hunit).mp hceil).le
    · rw [toRat_eq, Nat.cast_succ]
      calc ((low : ℚ) + 1) * 10 ^ place = low * 10 ^ place + 10 ^ place := by ring
        _ < (m * 2 ^ s : ℚ) / 2 ^ F.places + 2 ^ s / (2 * 2 ^ F.places) :=
          add_lt_add_of_le_of_lt ((le_div_iff₀ hunit).mp hfloor) hstep
        _ = ((2 * m + 1) * 2 ^ s : ℚ) / (2 * 2 ^ F.places) := by
          field_simp
  rw [← Format.magnitude_significand hm] at hfloor hceil
  exact onGrid_ne_none hread (by push_cast; linarith) (by push_cast; linarith)

/-- The shortest decimal has hardly more digits than the significand. -/
theorem magnitude_le_shortest (tie : Tie) (h : code < F.infinity) (hne : code ≠ 0) :
    F.magnitude code ≤ 20 * 2 ^ (F.fraction + 1) * 10 ^ (shortest F tie code).place := by
  obtain ⟨s, m, rfl, hm⟩ := F.exists_significand code
  have hlarge : (m : ℚ) ≤ 2 ^ (F.fraction + 1) := by
    have hlt : m < 2 ^ (F.fraction + 1) := hm.elim
      (fun hsub => hsub.2.trans (Nat.pow_lt_pow_right (by decide) (Nat.lt_succ_self _))) (·.2)
    exact_mod_cast hlt.le
  have hsmall : (1 : ℚ) ≤ m := by
    have hpos : 0 < m := by
      refine Nat.pos_of_ne_zero fun hzero => ?_
      rcases hm with ⟨rfl, -⟩ | ⟨hle, -⟩
      · exact hne (by rw [hzero, Nat.zero_mul])
      · exact absurd (hzero ▸ hle) (Nat.not_le.mpr (Nat.two_pow_pos _))
    exact_mod_cast hpos
  have hplaces : -(F.places : Int) ≤ (shortest F tie (s * 2 ^ F.fraction + m)).place :=
    neg_places_le_place_shortest
  rw [Format.magnitude_significand hm]
  generalize hplace : (shortest F tie (s * 2 ^ F.fraction + m)).place = place at hplaces ⊢
  have hstep : (0 : ℚ) < 2 ^ s / 2 ^ F.places := by positivity
  have hmagnitude : (m * 2 ^ s : ℚ) / 2 ^ F.places = m * (2 ^ s / 2 ^ F.places) :=
    mul_div_assoc _ _ _
  -- Otherwise the next coarser grid would have had a point.
  by_contra hlt
  have hunit : (20 : ℚ) * 10 ^ place < 2 ^ s / 2 ^ F.places := by
    rw [not_le, hmagnitude] at hlt
    have hpow : (0 : ℚ) < 2 ^ (F.fraction + 1) := by positivity
    refine lt_of_mul_lt_mul_left ?_ hpow.le
    calc 2 ^ (F.fraction + 1) * (20 * (10 : ℚ) ^ place)
        = 20 * 2 ^ (F.fraction + 1) * 10 ^ place := by ring
      _ < m * (2 ^ s / 2 ^ F.places) := hlt
      _ ≤ 2 ^ (F.fraction + 1) * (2 ^ s / 2 ^ F.places) := by gcongr
  have hnext : (10 : ℚ) ^ (place + 1) < 2 ^ s / (2 * 2 ^ F.places) := by
    rw [zpow_add_one₀ (by norm_num), mul_comm 2, ← div_div]
    linarith
  have hgrid : onGrid F tie (s * 2 ^ F.fraction + m) (place + 1) ≠ none := exists_next h hm hnext
  have hhigh : (10 : ℚ) ^ (place + 1) ≤ 10 * F.magnitude (s * 2 ^ F.fraction + m) := by
    rw [Format.magnitude_significand hm, hmagnitude]
    rw [mul_comm 2, ← div_div] at hnext
    have hone : 2 ^ s / 2 ^ F.places ≤ m * ((2 : ℚ) ^ s / 2 ^ F.places) :=
      le_mul_of_one_le_left hstep.le hsmall
    linarith
  have hle := le_place_shortest hne hgrid (by omega) hhigh
  omega

/-! ### The same decimal again -/

/-- Points of a grid that are less than a unit apart are the same. -/
theorem eq_of_abs_sub_lt {a b : Nat} {unit : ℚ} (hunit : 0 < unit)
    (h : |a * unit - b * unit| < unit) : a = b := by
  rw [← sub_mul, abs_mul, abs_of_pos hunit, mul_lt_iff_lt_one_left hunit, abs_lt] at h
  have hle : (a : ℚ) < b + 1 := by linarith
  have hge : (b : ℚ) < a + 1 := by linarith
  have hle' : a < b + 1 := by exact_mod_cast hle
  have hge' : b < a + 1 := by exact_mod_cast hge
  omega

theorem digits_shortest_ne_zero (h : code < F.infinity) (hne : code ≠ 0) :
    (shortest F tie code).digits ≠ 0 := by
  intro hzero
  refine hne ?_
  have hrat : (shortest F tie code).toRat = 0 := by
    rw [toRat_eq, hzero, Nat.cast_zero, zero_mul]
  rw [← read_shortest h, ← nearest_toRat, hrat]
  exact F.nearest_zero 1

/-- The shortest decimal is no more than twice the magnitude, even of one quantum. -/
theorem toRat_shortest_le (hF : 1 ≤ F.fraction) (h : code < F.infinity) (hne : code ≠ 0) :
    (shortest F tie code).toRat ≤ 2 * F.magnitude code := by
  have hread : (shortest F tie code).read F = code := read_shortest h
  have hclose := abs_toRat_sub_magnitude_le (hread.symm ▸ h)
  have hquantum : 1 / 2 ^ F.places ≤ F.magnitude code := by
    refine div_le_div_of_nonneg_right ?_ (by positivity)
    exact_mod_cast Format.quanta_pos h hne
  have hfraction : (2 : ℚ) ≤ 2 ^ F.fraction := le_self_pow₀ (by norm_num) (by omega)
  have hnonneg : 0 ≤ (shortest F tie code).toRat := by
    rw [toRat_eq]
    positivity
  rw [hread] at hclose
  generalize (shortest F tie code).toRat = v at hclose hnonneg ⊢
  have hhalf : v / 2 ^ F.fraction ≤ v / 2 := div_le_div_of_nonneg_left hnonneg (by norm_num)
    hfraction
  rcases le_max_iff.mp ((le_abs_self _).trans hclose) with hle | hle
  · linarith
  · linarith

theorem magnitude_single_lt (h : code < Format.single.infinity) :
    Format.single.magnitude code < 2 ^ 128 := by
  obtain ⟨s, m, rfl, hm⟩ := Format.single.exists_significand code
  have hplaces : Format.single.places = 149 := rfl
  have hm' : m < 2 ^ 24 := by
    rcases hm with ⟨-, hlt⟩ | ⟨-, hlt⟩
    · exact hlt.trans (by decide)
    · exact hlt
  have hs : s ≤ 253 := by
    change s * 2 ^ 23 + m < 255 * 2 ^ 23 at h
    change s = 0 ∧ m < 2 ^ 23 ∨ 2 ^ 23 ≤ m ∧ m < 2 ^ 24 at hm
    omega
  rw [Format.magnitude_significand hm, hplaces, div_lt_iff₀ (by positivity)]
  have hpow : m * 2 ^ s < 2 ^ 24 * 2 ^ 253 :=
    Nat.mul_lt_mul_of_lt_of_le hm' (Nat.pow_le_pow_right (by decide) hs) (by positivity)
  calc (m : ℚ) * 2 ^ s < 2 ^ 24 * 2 ^ 253 := by exact_mod_cast hpow
    _ = 2 ^ 128 * 2 ^ 149 := by norm_num

/-- Whatever reads back as a single is within the range of doubles. -/
theorem read_double_lt_infinity (h : d.toRat < 2 ^ 129) :
    d.read .double < Format.double.infinity := by
  have hpos : (0 : ℚ) < d.quotient.2 := by exact_mod_cast d.quotient_den_pos
  rw [toRat_eq_div, div_lt_iff₀ hpos] at h
  have hlt : d.quotient.1 < 2 ^ 129 * d.quotient.2 := by exact_mod_cast h
  have hroom : d.quotient.1 * 2 ^ Format.double.places <
      d.quotient.2 * 2 ^ (129 + Format.double.places) := by
    rw [Nat.pow_add, Nat.mul_left_comm, ← Nat.mul_assoc]
    exact Nat.mul_lt_mul_of_pos_right hlt (Nat.two_pow_pos _)
  exact Format.nearest_lt_infinity (by decide) (by decide) hroom

/-- What reads back as the same double as a number differs from it by little. -/
theorem abs_toRat_sub_le (h : d.read .double < Format.double.infinity)
    (hread : d'.read .double = d.read .double) (hnormal : 1 / 2 ^ 1000 ≤ d.toRat) :
    |d.toRat - Format.double.magnitude (d.read .double)| ≤ d.toRat / 2 ^ 52 ∧
      |d.toRat - d'.toRat| ≤ 5 * d.toRat / 2 ^ 52 := by
  have hquantum : (1 : ℚ) / 2 ^ Format.double.places ≤ d.toRat / 2 ^ 52 :=
    calc (1 : ℚ) / 2 ^ Format.double.places ≤ 1 / 2 ^ (1000 + 52) :=
          one_div_le_one_div_of_le (by positivity) (pow_le_pow_right₀ (by norm_num) (by decide))
      _ = 1 / 2 ^ 1000 / 2 ^ 52 := by rw [pow_add, div_div]
      _ ≤ d.toRat / 2 ^ 52 := div_le_div_of_nonneg_right hnormal (by positivity)
  have hfirst : |d.toRat - Format.double.magnitude (d.read .double)| ≤ d.toRat / 2 ^ 52 :=
    (abs_toRat_sub_magnitude_le h).trans (max_le hquantum le_rfl)
  have hsecond := abs_toRat_sub_magnitude_le (hread.symm ▸ h)
  rw [hread] at hsecond
  change _ ≤ max (1 / 2 ^ Format.double.places) (d'.toRat / 2 ^ 52) at hsecond
  generalize Format.double.magnitude (d.read .double) = x at hfirst hsecond
  refine ⟨hfirst, ?_⟩
  generalize d.toRat = u at hquantum hfirst hnormal ⊢
  generalize d'.toRat = v at hsecond ⊢
  have hu : 0 ≤ u := le_trans (by positivity) hnormal
  have hfar : |v - x| ≤ 4 * u / 2 ^ 52 := by
    rcases le_max_iff.mp hsecond with hle | hle
    · linarith
    · have hx := (abs_le.mp hfirst).1
      obtain ⟨hlow, hhigh⟩ := abs_le.mp hle
      linarith
  calc |u - v| ≤ |u - x| + |x - v| := abs_sub_le _ _ _
    _ ≤ u / 2 ^ 52 + 4 * u / 2 ^ 52 := add_le_add hfirst (abs_sub_comm x v ▸ hfar)
    _ = 5 * u / 2 ^ 52 := by ring

/-- The shortest decimal is less than a unit of its grid away from the magnitude, and not many
    of these units in all. -/
theorem shortest_bounds (tie : Tie) (h : code < F.infinity) (hne : code ≠ 0) :
    (10 : ℚ) ^ (shortest F tie code).place ≤ (shortest F tie code).toRat ∧
      (shortest F tie code).toRat ≤
        (20 * 2 ^ (F.fraction + 1) + 1) * 10 ^ (shortest F tie code).place ∧
      (shortest F tie code).toRat - 10 ^ (shortest F tie code).place ≤ F.magnitude code ∧
      F.magnitude code < (shortest F tie code).toRat + 10 ^ (shortest F tie code).place := by
  have hunit : (0 : ℚ) < 10 ^ (shortest F tie code).place := by positivity
  have hone : (1 : ℚ) ≤ (shortest F tie code).digits := by
    exact_mod_cast Nat.pos_of_ne_zero (digits_shortest_ne_zero h hne)
  have hlarge := magnitude_le_shortest tie h hne
  obtain ⟨hlow, hhigh⟩ := near_shortest F tie hne
  rw [le_div_iff₀ hunit, sub_mul, one_mul, ← toRat_eq] at hlow
  rw [div_lt_iff₀ hunit, add_mul, one_mul, ← toRat_eq] at hhigh
  refine ⟨?_, ?_, hlow, hhigh⟩
  · rw [toRat_eq]
    exact le_mul_of_one_le_left hunit.le hone
  · rw [add_mul, one_mul]
    linarith

/-- The double nearest to the shortest decimal of a single is finite, and not far from it. -/
theorem read_double_shortest (tie : Tie) (h : code < Format.single.infinity) (hne : code ≠ 0) :
    (shortest .single tie code).read .double < Format.double.infinity ∧
      1 / 2 ^ 1000 ≤ (shortest .single tie code).toRat := by
  obtain ⟨hunit, -, -, -⟩ := shortest_bounds tie h hne
  refine ⟨read_double_lt_infinity ?_, le_trans ?_ hunit⟩
  · calc (shortest .single tie code).toRat ≤ 2 * Format.single.magnitude code :=
          toRat_shortest_le (by decide) h hne
      _ < 2 * 2 ^ 128 := by linarith [magnitude_single_lt h]
      _ = 2 ^ 129 := by norm_num
  · have hplace : -((149 : Nat) : Int) ≤ (shortest .single tie code).place :=
      neg_places_le_place_shortest
    calc (1 : ℚ) / 2 ^ 1000 ≤ 1 / 2 ^ (4 * 149) :=
          one_div_le_one_div_of_le (by positivity) (pow_le_pow_right₀ (by norm_num) (by norm_num))
      _ ≤ 1 / 10 ^ 149 := by
          rw [pow_mul]
          exact one_div_le_one_div_of_le (by positivity)
            (pow_le_pow_left₀ (by norm_num) (by norm_num) _)
      _ = 10 ^ (-((149 : Nat) : Int)) := by rw [zpow_neg, zpow_natCast, one_div]
      _ ≤ 10 ^ (shortest .single tie code).place := zpow_le_zpow_right₀ (by norm_num) hplace

/-- The search for the decimal of the double does not go below the grid of that of the
    single. -/
theorem place_le_place_double (tie tie' : Tie) (h : code < Format.single.infinity)
    (hne : code ≠ 0) :
    (shortest .single tie code).place ≤
      (shortest .double tie' ((shortest .single tie code).read .double)).place := by
  obtain ⟨hfinite, hnormal⟩ := read_double_shortest tie h hne
  obtain ⟨hunit, hfew, -, -⟩ := shortest_bounds tie h hne
  have hclose := (abs_toRat_sub_le hfinite rfl hnormal).1
  have hplace : -((149 : Nat) : Int) ≤ (shortest .single tie code).place :=
    neg_places_le_place_shortest
  generalize hcode : (shortest .single tie code).read .double = code' at hclose hfinite ⊢
  generalize shortest .single tie code = d at hunit hfew hclose hplace hcode hnormal ⊢
  have hpos : (0 : ℚ) < 10 ^ d.place := by positivity
  have hpart : d.toRat / 2 ^ 52 ≤ d.toRat / 2 :=
    div_le_div_of_nonneg_left (hpos.le.trans hunit) (by norm_num) (by norm_num)
  have hless : d.toRat / 2 ^ 52 < 10 ^ d.place := by
    rw [div_lt_iff₀ (by positivity)]
    refine hfew.trans_lt ?_
    rw [mul_comm]
    exact mul_lt_mul_of_pos_left (by norm_num [Format.single]) hpos
  rw [abs_le] at hclose
  have hhigh : (10 : ℚ) ^ d.place ≤ 10 * Format.double.magnitude code' := by linarith
  have hgrid : onGrid .double tie' code' d.place ≠ none := by
    refine onGrid_ne_none hcode ?_ ?_
    · rw [le_div_iff₀ hpos, sub_mul, one_mul, ← toRat_eq]
      linarith
    · rw [div_lt_iff₀ hpos, add_mul, one_mul, ← toRat_eq]
      linarith
  have hne' : code' ≠ 0 := by
    rintro rfl
    rw [Format.magnitude_zero] at hhigh
    linarith
  exact le_place_shortest hne' hgrid (le_trans (by decide) hplace) hhigh

/-- The two decimals denote the same number. -/
theorem toRat_shortest_double (tie tie' : Tie) (h : code < Format.single.infinity)
    (hne : code ≠ 0) :
    (shortest .double tie' ((shortest .single tie code).read .double)).toRat =
      (shortest .single tie code).toRat := by
  have hplace := place_le_place_double tie tie' h hne
  obtain ⟨hfinite, hnormal⟩ := read_double_shortest tie h hne
  obtain ⟨-, hfew, -, -⟩ := shortest_bounds tie h hne
  have hread : (shortest .double tie' ((shortest .single tie code).read .double)).read .double =
      (shortest .single tie code).read .double := read_shortest hfinite
  have hclose := (abs_toRat_sub_le hfinite hread hnormal).2
  generalize shortest .double tie' _ = d' at hplace hclose ⊢
  generalize shortest .single tie code = d at hplace hclose hfew ⊢
  have hpos : (0 : ℚ) < 10 ^ d.place := by positivity
  -- On the grid of the single, what is found for the double is less than a unit away.
  obtain ⟨k, hk⟩ := Int.le.dest hplace
  have hfiner : d'.toRat = (d'.digits * 10 ^ k : Nat) * 10 ^ d.place := by
    rw [toRat_eq, ← hk, zpow_add₀ (by norm_num), zpow_natCast]
    push_cast
    ring
  have hless : 5 * d.toRat / 2 ^ 52 < 10 ^ d.place := by
    rw [div_lt_iff₀ (by positivity)]
    calc 5 * d.toRat ≤ 5 * ((20 * 2 ^ (23 + 1) + 1) * 10 ^ d.place) := by
          exact mul_le_mul_of_nonneg_left hfew (by norm_num)
      _ = (5 * (20 * 2 ^ (23 + 1) + 1)) * 10 ^ d.place := by ring
      _ < 2 ^ 52 * 10 ^ d.place := mul_lt_mul_of_pos_right (by norm_num) hpos
      _ = 10 ^ d.place * 2 ^ 52 := mul_comm _ _
  rw [hfiner, toRat_eq] at hclose ⊢
  rw [eq_of_abs_sub_lt hpos (hclose.trans_lt (by rwa [toRat_eq] at hless))]

/-- On a coarser grid the search for the decimal of the single would have found it as well. -/
theorem place_double_le_place (tie tie' : Tie) (h : code < Format.single.infinity)
    (hne : code ≠ 0) :
    (shortest .double tie' ((shortest .single tie code).read .double)).place ≤
      (shortest .single tie code).place := by
  have hvalue := toRat_shortest_double tie tie' h hne
  have hread := (read_congr hvalue).trans (read_shortest h)
  have hfiner : -(Format.single.places : Int) ≤ (shortest .single tie code).place :=
    neg_places_le_place_shortest
  obtain ⟨hunit, -, hlow, hhigh⟩ := shortest_bounds tie h hne
  generalize shortest .double tie' _ = d' at hvalue hread ⊢
  generalize hd : shortest .single tie code = d at hvalue hread hfiner hunit hlow hhigh ⊢
  obtain ⟨digits, place⟩ := d'
  refine not_lt.mp fun hlt => not_le.mpr hlt ?_
  dsimp only at hlt ⊢
  have hpos : (0 : ℚ) < 10 ^ d.place := by positivity
  have hpos' : (0 : ℚ) < 10 ^ place := by positivity
  have hcoarse : 10 * (10 : ℚ) ^ d.place ≤ 10 ^ place := by
    rw [mul_comm, ← zpow_add_one₀ (by norm_num)]
    exact zpow_le_zpow_right₀ (by norm_num) (Int.add_one_le_of_lt hlt)
  rw [toRat_eq] at hvalue
  dsimp only at hvalue
  have hdigit : (10 : ℚ) ^ place ≤ d.toRat := by
    have hne' : digits ≠ 0 := by
      rintro rfl
      rw [Nat.cast_zero, zero_mul] at hvalue
      linarith
    have hone : (1 : ℚ) ≤ digits := by exact_mod_cast Nat.pos_of_ne_zero hne'
    exact hvalue ▸ le_mul_of_one_le_left hpos'.le hone
  have hgrid : onGrid .single tie code place ≠ none := by
    refine onGrid_ne_none hread ?_ ?_
    · rw [le_div_iff₀ hpos', sub_mul, one_mul, hvalue]
      linarith
    · rw [div_lt_iff₀ hpos', add_mul, one_mul, hvalue]
      linarith
  rw [← hd]
  exact le_place_shortest hne hgrid (hfiner.trans hlt.le) (by linarith)

/-- The shortest decimal of a single is also the shortest one of the double nearest to it. -/
theorem shortest_double_read (tie tie' : Tie) (h : code < Format.single.infinity) :
    shortest .double tie' ((shortest .single tie code).read .double) =
      shortest .single tie code := by
  by_cases hne : code = 0
  case pos =>
    have hzero : shortest .single tie code = ⟨0, 0⟩ := if_pos hne
    have hread : read .double ⟨0, 0⟩ = 0 := Format.double.nearest_zero 1
    rw [hzero, hread]
    rfl
  case neg =>
    have hplace := (place_double_le_place tie tie' h hne).antisymm
      (place_le_place_double tie tie' h hne)
    have hvalue := toRat_shortest_double tie tie' h hne
    generalize shortest .double tie' _ = d' at hplace hvalue ⊢
    generalize shortest .single tie code = d at hplace hvalue ⊢
    have hpos : (10 : ℚ) ^ d.place ≠ 0 := by positivity
    rw [toRat_eq, toRat_eq, hplace, mul_left_inj' hpos, Nat.cast_inj] at hvalue
    cases d
    cases d'
    simp_all

end Decimal

/-! ### Singles as canonical values -/

namespace Binary

variable {H : Host} {w : World H}

theorem code_widen {x : Single} (hx : x.isFinite = true) :
    x.widen.code = (Decimal.shortest .single .up x.code).read .double := by
  rw [widen, if_pos hx]
  rfl

theorem negative_widen {x : Single} (hx : x.isFinite = true) : x.widen.negative = x.negative := by
  rw [widen, if_pos hx]
  rfl

theorem isFinite_widen (x : Single) : x.widen.isFinite = x.isFinite := by
  cases hx : x.isFinite with
  | true =>
    have hcode : x.code < Format.single.infinity := of_decide_eq_true hx
    rw [isFinite, code_widen hx, decide_eq_true_eq]
    by_cases hne : x.code = 0
    · have hzero : Decimal.shortest .single .up x.code = ⟨0, 0⟩ := if_pos hne
      have hread : Decimal.read .double ⟨0, 0⟩ = 0 := Format.double.nearest_zero 1
      rw [hzero, hread]
      decide
    · exact (Decimal.read_double_shortest .up hcode hne).1
  | false =>
    rw [widen, hx, if_neg Bool.false_ne_true]
    split
    case isTrue => exact decide_eq_false (Nat.not_lt.mpr (Nat.le_succ _))
    case isFalse => exact decide_eq_false (Nat.lt_irrefl _)

theorem shortest_widen {x : Single} (hx : x.isFinite = true) :
    Decimal.shortest .double .up x.widen.code = Decimal.shortest .single .up x.code := by
  have hcode : x.code < Format.single.infinity := of_decide_eq_true hx
  rw [code_widen hx]
  exact Decimal.shortest_double_read .up .up hcode

theorem shortestRat_widen {x : Single} (hx : x.isFinite = true) :
    x.widen.shortestRat = x.shortestRat := by
  rw [shortestRat, shortestRat, negative_widen hx, shortest_widen hx]

/-- The double is written like the single. -/
theorem write_widen {x : Single} (hx : x.isFinite = true) :
    Style.plain.write x.widen = Style.plain.write x := by
  have hwide : x.widen.isFinite = true := by rwa [isFinite_widen]
  have hmagnitude : Style.plain.magnitude .double x.widen.code =
      Style.plain.magnitude .single x.code := by
    change Decimal.positional (Decimal.shortest .double .up _) [] =
      Decimal.positional (Decimal.shortest .single .up _) []
    rw [shortest_widen hx]
  rw [Style.write, Style.write, isNaN_of_isFinite hx, isNaN_of_isFinite hwide, hx, hwide,
    negative_widen hx, hmagnitude]

/-- A finite single becomes the number that its own text is read as, whatever the detour
    through a double; that double has the same text.  No other single becomes a number. -/
theorem canonicalize_single (x : Single) (w : World H) :
    (x.isFinite = false →
      (canonicalize (H := H) (HostValue.single x).toExternal).run.run w =
        .ok (.error (.nonFinite x.widen), w)) ∧
    (x.isFinite = true → ∃ r,
      decimalOfText (Style.plain.write x) = .ok r ∧
      (canonicalize (H := H) (HostValue.single x).toExternal).run.run w = .ok (.ok (.ofRat r), w) ∧
      Style.plain.write x.widen = Style.plain.write x) := by
  rw [HostValue.toExternal, canonicalize, canonical, isFinite_widen]
  refine ⟨fun hx => ?_, fun hx => ⟨x.shortestRat, ?_, ?_, write_widen hx⟩⟩
  · rw [hx]
    rfl
  · exact Style.decimalOfText_write_plain (by decide) hx
  · rw [if_pos hx, shortestRat_widen hx]
    rfl

/-- The single nearest to a tenth.  Its bits denote more than a tenth. -/
def tenth : Single := ⟨false, 0x3dcccccd, by decide⟩

theorem canonicalize_tenth :
    Style.plain.write tenth = "0.1" ∧ tenth.toRat ≠ 1 / 10 ∧
    (canonicalize (H := Session.host) (HostValue.single tenth).toExternal).run.run Session.start =
      .ok (.ok (.rational (1 / 10)), Session.start) := by
  have htext : Style.plain.write tenth = "0.1" := by decide +kernel
  obtain ⟨r, hr, hrun, -⟩ := (canonicalize_single tenth Session.start).2 (by decide)
  have hread : decimalOfText "0.1" = .ok (1 / 10) := by decide +kernel
  rw [htext, hread] at hr
  cases hr
  have hvalue : Value.ofRat (1 / 10) = .rational (1 / 10) := by decide +kernel
  exact ⟨htext, by decide +kernel, hvalue ▸ hrun⟩

end Binary

end MemoSeq

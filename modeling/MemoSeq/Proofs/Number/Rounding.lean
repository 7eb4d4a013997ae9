/-
  MemoSeq/Proofs/Number/Rounding.lean
  ===================================
  **What rounding to a format does.**

  Rounding takes the leading bits of a quotient, so the rounded magnitude is a whole
  multiple of the power of two by which it was shifted (`Format.quanta_nearest`).  From
  this come the facts that others build on: the quotient matters and not how it is written
  (`Format.nearest_mul`), a magnitude of the format is rounded to itself
  (`Format.nearest_quanta`), a number that is a multiple of what it is shifted by is not
  changed (`Format.quanta_nearest_of_dvd`), and a whole number becomes a whole number
  (`Format.dvd_quanta_nearest`).
-/
import MemoSeq.Number.Decimal
import Mathlib.Algebra.Group.Nat.Defs

namespace MemoSeq

/-! ### Rounding a quotient to a whole number -/

theorem roundHalfEven_mul {k : Nat} (hk : 0 < k) (n d : Nat) :
    roundHalfEven (k * n) (k * d) = roundHalfEven n d := by
  have hless (a b : Nat) : 2 * (k * a) < k * b ↔ 2 * a < b := by
    rw [Nat.mul_left_comm, Nat.mul_lt_mul_left hk]
  have hmore (a b : Nat) : k * b < 2 * (k * a) ↔ b < 2 * a := by
    rw [Nat.mul_left_comm, Nat.mul_lt_mul_left hk]
  simp only [roundHalfEven, Nat.mul_div_mul_left _ _ hk, Nat.mul_mod_mul_left, hless, hmore]

theorem roundHalfEven_of_dvd {n d : Nat} (hd : 0 < d) (h : d ∣ n) :
    roundHalfEven n d = n / d := by
  rw [roundHalfEven, Nat.mod_eq_zero_of_dvd h, if_pos (by omega)]

theorem le_roundHalfEven (n d : Nat) : n / d ≤ roundHalfEven n d := by
  unfold roundHalfEven
  dsimp only
  split
  · exact Nat.le_refl _
  · split
    · exact Nat.le_succ _
    · exact Nat.le_add_right _ _

theorem roundHalfEven_le (n d : Nat) : roundHalfEven n d ≤ n / d + 1 := by
  unfold roundHalfEven
  dsimp only
  split
  · exact Nat.le_succ _
  · split
    · exact Nat.le_refl _
    · omega

/-! ### Rounding a quotient to a magnitude -/

namespace Format

variable {F : Format}

/-- How many bits of a quotient of quanta are dropped when it is rounded. -/
def shift (F : Format) (q : Nat) : Nat := q.log2 - F.fraction

theorem nearest_eq (F : Format) (n d : Nat) :
    F.nearest n d =
      min (F.shift (n * 2 ^ F.places / d) * 2 ^ F.fraction +
        roundHalfEven (n * 2 ^ F.places) (d * 2 ^ F.shift (n * 2 ^ F.places / d))) F.infinity := rfl

theorem nearest_zero (F : Format) (d : Nat) : F.nearest 0 d = 0 := by
  rw [nearest_eq, Nat.zero_mul, Nat.zero_div]
  simp [roundHalfEven, shift]

/-- The quotient is what is rounded, however it is written. -/
theorem nearest_mul (F : Format) {k : Nat} (hk : 0 < k) (n d : Nat) :
    F.nearest (k * n) (k * d) = F.nearest n d := by
  rw [nearest_eq, nearest_eq, Nat.mul_assoc, Nat.mul_div_mul_left _ _ hk, Nat.mul_assoc,
    roundHalfEven_mul hk]

/-- What is left of a quotient after its last bits have been dropped fits the format:
    it has a leading one, if any were dropped. -/
theorem significand_bounds (F : Format) (q : Nat) :
    (F.shift q = 0 ∨ 2 ^ F.fraction ≤ q / 2 ^ F.shift q) ∧
      q / 2 ^ F.shift q < 2 ^ (F.fraction + 1) := by
  have hupper : q < 2 ^ (F.shift q + (F.fraction + 1)) := by
    refine Nat.lt_of_lt_of_le Nat.lt_log2_self (Nat.pow_le_pow_right Nat.two_pos ?_)
    unfold shift
    omega
  refine ⟨?_, Nat.div_lt_of_lt_mul (by rwa [← Nat.pow_add])⟩
  by_cases hshift : F.shift q = 0
  · exact .inl hshift
  · right
    have hlog : F.shift q + F.fraction = q.log2 := by
      unfold shift at hshift ⊢
      omega
    have hne : q ≠ 0 := by
      rintro rfl
      simp [shift] at hshift
    rw [Nat.le_div_iff_mul_le (Nat.two_pow_pos _), ← Nat.pow_add, Nat.add_comm, hlog]
    exact Nat.log2_self_le hne

/-- A code whose fields come of a shift and a significand is worth their product. -/
theorem quanta_add (F : Format) {shift m : Nat} (hlow : shift = 0 ∨ 2 ^ F.fraction ≤ m)
    (hhigh : m ≤ 2 ^ (F.fraction + 1)) :
    F.quanta (shift * 2 ^ F.fraction + m) = m * 2 ^ shift := by
  have hpos : 0 < 2 ^ F.fraction := Nat.two_pow_pos _
  rw [Nat.pow_succ] at hhigh
  unfold quanta
  simp only [Nat.pow_eq]
  rcases Nat.lt_or_ge m (2 ^ F.fraction) with hlt | hge
  · have hzero : shift = 0 := hlow.resolve_right (Nat.not_le.mpr hlt)
    subst hzero
    simp [Nat.div_eq_of_lt hlt, Nat.mod_eq_of_lt hlt]
  · obtain ⟨rest, rfl⟩ := Nat.exists_eq_add_of_le hge
    have hcode : shift * 2 ^ F.fraction + (2 ^ F.fraction + rest) =
        rest + 2 ^ F.fraction * (shift + 1) := by
      rw [Nat.mul_add, Nat.mul_comm shift]
      omega
    rw [hcode, Nat.add_mul_mod_self_left, Nat.add_mul_div_left _ _ hpos]
    rcases Nat.lt_or_ge rest (2 ^ F.fraction) with hlt | hle
    · rw [Nat.div_eq_of_lt hlt, Nat.mod_eq_of_lt hlt, Nat.zero_add]
    · obtain rfl : rest = 2 ^ F.fraction := by omega
      rw [Nat.div_self hpos, Nat.mod_self, Nat.add_comm 1]
      simp only [Nat.pow_succ]
      rw [Nat.add_zero, ← Nat.mul_two, Nat.mul_assoc, Nat.mul_comm 2]

/-- A finite rounded magnitude, in quanta: the significand, shifted back. -/
theorem quanta_nearest {n d : Nat} (h : F.nearest n d < F.infinity) :
    F.quanta (F.nearest n d) =
      roundHalfEven (n * 2 ^ F.places) (d * 2 ^ F.shift (n * 2 ^ F.places / d)) *
        2 ^ F.shift (n * 2 ^ F.places / d) := by
  rw [nearest_eq] at h ⊢
  rw [Nat.min_eq_left (Nat.le_of_lt (by omega))]
  generalize n * 2 ^ F.places = q
  obtain ⟨hlow, hhigh⟩ := F.significand_bounds (q / d)
  rw [Nat.div_div_eq_div_mul] at hlow hhigh
  refine F.quanta_add (hlow.imp_right fun hle => Nat.le_trans hle (le_roundHalfEven _ _)) ?_
  exact Nat.le_trans (roundHalfEven_le _ _) hhigh

/-- A number of quanta that the shift divides is not changed by rounding. -/
theorem quanta_nearest_of_dvd {n d : Nat} (hd : 0 < d) (h : F.nearest n d < F.infinity)
    (hdvd : d * 2 ^ F.shift (n * 2 ^ F.places / d) ∣ n * 2 ^ F.places) :
    d * F.quanta (F.nearest n d) = n * 2 ^ F.places := by
  have hpos := Nat.mul_pos hd (Nat.two_pow_pos (F.shift (n * 2 ^ F.places / d)))
  rw [quanta_nearest h, roundHalfEven_of_dvd hpos hdvd, Nat.mul_left_comm, Nat.div_mul_cancel hdvd]

/-- A whole number, if it is not too large, becomes a whole number. -/
theorem dvd_quanta_nearest {n : Nat} (h : F.nearest n 1 < F.infinity) :
    2 ^ F.places ∣ F.quanta (F.nearest n 1) := by
  rcases Nat.lt_or_ge F.places (F.shift (n * 2 ^ F.places / 1)) with hlt | hge
  · rw [quanta_nearest h]
    exact Nat.dvd_trans (Nat.pow_dvd_pow 2 (Nat.le_of_lt hlt)) (Nat.dvd_mul_left _ _)
  · have hdvd : 1 * 2 ^ F.shift (n * 2 ^ F.places / 1) ∣ n * 2 ^ F.places := by
      rw [Nat.one_mul]
      exact Nat.dvd_trans (Nat.pow_dvd_pow 2 hge) (Nat.dvd_mul_left _ _)
    have hsame := quanta_nearest_of_dvd Nat.one_pos h hdvd
    rw [Nat.one_mul] at hsame
    rw [hsame]
    exact Nat.dvd_mul_left _ _

/-- A whole number of no more bits than a significand has is shifted by what divides it. -/
theorem shift_of_le {n : Nat} (hn : n ≤ 2 ^ (F.fraction + 1)) :
    F.shift (n * 2 ^ F.places) ≤ F.places + 1 ∧
      2 ^ F.shift (n * 2 ^ F.places) ∣ n * 2 ^ F.places := by
  rcases Nat.lt_or_eq_of_le hn with hlt | rfl
  · have hshift : F.shift (n * 2 ^ F.places) ≤ F.places := by
      by_cases hzero : n * 2 ^ F.places = 0
      · simp [hzero, shift]
      · have hlog : (n * 2 ^ F.places).log2 < F.fraction + 1 + F.places := by
          rw [Nat.log2_lt hzero, Nat.pow_add]
          exact Nat.mul_lt_mul_of_pos_right hlt (Nat.two_pow_pos _)
        unfold shift
        omega
    exact ⟨Nat.le_succ_of_le hshift, Nat.dvd_trans (Nat.pow_dvd_pow 2 hshift)
      (Nat.dvd_mul_left _ _)⟩
  · have hshift : F.shift (2 ^ (F.fraction + 1) * 2 ^ F.places) = F.places + 1 := by
      rw [← Nat.pow_add, shift, Nat.log2_two_pow]
      omega
    rw [hshift, ← Nat.pow_add]
    exact ⟨Nat.le_refl _, Nat.pow_dvd_pow 2 (by omega)⟩

/-- Such a number is not changed, if the format goes as far. -/
theorem quanta_nearest_of_le (hF : F.places + 3 < 2 ^ F.exponent - 1) {n : Nat}
    (hn : n ≤ 2 ^ (F.fraction + 1)) : F.quanta (F.nearest n 1) = n * 2 ^ F.places := by
  obtain ⟨hshift, hdvd⟩ := shift_of_le hn
  have hfinite : F.nearest n 1 < F.infinity := by
    obtain ⟨-, hhigh⟩ := F.significand_bounds (n * 2 ^ F.places)
    have hcode := Nat.mul_le_mul_right (2 ^ F.fraction) hshift
    have hroom := Nat.mul_lt_mul_of_pos_right hF (Nat.two_pow_pos F.fraction)
    rw [nearest_eq, Nat.div_one, Nat.one_mul, roundHalfEven_of_dvd (Nat.two_pow_pos _) hdvd]
    refine Nat.lt_of_le_of_lt (Nat.min_le_left _ _) (Nat.lt_of_le_of_lt ?_ hroom)
    rw [Nat.pow_succ] at hhigh
    rw [Nat.add_mul] at hcode ⊢
    omega
  have hsame := quanta_nearest_of_dvd Nat.one_pos hfinite (by simpa using hdvd)
  rwa [Nat.one_mul] at hsame

/-! ### The magnitudes of a format -/

/-- Every code has a shift and a significand, with a leading one unless it is subnormal. -/
theorem exists_significand (F : Format) (code : Nat) : ∃ shift m,
    code = shift * 2 ^ F.fraction + m ∧
      (shift = 0 ∧ m < 2 ^ F.fraction ∨ 2 ^ F.fraction ≤ m ∧ m < 2 ^ (F.fraction + 1)) := by
  have hpos : 0 < 2 ^ F.fraction := Nat.two_pow_pos _
  have hparts := Nat.div_add_mod' code (2 ^ F.fraction)
  have hlt := Nat.mod_lt code hpos
  cases hfield : code / 2 ^ F.fraction with
  | zero =>
    rw [hfield] at hparts
    exact ⟨0, code, by omega, .inl ⟨rfl, by omega⟩⟩
  | succ e =>
    rw [hfield, Nat.add_mul, Nat.one_mul] at hparts
    refine ⟨e, 2 ^ F.fraction + code % 2 ^ F.fraction, by omega, .inr ⟨by omega, ?_⟩⟩
    rw [Nat.pow_succ]
    omega

/-- A quotient is shifted by as much as a magnitude with the same leading bits. -/
theorem shift_of_div {shift m q : Nat}
    (h : shift = 0 ∧ m < 2 ^ F.fraction ∨ 2 ^ F.fraction ≤ m ∧ m < 2 ^ (F.fraction + 1))
    (hq : q / 2 ^ shift = m) : F.shift q = shift := by
  rcases h with ⟨rfl, hlt⟩ | ⟨hle, hlt⟩
  · rw [Nat.pow_zero, Nat.div_one] at hq
    rw [hq, Format.shift, Nat.sub_eq_zero_iff_le]
    by_cases hm : m = 0
    · simp [hm]
    · exact Nat.le_of_lt ((Nat.log2_lt hm).mpr hlt)
  · rw [← hq, Nat.le_div_iff_mul_le (Nat.two_pow_pos _), ← Nat.pow_add] at hle
    rw [← hq, Nat.div_lt_iff_lt_mul (Nat.two_pow_pos _), ← Nat.pow_add, Nat.add_right_comm] at hlt
    have hne : q ≠ 0 := Nat.ne_of_gt (Nat.lt_of_lt_of_le (Nat.two_pow_pos _) hle)
    rw [Format.shift, (Nat.log2_eq_iff hne).mpr ⟨hle, hlt⟩, Nat.add_sub_cancel_left]

/-- What exceeds a magnitude by less than half the step to the next one is rounded to it. -/
theorem nearest_of_near {n d shift m : Nat} (h : shift * 2 ^ F.fraction + m < F.infinity)
    (hm : shift = 0 ∧ m < 2 ^ F.fraction ∨ 2 ^ F.fraction ≤ m ∧ m < 2 ^ (F.fraction + 1))
    (hlow : m * (d * 2 ^ shift) ≤ n * 2 ^ F.places)
    (hhigh : 2 * (n * 2 ^ F.places) < (2 * m + 1) * (d * 2 ^ shift)) :
    F.nearest n d = shift * 2 ^ F.fraction + m := by
  rw [nearest_eq]
  generalize n * 2 ^ F.places = q at hlow hhigh
  rw [Nat.add_mul, Nat.one_mul, Nat.mul_assoc] at hhigh
  have hquotient : q / (d * 2 ^ shift) = m :=
    Nat.div_eq_of_lt_le hlow (by rw [Nat.add_mul, Nat.one_mul]; omega)
  have hmod : q % (d * 2 ^ shift) = q - m * (d * 2 ^ shift) := by
    rw [Nat.mod_eq_sub_mul_div, hquotient, Nat.mul_comm m]
  have hround : roundHalfEven q (d * 2 ^ shift) = m := by
    rw [roundHalfEven, hquotient, hmod, if_pos (by omega)]
  rw [shift_of_div hm (by rw [Nat.div_div_eq_div_mul, hquotient]), hround]
  exact Nat.min_eq_left (Nat.le_of_lt h)

/-- What a code is worth, from its shift and its significand. -/
theorem quanta_significand {shift m : Nat}
    (h : shift = 0 ∧ m < 2 ^ F.fraction ∨ 2 ^ F.fraction ≤ m ∧ m < 2 ^ (F.fraction + 1)) :
    F.quanta (shift * 2 ^ F.fraction + m) = m * 2 ^ shift := by
  refine F.quanta_add (h.imp (·.1) (·.1)) ?_
  rcases h with ⟨-, hlt⟩ | ⟨-, hlt⟩
  · exact Nat.le_of_lt (Nat.lt_of_lt_of_le hlt (Nat.pow_le_pow_right Nat.two_pos (by omega)))
  · exact Nat.le_of_lt hlt

/-- A magnitude of the format is rounded to itself. -/
theorem nearest_quanta {code : Nat} (h : code < F.infinity) :
    F.nearest (F.quanta code) (2 ^ F.places) = code := by
  obtain ⟨shift, m, rfl, hm⟩ := F.exists_significand code
  have hpos := Nat.mul_pos (Nat.two_pow_pos F.places) (Nat.two_pow_pos shift)
  have hround : m * 2 ^ shift * 2 ^ F.places = m * (2 ^ F.places * 2 ^ shift) := by
    rw [Nat.mul_assoc, Nat.mul_comm (2 ^ shift)]
  rw [quanta_significand hm]
  refine nearest_of_near h hm (Nat.le_of_eq hround.symm) ?_
  rw [hround, Nat.add_mul, Nat.one_mul, Nat.mul_assoc]
  omega

theorem quanta_pos {code : Nat} (h : code < F.infinity) (hne : code ≠ 0) : 0 < F.quanta code := by
  refine Nat.pos_of_ne_zero fun hzero => hne ?_
  rw [← nearest_quanta h, hzero, nearest_zero]

end Format

end MemoSeq

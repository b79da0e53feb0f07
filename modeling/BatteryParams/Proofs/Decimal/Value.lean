import BatteryParams.Decimal.Numeral
import BatteryParams.Proofs.Float.Arithmetic

/-!
# The value of a numeral

A numeral spells a rational number, `Numeral.number`, and its value is the double nearest to it. A
mantissa below 2^53 and a power of ten up to 10^22 are doubles themselves, so one multiplication or
division of doubles rounds their product or quotient. Any other numeral is rounded in exact
arithmetic, apart from those far out of range. `Numeral.value?_value` is the rule for all of them,
and `Numeral.value_nearest` says that no double is nearer.
-/

namespace BatteryParams

namespace Double

open Float.Model (UnpackedFloat)
open Float.Model.Format (binary64)

variable {q : ℚ} {m : Nat} {e : Int}

/-! ### Far from the range of doubles -/

/-- Below half of the least place a number is rounded to zero. -/
theorem rounded_eq_zero (h : |q| < 2 ^ (-1075 : Int)) : rounded q = 0 := by
  have hplace : (2 : ℚ) ^ (-1074 : Int) ≤ 2 ^ lastPlace |q| :=
    zpow_le_zpow_right₀ one_le_two (le_max_right _ _)
  have hhalf : |q| / 2 ^ lastPlace |q| < (0 : Int) + 1 / 2 := by
    rw [Int.cast_zero, zero_add, div_lt_iff₀ (two_zpow_pos _)]
    calc |q| < 2 ^ (-1075 : Int) := h
      _ = 1 / 2 * 2 ^ (-1074 : Int) := by
        rw [show (-1075 : Int) = -1 + -1074 from rfl, zpow_add₀ two_ne_zero, zpow_neg_one, one_div]
      _ ≤ 1 / 2 * 2 ^ lastPlace |q| := by linarith
  have hnonpos : rounded |q| ≤ 0 := by
    rw [rounded]
    exact mul_nonpos_of_nonpos_of_nonneg (Int.cast_nonpos.mpr (nearestEven_le_of_lt hhalf))
      (two_zpow_pos _).le
  have habs := le_antisymm hnonpos (rounded_nonneg (abs_nonneg q))
  rwa [← abs_rounded, abs_eq_zero] at habs

theorem inRange?_rounded_eq_none (h : 2 ^ (1024 : Int) ≤ q) : inRange? (rounded q) = none :=
  if_neg (not_lt.mpr
    ((le_rounded_of_le (representable_two_zpow (by norm_num)) h).trans (le_abs_self _)))

theorem two_zpow_le_scaled (hm : 0 < m) (he : 0 ≤ e) : (2 : ℚ) ^ e ≤ m * 10 ^ e := by
  obtain ⟨k, rfl⟩ := Int.eq_ofNat_of_zero_le he
  rw [zpow_natCast, zpow_natCast]
  calc (2 : ℚ) ^ k ≤ 10 ^ k := pow_le_pow_left₀ (by norm_num) (by norm_num) k
    _ ≤ m * 10 ^ k := le_mul_of_one_le_left (by positivity) (by exact_mod_cast hm)

theorem scaled_lt_two_zpow (he : e ≤ 0) : (m : ℚ) * 10 ^ e < 2 ^ ((m.log2 : Int) + 1 + e) := by
  obtain ⟨k, hk⟩ := Int.eq_ofNat_of_zero_le (neg_nonneg.mpr he)
  have hpower : (10 : ℚ) ^ e ≤ 2 ^ e := by
    rw [← neg_neg e, hk, zpow_neg, zpow_neg, zpow_natCast, zpow_natCast]
    exact inv_anti₀ (by positivity) (pow_le_pow_left₀ (by norm_num) (by norm_num) k)
  have hmantissa : (m : ℚ) < 2 ^ ((m.log2 + 1 : Nat) : Int) := by
    rw [zpow_natCast]
    exact_mod_cast Nat.lt_log2_self (n := m)
  rw [← Nat.cast_succ, zpow_add₀ two_ne_zero]
  calc (m : ℚ) * 10 ^ e ≤ m * 2 ^ e := mul_le_mul_of_nonneg_left hpower (Nat.cast_nonneg m)
    _ < 2 ^ ((m.log2 + 1 : Nat) : Int) * 2 ^ e := mul_lt_mul_of_pos_right hmantissa (two_zpow_pos e)

/-! ### A mantissa and a power of ten -/

/-- A whole number of any size, as parts. -/
theorem valueOf?_whole (hm : 0 < m) : valueOf? (.finite .positive m 0 hm) = some (m : ℚ) := by
  rw [valueOf?, cast_apply, signed, zpow_zero, mul_one, Int.cast_natCast]

/-- Exact arithmetic rounds a decimal once. -/
theorem valueOf?_ofScientific (m : Nat) (e : Int) :
    valueOf? (UnpackedFloat.unpack binary64
      (UnpackedFloat.pack binary64 (UnpackedFloat.ofScientific binary64 m e))) =
      inRange? (rounded (m * 10 ^ e)) := by
  have hbits : (2 : Int) ^ binary64.exponentBits = 2048 := by decide
  rw [UnpackedFloat.ofScientific, hbits]
  split_ifs with hzero hlarge hsmall hwhole
  · rw [hzero, Nat.cast_zero, zero_mul, rounded_zero]
    exact valueOf?_zero _
  · have hscaled := two_zpow_le_scaled (Nat.pos_of_ne_zero hzero) (show 0 ≤ e by omega)
    have hrange : (2 : ℚ) ^ (1024 : Int) ≤ 2 ^ e := zpow_le_zpow_right₀ one_le_two (by omega)
    rw [inRange?_rounded_eq_none (hrange.trans hscaled)]
    rfl
  · have hplace : (2 : ℚ) ^ ((m.log2 : Int) + 1 + e) ≤ 2 ^ (-1075 : Int) :=
      zpow_le_zpow_right₀ one_le_two (by omega)
    have hpos : (0 : ℚ) ≤ m * 10 ^ e := by positivity
    have hscaled := (scaled_lt_two_zpow (m := m) (show e ≤ 0 by omega)).trans_le hplace
    rw [rounded_eq_zero (by rwa [abs_of_nonneg hpos])]
    exact valueOf?_zero _
  · obtain ⟨k, rfl⟩ := Int.eq_ofNat_of_zero_le hwhole
    have hm : 0 < m := Nat.pos_of_ne_zero hzero
    have hscaled : ((m <<< 53 * 10 ^ k : Nat) : ℚ) * 2 ^ (-53 : Int) = m * 10 ^ (k : Int) := by
      have hshift := shiftLeft_mul_zpow m 53 0
      rw [zpow_zero, mul_one] at hshift
      rw [← hshift, zpow_natCast]
      push_cast
      ring
    have hpos : (1 : ℚ) ≤ m * 10 ^ (k : Int) := by
      simpa using (one_le_zpow₀ one_le_two hwhole).trans (two_zpow_le_scaled hm hwhole)
    refine valueOf?_roundWithAccuracy (s := .positive) (one_pos.trans_le hpos) (represents_of_eq ?_)
      (le_lastPlace ?_)
    · rw [← hscaled]
      exact mul_div_cancel_right₀ _ (two_zpow_pos _).ne'
    · rw [abs_of_pos (one_pos.trans_le hpos)]
      refine le_trans ?_ hpos
      norm_num [Float.Model.Format.mantissaBits]
  · obtain ⟨k, hk⟩ := Int.eq_ofNat_of_zero_le (show 0 ≤ -e by omega)
    have hpower : (10 : ℚ) ^ e = ((10 ^ k : Nat) : ℚ)⁻¹ := by
      rw [← neg_neg e, hk, zpow_neg, zpow_natCast, Nat.cast_pow, Nat.cast_ofNat]
    rw [hpower, ← div_eq_mul_inv]
    simp only [hk, Int.toNat_natCast]
    exact valueOf?_div (valueOf?_whole _) (valueOf?_whole _) (by positivity)

/-- The doubles that are powers of ten. -/
theorem value?_powerOfTen : ∀ k : Fin 23,
    value? Float.exactlyRepresentablePowersOfTen[k] = some (10 ^ (k : Nat)) := by
  decide +kernel

/-- The double of a whole number below 2^53. -/
theorem value?_toUInt64 (hm : m < 2 ^ 53) : value? m.toUInt64.toFloat = some (m : ℚ) := by
  have hsize : m.toUInt64.toNat = m := Nat.mod_eq_of_lt (by omega)
  rw [value?_toFloat, hsize, (rounded_natCast_eq_iff hm).mpr rfl]

theorem value?_ofScientific_up (m k : Nat) :
    value? (Float.ofScientific m false k) = inRange? (rounded (m * 10 ^ k)) := by
  by_cases hexact : m < 2 ^ 53 ∧ k ≤ 22
  · rw [Float.ofScientific, dif_pos hexact]
    exact value?_mul (value?_toUInt64 hexact.1) (value?_powerOfTen ⟨k, by omega⟩)
  · rw [Float.ofScientific, dif_neg hexact, value?_eq, ← zpow_natCast]
    exact valueOf?_ofScientific m k

theorem value?_ofScientific_down (m k : Nat) :
    value? (Float.ofScientific m true k) = inRange? (rounded (m / 10 ^ k)) := by
  by_cases hexact : m < 2 ^ 53 ∧ k ≤ 22
  · rw [Float.ofScientific, dif_pos hexact]
    exact value?_div (value?_toUInt64 hexact.1) (value?_powerOfTen ⟨k, by omega⟩) (by positivity)
  · have hpower : (m : ℚ) / 10 ^ k = m * 10 ^ Int.negOfNat k := by
      rw [Int.negOfNat_eq, zpow_neg, Int.ofNat_eq_natCast, zpow_natCast, div_eq_mul_inv]
    rw [Float.ofScientific, dif_neg hexact, value?_eq, hpower]
    exact valueOf?_ofScientific m (Int.negOfNat k)

/-- A decimal is rounded once. -/
theorem value?_ofScientific (m : Nat) (e : Int) :
    value? (Float.ofScientific m (decide (e < 0)) e.natAbs) = inRange? (rounded (m * 10 ^ e)) := by
  rcases lt_or_ge e 0 with hneg | hnonneg
  · obtain ⟨k, hk⟩ := Int.eq_ofNat_of_zero_le (neg_nonneg.mpr hneg.le)
    obtain rfl : e = -k := by omega
    rw [decide_eq_true hneg, Int.natAbs_neg, Int.natAbs_natCast, value?_ofScientific_down, zpow_neg,
      zpow_natCast, div_eq_mul_inv]
  · obtain ⟨k, rfl⟩ := Int.eq_ofNat_of_zero_le hnonneg
    rw [decide_eq_false (not_lt.mpr hnonneg), Int.natAbs_natCast, value?_ofScientific_up,
      zpow_natCast]

end Double

/-! ### Numerals -/

namespace Decimal

theorem natOfDigits_append (digits more : List Char) :
    natOfDigits (digits ++ more) = natOfDigits digits * 10 ^ more.length + natOfDigits more := by
  induction more using List.reverseRecOn with
  | nil => simp [natOfDigits]
  | append_singleton more d ih =>
    have hstep (ds : List Char) :
    natOfDigits (ds ++ [d]) = 10 * natOfDigits ds + (d.toNat - '0'.toNat) := by
      rw [natOfDigits, List.foldl_append]
      rfl
    rw [← List.append_assoc, hstep, hstep, ih, List.length_append, List.length_singleton, pow_succ]
    ring

namespace Numeral

/-- The number that a numeral spells. -/
def number (n : Numeral) : ℚ :=
  (natOfDigits n.whole + natOfDigits n.fractionDigits / 10 ^ n.fractionDigits.length) *
    10 ^ n.exponent.elim 0 Exponent.value

/-- The value is the spelled number rounded once, as long as that is in range. -/
theorem value?_value (n : Numeral) :
    Double.value? n.value = Double.inRange? (Double.rounded n.number) := by
  rw [value, Double.value?_ofScientific, natOfDigits_append, number]
  congr 2
  generalize n.exponent.elim 0 Exponent.value = e
  rw [zpow_sub₀ (by norm_num), zpow_natCast]
  push_cast
  field_simp

/-- A finite value is the double nearest to the spelled number. -/
theorem value_nearest (n : Numeral) (h : n.value.isFinite = true) :
    ∃ y, Double.value? n.value = some y ∧
      ∀ w, Double.Representable w → |y - n.number| ≤ |w - n.number| := by
  obtain ⟨y, hy⟩ := Option.isSome_iff_exists.mp (Double.isSome_value?_iff.mpr h)
  have hrounded := n.value?_value
  rw [hy] at hrounded
  refine ⟨y, hy, fun w hw => ?_⟩
  rw [← Double.eq_of_inRange? hrounded.symm]
  exact Double.abs_rounded_sub_le_representable hw

end Numeral

end Decimal

end BatteryParams

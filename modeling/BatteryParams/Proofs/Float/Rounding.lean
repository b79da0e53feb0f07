import BatteryParams.Proofs.Float.Integers
import BatteryParams.Proofs.Float.Nearest

/-!
# The arithmetic of doubles rounds

An operation on doubles is exact up to one rounding: it computes a mantissa with two bits about the
digits that it drops, and these two bits are all that rounding to the nearest double needs. So sums,
differences, products and quotients of finite doubles stand for the rounded sums, differences,
products and quotients of the numbers, as long as these are in range.
-/

namespace BatteryParams.Double

open Float.Model (UnpackedFloat totalExponent)
open Float.Model.Format (binary64)
open Float.Model.UnpackedFloat (ExtendedMantissa Sign)

/-! ### Dropped digits -/

/-- What the digits after the mantissa amount to: the first of them, and whether any other is
set. -/
def Residue : Bool → Bool → ℚ → Prop
  | false, false, r => r = 0
  | false, true, r => 0 < r ∧ r < 1 / 2
  | true, false, r => r = 1 / 2
  | true, true, r => 1 / 2 < r ∧ r < 1

/-- The mantissa is the integer part of `q`, and the two bits describe the rest. -/
def Represents (em : ExtendedMantissa) (q : ℚ) : Prop :=
  Residue em.roundBit em.stickyBit (q - em.mantissa)

variable {em : ExtendedMantissa} {p q : ℚ} {s : Sign} {m : Nat} {d e : Int}
    {accuracy : UnpackedFloat.Accuracy}

theorem represents_exact (m : Nat) : Represents (.ofMantissaAndAccuracy m .exact) m :=
  sub_self (m : ℚ)

theorem Represents.bounds (h : Represents em q) : em.mantissa ≤ q ∧ q < em.mantissa + 1 := by
  obtain ⟨m, r, s⟩ := em
  cases r <;> cases s <;> simp only [Represents, Residue] at h <;> constructor <;> linarith

theorem Represents.floor (h : Represents em q) : ⌊q⌋ = em.mantissa := by
  obtain ⟨hlow, hhigh⟩ := h.bounds
  exact Int.floor_eq_iff.mpr ⟨by exact_mod_cast hlow, by exact_mod_cast hhigh⟩

theorem Represents.nearestEven (h : Represents em q) : nearestEven q = em.roundedMantissa := by
  rw [Double.nearestEven, h.floor]
  obtain ⟨m, r, s⟩ := em
  cases r <;> cases s <;> simp only [Represents, Residue] at h <;>
    simp only [ExtendedMantissa.roundedMantissa, ExtendedMantissa.accuracy,
      UnpackedFloat.Accuracy.roundToNearestEven, Int.cast_natCast]
  · rw [if_pos (by linarith)]
  · rw [if_pos h.2]
  · rw [if_neg (by linarith), if_neg (by linarith)]
    norm_num
  · rw [if_neg (by linarith), if_pos h.1]
    norm_num

theorem Represents.shiftRightOne (h : Represents em q) : Represents em.shiftRightOne (q / 2) := by
  obtain ⟨m, r, s⟩ := em
  have hdigit : (m : ℚ) = 2 * (m / 2 : Nat) + (m % 2 : Nat) := by
    exact_mod_cast (Nat.div_add_mod m 2).symm
  rcases Nat.mod_two_eq_zero_or_one m with hm | hm <;> rw [hm] at hdigit <;> push_cast at hdigit <;>
    cases r <;> cases s <;>
    simp [Represents, Residue, ExtendedMantissa.shiftRightOne, hm] at h ⊢ <;>
    first
    | linarith
    | constructor <;> linarith

/-- Shifting loses nothing that rounding needs. -/
theorem Represents.shiftRight (h : Represents em q) (k : Nat) : Represents (em >>> k)
    (q / 2 ^ k) := by
  induction k with
  | zero =>
    rw [pow_zero, div_one]
    exact h
  | succ k ih =>
    rw [pow_succ, ← div_div]
    exact ih.shiftRightOne

/-! ### Packing -/

/-- The number that unpacked parts stand for, if it is finite. -/
def valueOf? : UnpackedFloat → Option ℚ
  | .zero _ => some 0
  | .finite s m e _ => some (s.apply m * 2 ^ e)
  | _ => none

theorem value?_eq (x : Float) : value? x = valueOf? (parts x) := by
  rw [value?]
  cases parts x <;> rfl

theorem Normalized.bounds (hm : 0 < m) (h : Normalized m e) : m < 2 ^ 53 ∧ -1074 ≤ e := by
  rcases h with ⟨hlog, he⟩ | ⟨hlt, rfl⟩
  · exact ⟨((Nat.log2_eq_iff hm.ne').mp hlog).2, he⟩
  · omega

/-- Above the least place a mantissa has all of its digits. -/
theorem Normalized.two_pow_le (hm : 0 < m) (h : Normalized m e) (he : -1074 < e) : 2 ^ 52 ≤ m := by
  rcases h with ⟨hlog, -⟩ | ⟨-, hleast⟩
  · exact ((Nat.log2_eq_iff hm.ne').mp hlog).1
  · omega

theorem scaled_lt_zpow (hm : m < 2 ^ 53) (e : Int) : (m : ℚ) * 2 ^ e < 2 ^ (53 + e) := by
  rw [zpow_add₀ two_ne_zero]
  exact mul_lt_mul_of_pos_right (by exact_mod_cast hm) (two_zpow_pos e)

theorem zpow_le_scaled (hm : 2 ^ 52 ≤ m) (e : Int) : (2 : ℚ) ^ (52 + e) ≤ m * 2 ^ e := by
  rw [zpow_add₀ two_ne_zero]
  exact mul_le_mul_of_nonneg_right (by exact_mod_cast hm) (two_zpow_pos e).le

theorem unpack_pack_subnormal (hm : 0 < m) (hlt : m < 2 ^ 52) :
    UnpackedFloat.unpack binary64 (UnpackedFloat.pack binary64 (.finite s m (-1074) hm)) =
      .finite s m (-1074) hm := by
  have hlog : m.log2 < 52 := (Nat.log2_lt hm.ne').mpr hlt
  have hbiased : biased (-1074) = 1 := by decide
  have hpack : UnpackedFloat.pack binary64 (.finite s m (-1074) hm) =
      UnpackedFloat.packComponents binary64 s (BitVec.ofNat _ 0) (BitVec.ofNat _ m) := by
    rw [pack_finite, hbiased, if_neg (by omega), if_neg (by omega)]
  have hmantissa : (BitVec.ofNat binary64.mantissaBitsWithoutImplicit m).toNat = m := by
    rw [BitVec.toNat_ofNat]
    exact Nat.mod_eq_of_lt hlt
  have hlargest : BitVec.ofNat binary64.exponentBits 0 ≠ -BitVec.ofNat _ 1 := by decide
  have hne : BitVec.ofNat binary64.mantissaBitsWithoutImplicit m ≠ BitVec.ofNat _ 0 := by
    intro heq
    have hzero := congrArg BitVec.toNat heq
    rw [hmantissa, BitVec.toNat_ofNat, Nat.zero_mod] at hzero
    exact hm.ne' hzero
  rw [hpack, UnpackedFloat.unpack]
  simp only [UnpackedFloat.unpackExponent_packComponents,
    UnpackedFloat.unpackMantissa_packComponents,
    UnpackedFloat.unpackSign_packComponents, UnpackedFloat.Sign.ofBitVec_toBitVec]
  rw [if_neg hlargest, if_pos trivial, dif_neg hne]
  rw [UnpackedFloat.finite.injEq]
  exact ⟨rfl, hmantissa, by decide⟩

theorem abs_apply (s : Sign) (m : Nat) : |((s.apply m : Int) : ℚ)| = m := by
  cases s with
  | positive => exact abs_of_nonneg (Int.cast_nonneg (Int.natCast_nonneg m))
  | negative =>
    show |((-(m : Int) : Int) : ℚ)| = m
    rw [Int.cast_neg, abs_neg]
    exact abs_of_nonneg (Int.cast_nonneg (Int.natCast_nonneg m))

/-- Normalized parts keep their number when they are packed, unless it is out of range. -/
theorem valueOf?_pack (hm : 0 < m) (h : Normalized m e) :
    valueOf? (UnpackedFloat.unpack binary64 (UnpackedFloat.pack binary64 (.finite s m e hm))) =
      inRange? (s.apply m * 2 ^ e) := by
  have habs : |((s.apply m : Int) : ℚ) * 2 ^ e| = m * 2 ^ e := by
    rw [abs_mul, abs_apply, abs_of_pos (two_zpow_pos e)]
  rw [inRange?, habs]
  by_cases hlargest : e ≤ 971
  · have hbelow : (m : ℚ) * 2 ^ e < 2 ^ (1024 : ℤ) :=
      (scaled_lt_zpow (h.bounds hm).1 e).trans_le (zpow_le_zpow_right₀ one_le_two (by omega))
    rw [if_pos hbelow]
    rcases h with ⟨hlog, hleast⟩ | ⟨hsmall, rfl⟩
    · rw [unpack_pack hm hlog hleast hlargest]
      rfl
    · rw [unpack_pack_subnormal hm hsmall]
      rfl
  · have habove : (2 : ℚ) ^ (1024 : ℤ) ≤ m * 2 ^ e :=
      (zpow_le_zpow_right₀ one_le_two (by omega)).trans
        (zpow_le_scaled (h.two_pow_le hm (by omega)) e)
    have hinfinite :
    (UnpackedFloat.unpack binary64 (UnpackedFloat.pack binary64 (.finite s m e hm))).isFinite =
        false := by
      rw [← Bool.not_eq_true, isFinite_pack_iff]
      show ¬(e + ((1023 : Nat) : Int) + ((52 : Nat) : Int)).toNat + 1 < 2048
      omega
    rw [if_neg (not_lt.mpr habove)]
    generalize UnpackedFloat.unpack binary64 _ = u at *
    cases u with
    | infinity s => rfl
    | notANumber => rfl
    | zero s => cases hinfinite
    | finite s m e hm => cases hinfinite

/-! ### Rounding -/

/-- The rational number with this sign. -/
def signed : Sign → ℚ → ℚ
  | .positive, q => q
  | .negative, q => -q

theorem cast_apply (s : Sign) (k : Int) : ((s.apply k : Int) : ℚ) = signed s k := by
  cases s with
  | positive => rfl
  | negative => exact Int.cast_neg k

theorem signed_mul (s : Sign) (p q : ℚ) : signed s (p * q) = signed s p * q := by
  cases s with
  | positive => rfl
  | negative => exact (neg_mul p q).symm

theorem rounded_signed (s : Sign) (q : ℚ) : rounded (signed s q) = signed s (rounded q) := by
  cases s with
  | positive => rfl
  | negative => exact rounded_neg q

/-- The integer part tells the last place. Where there is none, the number lies below the least
place. -/
theorem targetExponent_eq_lastPlace (hq : 0 < q) (hem : Represents em (q / 2 ^ e))
    (h : 0 < em.mantissa ∨ e ≤ lastPlace q) :
    binary64.targetExponent (totalExponent em.mantissa e) = lastPlace q := by
  obtain ⟨hlow, hhigh⟩ := hem.bounds
  rw [le_div_iff₀ (two_zpow_pos e)] at hlow
  rw [div_lt_iff₀ (two_zpow_pos e)] at hhigh
  generalize em.mantissa = m at *
  rw [targetExponent_eq]
  rcases Nat.eq_zero_or_pos m with rfl | hm
  · have he := h.resolve_left (lt_irrefl 0)
    have hsmall : Int.log 2 |q| < e := by
      rw [abs_of_pos hq]
      exact (Int.lt_zpow_iff_log_lt (by norm_num) hq).mp (by simpa using hhigh)
    rw [lastPlace] at he ⊢
    rw [Nat.log2_zero]
    omega
  · rw [lastPlace_eq (k := m.log2 + e)]
    · rw [abs_of_pos hq, zpow_add₀ two_ne_zero, zpow_natCast]
      refine (mul_le_mul_of_nonneg_right ?_ (two_zpow_pos e).le).trans hlow
      exact_mod_cast Nat.log2_self_le hm.ne'
    · rw [abs_of_pos hq, add_right_comm, zpow_add₀ two_ne_zero]
      refine hhigh.trans_le (mul_le_mul_of_nonneg_right ?_ (two_zpow_pos e).le)
      exact_mod_cast Nat.lt_log2_self (n := m)

theorem mantissa_ofMantissaAndAccuracy (m : Nat) (accuracy : UnpackedFloat.Accuracy) :
    (ExtendedMantissa.ofMantissaAndAccuracy m accuracy).mantissa = m := by
  rcases accuracy with _ | o
  · rfl
  · cases o <;> rfl

/-- The first shift drops the digits after the last place. -/
theorem exists_shiftToTargetExponent (hq : 0 < q)
    (hem : Represents (.ofMantissaAndAccuracy m accuracy) (q / 2 ^ e)) (he : e ≤ lastPlace q) :
    ∃ em, Represents em (q / 2 ^ lastPlace q) ∧
      UnpackedFloat.shiftToTargetExponent binary64 m e accuracy = (em, lastPlace q) := by
  have htarget := targetExponent_eq_lastPlace hq hem (.inr he)
  rw [mantissa_ofMantissaAndAccuracy] at htarget
  obtain ⟨k, hk⟩ := Int.eq_ofNat_of_zero_le (sub_nonneg.mpr he)
  have hplace : lastPlace q = e + k := by omega
  refine ⟨ExtendedMantissa.ofMantissaAndAccuracy m accuracy >>> k, ?_, ?_⟩
  · rw [hplace, zpow_add₀ two_ne_zero, ← div_div, zpow_natCast]
    exact hem.shiftRight k
  · rw [UnpackedFloat.shiftToTargetExponent, htarget]
    simp only [UnpackedFloat.shiftToExponent, hk, Int.toNat_natCast]
    rw [hplace]

/-- A mantissa that fits is not shifted again. -/
theorem shiftToTargetExponent_of_fits (hm : m < 2 ^ 53) (he : -1074 ≤ e) :
    UnpackedFloat.shiftToTargetExponent binary64 m e .exact = (⟨m, false, false⟩, e) := by
  have hlog := log2_le hm
  have hamount : (binary64.targetExponent (totalExponent m e) - e).toNat = 0 := by
    rw [targetExponent_eq]
    omega
  simp only [UnpackedFloat.shiftToTargetExponent, UnpackedFloat.shiftToExponent, hamount,
    Nat.cast_zero, Int.add_zero]
  rfl

/-- A carry out of all digits moves the mantissa by one place. -/
theorem shiftToTargetExponent_of_carry (he : -1074 ≤ e) :
    UnpackedFloat.shiftToTargetExponent binary64 (2 ^ 53) e .exact =
      (⟨2 ^ 52, false, false⟩, e + 1) := by
  have hamount : (binary64.targetExponent (totalExponent (2 ^ 53) e) - e).toNat = 1 := by
    rw [targetExponent_eq, Nat.log2_two_pow]
    omega
  simp only [UnpackedFloat.shiftToTargetExponent, UnpackedFloat.shiftToExponent, hamount]
  rfl

theorem valueOf?_zero (s : Sign) :
    valueOf? (UnpackedFloat.unpack binary64 (UnpackedFloat.pack binary64 (.zero s))) =
      inRange? 0 := by
  have hzero : inRange? 0 = some 0 := by rw [inRange?, abs_zero, if_pos (two_zpow_pos _)]
  rw [hzero]
  cases s <;> rfl

/-- The second shift, which takes care of a carry, keeps the number. -/
theorem valueOf?_pack_rounded {r : Nat} (hle : r ≤ 2 ^ 53) (he : -1074 ≤ e)
    (hnormal : -1074 < e → 2 ^ 52 ≤ r)
    (hshift : UnpackedFloat.shiftToTargetExponent binary64 m d accuracy = (em, e))
    (hr : em.roundedMantissa = r) : valueOf? (UnpackedFloat.unpack binary64
      (UnpackedFloat.pack binary64 (UnpackedFloat.roundWithAccuracy binary64 s m d accuracy))) =
      inRange? (signed s r * 2 ^ e) := by
  simp only [UnpackedFloat.roundWithAccuracy, hshift, hr]
  rcases hle.lt_or_eq with hlt | rfl
  · simp only [shiftToTargetExponent_of_fits hlt he]
    by_cases hzero : r = 0
    · subst hzero
      rw [dif_pos rfl, valueOf?_zero]
      cases s <;> simp [signed]
    · rw [dif_neg hzero, valueOf?_pack, cast_apply, Int.cast_natCast]
      by_cases hdigits : 2 ^ 52 ≤ r
      · exact .inl ⟨(Nat.log2_eq_iff hzero).mpr ⟨hdigits, hlt⟩, he⟩
      · exact .inr ⟨by omega, le_antisymm (not_lt.mp (mt hnormal hdigits)) he⟩
  · simp only [shiftToTargetExponent_of_carry he]
    rw [dif_neg (by norm_num), valueOf?_pack, cast_apply, zpow_add_one₀ two_ne_zero]
    · congr 1
      cases s <;> simp only [signed] <;> push_cast <;> ring
    · exact .inl ⟨Nat.log2_two_pow, by omega⟩

/-- What is rounded and packed stands for the nearest double. -/
theorem valueOf?_roundWithAccuracy (hq : 0 < q)
    (hem : Represents (.ofMantissaAndAccuracy m accuracy) (q / 2 ^ e)) (he : e ≤ lastPlace q) :
    valueOf? (UnpackedFloat.unpack binary64
      (UnpackedFloat.pack binary64 (UnpackedFloat.roundWithAccuracy binary64 s m e accuracy))) =
      inRange? (rounded (signed s q)) := by
  obtain ⟨em, hem, hshift⟩ := exists_shiftToTargetExponent hq hem he
  have hnearest := hem.nearestEven
  rw [rounded_signed, rounded, hnearest, signed_mul, Int.cast_natCast]
  refine valueOf?_pack_rounded ?_ (le_max_right _ _) ?_ hshift rfl
  · have hscaled : q / 2 ^ lastPlace q ≤ ((2 ^ 53 : ℤ) : ℚ) := by
      have hlt := abs_lt_of_lastPlace q
      rw [abs_of_pos hq, zpow_add₀ two_ne_zero] at hlt
      rw [div_le_iff₀ (two_zpow_pos _)]
      exact_mod_cast hlt.le
    have := nearestEven_le hscaled
    omega
  · intro hplace
    have hscaled : ((2 ^ 52 : ℤ) : ℚ) ≤ q / 2 ^ lastPlace q := by
      have hlow := le_abs_of_lastPlace hq.ne' hplace
      rw [abs_of_pos hq, zpow_add₀ two_ne_zero] at hlow
      rw [le_div_iff₀ (two_zpow_pos _)]
      exact_mod_cast hlow
    have := le_nearestEven hscaled
    omega

end BatteryParams.Double

import BatteryParams.Proofs.Float.Finite

/-!
# Doubles that are integers

A finite double stands for a rational number, a mantissa times a power of two. An integer below 2^53
keeps its digits in a double, and truncating the double gives the integer back, so a double that
stands for one of these integers is equal to the double of its truncation. An integer of 64 bits may
be rounded, but its double is finite.
-/

namespace BatteryParams.Double

open Float.Model (UnpackedFloat totalExponent)
open Float.Model.Format (binary64)
open Float.Model.UnpackedFloat (ExtendedMantissa)

variable {x : Float}

/-- The number that a double stands for, if it is finite. -/
def value? (x : Float) : Option ℚ :=
  match parts x with
  | .zero _ => some 0
  | .finite s m e _ => some (s.apply m * 2 ^ e)
  | _ => none

theorem isSome_value?_iff : (value? x).isSome = true ↔ x.isFinite = true := by
  show (value? x).isSome = true ↔ (parts x).isFinite = true
  rw [value?]
  cases parts x <;> simp [UnpackedFloat.isFinite]

/-! ### Rounding integers -/

theorem mantissa_shiftRight (em : ExtendedMantissa) (k : Nat) :
    (em >>> k).mantissa = em.mantissa / 2 ^ k := by
  induction k with
  | zero => exact (Nat.div_one _).symm
  | succ k ih =>
    show (em >>> k).mantissa / 2 = _
    rw [ih, Nat.div_div_eq_div_mul, Nat.pow_succ]

theorem roundedMantissa_le (em : ExtendedMantissa) : em.roundedMantissa ≤ em.mantissa + 1 := by
  obtain ⟨m, r, s⟩ := em
  cases r <;> cases s <;>
    simp only [ExtendedMantissa.roundedMantissa, ExtendedMantissa.accuracy,
      UnpackedFloat.Accuracy.roundToNearestEven] <;>
    omega

theorem log2_le {m k : Nat} (h : m < 2 ^ (k + 1)) : m.log2 ≤ k := by
  by_cases hm : m = 0
  · simp [hm]
  · exact Nat.lt_succ_iff.mp ((Nat.log2_lt hm).mpr h)

theorem targetExponent_eq (m : Nat) (e : Int) :
    binary64.targetExponent (totalExponent m e) = max (m.log2 + e - 52) (-1074) := by
  have hmin : binary64.minExponent = -1074 := by decide
  simp only [Float.Model.Format.targetExponent, totalExponent, hmin,
    Float.Model.Format.mantissaBits]
  omega

/-- A mantissa with all of its digits, or with the least exponent, is not rounded. -/
theorem roundWithAccuracy_of_fits {s : UnpackedFloat.Sign} {m : Nat} {e : Int} (hm : 0 < m)
    (he : binary64.targetExponent (totalExponent m e) = e) :
    UnpackedFloat.roundWithAccuracy binary64 s m e .exact = .finite s m e hm := by
  have hshift : UnpackedFloat.shiftToTargetExponent binary64 m e .exact =
      (ExtendedMantissa.ofMantissaAndAccuracy m .exact, e) := by
    simp only [UnpackedFloat.shiftToTargetExponent, he, UnpackedFloat.shiftToExponent, Int.sub_self,
      Int.toNat_zero, Nat.cast_zero, Int.add_zero]
    rfl
  have hrounded : (ExtendedMantissa.ofMantissaAndAccuracy m .exact).roundedMantissa = m := rfl
  simp only [UnpackedFloat.roundWithAccuracy, hshift, hrounded]
  exact dif_neg hm.ne'

theorem ofNat_eq_round {n : Nat} (hn : 0 < n) :
    UnpackedFloat.ofNat binary64 n = UnpackedFloat.round binary64 .positive n 0 := by
  have hcompare : compare (n : Int) 0 = .gt := Int.compare_eq_gt.mpr (by omega)
  simp only [UnpackedFloat.ofNat, UnpackedFloat.ofInt, UnpackedFloat.normalize, hcompare,
    Int.toNat_natCast]

theorem log2_shiftLeft {n k : Nat} (hn : 0 < n) : (n <<< k).log2 = n.log2 + k := by
  have hpos : 0 < n * 2 ^ k := Nat.mul_pos hn (Nat.two_pow_pos k)
  rw [Nat.shiftLeft_eq, Nat.log2_eq_iff hpos.ne', Nat.pow_add, Nat.add_right_comm, Nat.pow_add]
  exact ⟨Nat.mul_le_mul_right _ (Nat.log2_self_le hn.ne'),
    Nat.mul_lt_mul_of_pos_right Nat.lt_log2_self (Nat.two_pow_pos k)⟩

/-- An integer below 2^53 keeps its digits. -/
theorem ofNat_eq {n : Nat} (hn : 0 < n) (hlt : n < 2 ^ 53) (hpos : 0 < n <<< (52 - n.log2)) :
    UnpackedFloat.ofNat binary64 n =
      .finite .positive (n <<< (52 - n.log2)) (n.log2 - 52) hpos := by
  have hlog := log2_le hlt
  have htarget : binary64.targetExponent (totalExponent n 0) = n.log2 - 52 := by
    rw [targetExponent_eq]
    omega
  have hamount : (0 - ((n.log2 : Int) - 52)).toNat = 52 - n.log2 := by omega
  have hexponent : (0 : Int) - (52 - n.log2 : Nat) = n.log2 - 52 := by omega
  rw [ofNat_eq_round hn, UnpackedFloat.round]
  simp only [htarget, UnpackedFloat.decreaseExponent, hamount, hexponent]
  refine roundWithAccuracy_of_fits hpos ?_
  rw [targetExponent_eq, log2_shiftLeft hn]
  omega

/-- An integer of 64 bits does not leave the range of doubles, even if rounding carries. -/
theorem inRange_roundWithAccuracy {s : UnpackedFloat.Sign} {m : Nat} {e : Int} (hm : m < 2 ^ 64)
    (he : e ≤ 0) : InRange (UnpackedFloat.roundWithAccuracy binary64 s m e .exact) := by
  have hshift (m : Nat) (e : Int) : (UnpackedFloat.shiftToTargetExponent binary64 m e .exact).2 =
      e + (max (m.log2 + e - 52) (-1074) - e).toNat := by
    rw [← targetExponent_eq]
    rfl
  have hmantissa : (UnpackedFloat.shiftToTargetExponent binary64 m e .exact).1.mantissa ≤ m := by
    refine (mantissa_shiftRight (.ofMantissaAndAccuracy m .exact) _).le.trans ?_
    exact Nat.div_le_self _ _
  have hrounded : (UnpackedFloat.shiftToTargetExponent binary64 m e .exact).1.roundedMantissa <
      2 ^ 65 := by
    have := roundedMantissa_le (UnpackedFloat.shiftToTargetExponent binary64 m e .exact).1
    omega
  have hlog := log2_le hm
  have hroundedLog := log2_le hrounded
  have hfirst := hshift m e
  have hsecond := hshift (UnpackedFloat.shiftToTargetExponent binary64 m e .exact).1.roundedMantissa
    (UnpackedFloat.shiftToTargetExponent binary64 m e .exact).2
  rw [UnpackedFloat.roundWithAccuracy]
  dsimp only
  split
  · exact trivial
  · show (_ + ((1023 : Nat) : Int) + ((52 : Nat) : Int)).toNat + 1 < 2048
    rw [hsecond]
    omega

/-! ### Integers as doubles -/

theorem isFinite_toFloat (n : UInt64) : n.toFloat.isFinite = true := by
  refine isFinite_pack_iff.mpr ?_
  show InRange (UnpackedFloat.ofNat binary64 n.toNat)
  rcases Nat.eq_zero_or_pos n.toNat with hzero | hpos
  · rw [hzero]
    exact trivial
  by_cases hlt : n.toNat < 2 ^ 53
  · have hlog := log2_le hlt
    rw [ofNat_eq hpos hlt (by rw [Nat.shiftLeft_eq]; positivity)]
    show (_ + ((1023 : Nat) : Int) + ((52 : Nat) : Int)).toNat + 1 < 2048
    omega
  · have hlog : 53 ≤ n.toNat.log2 := (Nat.le_log2 hpos.ne').mpr (Nat.not_lt.mp hlt)
    have htarget : binary64.targetExponent (totalExponent n.toNat 0) = n.toNat.log2 - 52 := by
      rw [targetExponent_eq]
      omega
    have hamount : (0 - ((n.toNat.log2 : Int) - 52)).toNat = 0 := by omega
    rw [ofNat_eq_round hpos, UnpackedFloat.round]
    simp only [htarget, UnpackedFloat.decreaseExponent, hamount, Nat.shiftLeft_zero]
    exact inRange_roundWithAccuracy n.toNat_lt (by simp)

/-- A mantissa of 53 bits and an exponent in range are kept when they are packed. -/
theorem unpack_pack {s : UnpackedFloat.Sign} {m : Nat} {e : Int} (hm : 0 < m) (hlog : m.log2 = 52)
    (hleast : -1074 ≤ e) (hlargest : e ≤ 971) :
    UnpackedFloat.unpack binary64 (UnpackedFloat.pack binary64 (.finite s m e hm)) =
      .finite s m e hm := by
  obtain ⟨hlow, hhigh⟩ := (Nat.log2_eq_iff hm.ne').mp hlog
  have hbiased : biased e = (e + 1075).toNat := by
    show (e + ((1023 : Nat) : Int) + ((52 : Nat) : Int)).toNat = _
    omega
  have hpack : UnpackedFloat.pack binary64 (.finite s m e hm) =
      UnpackedFloat.packComponents binary64 s (BitVec.ofNat _ (biased e)) (BitVec.ofNat _ m) := by
    rw [pack_finite, if_neg (by omega), if_pos (by omega)]
  have hexponent : (BitVec.ofNat binary64.exponentBits (biased e)).toNat = biased e := by
    rw [BitVec.toNat_ofNat]
    exact Nat.mod_eq_of_lt (show biased e < 2 ^ 11 by omega)
  have hlargest : BitVec.ofNat binary64.exponentBits (biased e) ≠ -BitVec.ofNat _ 1 :=
    ofNat_ne_largest (show biased e + 1 < 2 ^ 11 by omega)
  have hsmallest : BitVec.ofNat binary64.exponentBits (biased e) ≠ BitVec.ofNat _ 0 := by
    intro heq
    have hzero := congrArg BitVec.toNat heq
    rw [hexponent] at hzero
    simp only [BitVec.toNat_ofNat, Nat.zero_mod] at hzero
    omega
  have hmantissa : ((1#1 : BitVec 1) ++ BitVec.ofNat 52 m).toNat = m := by
    rw [BitVec.toNat_append, ← Nat.shiftLeft_add_eq_or_of_lt (BitVec.ofNat 52 m).isLt,
      BitVec.toNat_ofNat, BitVec.toNat_ofNat, Nat.shiftLeft_eq]
    omega
  rw [hpack, UnpackedFloat.unpack]
  simp only [UnpackedFloat.unpackExponent_packComponents,
    UnpackedFloat.unpackMantissa_packComponents,
    UnpackedFloat.unpackSign_packComponents, UnpackedFloat.Sign.ofBitVec_toBitVec]
  rw [if_neg hlargest, if_neg hsmallest]
  rw [UnpackedFloat.finite.injEq]
  refine ⟨rfl, hmantissa, ?_⟩
  show (((BitVec.ofNat binary64.exponentBits (biased e)).toNat : Nat) : Int) -
    (((1023 : Nat) : Int) + ((52 : Nat) : Int)) = e
  rw [hexponent]
  omega

theorem pos_shiftLeft {n k : Nat} (hn : 0 < n) : 0 < n <<< k := by
  rw [Nat.shiftLeft_eq]
  positivity

theorem parts_toFloat {n : UInt64} (hpos : 0 < n.toNat) (hlt : n.toNat < 2 ^ 53) :
    parts n.toFloat =
      .finite .positive (n.toNat <<< (52 - n.toNat.log2)) (n.toNat.log2 - 52)
        (pos_shiftLeft hpos) := by
  have hlog := log2_le hlt
  show UnpackedFloat.unpack binary64
    (UnpackedFloat.pack binary64 (UnpackedFloat.ofNat binary64 n.toNat)) = _
  rw [ofNat_eq hpos hlt (pos_shiftLeft hpos)]
  refine unpack_pack (pos_shiftLeft hpos) ?_ (by omega) (by omega)
  rw [log2_shiftLeft hpos]
  omega

/-! ### Doubles that are integers -/

/-- A mantissa with all of its digits, or with the least exponent. -/
def Normalized (m : Nat) (e : Int) : Prop := m.log2 = 52 ∧ -1074 ≤ e ∨ m < 2 ^ 52 ∧ e = -1074

theorem normalized_of_parts {s : UnpackedFloat.Sign} {m : Nat} {e : Int} {hm : 0 < m}
    (h : parts x = .finite s m e hm) : Normalized m e := by
  have hunpack : UnpackedFloat.unpack binary64 x.toModel.toBits.toBitVec = .finite s m e hm := h
  rw [UnpackedFloat.unpack] at hunpack
  dsimp only at hunpack
  split at hunpack
  · split at hunpack <;> cases hunpack
  · split at hunpack
    · next hsmallest =>
      split at hunpack
      · cases hunpack
      · rw [UnpackedFloat.finite.injEq] at hunpack
        obtain ⟨-, hmantissa, hexponent⟩ := hunpack
        refine .inr ⟨hmantissa ▸ BitVec.isLt _, ?_⟩
        rw [← hexponent, hsmallest]
        decide
    · next hnormal =>
      rw [UnpackedFloat.finite.injEq] at hunpack
      obtain ⟨-, hmantissa, hexponent⟩ := hunpack
      generalize UnpackedFloat.unpackMantissa _ = low at hmantissa
      generalize UnpackedFloat.unpackExponent _ = field at hnormal hexponent
      have hlt : low.toNat < 2 ^ 52 := low.isLt
      rw [BitVec.toNat_append, ← Nat.shiftLeft_add_eq_or_of_lt low.isLt, BitVec.toNat_ofNat,
        Nat.shiftLeft_eq] at hmantissa
      have hsum : (1 % 2 ^ 1) * 2 ^ 52 + low.toNat = m := hmantissa
      have hpos : field.toNat ≠ 0 := fun hzero => hnormal (BitVec.eq_of_toNat_eq hzero)
      have hplace : (field.toNat : Int) - 1075 = e := hexponent
      exact .inl ⟨(Nat.log2_eq_iff hm.ne').mpr (by omega), by omega⟩

theorem scaled_eq_iff {m n : Nat} {e : Int} :
    (m : ℚ) * 2 ^ e = n ↔ m * 2 ^ e.toNat = n * 2 ^ (-e).toNat := by
  rcases Int.le_total 0 e with he | he
  · obtain ⟨k, rfl⟩ := Int.eq_ofNat_of_zero_le he
    have hnegative : (-(k : Int)).toNat = 0 := by omega
    rw [hnegative, Int.toNat_natCast, zpow_natCast, Nat.pow_zero, Nat.mul_one]
    exact_mod_cast Iff.rfl
  · obtain ⟨k, hk⟩ := Int.eq_ofNat_of_zero_le (Int.neg_nonneg.mpr he)
    obtain rfl : e = -(k : Int) := by omega
    have hnegative : (-(k : Int)).toNat = 0 := by omega
    rw [hnegative, neg_neg, Int.toNat_natCast, zpow_neg, zpow_natCast, Nat.pow_zero, Nat.mul_one,
      mul_inv_eq_iff_eq_mul₀ (by positivity)]
    exact_mod_cast Iff.rfl

theorem toNat_ofNatClamp {n : Nat} (h : n < 2 ^ 64) : (UInt64.ofNatClamp n).toNat = n := by
  have hsize : n < UInt64.size := h
  rw [UInt64.ofNatClamp, dif_pos hsize, UInt64.toNat_ofNatLT]

theorem roundToInt_eq (s : UnpackedFloat.Sign) (m : Nat) (e : Int) :
    UnpackedFloat.roundToInt s m e = s.apply ((m * 2 ^ e.toNat / 2 ^ (-e).toNat : Nat) : Int) := by
  have hshift : (0 - (e - (e - 0).toNat)).toNat = (-e).toNat := by omega
  simp only [UnpackedFloat.roundToInt, UnpackedFloat.decreaseExponent,
    UnpackedFloat.shiftToExponent, hshift, mantissa_shiftRight]
  rw [Int.sub_zero, ← Nat.shiftLeft_eq]
  rfl

/-- The parts of a double that stands for a positive integer. -/
theorem parts_of_value? {n : Nat} (h : value? x = some (n : ℚ)) (hpos : 0 < n) :
    ∃ m e hm, parts x = .finite .positive m e hm ∧ m * 2 ^ e.toNat = n * 2 ^ (-e).toNat := by
  rw [value?] at h
  split at h
  · have hzero : (0 : ℚ) = n := Option.some.inj h
    exact absurd (by exact_mod_cast hzero) hpos.ne
  · next s m e hm hparts =>
    have hvalue : ((s.apply m : Int) : ℚ) * 2 ^ e = n := Option.some.inj h
    cases s with
    | positive => exact ⟨m, e, hm, hparts, scaled_eq_iff.mp (by exact_mod_cast hvalue)⟩
    | negative =>
      have hscaled : (0 : ℚ) < (m : ℚ) * 2 ^ e := by positivity
      have hn : (0 : ℚ) < n := by exact_mod_cast hpos
      rw [← hvalue] at hn
      have hsign : ((UnpackedFloat.Sign.negative.apply (m : Int) : Int) : ℚ) = -(m : ℚ) := by
        simp [UnpackedFloat.Sign.apply]
      rw [hsign] at hn
      linarith
  · cases h

theorem eq_of_parts_eq {a b : Float} (h : parts a = parts b) : a = b := by
  obtain ⟨⟨bits, hvalid⟩⟩ := a
  obtain ⟨⟨bits', hvalid'⟩⟩ := b
  have hbits := UInt64.eq_of_toBitVec_eq ((UnpackedFloat.unpack_inj_of_valid hvalid hvalid').mp h)
  subst hbits
  rfl

/-- An integer below 2^53 that a double stands for is its truncation. -/
theorem toUInt64_of_value? {n : Nat} (h : value? x = some (n : ℚ)) (hpos : 0 < n)
    (hlt : n < 2 ^ 53) : x.toUInt64.toNat = n ∧ x.toUInt64.toFloat = x := by
  obtain ⟨m, e, hm, hparts, hscaled⟩ := parts_of_value? h hpos
  have htruncated : x.toUInt64.toNat = n := by
    show (UInt64.ofNatClamp (UnpackedFloat.toInt 0 _ (parts x)).toNat).toNat = n
    rw [hparts, UnpackedFloat.toInt, roundToInt_eq, hscaled,
      Nat.mul_div_cancel _ (Nat.two_pow_pos _)]
    exact toNat_ofNatClamp (show n < 2 ^ 64 by omega)
  refine ⟨htruncated, eq_of_parts_eq ?_⟩
  have hpos' : 0 < x.toUInt64.toNat := htruncated ▸ hpos
  have hlt' : x.toUInt64.toNat < 2 ^ 53 := htruncated ▸ hlt
  rw [parts_toFloat hpos' hlt', hparts, UnpackedFloat.finite.injEq, htruncated]
  -- the integer has as many digits as the mantissa, so the exponent says how far it is shifted
  have hdigits : m.log2 + e.toNat = n.log2 + (-e).toNat := by
    rw [← log2_shiftLeft hm, ← log2_shiftLeft hpos, Nat.shiftLeft_eq, Nat.shiftLeft_eq, hscaled]
  have hlog := log2_le hlt
  rcases normalized_of_parts hparts with ⟨hnormal, -⟩ | ⟨hsmall, rfl⟩
  · have hup : e.toNat = 0 := by omega
    have hdown : (-e).toNat = 52 - n.log2 := by omega
    rw [hup, hdown, Nat.pow_zero, Nat.mul_one, ← Nat.shiftLeft_eq] at hscaled
    exact ⟨rfl, hscaled.symm, by omega⟩
  · have hmantissa := log2_le (k := 51) hsmall
    omega

end BatteryParams.Double

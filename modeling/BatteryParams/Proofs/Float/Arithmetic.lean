import BatteryParams.Proofs.Float.Rounding

/-!
# Sums, products and quotients of doubles

The sum of two finite doubles stands for the rounded sum of their numbers, if that is in range, and
is infinite otherwise. Differences, products and quotients do the same, and the order of finite
doubles is that of their numbers.
-/

namespace BatteryParams.Double

open Float.Model (UnpackedFloat totalExponent)
open Float.Model.Format (binary64)
open Float.Model.UnpackedFloat (ExtendedMantissa Sign)

variable {a b x : Float} {u v : UnpackedFloat} {p q : ℚ} {s : Sign} {m : Nat} {d e : Int}

/-! ### The parts of a double -/

/-- Finite parts are normalized and in range. -/
def Canonical : UnpackedFloat → Prop
  | .finite _ m e _ => Normalized m e ∧ e ≤ 971
  | _ => True

theorem canonical_parts (x : Float) : Canonical (parts x) := by
  cases hparts : parts x with
  | infinity s => exact trivial
  | notANumber => exact trivial
  | zero s => exact trivial
  | finite s m e hm =>
    have hrange : InRange (parts x) := by
      refine inRange_unpack (isFinite_unpack_iff.mp ?_)
      show (parts x).isFinite = true
      rw [hparts]
      rfl
    rw [hparts] at hrange
    have hlargest : (e + ((1023 : Nat) : Int) + ((52 : Nat) : Int)).toNat + 1 < 2048 := hrange
    exact ⟨normalized_of_parts hparts, by omega⟩

theorem representable_of_canonical (hu : Canonical u) (hp : valueOf? u = some p) :
    Representable p ∧ |p| ≤ largest := by
  cases u with
  | infinity s => cases hp
  | notANumber => cases hp
  | zero s =>
    cases hp
    exact ⟨representable_zero, by rw [abs_zero]; exact largest_pos.le⟩
  | finite s m e hm =>
    obtain ⟨hnormalized, hlargest⟩ := hu
    obtain ⟨hlt, hleast⟩ := hnormalized.bounds hm
    cases hp
    refine ⟨⟨s.apply m, e, ?_, hleast, rfl⟩, ?_⟩
    · have habs := abs_apply s m
      rw [← Int.cast_abs] at habs
      have : |s.apply (m : Int)| = m := by exact_mod_cast habs
      omega
    · have hdigits : (m : ℚ) ≤ 2 ^ 53 - 1 := by
        have hle : m + 1 ≤ 2 ^ 53 := hlt
        have hle' : (m : ℚ) + 1 ≤ 2 ^ 53 := by exact_mod_cast hle
        linarith
      rw [abs_mul, abs_apply, abs_of_pos (two_zpow_pos e)]
      calc (m : ℚ) * 2 ^ e
        _ ≤ (2 ^ 53 - 1) * 2 ^ e := mul_le_mul_of_nonneg_right hdigits (two_zpow_pos e).le
        _ ≤ (2 ^ 53 - 1) * 2 ^ (971 : ℤ) :=
            mul_le_mul_of_nonneg_left (zpow_le_zpow_right₀ one_le_two hlargest) (by norm_num)
        _ = largest := by
            rw [two_zpow_eq_place, largest]
            ring

/-- The number of a finite double is not rounded. -/
theorem inRange?_rounded (hu : Canonical u) (hp : valueOf? u = some p) :
    inRange? (rounded p) = some p := by
  obtain ⟨hrepresentable, hbound⟩ := representable_of_canonical hu hp
  rw [rounded_of_representable hrepresentable, inRange?, if_pos (hbound.trans_lt largest_lt)]

theorem valueOf?_pack_canonical (hu : Canonical u) (hp : valueOf? u = some p) :
    valueOf? (UnpackedFloat.unpack binary64 (UnpackedFloat.pack binary64 u)) = some p := by
  have hrange := inRange?_rounded hu hp
  rw [rounded_of_representable (representable_of_canonical hu hp).1] at hrange
  cases u with
  | infinity s => cases hp
  | notANumber => cases hp
  | zero s =>
    cases hp
    exact (valueOf?_zero s).trans hrange
  | finite s m e hm =>
    rw [valueOf?_pack hm hu.1]
    cases hp
    exact hrange

/-! ### Rounding an exact result -/

theorem le_lastPlace (h : 2 ^ (52 + e) ≤ |q|) : e ≤ lastPlace q := by
  have hpos : 0 < |q| := (two_zpow_pos _).trans_le h
  have hlog : 52 + e ≤ Int.log 2 |q| :=
    (Int.zpow_le_iff_le_log (by norm_num) hpos).mp (by exact_mod_cast h)
  rw [lastPlace]
  omega

theorem represents_of_eq (h : q / 2 ^ e = m) : Represents (.ofMantissaAndAccuracy m .exact)
    (q / 2 ^ e) :=
  h ▸ represents_exact m

/-- Digits that are appended do not change the number. -/
theorem shiftLeft_mul_zpow (m k : Nat) (e : Int) :
    ((m <<< k : Nat) : ℚ) * 2 ^ (e - k) = m * 2 ^ e := by
  rw [Nat.shiftLeft_eq, zpow_sub₀ two_ne_zero, zpow_natCast]
  push_cast
  field_simp

theorem valueOf?_round (hm : 0 < m) :
    valueOf? (UnpackedFloat.unpack binary64
      (UnpackedFloat.pack binary64 (UnpackedFloat.round binary64 s m e))) =
      inRange? (rounded (signed s (m * 2 ^ e))) := by
  have hpos : (0 : ℚ) < m * 2 ^ e := mul_pos (by exact_mod_cast hm) (two_zpow_pos e)
  have hplace : binary64.targetExponent (totalExponent m e) = lastPlace (m * 2 ^ e) :=
    targetExponent_eq_lastPlace hpos
      (represents_of_eq (mul_div_cancel_right₀ _ (two_zpow_pos e).ne')) (.inl hm)
  simp only [UnpackedFloat.round, UnpackedFloat.decreaseExponent, hplace]
  generalize hk : (e - lastPlace (m * 2 ^ e)).toNat = k
  refine valueOf?_roundWithAccuracy hpos (represents_of_eq ?_) (by omega)
  rw [← shiftLeft_mul_zpow m k e, mul_div_cancel_right₀ _ (two_zpow_pos _).ne']

theorem valueOf?_normalize (k e : Int) :
    valueOf? (UnpackedFloat.unpack binary64
      (UnpackedFloat.pack binary64 (UnpackedFloat.normalize binary64 k e s))) =
        inRange? (rounded (k * 2 ^ e)) := by
  rw [UnpackedFloat.normalize]
  rcases lt_trichotomy k 0 with hneg | rfl | hpos
  · have habs : ((((-k).toNat : Nat) : Int) : ℚ) = -k := by
      rw [Int.toNat_of_nonneg (by omega), Int.cast_neg]
    rw [Int.compare_eq_lt.mpr hneg]
    show valueOf? (UnpackedFloat.unpack binary64
      (UnpackedFloat.pack binary64 (UnpackedFloat.round binary64 .negative (-k).toNat e))) = _
    rw [valueOf?_round (by omega), signed, ← Int.cast_natCast, habs, neg_mul, neg_neg]
  · have hcompare : compare (0 : Int) 0 = .eq := by decide
    rw [hcompare, Int.cast_zero, zero_mul, rounded_zero]
    exact valueOf?_zero s
  · have habs : (((k.toNat : Nat) : Int) : ℚ) = k := by
      rw [Int.toNat_of_nonneg hpos.le]
    rw [Int.compare_eq_gt.mpr hpos]
    show valueOf? (UnpackedFloat.unpack binary64
      (UnpackedFloat.pack binary64 (UnpackedFloat.round binary64 .positive k.toNat e))) = _
    rw [valueOf?_round (by omega), signed, ← Int.cast_natCast, habs]

/-! ### Sums -/

theorem cast_decreaseExponent (s : Sign) (m : Nat) {d e : Int} (h : d ≤ e) :
    ((s.apply (UnpackedFloat.decreaseExponent m e d).1 : Int) : ℚ) * 2 ^ d = s.apply m * 2 ^ e := by
  obtain ⟨k, hk⟩ := Int.eq_ofNat_of_zero_le (sub_nonneg.mpr h)
  obtain rfl : d = e - k := by omega
  rw [cast_apply, cast_apply, Int.cast_natCast, Int.cast_natCast, ← signed_mul, ← signed_mul]
  simp only [UnpackedFloat.decreaseExponent, hk, Int.toNat_natCast]
  rw [shiftLeft_mul_zpow]

theorem valueOf?_add (hu : Canonical u) (hv : Canonical v) (hp : valueOf? u = some p)
    (hq : valueOf? v = some q) :
    valueOf? (UnpackedFloat.unpack binary64
      (UnpackedFloat.pack binary64 (UnpackedFloat.add binary64 u v))) =
      inRange? (rounded (p + q)) := by
  rcases u with _ | _ | s | ⟨s, m, e, hm⟩
  · cases hp
  · cases hp
  · rcases v with _ | _ | s' | ⟨s', m', e', hm'⟩
    · cases hq
    · cases hq
    · cases hp
      cases hq
      rw [add_zero, rounded_zero, UnpackedFloat.add]
      split <;> exact valueOf?_zero _
    · cases hp
      rw [zero_add, inRange?_rounded hv hq]
      exact valueOf?_pack_canonical hv hq
  · rcases v with _ | _ | s' | ⟨s', m', e', hm'⟩
    · cases hq
    · cases hq
    · cases hq
      rw [add_zero, inRange?_rounded hu hp]
      exact valueOf?_pack_canonical hu hp
    · cases hp
      cases hq
      rw [← cast_decreaseExponent s m (min_le_left e e'),
        ← cast_decreaseExponent s' m' (min_le_right e e'), ← add_mul,
        ← Int.cast_add, ← valueOf?_normalize (s := .positive)]
      rfl

theorem sub_eq_add (u v : UnpackedFloat) :
    UnpackedFloat.sub binary64 u v = UnpackedFloat.add binary64 u v.neg := by
  rcases u with s | _ | s | ⟨s, m, e, hm⟩ <;> rcases v with s' | _ | s' | ⟨s', m', e', hm'⟩ <;>
    try rfl
  have hsign (j k : Int) : j - s'.apply k = j + (-s').apply k := by
    cases s' with
    | positive => exact Int.sub_eq_add_neg
    | negative => exact Int.sub_neg _ _
  exact congrArg (UnpackedFloat.normalize binary64 · (min e e') .positive) (hsign _ _)

theorem canonical_neg (hu : Canonical u) : Canonical u.neg := by
  cases u with
  | finite s m e hm => exact hu
  | _ => exact trivial

theorem valueOf?_neg (u : UnpackedFloat) : valueOf? u.neg = (valueOf? u).map (-·) := by
  rcases u with _ | _ | s | ⟨s, m, e, hm⟩
  · rfl
  · rfl
  · exact congrArg some neg_zero.symm
  · refine congrArg some ?_
    show (((-s).apply m : Int) : ℚ) * 2 ^ e = -(((s.apply m : Int) : ℚ) * 2 ^ e)
    rw [← neg_mul, ← Int.cast_neg]
    cases s with
    | positive => rfl
    | negative => rw [Sign.apply, neg_neg]; rfl

/-! ### Products -/

theorem signed_mul_signed (s s' : Sign) (p q : ℚ) : signed s p * signed s' q = signed (s * s')
    (p * q) := by
  cases s <;> cases s' <;> show _ = _ <;> simp only [signed] <;> ring

theorem Normalized.le_lastPlace_mul {m' : Nat} {e' : Int} (hm : 0 < m) (hm' : 0 < m')
    (h : Normalized m e)
    (h' : Normalized m' e') : e + e' ≤ lastPlace ((m * m' : Nat) * 2 ^ (e + e')) := by
  have hlarge (hdigits : 2 ^ 52 ≤ m * m') : e + e' ≤ lastPlace ((m * m' : Nat) * 2 ^ (e + e')) := by
    refine le_lastPlace ?_
    rw [abs_of_nonneg (by positivity)]
    exact zpow_le_scaled hdigits (e + e')
  by_cases he : -1074 < e
  · exact hlarge ((h.two_pow_le hm he).trans (Nat.le_mul_of_pos_right m hm'))
  by_cases he' : -1074 < e'
  · exact hlarge ((h'.two_pow_le hm' he').trans (Nat.le_mul_of_pos_left m' hm))
  · have hleast : -1074 ≤ lastPlace ((m * m' : Nat) * 2 ^ (e + e')) := le_max_right _ _
    omega

theorem valueOf?_mul (hu : Canonical u) (hv : Canonical v) (hp : valueOf? u = some p)
    (hq : valueOf? v = some q) :
    valueOf? (UnpackedFloat.unpack binary64
      (UnpackedFloat.pack binary64 (UnpackedFloat.mul binary64 u v))) =
      inRange? (rounded (p * q)) := by
  rcases u with _ | _ | s | ⟨s, m, e, hm⟩
  · cases hp
  · cases hp
  · cases hp
    rw [zero_mul, rounded_zero]
    rcases v with _ | _ | s' | ⟨s', m', e', hm'⟩
    · cases hq
    · cases hq
    · exact valueOf?_zero _
    · exact valueOf?_zero _
  · rcases v with _ | _ | s' | ⟨s', m', e', hm'⟩
    · cases hq
    · cases hq
    · cases hq
      rw [mul_zero, rounded_zero]
      exact valueOf?_zero _
    · cases hp
      cases hq
      have hproduct : ((s.apply m : Int) : ℚ) * 2 ^ e * ((s'.apply m' : Int) * 2 ^ e') =
          signed (s * s') ((m * m' : Nat) * 2 ^ (e + e')) := by
        rw [cast_apply, cast_apply, Int.cast_natCast, Int.cast_natCast, mul_mul_mul_comm,
          ← zpow_add₀ two_ne_zero, signed_mul_signed, ← signed_mul, Nat.cast_mul]
      have hpos : (0 : ℚ) < (m * m' : Nat) * 2 ^ (e + e') :=
        mul_pos (by exact_mod_cast Nat.mul_pos hm hm') (two_zpow_pos _)
      rw [hproduct]
      refine valueOf?_roundWithAccuracy hpos (represents_of_eq ?_)
        (hu.1.le_lastPlace_mul hm hm' hv.1)
      exact mul_div_cancel_right₀ _ (two_zpow_pos _).ne'

/-! ### Quotients -/

theorem signed_div_signed (s s' : Sign) (p q : ℚ) : signed s p / signed s' q = signed (s / s')
    (p / q) := by
  cases s with
  | positive =>
    cases s' with
    | positive => rfl
    | negative => exact div_neg p
  | negative =>
    cases s' with
    | positive => exact neg_div q p
    | negative => exact neg_div_neg_eq p q

/-- The remainder of a division is all that the rounding bits need to know. -/
theorem represents_div (m : Nat) {n : Nat} (hn : 0 < n) :
    Represents (.ofMantissaAndAccuracy (m / n) (UnpackedFloat.accuracyOfFraction (m % n) n))
      ((m : ℚ) / n) := by
  have hn' : (0 : ℚ) < n := by exact_mod_cast hn
  have hrest : (m : ℚ) / n - (m / n : Nat) = (m % n : Nat) / n := by
    rw [sub_eq_iff_eq_add, div_add' _ _ _ hn'.ne', div_left_inj' hn'.ne']
    exact_mod_cast (Nat.mod_add_div' m n).symm
  have hlt : m % n < n := Nat.mod_lt m hn
  rw [Represents, mantissa_ofMantissaAndAccuracy, hrest, UnpackedFloat.accuracyOfFraction]
  generalize m % n = r at *
  have hlt' : (r : ℚ) < n := by exact_mod_cast hlt
  by_cases hzero : r = 0
  · rw [if_pos hzero, hzero, Nat.cast_zero, zero_div]
    exact rfl
  rw [if_neg hzero]
  have hpos : (0 : ℚ) < r := by exact_mod_cast Nat.pos_of_ne_zero hzero
  rcases hcompare : compare (2 * r) n with _ | _ | _
  · have hhalf : 2 * (r : ℚ) < n := by exact_mod_cast Nat.compare_eq_lt.mp hcompare
    exact ⟨div_pos hpos hn', (div_lt_iff₀ hn').mpr (by linarith)⟩
  · have hhalf : 2 * (r : ℚ) = n := by exact_mod_cast Nat.compare_eq_eq.mp hcompare
    exact (div_eq_iff hn'.ne').mpr (by linarith)
  · have hhalf : (n : ℚ) < 2 * r := by exact_mod_cast Nat.compare_eq_gt.mp hcompare
    exact ⟨(lt_div_iff₀ hn').mpr (by linarith), (div_lt_one hn').mpr hlt'⟩

/-- The quotient has enough digits for its last place. -/
theorem divisionExponent_le_lastPlace {m' : Nat} {e' : Int} (hm : 0 < m) (hm' : 0 < m') :
    binary64.targetExponent (totalExponent m e - totalExponent m' e') ≤
      lastPlace ((m : ℚ) / m' * 2 ^ (e - e')) := by
  have hn : (0 : ℚ) < m' := by exact_mod_cast hm'
  have hlow : (2 : ℚ) ^ ((m.log2 : Int) - (m'.log2 + 1)) ≤ m / m' := by
    have hnumerator : (2 : ℚ) ^ (m.log2 : Int) ≤ m := by exact_mod_cast Nat.log2_self_le hm.ne'
    have hdenominator : (m' : ℚ) ≤ 2 ^ ((m'.log2 + 1 : Nat) : Int) := by
      rw [zpow_natCast]
      exact_mod_cast (Nat.lt_log2_self (n := m')).le
    rw [← Nat.cast_succ, zpow_sub₀ two_ne_zero]
    exact div_le_div₀ (Nat.cast_nonneg m) hnumerator hn hdenominator
  have hplace : m.log2 + e - (m'.log2 + e') - 53 ≤ lastPlace ((m : ℚ) / m' * 2 ^ (e - e')) := by
    refine le_lastPlace ?_
    rw [abs_of_nonneg (by positivity)]
    have hscaled := mul_le_mul_of_nonneg_right hlow (two_zpow_pos (e - e')).le
    rw [← zpow_add₀ two_ne_zero] at hscaled
    refine (zpow_le_zpow_right₀ one_le_two ?_).trans hscaled
    omega
  have hleast : -1074 ≤ lastPlace ((m : ℚ) / m' * 2 ^ (e - e')) := le_max_right _ _
  have hmin : binary64.minExponent = -1074 := by decide
  simp only [Float.Model.Format.targetExponent, totalExponent, hmin,
    Float.Model.Format.mantissaBits]
  omega

theorem valueOf?_div (hp : valueOf? u = some p) (hq : valueOf? v = some q) (hne : q ≠ 0) :
    valueOf? (UnpackedFloat.unpack binary64
      (UnpackedFloat.pack binary64 (UnpackedFloat.div binary64 u v))) =
      inRange? (rounded (p / q)) := by
  rcases v with _ | _ | s' | ⟨s', m', e', hm'⟩
  · cases hq
  · cases hq
  · cases hq
    exact absurd rfl hne
  rcases u with _ | _ | s | ⟨s, m, e, hm⟩
  · cases hp
  · cases hp
  · cases hp
    rw [zero_div, rounded_zero]
    exact valueOf?_zero _
  · cases hp
    cases hq
    have hn : (0 : ℚ) < m' := by exact_mod_cast hm'
    have hquotient : ((s.apply m : Int) : ℚ) * 2 ^ e / ((s'.apply m' : Int) * 2 ^ e') =
        signed (s / s') ((m : ℚ) / m' * 2 ^ (e - e')) := by
      rw [cast_apply, cast_apply, Int.cast_natCast, Int.cast_natCast, mul_div_mul_comm,
        ← zpow_sub₀ two_ne_zero, signed_div_signed, ← signed_mul]
    have hpos : (0 : ℚ) < (m : ℚ) / m' * 2 ^ (e - e') :=
      mul_pos (div_pos (by exact_mod_cast hm) hn) (two_zpow_pos _)
    rw [hquotient]
    simp only [UnpackedFloat.div, UnpackedFloat.divCore]
    generalize hd :
      min (e - e') (binary64.targetExponent (totalExponent m e - totalExponent m' e')) = d
    refine valueOf?_roundWithAccuracy hpos ?_ ?_
    · obtain ⟨k, hk⟩ := Int.eq_ofNat_of_zero_le (sub_nonneg.mpr (show d ≤ e - e' by omega))
      have hshifted : (m : ℚ) / m' * 2 ^ (e - e') / 2 ^ d = ((m <<< k : Nat) : ℚ) / m' := by
        rw [mul_div_assoc, ← zpow_sub₀ two_ne_zero, hk, zpow_natCast, Nat.shiftLeft_eq]
        push_cast
        ring
      rw [hshifted, hk, Int.toNat_natCast]
      exact represents_div _ hm'
    · rw [← hd]
      exact (min_le_right _ _).trans (divisionExponent_le_lastPlace hm hm')

/-! ### Operations on doubles -/

theorem value?_add (ha : value? a = some p) (hb : value? b = some q) :
    value? (a + b) = inRange? (rounded (p + q)) := by
  rw [value?_eq] at *
  exact valueOf?_add (canonical_parts a) (canonical_parts b) ha hb

theorem value?_sub (ha : value? a = some p) (hb : value? b = some q) :
    value? (a - b) = inRange? (rounded (p - q)) := by
  rw [value?_eq] at *
  show valueOf? (UnpackedFloat.unpack binary64
    (UnpackedFloat.pack binary64 (UnpackedFloat.sub binary64 (parts a) (parts b)))) = _
  rw [sub_eq_add, sub_eq_add_neg]
  refine valueOf?_add (canonical_parts a) (canonical_neg (canonical_parts b)) ha ?_
  rw [valueOf?_neg, hb]
  rfl

theorem value?_mul (ha : value? a = some p) (hb : value? b = some q) :
    value? (a * b) = inRange? (rounded (p * q)) := by
  rw [value?_eq] at *
  exact valueOf?_mul (canonical_parts a) (canonical_parts b) ha hb

theorem value?_div (ha : value? a = some p) (hb : value? b = some q) (hq : q ≠ 0) :
    value? (a / b) = inRange? (rounded (p / q)) := by
  rw [value?_eq] at *
  exact valueOf?_div ha hb hq

theorem value?_neg (ha : value? a = some p) : value? (-a) = some (-p) := by
  rw [value?_eq] at *
  refine valueOf?_pack_canonical (canonical_neg (canonical_parts a)) ?_
  show valueOf? (parts a).neg = some (-p)
  rw [valueOf?_neg, ha]
  rfl

/-- An integer of 64 bits becomes the double nearest to it. -/
theorem value?_toFloat (n : UInt64) : value? n.toFloat = some (rounded n.toNat) := by
  have hround : value? n.toFloat = inRange? (rounded n.toNat) := by
    rw [value?_eq]
    show valueOf? (UnpackedFloat.unpack binary64
      (UnpackedFloat.pack binary64 (UnpackedFloat.normalize binary64 n.toNat 0 .positive))) = _
    rw [valueOf?_normalize, zpow_zero, mul_one, Int.cast_natCast]
  have hfinite := isSome_value?_iff.mpr (isFinite_toFloat n)
  rw [hround] at hfinite ⊢
  obtain ⟨p, hp⟩ := Option.isSome_iff_exists.mp hfinite
  rw [hp, eq_of_inRange? hp]

/-- An integer below 2^53 is kept, and none above becomes one below. -/
theorem rounded_natCast_eq_iff {n k : Nat} (hk : k < 2 ^ 53) : rounded n = k ↔ n = k := by
  have hrepresentable (l : Nat) (hl : l ≤ 2 ^ 53) : Representable l := by
    have h : Representable (((l : Int) : ℚ) * 2 ^ (0 : Int)) :=
      representable_of_le (by rw [Nat.abs_cast]; omega) (by norm_num)
    rwa [zpow_zero, mul_one, Int.cast_natCast] at h
  rcases Nat.le_total n (2 ^ 53) with hle | hge
  · rw [rounded_of_representable (hrepresentable n hle), Nat.cast_inj]
  · have hrounded : ((2 ^ 53 : Nat) : ℚ) ≤ rounded n :=
      le_rounded_of_le (hrepresentable _ le_rfl) (Nat.cast_le.mpr hge)
    refine iff_of_false (fun heq => ?_) (by omega)
    rw [heq, Nat.cast_le] at hrounded
    omega

theorem representable_of_value? (h : value? x = some p) : Representable p ∧ |p| ≤ largest := by
  rw [value?_eq] at h
  exact representable_of_canonical (canonical_parts x) h

/-! ### The order -/

theorem Normalized.scaled_lt {m' : Nat} {e' : Int} (hm : 0 < m) (hm' : 0 < m') (h : Normalized m e)
    (h' : Normalized m' e') (hlt : e < e') : (m : ℚ) * 2 ^ e < m' * 2 ^ e' := by
  obtain ⟨hsmall, hleast⟩ := h.bounds hm
  calc (m : ℚ) * 2 ^ e < 2 ^ (53 + e) := scaled_lt_zpow hsmall e
    _ ≤ 2 ^ (52 + e') := zpow_le_zpow_right₀ one_le_two (by omega)
    _ ≤ m' * 2 ^ e' := zpow_le_scaled (h'.two_pow_le hm' (by omega)) e'

/-- Positive numbers are ordered by their exponents, then by their mantissas. -/
theorem Normalized.scaled_lt_iff {m' : Nat} {e' : Int} (hm : 0 < m) (hm' : 0 < m')
    (h : Normalized m e)
    (h' : Normalized m' e') : (m : ℚ) * 2 ^ e < m' * 2 ^ e' ↔ e < e' ∨ e = e' ∧ m < m' := by
  rcases lt_trichotomy e e' with hlt | rfl | hgt
  · exact iff_of_true (h.scaled_lt hm hm' h' hlt) (.inl hlt)
  · rw [mul_lt_mul_iff_left₀ (two_zpow_pos e), Nat.cast_lt]
    simp
  · refine iff_of_false (h'.scaled_lt hm' hm h hgt).not_gt ?_
    omega

theorem below_iff (hu : Canonical u) (hv : Canonical v) (hp : valueOf? u = some p)
    (hq : valueOf? v = some q) : Below (rank u) (rank v) ↔ p < q := by
  have hscaled {m : Nat} (hm : 0 < m) (e : Int) : (0 : ℚ) < m * 2 ^ e :=
    mul_pos (by exact_mod_cast hm) (two_zpow_pos e)
  have hneg (m : Nat) (e : Int) : ((Sign.negative.apply m : Int) : ℚ) * 2 ^ e = -(m * 2 ^ e) := by
    rw [cast_apply, Int.cast_natCast]
    exact neg_mul _ _
  have hpos (m : Nat) (e : Int) : ((Sign.positive.apply m : Int) : ℚ) * 2 ^ e = m * 2 ^ e := by
    rw [cast_apply, Int.cast_natCast]
    rfl
  rcases u with _ | _ | s | ⟨s, m, e, hm⟩
  · cases hp
  · cases hp
  · rcases v with _ | _ | s' | ⟨s', m', e', hm'⟩ <;> cases hp <;> cases hq
    · simp [Below, rank]
    · have := hscaled hm' e'
      cases s' with
      | positive => simpa [Below, rank, hpos] using this
      | negative => simpa [Below, rank, hneg] using this.le
  · rcases v with _ | _ | s' | ⟨s', m', e', hm'⟩ <;> cases hp <;> cases hq
    · have := hscaled hm e
      cases s with
      | positive => simpa [Below, rank, hpos] using this.le
      | negative => simpa [Below, rank, hneg] using this
    · have hlow := hscaled hm e
      have hhigh := hscaled hm' e'
      cases s with
      | positive =>
        cases s' with
        | positive =>
          rw [hpos, hpos, hu.1.scaled_lt_iff hm hm' hv.1]
          simp [Below, rank]
        | negative =>
          rw [hpos, hneg]
          refine iff_of_false (by simp [Below, rank]) (by linarith)
      | negative =>
        cases s' with
        | positive =>
          rw [hneg, hpos]
          refine iff_of_true (by simp [Below, rank]) (by linarith)
        | negative =>
          rw [hneg, hneg, neg_lt_neg_iff, hv.1.scaled_lt_iff hm' hm hu.1]
          show (-1 : Int) < -1 ∨ (-1 : Int) = -1 ∧
            (-e < -e' ∨ -e = -e' ∧ -(m : Int) < -(m' : Int)) ↔ _
          omega

theorem lt_iff_value? (ha : value? a = some p) (hb : value? b = some q) : a < b ↔ p < q := by
  have hu := canonical_parts a
  have hv := canonical_parts b
  rw [value?_eq] at ha hb
  have hne {u : UnpackedFloat} {r : ℚ} (h : valueOf? u = some r) : u ≠ .notANumber := by
    rintro rfl
    cases h
  rw [lt_iff, compare_eq_lt_iff (hne ha) (hne hb)]
  exact below_iff hu hv ha hb

theorem isNumber_of_value? (h : value? x = some p) : IsNumber x := by
  rw [value?_eq] at h
  intro hparts
  rw [hparts] at h
  cases h

theorem le_iff_value? (ha : value? a = some p) (hb : value? b = some q) : a ≤ b ↔ p ≤ q := by
  rw [← not_lt_iff (isNumber_of_value? hb) (isNumber_of_value? ha), lt_iff_value? hb ha, not_lt]

end BatteryParams.Double

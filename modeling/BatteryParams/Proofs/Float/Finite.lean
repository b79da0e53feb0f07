import BatteryParams.Proofs.Float.Order
import Mathlib

/-!
# Finite doubles

A double is finite if it is a number and not infinite. The packed form says so by its exponent: only
the largest one stands for an infinity or for no number. So the negation of a finite double is
finite, a quotient by zero is not, and neither is the square root of a negative double.
-/

namespace BatteryParams.Double

open Float.Model (UnpackedFloat)
open Float.Model.Format (binary64)

variable {a b x : Float}

theorem isFinite_iff : x.isFinite = true ↔ x.isNaN = false ∧ x.isInf = false := by
  show (parts x).isFinite = true ↔ (parts x).isNaN = false ∧ (parts x).isInf = false
  cases parts x with
  | infinity s => simp [UnpackedFloat.isFinite, UnpackedFloat.isInf]
  | notANumber => simp [UnpackedFloat.isFinite, UnpackedFloat.isNaN]
  | zero s => simp [UnpackedFloat.isFinite, UnpackedFloat.isNaN, UnpackedFloat.isInf]
  | finite s m e hm => simp [UnpackedFloat.isFinite, UnpackedFloat.isNaN, UnpackedFloat.isInf]

/-! ### Exponents in range -/

/-- The exponent with which a mantissa is packed. -/
def biased (e : Int) : Nat :=
  (e + binary64.exponentBias + binary64.mantissaBitsWithoutImplicit).toNat

/-- A zero, or a finite number whose exponent lies below the largest one. -/
def InRange : UnpackedFloat → Prop
  | .zero _ => True
  | .finite _ _ e _ => biased e + 1 < 2 ^ binary64.exponentBits
  | _ => False

theorem biased_sub (n : Nat) :
    biased (n - (binary64.exponentBias + binary64.mantissaBitsWithoutImplicit)) = n := by
  simp only [biased]
  omega

theorem isFinite_of_inRange {u : UnpackedFloat} (h : InRange u) : u.isFinite = true := by
  cases u with
  | infinity s => exact h.elim
  | notANumber => exact h.elim
  | zero s => rfl
  | finite s m e hm => rfl

theorem toNat_lt_of_ne_largest {n : Nat} {exponent : BitVec n} (h : exponent ≠ -BitVec.ofNat _ 1) :
    exponent.toNat + 1 < 2 ^ n := by
  have hlt := exponent.isLt
  have hne : exponent.toNat ≠ 2 ^ n - 1 := by
    intro heq
    apply h
    rw [BitVec.neg_one_eq_allOnes]
    apply BitVec.eq_of_toNat_eq
    rw [BitVec.toNat_allOnes, heq]
  omega

theorem ofNat_ne_largest {n k : Nat} (h : k + 1 < 2 ^ n) :
    BitVec.ofNat n k ≠ -BitVec.ofNat n 1 := by
  intro heq
  have hnat := congrArg BitVec.toNat heq
  rw [BitVec.neg_one_eq_allOnes, BitVec.toNat_allOnes, BitVec.toNat_ofNat,
    Nat.mod_eq_of_lt (by omega)] at hnat
  omega

theorem inRange_unpack {word : BitVec binary64.numBits}
    (h : UnpackedFloat.unpackExponent word ≠ -BitVec.ofNat _ 1) :
    InRange (UnpackedFloat.unpack binary64 word) := by
  have hlt := toNat_lt_of_ne_largest h
  unfold UnpackedFloat.unpack
  dsimp only
  rw [if_neg h]
  by_cases hsmallest : UnpackedFloat.unpackExponent word = BitVec.ofNat _ 0
  · rw [if_pos hsmallest]
    by_cases hmantissa : UnpackedFloat.unpackMantissa word = BitVec.ofNat _ 0
    · rw [dif_pos hmantissa]
      exact trivial
    · rw [dif_neg hmantissa]
      show biased _ + 1 < _
      rw [hsmallest]
      decide
  · rw [if_neg hsmallest]
    show biased _ + 1 < 2 ^ binary64.exponentBits
    rw [biased_sub]
    exact hlt

theorem not_isFinite_unpack {word : BitVec binary64.numBits}
    (h : UnpackedFloat.unpackExponent word = -BitVec.ofNat _ 1) :
    (UnpackedFloat.unpack binary64 word).isFinite = false := by
  unfold UnpackedFloat.unpack
  dsimp only
  rw [if_pos h]
  by_cases hmantissa : UnpackedFloat.unpackMantissa word = BitVec.ofNat _ 0
  · rw [if_pos hmantissa]
    rfl
  · rw [if_neg hmantissa]
    rfl

theorem isFinite_unpack_iff {word : BitVec binary64.numBits} :
    (UnpackedFloat.unpack binary64 word).isFinite = true ↔
      UnpackedFloat.unpackExponent word ≠ -BitVec.ofNat _ 1 := by
  constructor
  · intro hfinite hlargest
    rw [not_isFinite_unpack hlargest] at hfinite
    cases hfinite
  · intro hne
    exact isFinite_of_inRange (inRange_unpack hne)

theorem pack_finite {s : UnpackedFloat.Sign} {m : Nat} {e : Int} (hm : 0 < m) :
    UnpackedFloat.pack binary64 (.finite s m e hm) =
      if 2 ^ 11 ≤ biased e + 1 then UnpackedFloat.packedInfinity binary64 s
      else if m.log2 + 1 = 53 then
        UnpackedFloat.packComponents binary64 s (BitVec.ofNat _ (biased e)) (BitVec.ofNat _ m)
      else UnpackedFloat.packComponents binary64 s (BitVec.ofNat _ 0) (BitVec.ofNat _ m) := rfl

/-- What is packed is finite exactly if its exponent is in range. -/
theorem isFinite_pack_iff {u : UnpackedFloat} :
    (UnpackedFloat.unpack binary64 (UnpackedFloat.pack binary64 u)).isFinite = true ↔
      InRange u := by
  rw [isFinite_unpack_iff]
  have hzero : BitVec.ofNat binary64.exponentBits 0 ≠ -BitVec.ofNat _ 1 := by decide
  cases u with
  | notANumber => simp [UnpackedFloat.pack, UnpackedFloat.packedNaN, InRange]
  | infinity s => simp [UnpackedFloat.pack, UnpackedFloat.packedInfinity, InRange]
  | zero s => simp [UnpackedFloat.pack, UnpackedFloat.packedZero, InRange]
  | finite s m e hm =>
    show _ ↔ biased e + 1 < 2 ^ 11
    rw [pack_finite]
    by_cases hoverflow : 2 ^ 11 ≤ biased e + 1
    · rw [if_pos hoverflow, UnpackedFloat.packedInfinity,
        UnpackedFloat.unpackExponent_packComponents]
      exact iff_of_false (fun hne => hne rfl) (by omega)
    · rw [if_neg hoverflow]
      refine iff_of_true ?_ (by omega)
      split
      · rw [UnpackedFloat.unpackExponent_packComponents]
        exact ofNat_ne_largest (show biased e + 1 < 2 ^ 11 by omega)
      · rw [UnpackedFloat.unpackExponent_packComponents]
        exact hzero

/-! ### Operations -/

theorem isFinite_neg (ha : a.isFinite = true) : (-a).isFinite = true := by
  have hrange : InRange (parts a) := inRange_unpack (isFinite_unpack_iff.mp ha)
  apply isFinite_pack_iff.mpr
  show InRange (parts a).neg
  cases hparts : parts a with
  | infinity s => rwa [hparts] at hrange
  | notANumber => rwa [hparts] at hrange
  | zero s => rwa [hparts] at hrange
  | finite s m e hm => rwa [hparts] at hrange

theorem parts_of_beq_zero (h : (b == 0.0) = true) : ∃ s, parts b = .zero s := by
  have hzero : parts 0.0 = .zero .positive := by rfl
  have hcompare : ((parts b).compare (parts 0.0) == some .eq) = true := h
  rw [hzero] at hcompare
  cases hb : parts b with
  | zero s => exact ⟨s, rfl⟩
  | infinity s =>
    rw [hb] at hcompare
    cases s <;> cases hcompare
  | notANumber =>
    rw [hb] at hcompare
    cases hcompare
  | finite s m e hm =>
    rw [hb] at hcompare
    cases s <;> cases hcompare

theorem not_isFinite_div (hb : (b == 0.0) = true) : (a / b).isFinite = false := by
  obtain ⟨s, hs⟩ := parts_of_beq_zero hb
  rw [← Bool.not_eq_true]
  intro hfinite
  have hrange : InRange (UnpackedFloat.div binary64 (parts a) (parts b)) :=
    isFinite_pack_iff.mp hfinite
  rw [hs] at hrange
  cases hparts : parts a with
  | infinity s' => rwa [hparts] at hrange
  | notANumber => rwa [hparts] at hrange
  | zero s' => rwa [hparts] at hrange
  | finite s' m e hm => rwa [hparts] at hrange

theorem not_isFinite_sqrt (ha : a < 0.0) : a.sqrt.isFinite = false := by
  have hzero : parts 0.0 = .zero .positive := by rfl
  rw [lt_iff, hzero] at ha
  rw [← Bool.not_eq_true]
  intro hfinite
  have hrange : InRange (UnpackedFloat.sqrt binary64 (parts a)) := isFinite_pack_iff.mp hfinite
  cases hparts : parts a with
  | infinity s =>
    rw [hparts] at ha hrange
    cases s with
    | positive => cases ha
    | negative => exact hrange
  | notANumber =>
    rw [hparts] at hrange
    exact hrange
  | zero s =>
    rw [hparts] at ha
    cases ha
  | finite s m e hm =>
    rw [hparts] at ha hrange
    cases s with
    | positive => cases ha
    | negative => exact hrange

end BatteryParams.Double

import BatteryParams.Proofs.Float.Arithmetic
import BatteryParams.Proofs.Json.Doubles

/-!
# What readers ask of a tree

Readers ask a tree for its kind, its members, its text, and its numbers as doubles or as a count.
The doubles of the tree answer all of this. Only a count needs an argument: it has a rule of its own
for every form of a number, and these agree with each other because a count is small. No integer
from 2^53 on is rounded to a double below, so a number is the count `c` exactly if its double stands
for `c`.
-/

namespace BatteryParams.Json

/-! ### Counts -/

theorem toNat_toUInt32 {n : UInt64} (h : n ≤ 4294967295) : n.toUInt32.toNat = n.toNat := by
  rw [← UInt32.toNat_toUInt64, toUInt64_toUInt32 h]

theorem beq_self_of_value? {x : Float} {q : ℚ} (h : Double.value? x = some q) :
    (x == x) = true := by
  have hfinite : x.isFinite = true := Double.isSome_value?_iff.mp (by rw [h]; rfl)
  have hnan : x ≠ Float.nan := by
    rintro rfl
    exact absurd hfinite (by decide)
  exact Float.beq_iff_ne_nan_and_eq.mpr ⟨hnan, hnan, .inl rfl⟩

/-- A count is what a number's double stands for, in whatever form the number is spelled. -/
theorem Number.toCount?_eq_some_iff {n : Number} {c : UInt32} :
    n.toCount? = some c ↔ 0 < c ∧ Double.value? n.toFloat = some (c.toNat : ℚ) := by
  have hlt : c.toNat < 2 ^ 53 := c.toNat_lt.trans (by norm_num)
  cases n with
  | natural n =>
    rw [toFloat, Double.value?_toFloat, Option.some_inj, Double.rounded_natCast_eq_iff hlt]
    simp only [toCount?, UInt64.lt_iff_toNat_lt, UInt64.le_iff_toNat_le, UInt32.lt_iff_toNat_lt]
    constructor
    · intro h
      split at h
      · next hn =>
        cases h
        rw [toNat_toUInt32 (UInt64.le_iff_toNat_le.mpr hn.2)]
        exact ⟨hn.1, rfl⟩
      · cases h
    · rintro ⟨hpos, heq⟩
      have hn : n.toNat ≤ 4294967295 := heq ▸ Nat.le_of_lt_succ c.toNat_lt
      rw [if_pos ⟨heq ▸ hpos, hn⟩, Option.some_inj]
      exact UInt32.toNat_inj.mp ((toNat_toUInt32 (UInt64.le_iff_toNat_le.mpr hn)).trans heq)
  | negative m =>
    refine iff_of_false (by simp [toCount?]) ?_
    rintro ⟨hpos, hvalue⟩
    rw [toFloat, Double.value?_neg (Double.value?_toFloat m), Option.some_inj] at hvalue
    have hm : 0 ≤ Double.rounded m.toNat := Double.rounded_nonneg (Nat.cast_nonneg _)
    have hc : (0 : ℚ) < c.toNat := Nat.cast_pos.mpr (UInt32.lt_iff_toNat_lt.mp hpos)
    linarith
  | float x =>
    simp only [toCount?, toFloat]
    constructor
    · intro h
      split at h
      · next hx =>
        obtain ⟨heq, hpos, hle⟩ := hx
        cases h
        have hvalue := Double.value?_toFloat x.toUInt64
        have hsmall : x.toUInt64.toUInt32.toNat = x.toUInt64.toNat := toNat_toUInt32 hle
        rw [toFloat_toUInt64 heq hpos,
          (Double.rounded_natCast_eq_iff hlt).mpr hsmall.symm] at hvalue
        refine ⟨UInt32.lt_iff_toNat_lt.mpr ?_, hvalue⟩
        rw [hsmall]
        exact UInt64.lt_iff_toNat_lt.mp hpos
      · cases h
    · rintro ⟨hpos, hvalue⟩
      obtain ⟨hk, heq⟩ := Double.toUInt64_of_value? hvalue (UInt32.lt_iff_toNat_lt.mp hpos) hlt
      have hle : x.toUInt64 ≤ 4294967295 := by
        rw [UInt64.le_iff_toNat_le, hk]
        exact Nat.le_of_lt_succ c.toNat_lt
      have hpos' : 0 < x.toUInt64 := by
        rw [UInt64.lt_iff_toNat_lt, hk]
        exact UInt32.lt_iff_toNat_lt.mp hpos
      rw [heq, if_pos ⟨beq_self_of_value? hvalue, hpos', hle⟩, Option.some_inj]
      exact UInt32.toNat_inj.mp ((toNat_toUInt32 hle).trans hk)

/-- A number is a count if its double is an integer from 1 to 4294967295. -/
theorem Number.isSome_toCount?_iff_double {n : Number} :
    n.toCount?.isSome = true ↔ ∃ k : Nat, Double.value? n.toFloat = some (k : ℚ) ∧ 1 ≤ k ∧
      k ≤ 4294967295 := by
  rw [Option.isSome_iff_exists]
  constructor
  · rintro ⟨c, hc⟩
    obtain ⟨hpos, hvalue⟩ := Number.toCount?_eq_some_iff.mp hc
    exact ⟨c.toNat, hvalue, UInt32.lt_iff_toNat_lt.mp hpos, Nat.le_of_lt_succ c.toNat_lt⟩
  · rintro ⟨k, hvalue, hpos, hle⟩
    have hk : (UInt32.ofNat k).toNat = k := UInt32.toNat_ofNat_of_lt' (Nat.lt_succ_of_le hle)
    refine ⟨.ofNat k, Number.toCount?_eq_some_iff.mpr ⟨UInt32.lt_iff_toNat_lt.mpr ?_, ?_⟩⟩
    · rw [hk]
      exact hpos
    · rw [hk]
      exact hvalue

/-- All forms of a double are the same count. -/
theorem Number.toCount?_float_toFloat (n : Number) :
    (Number.float n.toFloat).toCount? = n.toCount? := by
  ext c
  rw [Number.toCount?_eq_some_iff, Number.toCount?_eq_some_iff]
  rfl

/-! ### The doubles of a tree in its place -/

variable (j : Json)

@[simp]
theorem kind_asDoubles : j.asDoubles.kind = j.kind := by
  cases j <;> rfl

@[simp]
theorem toText?_asDoubles : j.asDoubles.toText? = j.toText? := by
  cases j <;> rfl

@[simp]
theorem toFloat?_asDoubles : j.asDoubles.toFloat? = j.toFloat? := by
  cases j <;> rfl

@[simp]
theorem toCount?_asDoubles : j.asDoubles.toCount? = j.toCount? := by
  cases j with
  | number n => exact n.toCount?_float_toFloat
  | _ => rfl

theorem mapM_toFloat?_asDoubles (items : List Json) :
    (items.map asDoubles).mapM toFloat? = items.mapM toFloat? := by
  rw [List.mapM_map]
  exact congrArg (items.mapM ·) (funext toFloat?_asDoubles)

@[simp]
theorem toFloats?_asDoubles : j.asDoubles.toFloats? = j.toFloats? := by
  cases j with
  | list items =>
    rw [asDoubles_list]
    exact mapM_toFloat?_asDoubles items
  | _ => rfl

theorem member?_asDoubles (key : String) :
    j.asDoubles.member? key = (j.member? key).map asDoubles := by
  cases j with
  | object members =>
    rw [asDoubles_object, member?, member?, Named.find?_map]
  | _ => rfl

end BatteryParams.Json

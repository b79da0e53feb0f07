import BatteryParams.Proofs.Float.Arithmetic
import BatteryParams.Proofs.Value

/-!
# Interpolation stays in range

Between two breakpoints a table weighs their values by two shares, each rounded, and adds the
weighted values up. However large the values are, the sum is in range: each share rounds its value
down if that is the largest double, and the rounding of the shares themselves adds less than the sum
has room for. Beyond its breakpoints a table follows the line of its edge segment, which leaves the
range of doubles sooner or later; it does not do so near the segment.
-/

namespace BatteryParams

namespace Double

open Float.Model (UnpackedFloat)
open Float.Model.Format (binary64)

variable {a b l r t w x : Float} {p q : ℚ}

theorem isFinite_iff_exists : x.isFinite = true ↔ ∃ q, value? x = some q := by
  rw [← isSome_value?_iff, Option.isSome_iff_exists]

theorem value?_one : value? 1 = some 1 := by decide +kernel

theorem representable_one : Representable 1 := ⟨1, 0, by norm_num, by norm_num, by norm_num⟩

theorem one_le_largest : (1 : ℚ) ≤ largest :=
  (representable_of_value? value?_one).2.trans' (le_abs_self 1)

/-! ### Weighing -/

/-- What is left of a share is at most half of a last place more than it should be. -/
theorem rounded_one_sub_le {σ : ℚ} (h : 0 ≤ σ) (h' : σ ≤ 1) :
    rounded (1 - σ) ≤ 1 - σ + 1 / 2 ^ 54 := by
  rcases h.eq_or_lt with rfl | hpos
  · rw [sub_zero, rounded_of_representable representable_one]
    norm_num
  rcases h'.eq_or_lt with rfl | hlt
  · rw [sub_self, rounded_zero]
    norm_num
  have herror := (abs_le.mp (abs_rounded_sub_le (1 - σ))).2
  have hplace : lastPlace (1 - σ) ≤ -53 := by
    have habs : |1 - σ| < ((2 : ℕ) : ℚ) ^ (0 : ℤ) := by
      rw [abs_of_pos (by linarith), zpow_zero]
      linarith
    have hlog := (Int.lt_zpow_iff_log_lt (by norm_num) (abs_pos.mpr (by linarith))).mp habs
    rw [lastPlace]
    omega
  have hunit : (2 : ℚ) ^ lastPlace (1 - σ) / 2 ≤ 1 / 2 ^ 54 := by
    have hhalf : (2 : ℚ) ^ (-53 : ℤ) / 2 = 1 / 2 ^ 54 := by norm_num
    exact (div_le_div_of_nonneg_right (zpow_le_zpow_right₀ one_le_two hplace) two_pos.le).trans_eq
      hhalf
  linarith

/-- A share of a finite value is at most that share of the largest double. -/
theorem exists_weighted {σ : ℚ} (hl : l.isFinite = true) (hw : value? w = some σ) (h : 0 ≤ σ)
    (h' : σ ≤ 1) : ∃ z, value? (l * w) = some z ∧ |z| ≤ largest * σ := by
  obtain ⟨p, hp⟩ := isFinite_iff_exists.mp hl
  obtain ⟨-, hbound⟩ := representable_of_value? hp
  have hproduct : |rounded (p * σ)| ≤ largest * σ := by
    rw [abs_rounded, abs_mul, abs_of_nonneg h]
    exact (rounded_mono (mul_le_mul_of_nonneg_right hbound h)).trans
      (rounded_largest_mul_le (representable_of_value? hw).1 h)
  refine ⟨_, (value?_mul hp hw).trans (inRange?_eq_some ?_), hproduct⟩
  exact hproduct.trans (mul_le_of_le_one_right largest_pos.le h')

/-- Two finite values weighed by a share and by what is left of it have a finite sum. -/
theorem isFinite_weighed {σ : ℚ} (hl : l.isFinite = true) (hr : r.isFinite = true)
    (ht : value? t = some σ) (h : 0 ≤ σ) (h' : σ ≤ 1) : (l * (1 - t) + r * t).isFinite = true := by
  have hrest : |rounded (1 - σ)| ≤ 1 := by
    rw [abs_of_nonneg (rounded_nonneg (by linarith))]
    exact rounded_le_of_le representable_one (by linarith)
  have hvalue : value? (1 - t) = some (rounded (1 - σ)) :=
    (value?_sub value?_one ht).trans (inRange?_eq_some (hrest.trans one_le_largest))
  obtain ⟨p, hp, hpbound⟩ :=
    exists_weighted hl hvalue (rounded_nonneg (by linarith)) (le_of_abs_le hrest)
  obtain ⟨q, hq, hqbound⟩ := exists_weighted hr ht h h'
  refine isFinite_iff_exists.mpr ⟨_,
    (value?_add hp hq).trans (inRange?_eq_some (abs_rounded_le_largest ?_))⟩
  have hshares := rounded_one_sub_le h h'
  have hpos := halfPlace_pos
  calc |p + q| ≤ |p| + |q| := abs_add_le p q
    _ ≤ largest * (rounded (1 - σ) + σ) := by
        rw [mul_add]
        exact add_le_add hpbound hqbound
    _ ≤ largest * (1 + 1 / 2 ^ 54) := mul_le_mul_of_nonneg_left (by linarith) largest_pos.le
    _ < (2 ^ 54 - 1) * halfPlace := by
        rw [largest, mul_right_comm]
        exact mul_lt_mul_of_pos_right (by norm_num) hpos

/-! ### Shares -/

/-- A finite number vanishes against an infinite one. -/
theorem value?_div_of_infinite (ha : a.isFinite = true) (hb : IsNumber b)
    (hinfinite : b.isFinite = false) : value? (a / b) = some 0 := by
  have hfinite : (parts a).isFinite = true := ha
  have hinf : (parts b).isFinite = false := hinfinite
  have hzero (s : UnpackedFloat.Sign) :
      valueOf? (UnpackedFloat.unpack binary64 (UnpackedFloat.pack binary64 (.zero s))) =
        some 0 := by
    rw [valueOf?_zero, inRange?_eq_some (abs_zero.trans_le largest_pos.le)]
  rw [value?_eq]
  show valueOf? (UnpackedFloat.unpack binary64
    (UnpackedFloat.pack binary64 (UnpackedFloat.div binary64 (parts a) (parts b)))) = _
  rw [IsNumber] at hb
  generalize parts a = u at *
  generalize parts b = v at *
  cases v with
  | infinity s' =>
    cases u with
    | infinity s => cases hfinite
    | notANumber => cases hfinite
    | zero s => exact hzero _
    | finite s m e hm => exact hzero _
  | notANumber => exact absurd rfl hb
  | zero s' => cases hinf
  | finite s' m e hm => cases hinf

/-- Where `x` lies between `a` and `b`, its share of the way is a number from 0 to 1. Where the
whole way is out of range, the share is taken for none. -/
theorem exists_share {α β ξ : ℚ} (ha : value? a = some α) (hb : value? b = some β)
    (hx : value? x = some ξ)
    (hlow : α ≤ ξ) (hhigh : ξ ≤ β) (hlt : α < β) (hoffset : (x - a).isFinite = true) :
    ∃ σ, value? ((x - a) / (b - a)) = some σ ∧ 0 ≤ σ ∧ σ ≤ 1 := by
  cases hwidth : (b - a).isFinite with
  | false =>
    have hnumber : IsNumber (b - a) :=
      isNumber_sub (isNumber_of_value? hb) (isFinite_iff_exists.mpr ⟨α, ha⟩)
    exact ⟨0, value?_div_of_infinite hoffset hnumber hwidth, le_rfl, zero_le_one⟩
  | true =>
    obtain ⟨d, hd⟩ := isFinite_iff_exists.mp hoffset
    obtain ⟨w, hw⟩ := isFinite_iff_exists.mp hwidth
    obtain rfl : rounded (ξ - α) = d := eq_of_inRange? ((value?_sub hx ha).symm.trans hd)
    obtain rfl : rounded (β - α) = w := eq_of_inRange? ((value?_sub hb ha).symm.trans hw)
    have hpos : 0 < rounded (β - α) :=
      rounded_sub_pos (representable_of_value? ha).1 (representable_of_value? hb).1 hlt
    have hle : rounded (ξ - α) ≤ rounded (β - α) := rounded_mono (by linarith)
    have hnonneg : 0 ≤ rounded (ξ - α) := rounded_nonneg (by linarith)
    have hshare : 0 ≤ rounded (rounded (ξ - α) / rounded (β - α)) :=
      rounded_nonneg (div_nonneg hnonneg hpos.le)
    have hshare' : rounded (rounded (ξ - α) / rounded (β - α)) ≤ 1 :=
      rounded_le_of_le representable_one ((div_le_one hpos).mpr hle)
    refine ⟨_, (value?_div hd hw hpos.ne').trans (inRange?_eq_some ?_), hshare, hshare'⟩
    rw [abs_of_nonneg hshare]
    exact hshare'.trans one_le_largest

theorem abs_rounded_le {q : ℚ} {k : ℕ} (h : |q| ≤ 2 ^ k) : |rounded q| ≤ 2 ^ k := by
  rw [abs_rounded]
  refine rounded_le_of_le ?_ h
  rw [← zpow_natCast]
  exact representable_two_zpow (by omega)

theorem two_pow_le_largest {k : ℕ} (h : k ≤ 1023) : (2 : ℚ) ^ k ≤ largest := by
  refine le_trans ?_ two_zpow_le_largest
  rw [← zpow_natCast]
  exact zpow_le_zpow_right₀ one_le_two (by exact_mod_cast h)

/-- A share of up to 2^k of the way keeps values up to 2^j in range. -/
theorem isFinite_weighed_of_le {σ : ℚ} {j k : ℕ} (hjk : j + k ≤ 1022) (hl : value? l = some p)
    (hr : value? r = some q) (ht : value? t = some σ) (hp : |p| ≤ 2 ^ j) (hq : |q| ≤ 2 ^ j)
    (hσ : |σ| ≤ 2 ^ k) : (l * (1 - t) + r * t).isFinite = true := by
  have hone : (1 : ℚ) ≤ 2 ^ k := one_le_pow₀ one_le_two
  have hrest : |rounded (1 - σ)| ≤ 2 ^ (k + 1) := by
    refine abs_rounded_le ((abs_sub 1 σ).trans ?_)
    rw [abs_one, pow_succ]
    linarith
  have hleft : |rounded (p * rounded (1 - σ))| ≤ 2 ^ (j + (k + 1)) := by
    refine abs_rounded_le ?_
    rw [abs_mul, pow_add]
    exact mul_le_mul hp hrest (abs_nonneg _) (by positivity)
  have hright : |rounded (q * σ)| ≤ 2 ^ (j + k) := by
    refine abs_rounded_le ?_
    rw [abs_mul, pow_add]
    exact mul_le_mul hq hσ (abs_nonneg _) (by positivity)
  have hsum : |rounded (p * rounded (1 - σ)) + rounded (q * σ)| < (2 ^ 54 - 1) * halfPlace := by
    calc |rounded (p * rounded (1 - σ)) + rounded (q * σ)|
      _ ≤ 2 ^ (j + (k + 1)) + 2 ^ (j + k) := (abs_add_le _ _).trans (add_le_add hleft hright)
      _ = 3 * 2 ^ (j + k) := by ring
      _ ≤ 3 * (2 ^ 52 * halfPlace) := by
          rw [mul_halfPlace, ← zpow_natCast]
          exact mul_le_mul_of_nonneg_left (zpow_le_zpow_right₀ one_le_two (by omega)) (by norm_num)
      _ < (2 ^ 54 - 1) * halfPlace := by
          rw [← mul_assoc]
          exact mul_lt_mul_of_pos_right (by norm_num) halfPlace_pos
  have hrange {z : ℚ} {n : ℕ} (hn : n ≤ 1023) (hz : |z| ≤ 2 ^ n) : inRange? z = some z :=
    inRange?_eq_some (hz.trans (two_pow_le_largest hn))
  have hweight := (value?_sub value?_one ht).trans (hrange (by omega) hrest)
  have hfirst := (value?_mul hl hweight).trans (hrange (by omega) hleft)
  have hsecond := (value?_mul hr ht).trans (hrange (by omega) hright)
  have hvalue := (value?_add hfirst hsecond).trans (inRange?_eq_some (abs_rounded_le_largest hsum))
  exact isFinite_iff_exists.mpr ⟨_, hvalue⟩

end Double

namespace Table

/-! ### The segment of an argument -/

section

variable {α : Type} [LE α] [DecidableLE α] {t : Table α} {x0 : α} {i : Nat}

theorem countUpTo_eq (t : Table α) (x0 : α) :
    t.countUpTo x0 = t.x.findIdx fun x => !decide (x ≤ x0) := by
  rw [countUpTo, List.takeWhile_eq_take_findIdx_not, List.length_take]
  exact min_eq_left List.findIdx_le_length

theorem le_of_lt_countUpTo (hi : i < t.x.length) (h : i < t.countUpTo x0) : t.x[i] ≤ x0 := by
  rw [countUpTo_eq] at h
  simpa using List.not_of_lt_findIdx h

theorem not_le_of_eq_countUpTo (hi : i < t.x.length) (h : i = t.countUpTo x0) : ¬t.x[i] ≤ x0 := by
  rw [countUpTo_eq] at h
  subst h
  simpa using List.findIdx_getElem (w := hi)

/-- Where the segment used at an argument starts, and its value there. -/
def leftEnd (t : Table α) (x0 : α) : α :=
  t.x.get ⟨t.segment x0, Nat.lt_of_succ_lt (t.segment_lt x0)⟩

def leftValue (t : Table α) (x0 : α) : α :=
  t.y.get ⟨t.segment x0, t.length_eq ▸ Nat.lt_of_succ_lt (t.segment_lt x0)⟩

/-- Where it ends, and its value there. -/
def rightEnd (t : Table α) (x0 : α) : α := t.x.get ⟨t.segment x0 + 1, t.segment_lt x0⟩

def rightValue (t : Table α) (x0 : α) : α :=
  t.y.get ⟨t.segment x0 + 1, t.length_eq ▸ t.segment_lt x0⟩

theorem evaluate_eq [Add α] [Sub α] [Mul α] [Div α] [OfNat α 1] (t : Table α) (x0 : α) :
    t.evaluate x0 =
      t.leftValue x0 * (1 - (x0 - t.leftEnd x0) / (t.rightEnd x0 - t.leftEnd x0)) +
        t.rightValue x0 * ((x0 - t.leftEnd x0) / (t.rightEnd x0 - t.leftEnd x0)) := rfl

/-- From the first breakpoint on, the segment used starts at or before the argument. -/
theorem leftEnd_le (h : t.domain.1 ≤ x0) : t.leftEnd x0 ≤ x0 := by
  have htwo := t.two_le
  have hpos : 0 < t.countUpTo x0 := by
    rw [Nat.pos_iff_ne_zero]
    exact fun hzero => not_le_of_eq_countUpTo (by omega) hzero.symm h
  refine le_of_lt_countUpTo (Nat.lt_of_succ_lt (t.segment_lt x0)) ?_
  rw [segment]
  omega

/-- It ends behind the argument, unless it is the last one. -/
theorem rightEnd_eq_or_not_le (h : t.domain.1 ≤ x0) :
    t.rightEnd x0 = t.domain.2 ∨ ¬t.rightEnd x0 ≤ x0 := by
  have htwo := t.two_le
  have hpos : 0 < t.countUpTo x0 := by
    rw [Nat.pos_iff_ne_zero]
    exact fun hzero => not_le_of_eq_countUpTo (by omega) hzero.symm h
  rcases Nat.lt_or_ge (t.countUpTo x0) t.x.length with hlt | hge
  · refine .inr (not_le_of_eq_countUpTo (t.segment_lt x0) ?_)
    rw [segment]
    omega
  · have hlast : t.segment x0 + 1 = t.x.length - 1 := by
      rw [segment]
      omega
    refine .inl ?_
    simp only [rightEnd, domain, List.get_eq_getElem, hlast]

end

variable {t : Table Float} {x0 : Float}

theorem Built.isFinite_x (h : t.Built) : ∀ x ∈ t.x, x.isFinite = true := fun x hx =>
  (built_iff.mp h).1 x (List.mem_append_left _ hx)

theorem Built.isFinite_y (h : t.Built) : ∀ y ∈ t.y, y.isFinite = true := fun y hy =>
  (built_iff.mp h).1 y (List.mem_append_right _ hy)

/-- The ends of the segment used are finite and in order. -/
theorem Built.exists_ends (h : t.Built) (x0 : Float) :
    ∃ α β, Double.value? (t.leftEnd x0) = some α ∧ Double.value? (t.rightEnd x0) = some β ∧
      α < β := by
  obtain ⟨α, hα⟩ := Double.isFinite_iff_exists.mp (h.isFinite_x (t.leftEnd x0) (List.get_mem _ _))
  obtain ⟨β, hβ⟩ := Double.isFinite_iff_exists.mp (h.isFinite_x (t.rightEnd x0) (List.get_mem _ _))
  have hlt : t.leftEnd x0 < t.rightEnd x0 :=
    List.pairwise_iff_get.mp (built_iff.mp h).2 _ _ (Nat.lt_succ_self _)
  exact ⟨α, β, hα, hβ, (Double.lt_iff_value? hα hβ).mp hlt⟩

/-- `x0` lies where a value is tabulated. -/
def Covers (t : Table Float) (x0 : Float) : Prop := t.domain.1 ≤ x0 ∧ x0 ≤ t.domain.2

/-- `x0` lies within 2^k widths of the segment used there, whose values are up to 2^j. -/
def Near (t : Table Float) (x0 : Float) (j k : ℕ) : Prop :=
  ∃ d w p q, Double.value? (x0 - t.leftEnd x0) = some d ∧
    Double.value? (t.rightEnd x0 - t.leftEnd x0) = some w ∧
    Double.value? (t.leftValue x0) = some p ∧ Double.value? (t.rightValue x0) = some q ∧
    |d| ≤ 2 ^ k * w ∧ |p| ≤ 2 ^ j ∧ |q| ≤ 2 ^ j

/-- Where the line of the segment used at `x0` cannot leave the range of doubles: where values are
tabulated, as long as the distance from the start of the segment is in range, and elsewhere near. -/
def InReach (t : Table Float) (x0 : Float) : Prop :=
  t.Covers x0 ∧ (x0 - t.leftEnd x0).isFinite = true ∨ ∃ j k, j + k ≤ 1022 ∧ t.Near x0 j k

theorem Built.isFinite_of_covers (h : t.Built) (hx : x0.isFinite = true) (hcovers : t.Covers x0)
    (hoffset : (x0 - t.leftEnd x0).isFinite = true) : (t.evaluate x0).isFinite = true := by
  obtain ⟨ξ, hξ⟩ := Double.isFinite_iff_exists.mp hx
  obtain ⟨α, β, hα, hβ, hlt⟩ := h.exists_ends x0
  have hlow : α ≤ ξ := (Double.le_iff_value? hα hξ).mp (leftEnd_le hcovers.1)
  have hhigh : ξ ≤ β := by
    refine (Double.le_iff_value? hξ hβ).mp ?_
    rcases rightEnd_eq_or_not_le hcovers.1 with hlast | hbehind
    · exact hlast ▸ hcovers.2
    · refine (Double.not_lt_iff (Double.isNumber_of_value? hβ) (Double.isNumber_of_value? hξ)).mp
        fun hlt => hbehind ?_
      rw [Double.lt_iff_value? hβ hξ] at hlt
      exact (Double.le_iff_value? hβ hξ).mpr hlt.le
  obtain ⟨σ, hσ, hnonneg, hle⟩ := Double.exists_share hα hβ hξ hlow hhigh hlt hoffset
  rw [evaluate_eq]
  exact Double.isFinite_weighed (h.isFinite_y _ (List.get_mem _ _))
    (h.isFinite_y _ (List.get_mem _ _)) hσ hnonneg hle

theorem Built.isFinite_of_near (h : t.Built) {j k : ℕ} (hjk : j + k ≤ 1022)
    (hnear : t.Near x0 j k) : (t.evaluate x0).isFinite = true := by
  obtain ⟨d, w, p, q, hd, hw, hp, hq, hdw, hpbound, hqbound⟩ := hnear
  obtain ⟨α, β, hα, hβ, hlt⟩ := h.exists_ends x0
  have hwidth : Double.rounded (β - α) = w :=
    Double.eq_of_inRange? ((Double.value?_sub hβ hα).symm.trans hw)
  have hpos : 0 < w :=
    hwidth ▸ Double.rounded_sub_pos (Double.representable_of_value? hα).1
      (Double.representable_of_value? hβ).1 hlt
  have hshare : |Double.rounded (d / w)| ≤ 2 ^ k := by
    refine Double.abs_rounded_le ?_
    rwa [abs_div, abs_of_pos hpos, div_le_iff₀ hpos]
  have hvalue : Double.value? ((x0 - t.leftEnd x0) / (t.rightEnd x0 - t.leftEnd x0)) =
      some (Double.rounded (d / w)) :=
    (Double.value?_div hd hw hpos.ne').trans
      (Double.inRange?_eq_some (hshare.trans (Double.two_pow_le_largest (by omega))))
  rw [evaluate_eq]
  exact Double.isFinite_weighed_of_le hjk hp hq hvalue hpbound hqbound hshare

/-- Within reach a table has a finite value. -/
theorem Built.isFinite_evaluate (h : t.Built) (hx : x0.isFinite = true) (hreach : t.InReach x0) :
    (t.evaluate x0).isFinite = true := by
  rcases hreach with ⟨hcovers, hoffset⟩ | ⟨j, k, hjk, hnear⟩
  · exact h.isFinite_of_covers hx hcovers hoffset
  · exact h.isFinite_of_near hjk hnear

end Table

end BatteryParams

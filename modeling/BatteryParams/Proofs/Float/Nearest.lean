import Mathlib

/-!
# Rounding to the nearest double

The doubles around a number are the multiples of a power of two, which grows with the number and
stops at a least one. An exact result is rounded to the nearest multiple, and to the even one of two
that are equally near. The rule is stated for rational numbers and knows no largest double: whether
the result is in range is asked afterwards.
-/

namespace BatteryParams.Double

/-- The integer nearest to `q`, and the even one of two that are equally near. -/
def nearestEven (q : ℚ) : ℤ :=
  if q - ⌊q⌋ < 1 / 2 then ⌊q⌋ else if 1 / 2 < q - ⌊q⌋ then ⌊q⌋ + 1 else ⌊q⌋ + ⌊q⌋ % 2

/-- The exponent of the last digit that the doubles around `q` have. -/
def lastPlace (q : ℚ) : ℤ := max (Int.log 2 |q| - 52) (-1074)

/-- The nearest double, as long as it is in range. -/
def rounded (q : ℚ) : ℚ := nearestEven (q / 2 ^ lastPlace q) * 2 ^ lastPlace q

/-- A number that 53 digits from the least place on can spell. -/
def Representable (q : ℚ) : Prop := ∃ m e : ℤ, |m| < 2 ^ 53 ∧ -1074 ≤ e ∧ q = m * 2 ^ e

/-- A number below the range of doubles, which ends at 2^1024. -/
def inRange? (q : ℚ) : Option ℚ := if |q| < 2 ^ (1024 : ℤ) then some q else none

variable {p q w : ℚ}

/-! ### The nearest integer -/

theorem abs_nearestEven_sub_le (q : ℚ) : |nearestEven q - q| ≤ 1 / 2 := by
  have hlow := Int.floor_le q
  have hhigh := Int.lt_floor_add_one q
  have hparity : ((⌊q⌋ % 2 : ℤ) : ℚ) = 0 ∨ ((⌊q⌋ % 2 : ℤ) : ℚ) = 1 := by
    rcases Int.emod_two_eq_zero_or_one ⌊q⌋ with h | h <;> simp [h]
  rw [nearestEven, abs_le]
  split_ifs <;> push_cast at * <;> rcases hparity with h | h <;> constructor <;> linarith

theorem even_nearestEven (h : |nearestEven q - q| = 1 / 2) : Even (nearestEven q) := by
  have hlow := Int.floor_le q
  have hhigh := Int.lt_floor_add_one q
  rw [nearestEven] at h ⊢
  split_ifs at h ⊢ with hbelow habove
  · rw [abs_of_nonpos (by linarith)] at h
    linarith
  · push_cast at h
    rw [abs_of_nonneg (by linarith)] at h
    linarith
  · rw [Int.even_iff]
    omega

/-- An integer within a half of `q` is the nearest one, unless two are. -/
theorem nearestEven_eq {k : ℤ} (hnear : |k - q| ≤ 1 / 2) (htie : |k - q| = 1 / 2 → Even k) :
    nearestEven q = k := by
  have hnearest := abs_nearestEven_sub_le q
  have heven := even_nearestEven (q := q)
  generalize nearestEven q = n at *
  by_contra hne
  have hapart : (1 : ℚ) ≤ |(n : ℚ) - k| := by
    have hpos : 0 < |n - k| := abs_pos.mpr (sub_ne_zero.mpr hne)
    exact_mod_cast hpos
  have htriangle : |(n : ℚ) - k| ≤ |n - q| + |k - q| := by
    have := abs_sub_le (n : ℚ) q k
    rwa [abs_sub_comm q] at this
  obtain ⟨a, ha⟩ := heven (by linarith)
  obtain ⟨b, hb⟩ := htie (by linarith)
  have hone : |n - k| = 1 := by
    have hle : |(n : ℚ) - k| ≤ 1 := by linarith
    exact_mod_cast le_antisymm hle hapart
  rcases abs_eq (by norm_num) |>.mp hone with h | h <;> omega

/-- No integer is nearer. -/
theorem abs_nearestEven_sub_le_intCast (q : ℚ) (k : ℤ) : |nearestEven q - q| ≤ |k - q| := by
  by_contra hnearer
  have hhalf := (not_le.mp hnearer).trans_le (abs_nearestEven_sub_le q)
  exact hnearer (nearestEven_eq hhalf.le (absurd · hhalf.ne) ▸ le_rfl)

theorem nearestEven_intCast (k : ℤ) : nearestEven k = k :=
  nearestEven_eq (by norm_num) (by norm_num)

theorem nearestEven_neg (q : ℚ) : nearestEven (-q) = -nearestEven q := by
  have hsymm : |((-nearestEven q : ℤ) : ℚ) - -q| = |nearestEven q - q| := by
    push_cast
    rw [← abs_neg]
    congr 1
    ring
  refine nearestEven_eq (hsymm.trans_le (abs_nearestEven_sub_le q)) fun h => ?_
  exact (even_nearestEven (hsymm ▸ h)).neg

theorem nearestEven_mono (h : p ≤ q) : nearestEven p ≤ nearestEven q := by
  by_contra hlt
  have hp := (abs_le.mp (abs_nearestEven_sub_le p)).2
  have hq := (abs_le.mp (abs_nearestEven_sub_le q)).1
  have hstep : ((nearestEven q + 1 : ℤ) : ℚ) ≤ nearestEven p := by exact_mod_cast Int.not_le.mp hlt
  push_cast at hstep
  have heq : p = q := by linarith
  exact hlt (heq ▸ le_rfl)

theorem nearestEven_le {k : ℤ} (h : q ≤ k) : nearestEven q ≤ k :=
  (nearestEven_mono h).trans (nearestEven_intCast k).le

theorem le_nearestEven {k : ℤ} (h : k ≤ q) : k ≤ nearestEven q :=
  (nearestEven_intCast k).ge.trans (nearestEven_mono h)

theorem nearestEven_le_of_lt {k : ℤ} (h : q < k + 1 / 2) : nearestEven q ≤ k := by
  have hq := (abs_le.mp (abs_nearestEven_sub_le q)).2
  have hlt : ((nearestEven q : ℤ) : ℚ) < (k + 1 : ℤ) := by
    push_cast
    linarith
  exact Int.lt_add_one_iff.mp (by exact_mod_cast hlt)

/-! ### The last place -/

theorem two_zpow_pos (e : ℤ) : (0 : ℚ) < 2 ^ e := zpow_pos two_pos e

theorem zpow_log_le (hq : q ≠ 0) : (2 : ℚ) ^ Int.log 2 |q| ≤ |q| :=
  Int.zpow_log_le_self (by norm_num) (abs_pos.mpr hq)

theorem lt_zpow_log (q : ℚ) : |q| < 2 ^ (Int.log 2 |q| + 1) :=
  Int.lt_zpow_succ_log_self (by norm_num) |q|

theorem log_eq {k : ℤ} (hlow : 2 ^ k ≤ |q|) (hhigh : |q| < 2 ^ (k + 1)) : Int.log 2 |q| = k := by
  have hpos : 0 < |q| := (two_zpow_pos k).trans_le hlow
  have hle : k ≤ Int.log 2 |q| :=
    (Int.zpow_le_iff_le_log (by norm_num) hpos).mp (by exact_mod_cast hlow)
  have hlt : Int.log 2 |q| < k + 1 :=
    (Int.lt_zpow_iff_log_lt (by norm_num) hpos).mp (by exact_mod_cast hhigh)
  omega

theorem lastPlace_eq {k : ℤ} (hlow : 2 ^ k ≤ |q|) (hhigh : |q| < 2 ^ (k + 1)) :
    lastPlace q = max (k - 52) (-1074) := by
  rw [lastPlace, log_eq hlow hhigh]

theorem lastPlace_neg (q : ℚ) : lastPlace (-q) = lastPlace q := by
  rw [lastPlace, lastPlace, abs_neg]

theorem lastPlace_abs (q : ℚ) : lastPlace |q| = lastPlace q := by
  rw [lastPlace, lastPlace, abs_abs]

theorem lastPlace_mono (hp : p ≠ 0) (h : |p| ≤ |q|) : lastPlace p ≤ lastPlace q := by
  have hlog := Int.log_mono_right (b := 2) (abs_pos.mpr hp) h
  rw [lastPlace, lastPlace]
  omega

/-- In units of the last place a number has at most 53 digits. -/
theorem abs_lt_of_lastPlace (q : ℚ) : |q| < 2 ^ (53 + lastPlace q) := by
  refine (lt_zpow_log q).trans_le (zpow_le_zpow_right₀ one_le_two ?_)
  rw [lastPlace]
  omega

/-- Above the least place it has exactly 53. -/
theorem le_abs_of_lastPlace (hq : q ≠ 0) (h : -1074 < lastPlace q) :
    2 ^ (52 + lastPlace q) ≤ |q| := by
  refine (zpow_le_zpow_right₀ one_le_two ?_).trans (zpow_log_le hq)
  rw [lastPlace] at h ⊢
  omega

theorem scaled_div_zpow (m d e : ℤ) : (m : ℚ) * 2 ^ d / 2 ^ e = m * 2 ^ (d - e) := by
  rw [zpow_sub₀ two_ne_zero, mul_div_assoc]

/-- Digits that start above a place are an integer in units of that place. -/
theorem exists_intCast {m d e : ℤ} (h : e ≤ d) : ∃ k : ℤ, (m : ℚ) * 2 ^ d / 2 ^ e = k := by
  obtain ⟨n, hn⟩ := Int.eq_ofNat_of_zero_le (sub_nonneg.mpr h)
  refine ⟨m * 2 ^ n, ?_⟩
  rw [scaled_div_zpow, hn]
  push_cast
  rfl

/-! ### The nearest double -/

theorem rounded_zero : rounded 0 = 0 := by
  have hzero : nearestEven 0 = 0 := nearestEven_intCast 0
  rw [rounded, zero_div, hzero, Int.cast_zero, zero_mul]

theorem rounded_neg (q : ℚ) : rounded (-q) = -rounded q := by
  rw [rounded, rounded, lastPlace_neg, neg_div, nearestEven_neg]
  push_cast
  ring

/-- A multiple of the last place bounds the rounded number if it bounds the number. -/
theorem rounded_le_multiple {k : ℤ} (h : q ≤ k * 2 ^ lastPlace q) :
    rounded q ≤ k * 2 ^ lastPlace q := by
  have hscaled : q / 2 ^ lastPlace q ≤ k := (div_le_iff₀ (two_zpow_pos _)).mpr h
  refine mul_le_mul_of_nonneg_right ?_ (two_zpow_pos _).le
  exact_mod_cast nearestEven_le hscaled

theorem multiple_le_rounded {k : ℤ} (h : k * 2 ^ lastPlace q ≤ q) :
    k * 2 ^ lastPlace q ≤ rounded q := by
  have hscaled : (k : ℚ) ≤ q / 2 ^ lastPlace q := (le_div_iff₀ (two_zpow_pos _)).mpr h
  refine mul_le_mul_of_nonneg_right ?_ (two_zpow_pos _).le
  exact_mod_cast le_nearestEven hscaled

theorem rounded_nonneg (h : 0 ≤ q) : 0 ≤ rounded q := by
  have := multiple_le_rounded (q := q) (k := 0) (by simpa using h)
  simpa using this

theorem rounded_nonpos (h : q ≤ 0) : rounded q ≤ 0 := by
  have := rounded_le_multiple (q := q) (k := 0) (by simpa using h)
  simpa using this

/-- A power of two above the last place is a multiple of it. -/
theorem zpow_eq_multiple {d e : ℤ} (h : e ≤ d) : ∃ k : ℤ, (2 : ℚ) ^ d = k * 2 ^ e := by
  obtain ⟨k, hk⟩ := exists_intCast (m := 1) h
  refine ⟨k, ?_⟩
  rw [← hk, Int.cast_one, one_mul, div_mul_cancel₀ _ (two_zpow_pos e).ne']

theorem rounded_mono_of_pos (hp : 0 < p) (h : p ≤ q) : rounded p ≤ rounded q := by
  have hq : 0 < q := hp.trans_le h
  have habs : |p| ≤ |q| := by rwa [abs_of_pos hp, abs_of_pos hq]
  rcases (lastPlace_mono hp.ne' habs).eq_or_lt with heq | hlt
  · -- in the same units the nearest integers are compared
    rw [rounded, rounded, heq]
    refine mul_le_mul_of_nonneg_right ?_ (two_zpow_pos _).le
    exact_mod_cast nearestEven_mono (div_le_div_of_nonneg_right h (two_zpow_pos _).le)
  · -- the larger number has all of its digits, and the power of two below it lies between the two
    have hleast : -1074 ≤ lastPlace p := le_max_right _ _
    have hbelow : p < 2 ^ (52 + lastPlace q) := by
      refine (le_abs_self p).trans_lt
        ((abs_lt_of_lastPlace p).trans_le (zpow_le_zpow_right₀ one_le_two ?_))
      omega
    have habove : 2 ^ (52 + lastPlace q) ≤ q := by
      rw [← abs_of_pos hq, lastPlace_abs]
      exact le_abs_of_lastPlace hq.ne' (by omega)
    obtain ⟨k, hk⟩ := zpow_eq_multiple (d := 52 + lastPlace q) (e := lastPlace p) (by omega)
    obtain ⟨l, hl⟩ := zpow_eq_multiple (d := 52 + lastPlace q) (e := lastPlace q) (by omega)
    calc rounded p ≤ k * 2 ^ lastPlace p := rounded_le_multiple (hk ▸ hbelow.le)
      _ = l * 2 ^ lastPlace q := hk.symm.trans hl
      _ ≤ rounded q := multiple_le_rounded (hl ▸ habove)

theorem rounded_mono (h : p ≤ q) : rounded p ≤ rounded q := by
  rcases lt_trichotomy p 0 with hneg | rfl | hpos
  · rcases le_total q 0 with hq | hq
    · rcases hq.eq_or_lt with rfl | hq
      · rw [rounded_zero]
        exact rounded_nonpos hneg.le
      have hflip := rounded_mono_of_pos (neg_pos.mpr hq) (neg_le_neg h)
      rw [rounded_neg, rounded_neg] at hflip
      exact neg_le_neg_iff.mp hflip
    · exact (rounded_nonpos hneg.le).trans (rounded_nonneg hq)
  · rw [rounded_zero]
    exact rounded_nonneg h
  · exact rounded_mono_of_pos hpos h

theorem abs_rounded (q : ℚ) : |rounded q| = rounded |q| := by
  rcases le_total 0 q with h | h
  · rw [abs_of_nonneg h, abs_of_nonneg (rounded_nonneg h)]
  · rw [abs_of_nonpos h, abs_of_nonpos (rounded_nonpos h), rounded_neg]

/-- Rounding moves a number by at most half of its last place. -/
theorem abs_rounded_sub_le (q : ℚ) : |rounded q - q| ≤ 2 ^ lastPlace q / 2 := by
  have hunit := two_zpow_pos (lastPlace q)
  have hscaled : rounded q - q = (nearestEven (q / 2 ^ lastPlace q) - q / 2 ^ lastPlace q) *
      2 ^ lastPlace q := by
    rw [sub_mul, div_mul_cancel₀ _ hunit.ne']
    rfl
  rw [hscaled, abs_mul, abs_of_pos hunit]
  have := mul_le_mul_of_nonneg_right (abs_nearestEven_sub_le (q / 2 ^ lastPlace q)) hunit.le
  linarith

/-! ### Numbers that are doubles -/

theorem representable_zero : Representable 0 := ⟨0, 0, by norm_num, by norm_num, by norm_num⟩

theorem Representable.neg (h : Representable q) : Representable (-q) := by
  obtain ⟨m, e, hm, he, rfl⟩ := h
  exact ⟨-m, e, by rwa [abs_neg], he, by push_cast; ring⟩

/-- A mantissa that a carry has made 2^53 is shifted. -/
theorem representable_of_le {m e : ℤ} (hm : |m| ≤ 2 ^ 53) (he : -1074 ≤ e) :
    Representable (m * 2 ^ e) := by
  rcases hm.lt_or_eq with hlt | heq
  · exact ⟨m, e, hlt, he, rfl⟩
  · obtain ⟨l, hl⟩ : ∃ l, m = 2 * l := by
      rcases abs_eq (by norm_num) |>.mp heq with h | h
      · exact ⟨2 ^ 52, by omega⟩
      · exact ⟨-2 ^ 52, by omega⟩
    refine ⟨l, e + 1, ?_, by omega, ?_⟩
    · rw [hl, abs_mul] at heq
      norm_num at heq ⊢
      omega
    · rw [hl, zpow_add_one₀ two_ne_zero]
      push_cast
      ring

theorem representable_two_zpow {e : ℤ} (he : -1074 ≤ e) : Representable (2 ^ e) :=
  ⟨1, e, by norm_num, he, by norm_num⟩

theorem rounded_of_representable (h : Representable q) : rounded q = q := by
  rcases eq_or_ne q 0 with rfl | hq
  · exact rounded_zero
  obtain ⟨m, e, hm, he, heq⟩ := h
  have hplace : lastPlace q ≤ e := by
    have hlt : |q| < 2 ^ (53 + e) := by
      rw [heq, abs_mul, abs_of_pos (two_zpow_pos e), zpow_add₀ two_ne_zero]
      refine mul_lt_mul_of_pos_right ?_ (two_zpow_pos e)
      exact_mod_cast hm
    have hlog : Int.log 2 |q| < 53 + e :=
      (Int.lt_zpow_iff_log_lt (by norm_num) (abs_pos.mpr hq)).mp (by exact_mod_cast hlt)
    rw [lastPlace]
    omega
  obtain ⟨k, hk⟩ := exists_intCast (m := m) hplace
  rw [← heq] at hk
  rw [rounded, hk, nearestEven_intCast, ← hk, div_mul_cancel₀ _ (two_zpow_pos _).ne']

/-- The digits of a number that reaches the last place of `q` in its first 53 are a multiple of that
place. -/
theorem Representable.exists_multiple (hw : Representable w)
    (h : 2 ^ (52 + lastPlace q) ≤ |w| ∨ lastPlace q = -1074) :
    ∃ k : ℤ, w = k * 2 ^ lastPlace q := by
  obtain ⟨m, e, hm, he, rfl⟩ := hw
  have hplace : lastPlace q ≤ e := by
    rcases h with hlarge | hleast
    · rw [abs_mul, abs_of_pos (two_zpow_pos e)] at hlarge
      have hlt : |(m : ℚ)| * 2 ^ e < 2 ^ (53 + e) := by
        rw [zpow_add₀ two_ne_zero]
        exact mul_lt_mul_of_pos_right (by exact_mod_cast hm) (two_zpow_pos e)
      have := (zpow_lt_zpow_iff_right₀ one_lt_two).mp (hlarge.trans_lt hlt)
      omega
    · omega
  obtain ⟨k, hk⟩ := exists_intCast (m := m) hplace
  exact ⟨k, by rw [← hk, div_mul_cancel₀ _ (two_zpow_pos _).ne']⟩

/-- No multiple of the last place is nearer than the rounded number. -/
theorem abs_rounded_sub_le_multiple (q : ℚ) (k : ℤ) :
    |rounded q - q| ≤ |k * 2 ^ lastPlace q - q| := by
  have hunit := two_zpow_pos (lastPlace q)
  have hscaled (l : ℤ) :
      |l * 2 ^ lastPlace q - q| = |l - q / 2 ^ lastPlace q| * 2 ^ lastPlace q := by
    rw [← abs_of_pos hunit, ← abs_mul, abs_of_pos hunit, sub_mul, div_mul_cancel₀ _ hunit.ne']
  rw [rounded, hscaled, hscaled]
  exact mul_le_mul_of_nonneg_right (abs_nearestEven_sub_le_intCast _ k) hunit.le

/-- No double is nearer than the rounded number. -/
theorem abs_rounded_sub_le_representable (hw : Representable w) : |rounded q - q| ≤ |w - q| := by
  by_cases hmultiple : 2 ^ (52 + lastPlace q) ≤ |w| ∨ lastPlace q = -1074
  · obtain ⟨k, rfl⟩ := hw.exists_multiple hmultiple
    exact abs_rounded_sub_le_multiple q k
  -- otherwise a power of two, which is a multiple, lies between the two
  obtain ⟨hsmall, hplace⟩ := not_or.mp hmultiple
  have hleast : -1074 ≤ lastPlace q := le_max_right _ _
  rcases eq_or_ne q 0 with rfl | hq
  · rw [rounded_zero, sub_zero, abs_zero]
    exact abs_nonneg _
  have habove := le_abs_of_lastPlace hq (by omega)
  obtain ⟨k, hk⟩ := zpow_eq_multiple (d := 52 + lastPlace q) (e := lastPlace q) (by omega)
  have hw' := abs_lt.mp (not_le.mp hsmall)
  rcases lt_or_gt_of_ne hq with hneg | hpos
  · refine (abs_rounded_sub_le_multiple q (-k)).trans ?_
    rw [abs_of_neg hneg] at habove
    rw [Int.cast_neg, neg_mul, ← hk, abs_of_nonneg (by linarith), abs_of_nonneg (by linarith)]
    linarith
  · refine (abs_rounded_sub_le_multiple q k).trans ?_
    rw [abs_of_pos hpos] at habove
    rw [← hk, abs_of_nonpos (by linarith), abs_of_nonpos (by linarith)]
    linarith

theorem rounded_le_of_le (hw : Representable w) (h : q ≤ w) : rounded q ≤ w :=
  (rounded_mono h).trans (rounded_of_representable hw).le

theorem le_rounded_of_le (hw : Representable w) (h : w ≤ q) : w ≤ rounded q :=
  (rounded_of_representable hw).ge.trans (rounded_mono h)

/-- Doubles that differ do so by the least place at least, so their difference is not rounded to
zero. -/
theorem rounded_sub_pos (hp : Representable p) (hq : Representable q) (h : p < q) :
    0 < rounded (q - p) := by
  obtain ⟨m, d, -, hd, rfl⟩ := hp
  obtain ⟨n, e, -, he, rfl⟩ := hq
  obtain ⟨k, hk⟩ := exists_intCast (m := m) hd
  obtain ⟨l, hl⟩ := exists_intCast (m := n) he
  rw [div_eq_iff (two_zpow_pos _).ne'] at hk hl
  rw [hk, hl] at h ⊢
  have hlt : k < l := by exact_mod_cast lt_of_mul_lt_mul_right h (two_zpow_pos _).le
  rw [← sub_mul]
  refine (two_zpow_pos (-1074)).trans_le (le_rounded_of_le (representable_two_zpow le_rfl) ?_)
  refine le_mul_of_one_le_left (two_zpow_pos _).le ?_
  have hstep : (1 : ℤ) ≤ l - k := by omega
  exact_mod_cast hstep

/-! ### The largest double -/

/-- Half of the last place of the largest double. -/
def halfPlace : ℚ := 2 ^ (970 : ℤ)

/-- All 53 digits set, at the largest place. -/
def largest : ℚ := (2 ^ 54 - 2) * halfPlace

theorem halfPlace_pos : 0 < halfPlace := two_zpow_pos _

theorem mul_halfPlace (k : ℕ) : 2 ^ k * halfPlace = 2 ^ (k + 970 : ℤ) := by
  rw [halfPlace, zpow_add₀ two_ne_zero, zpow_natCast]

theorem two_zpow_eq_range : (2 : ℚ) ^ (1024 : ℤ) = 2 ^ 54 * halfPlace := (mul_halfPlace 54).symm

theorem two_zpow_eq_place : (2 : ℚ) ^ (971 : ℤ) = 2 * halfPlace := by
  rw [← pow_one (2 : ℚ), mul_halfPlace 1]
  norm_num

theorem largest_pos : 0 < largest := mul_pos (by norm_num) halfPlace_pos

theorem representable_largest : Representable largest := by
  refine ⟨2 ^ 53 - 1, 971, by norm_num, by norm_num, ?_⟩
  rw [two_zpow_eq_place, largest]
  push_cast
  ring

theorem largest_lt : largest < 2 ^ (1024 : ℤ) := by
  rw [two_zpow_eq_range]
  exact mul_lt_mul_of_pos_right (by norm_num) halfPlace_pos

theorem inRange?_eq_some (h : |q| ≤ largest) : inRange? q = some q := if_pos (h.trans_lt largest_lt)

theorem eq_of_inRange? (h : inRange? p = some q) : p = q := by
  rw [inRange?] at h
  split at h
  · exact Option.some.inj h
  · cases h

theorem two_zpow_le_largest : (2 : ℚ) ^ (1023 : ℤ) ≤ largest := by
  have hdigits : (2 : ℚ) ^ (1023 : ℤ) = 2 ^ 53 * halfPlace := (mul_halfPlace 53).symm
  rw [hdigits]
  exact mul_le_mul_of_nonneg_right (by norm_num) halfPlace_pos.le

/-- Below the middle between the largest double and the end of the range, rounding stays in
range. -/
theorem abs_rounded_le_largest (h : |q| < (2 ^ 54 - 1) * halfPlace) : |rounded q| ≤ largest := by
  rw [abs_rounded]
  rcases le_or_gt |q| largest with hle | hgt
  · exact rounded_le_of_le representable_largest hle
  have hplace : lastPlace |q| = 971 := by
    have hlow : (2 : ℚ) ^ (1023 : ℤ) ≤ |q| := two_zpow_le_largest.trans hgt.le
    have hhigh : |q| < 2 ^ (1023 + 1 : ℤ) := by
      have hrange : (2 : ℚ) ^ (1023 + 1 : ℤ) = 2 ^ 54 * halfPlace := two_zpow_eq_range
      refine h.trans ?_
      rw [hrange]
      exact mul_lt_mul_of_pos_right (by norm_num) halfPlace_pos
    rw [lastPlace_abs, lastPlace_eq hlow hhigh]
    norm_num
  have hscaled : |q| / 2 ^ (971 : ℤ) < ((2 ^ 53 - 1 : ℤ) : ℚ) + 1 / 2 := by
    rw [two_zpow_eq_place, div_lt_iff₀ (mul_pos two_pos halfPlace_pos)]
    push_cast
    linarith
  have hnearest : ((nearestEven (|q| / 2 ^ (971 : ℤ)) : ℤ) : ℚ) ≤ 2 ^ 53 - 1 := by
    exact_mod_cast nearestEven_le_of_lt hscaled
  rw [rounded, hplace, largest]
  rw [two_zpow_eq_place] at hnearest ⊢
  have hpos := halfPlace_pos
  calc (nearestEven (|q| / (2 * halfPlace)) : ℚ) * (2 * halfPlace) ≤ (2 ^ 53 - 1) * (2 *
          halfPlace) :=
        mul_le_mul_of_nonneg_right hnearest (by positivity)
    _ = (2 ^ 54 - 2) * halfPlace := by ring

/-- A positive double has 53 digits, if these may start below the least place. -/
theorem Representable.exists_digits (hw : Representable w) (hpos : 0 < w) :
    ∃ m k : ℤ, -1126 ≤ k ∧ 2 ^ 52 ≤ m ∧ m < 2 ^ 53 ∧ w = m * 2 ^ k := by
  obtain ⟨m, e, hm, he, rfl⟩ := hw
  have hm' : 0 < m := by exact_mod_cast pos_of_mul_pos_left hpos (two_zpow_pos e).le
  obtain ⟨n, rfl⟩ := Int.eq_ofNat_of_zero_le hm'.le
  have hn : n ≠ 0 := by omega
  rw [abs_of_pos hm'] at hm
  have hlog : n.log2 ≤ 52 := Nat.lt_succ_iff.mp ((Nat.log2_lt hn).mpr (by exact_mod_cast hm))
  obtain ⟨k, hk⟩ := Nat.exists_eq_add_of_le hlog
  have hlow : 2 ^ 52 ≤ n * 2 ^ k := by
    rw [hk, Nat.pow_add]
    exact Nat.mul_le_mul_right _ (Nat.log2_self_le hn)
  have hhigh : n * 2 ^ k < 2 ^ 53 := by
    have hdigits : 2 ^ 53 = 2 ^ (n.log2 + 1) * 2 ^ k := by
      rw [← Nat.pow_add]
      congr 1
      omega
    rw [hdigits]
    exact Nat.mul_lt_mul_of_pos_right Nat.lt_log2_self (Nat.two_pow_pos k)
  refine ⟨(n * 2 ^ k : ℕ), e - k, by omega, by exact_mod_cast hlow, by exact_mod_cast hhigh, ?_⟩
  rw [zpow_sub₀ two_ne_zero, zpow_natCast]
  push_cast
  field_simp

/-- A share of the largest double is rounded down, since a double below it is nearer than any
above. -/
theorem rounded_largest_mul_le (hw : Representable w) (h : 0 ≤ w) :
    rounded (largest * w) ≤ largest * w := by
  rcases h.eq_or_lt with rfl | hpos
  · rw [mul_zero, rounded_zero]
  obtain ⟨m, k, hk, hlow, hhigh, rfl⟩ := hw.exists_digits hpos
  have hproduct : largest * (m * 2 ^ k) = (2 ^ 53 - 1) * m * 2 ^ (971 + k) := by
    rw [zpow_add₀ two_ne_zero, two_zpow_eq_place, largest]
    ring
  have hunit := two_zpow_pos (971 + k)
  rw [hproduct]
  rcases hlow.eq_or_lt with rfl | hlt
  · -- a power of two only moves the digits
    refine (rounded_of_representable ⟨2 ^ 53 - 1, 52 + (971 + k), by norm_num, by omega, ?_⟩).le
    rw [zpow_add₀ two_ne_zero 52]
    push_cast
    ring
  have hm : (2 ^ 52 + 1 : ℚ) ≤ m := by exact_mod_cast hlt
  have hm' : (m : ℚ) < 2 ^ 53 := by exact_mod_cast hhigh
  have hplace : lastPlace ((2 ^ 53 - 1) * (m : ℚ) * 2 ^ (971 + k)) = 53 + (971 + k) := by
    have habs : |(2 ^ 53 - 1) * (m : ℚ) * 2 ^ (971 + k)| = (2 ^ 53 - 1) * (m : ℚ) * 2 ^ (971 + k) :=
      abs_of_nonneg (mul_nonneg (by linarith) hunit.le)
    have hlow' : (2 : ℚ) ^ (105 : ℤ) ≤ (2 ^ 53 - 1) * m := by
      rw [← Nat.cast_ofNat (R := ℤ), zpow_natCast]
      linarith
    have hhigh' : (2 ^ 53 - 1) * (m : ℚ) < 2 ^ (106 : ℤ) := by
      rw [← Nat.cast_ofNat (R := ℤ), zpow_natCast]
      linarith
    rw [lastPlace_eq (k := 105 + (971 + k))]
    · omega
    · rw [habs, zpow_add₀ two_ne_zero]
      exact mul_le_mul_of_nonneg_right hlow' hunit.le
    · have hcarry : (2 : ℚ) ^ (105 + (971 + k) + 1) = 2 ^ (106 : ℤ) * 2 ^ (971 + k) := by
        rw [← zpow_add₀ two_ne_zero]
        congr 1
        omega
      rw [habs, hcarry]
      exact mul_lt_mul_of_pos_right hhigh' hunit
  have hshift : (2 : ℚ) ^ (53 + (971 + k)) = 2 ^ 53 * 2 ^ (971 + k) := zpow_add₀ two_ne_zero _ _
  rw [rounded, hplace, hshift]
  generalize (2 : ℚ) ^ (971 + k) = u at *
  have hdigits : (2 ^ 53 - 1) * m * u / (2 ^ 53 * u) = m - m / 2 ^ 53 := by
    field_simp
  have hnearest : nearestEven ((m : ℚ) - m / 2 ^ 53) ≤ m - 1 :=
    nearestEven_le_of_lt (by push_cast; linarith)
  have hnearest' : (nearestEven ((m : ℚ) - m / 2 ^ 53) : ℚ) ≤ m - 1 := by exact_mod_cast hnearest
  rw [hdigits]
  calc (nearestEven ((m : ℚ) - m / 2 ^ 53) : ℚ) * (2 ^ 53 * u) ≤ (m - 1) * (2 ^ 53 * u) :=
        mul_le_mul_of_nonneg_right hnearest' (by positivity)
    _ = ((m - 1) * 2 ^ 53) * u := by ring
    _ ≤ (2 ^ 53 - 1) * m * u := mul_le_mul_of_nonneg_right (by linarith) hunit.le

end BatteryParams.Double

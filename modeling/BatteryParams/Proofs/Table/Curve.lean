import BatteryParams.Proofs.Table.Segment

/-!
# The curve of a table

Read over the rationals, a table is a broken line. In each segment it follows the line through the
two ends, neighbouring lines meet at the breakpoint they share, and beyond the range the first and
the last line go on. A line rises if its slope is positive, and from one segment to the next the
curve passes through the breakpoints between them; so a table whose values rise, rises everywhere.

What else there is to say comes from tables with other values at the same arguments: the curve of
`Table.tilted` is the curve turned over, or with a straight line added to it. Falling values are
rising ones turned over, and a curve that rises with a steep enough line added to it, turned over or
not, has no jumps.
-/

namespace BatteryParams

namespace Table

variable {t : Table ℚ} {i j : Nat} {p q : ℚ}

/-- The slope of a segment. -/
def slope (t : Table ℚ) (i : Nat) (hi : i + 1 < t.x.length) : ℚ :=
  have hy := t.length_eq
  (t.y[i + 1] - t.y[i]) / (t.x[i + 1] - t.x[i])

/-- The line through the ends of a segment. -/
def line (t : Table ℚ) (i : Nat) (hi : i + 1 < t.x.length) (q : ℚ) : ℚ :=
  have hy := t.length_eq
  t.y[i] + t.slope i hi * (q - t.x[i])

/-! ### Lines -/

theorem lt_next (hx : t.x.Pairwise (· < ·)) (hi : i + 1 < t.x.length) : t.x[i] < t.x[i + 1] :=
  hx.isChain.getElem i hi

theorem slope_mul_width (hx : t.x.Pairwise (· < ·)) (hi : i + 1 < t.x.length)
    (hy : i + 1 < t.y.length) : t.slope i hi * (t.x[i + 1] - t.x[i]) = t.y[i + 1] - t.y[i] :=
  div_mul_cancel₀ _ (sub_ne_zero_of_ne (lt_next hx hi).ne')

theorem line_start (hi : i + 1 < t.x.length) (hy : i < t.y.length) :
    t.line i hi t.x[i] = t.y[i] := by
  rw [line, sub_self, mul_zero, add_zero]

theorem line_end (hx : t.x.Pairwise (· < ·)) (hi : i + 1 < t.x.length) (hy : i + 1 < t.y.length) :
    t.line i hi t.x[i + 1] = t.y[i + 1] := by
  rw [line, slope_mul_width hx hi hy, add_sub_cancel]

theorem line_add (t : Table ℚ) (hi : i + 1 < t.x.length) (p q : ℚ) :
    t.line i hi q = t.line i hi p + t.slope i hi * (q - p) := by
  rw [line, line]
  ring

theorem strictMono_line (hi : i + 1 < t.x.length) (hslope : 0 < t.slope i hi) :
    StrictMono (t.line i hi) := by
  intro p q h
  rw [t.line_add hi p q]
  exact lt_add_of_pos_right _ (mul_pos hslope (sub_pos.mpr h))

/-- The weighed mean of the ends of the segment used lies on its line. -/
theorem evaluate_eq_line (hx : t.x.Pairwise (· < ·)) (q : ℚ) :
    t.evaluate q = t.line (t.segment q) (t.segment_lt q) q := by
  have hlt : t.leftEnd q < t.rightEnd q := lt_next hx (t.segment_lt q)
  have hwidth : t.rightEnd q - t.leftEnd q ≠ 0 := sub_ne_zero_of_ne hlt.ne'
  have hline : t.line (t.segment q) (t.segment_lt q) q =
      t.leftValue q + (t.rightValue q - t.leftValue q) / (t.rightEnd q - t.leftEnd q) *
        (q - t.leftEnd q) := rfl
  rw [evaluate_eq, hline]
  field_simp
  ring

/-! ### Where an argument stands -/

theorem sortedAt (hx : t.x.Pairwise (· < ·)) (q : ℚ) : t.SortedAt q :=
  hx.imp fun hlt hle => hlt.le.trans hle

theorem segment_mono (hx : t.x.Pairwise (· < ·)) (h : p ≤ q) : t.segment p ≤ t.segment q := by
  have hcount : t.countUpTo p ≤ t.countUpTo q := by
    by_contra hlt
    have hstop : t.countUpTo q < t.x.length := by
      have := t.countUpTo_le_length p
      omega
    have hle : t.x[t.countUpTo q] ≤ p := ((sortedAt hx p).le_iff_lt_countUpTo hstop).mpr (by omega)
    exact not_le_of_eq_countUpTo hstop rfl (hle.trans h)
  have hp := t.segment_add_one p
  have hq := t.segment_add_one q
  omega

/-- An argument, with the segment used there: its line gives the value, and but for the two outer
segments the argument lies between its ends. -/
theorem exists_line (hx : t.x.Pairwise (· < ·)) (q : ℚ) :
    ∃ i, ∃ hi : i + 1 < t.x.length, i = t.segment q ∧ t.evaluate q = t.line i hi q ∧
      (0 < i → t.x[i] ≤ q) ∧ (i + 2 < t.x.length → q < t.x[i + 1]) :=
  ⟨t.segment q, t.segment_lt q, rfl, evaluate_eq_line hx q, (sortedAt hx q).leftEnd_le,
    fun hlast => not_le.mp ((sortedAt hx q).not_rightEnd_le hlast)⟩

/-- Up to the first breakpoint the curve is the first line. -/
theorem evaluate_before (hx : t.x.Pairwise (· < ·)) (hi : 0 + 1 < t.x.length) (h : q ≤ t.domain.1) :
    t.evaluate q = t.line 0 hi q := by
  have hzero : t.segment q = 0 := by
    by_contra hpos
    have hstart : t.leftEnd q ≤ q := (sortedAt hx q).leftEnd_le (Nat.pos_of_ne_zero hpos)
    have hlt : t.domain.1 < t.leftEnd q :=
      List.pairwise_iff_getElem.mp hx 0 (t.segment q) _ _ (Nat.pos_of_ne_zero hpos)
    exact absurd (hlt.trans_le (hstart.trans h)) (lt_irrefl _)
  simp only [evaluate_eq_line hx, hzero]

/-- From the last breakpoint on it is the last line. -/
theorem evaluate_behind (hx : t.x.Pairwise (· < ·)) (hi : i + 1 < t.x.length)
    (hlast : i + 2 = t.x.length) (h : t.domain.2 ≤ q) : t.evaluate q = t.line i hi q := by
  have hsegment : t.segment q = i := by
    rw [(sortedAt hx q).segment_behind h]
    omega
  simp only [evaluate_eq_line hx, hsegment]

/-! ### Rising curves -/

theorem slope_pos (hx : t.x.Pairwise (· < ·)) (hy : t.y.Pairwise (· < ·))
    (hi : i + 1 < t.x.length) : 0 < t.slope i hi := by
  have hlength := t.length_eq
  have hrise : t.y[i] < t.y[i + 1] := hy.isChain.getElem i (by omega)
  exact div_pos (sub_pos.mpr hrise) (sub_pos.mpr (lt_next hx hi))

theorem slope_neg (hx : t.x.Pairwise (· < ·)) (hy : t.y.Pairwise (· > ·))
    (hi : i + 1 < t.x.length) : t.slope i hi < 0 := by
  have hlength := t.length_eq
  have hfall : t.y[i + 1] < t.y[i] := hy.isChain.getElem i (by omega)
  exact div_neg_of_neg_of_pos (sub_neg.mpr hfall) (sub_pos.mpr (lt_next hx hi))

/-- The values at the breakpoints rise with the lines between them. -/
theorem values_rise (hx : t.x.Pairwise (· < ·)) (hslope : ∀ i hi, 0 < t.slope i hi) :
    t.y.Pairwise (· < ·) := by
  have hlength := t.length_eq
  rw [← List.isChain_iff_pairwise, List.isChain_iff_getElem]
  intro i hi
  have hi' : i + 1 < t.x.length := by omega
  rw [← line_start hi', ← line_end hx hi']
  exact strictMono_line hi' (hslope i hi') (lt_next hx hi')

/-- A table whose lines all rise, rises everywhere. -/
theorem strictMono_evaluate (hx : t.x.Pairwise (· < ·)) (hslope : ∀ i hi, 0 < t.slope i hi) :
    StrictMono t.evaluate := by
  intro p q hpq
  have hlength := t.length_eq
  obtain ⟨i, hi, hsegment, hp, -, hend⟩ := exists_line hx p
  obtain ⟨j, hj, hsegment', hq, hstart, -⟩ := exists_line hx q
  have hle : i ≤ j := by
    rw [hsegment, hsegment']
    exact segment_mono hx hpq.le
  rw [hp, hq]
  rcases hle.eq_or_lt with rfl | hlt
  · exact strictMono_line hi (hslope i hi) hpq
  -- in different segments, the curve passes the end of the first and the start of the second in
  -- between
  · have hvalues : t.y[i + 1] ≤ t.y[j] := by
      rcases (Nat.succ_le_of_lt hlt).eq_or_lt with rfl | hbetween
      · exact le_rfl
      · exact (List.pairwise_iff_getElem.mp (values_rise hx hslope) (i + 1) j _ _ hbetween).le
    calc t.line i hi p < t.line i hi t.x[i +
      1] := strictMono_line hi (hslope i hi) (hend (by omega))
      _ = t.y[i + 1] := line_end hx hi _
      _ ≤ t.y[j] := hvalues
      _ = t.line j hj t.x[j] := (line_start hj _).symm
      _ ≤ t.line j hj q := (strictMono_line hj (hslope j hj)).monotone (hstart (by omega))

/-! ### Other values at the same arguments -/

/-- The table with its values scaled by `a` and a line of slope `c` added to them. -/
def tilted (t : Table ℚ) (a c : ℚ) : Table ℚ where
  x := t.x
  y := List.zipWith (fun x y => a * y + c * x) t.x t.y
  length_eq := by rw [List.length_zipWith, t.length_eq, min_self]
  two_le := t.two_le

variable {a c : ℚ}

theorem slope_tilted (hx : t.x.Pairwise (· < ·)) (hi : i + 1 < t.x.length)
    (htilted : i + 1 < (t.tilted a c).x.length) :
    (t.tilted a c).slope i htilted = a * t.slope i hi + c := by
  have hy := t.length_eq
  have hwidth : t.x[i + 1] - t.x[i] ≠ 0 := sub_ne_zero_of_ne (lt_next hx hi).ne'
  have hrise := slope_mul_width hx hi (hy ▸ hi)
  refine (div_eq_iff hwidth).mpr ?_
  simp only [tilted, List.getElem_zipWith]
  linear_combination -a * hrise

theorem line_tilted (hx : t.x.Pairwise (· < ·)) (hi : i + 1 < t.x.length)
    (htilted : i + 1 < (t.tilted a c).x.length)
    (q : ℚ) : (t.tilted a c).line i htilted q = a * t.line i hi q + c * q := by
  rw [line, slope_tilted hx hi, line]
  simp only [tilted, List.getElem_zipWith]
  ring

theorem evaluate_tilted (hx : t.x.Pairwise (· < ·)) (q : ℚ) :
    (t.tilted a c).evaluate q = a * t.evaluate q + c * q := by
  have htilted : (t.tilted a c).x.Pairwise (· < ·) := hx
  rw [evaluate_eq_line htilted, evaluate_eq_line hx]
  exact line_tilted hx _ _ q

/-- A table whose lines all fall, falls everywhere: turned over, it rises. -/
theorem strictAnti_evaluate (hx : t.x.Pairwise (· < ·)) (hslope : ∀ i hi, t.slope i hi < 0) :
    StrictAnti t.evaluate := by
  have hturned : StrictMono (t.tilted (-1) 0).evaluate := by
    refine strictMono_evaluate hx fun i hi => ?_
    rw [slope_tilted hx hi]
    linarith [hslope i hi]
  intro p q hpq
  have h := hturned hpq
  rw [evaluate_tilted hx, evaluate_tilted hx] at h
  linarith

theorem exists_steeper (t : Table ℚ) : ∃ c, ∀ i hi, |t.slope i hi| < c := by
  obtain ⟨c, hc⟩ :=
    (Set.finite_range fun i : Fin (t.x.length - 1) => |t.slope i (by omega)|).bddAbove
  exact ⟨c + 1, fun i hi => (hc ⟨⟨i, by omega⟩, rfl⟩).trans_lt (lt_add_one c)⟩

/-- A curve changes no faster than its steepest line. -/
theorem exists_lipschitz (hx : t.x.Pairwise (· < ·)) :
    ∃ c, ∀ p q, |t.evaluate p - t.evaluate q| ≤ c * |p - q| := by
  obtain ⟨c, hc⟩ := t.exists_steeper
  have hrises (a : ℚ) (ha : |a| = 1) : StrictMono (t.tilted a c).evaluate := by
    refine strictMono_evaluate hx fun i hi => ?_
    have hsteep : |a * t.slope i hi| < c := by
      rw [abs_mul, ha, one_mul]
      exact hc i hi
    rw [slope_tilted hx hi]
    linarith [(abs_lt.mp hsteep).1]
  have hbound {p q : ℚ} (hpq : p ≤ q) : |t.evaluate p - t.evaluate q| ≤ c * (q - p) := by
    have hup := (hrises 1 abs_one).monotone hpq
    have hdown := (hrises (-1) (by norm_num)).monotone hpq
    rw [evaluate_tilted hx, evaluate_tilted hx] at hup hdown
    rw [abs_le]
    constructor <;> linarith
  refine ⟨c, fun p q => ?_⟩
  rcases le_total p q with hpq | hqp
  · rw [abs_sub_comm p, abs_of_nonneg (sub_nonneg.mpr hpq)]
    exact hbound hpq
  · rw [abs_sub_comm (t.evaluate p), abs_of_nonneg (sub_nonneg.mpr hqp)]
    exact hbound hqp

theorem continuous_evaluate (hx : t.x.Pairwise (· < ·)) : Continuous t.evaluate := by
  obtain ⟨c, hc⟩ := exists_lipschitz hx
  refine (LipschitzWith.of_dist_le' (K := c) fun p q => ?_).continuous
  rw [Rat.dist_eq, Rat.dist_eq]
  exact_mod_cast hc p q

/-- The values of a table make a broken line without jumps. -/
structure BrokenLine (t : Table ℚ) : Prop where
  /-- A value lies on the line of the segment used. -/
  on_line : ∀ q, ∃ hi, t.evaluate q = t.line (t.segment q) hi q
  /-- The line of a segment goes through both of its ends. So neighbouring lines meet at the
  breakpoint they share. -/
  through_ends : ∀ i (hi : i + 1 < t.x.length) (hy : i + 1 < t.y.length),
    t.line i hi t.x[i] = t.y[i] ∧ t.line i hi t.x[i + 1] = t.y[i + 1]
  continuous : Continuous t.evaluate
  /-- Below the range the slope of the first segment goes on. -/
  before : ∀ hi, ∀ p ≤ t.domain.1, ∀ q ≤ t.domain.1, t.evaluate q = t.evaluate p + t.slope 0 hi *
    (q - p)
  /-- Above it that of the last one does. -/
  behind : ∀ i hi, i + 2 = t.x.length →
    ∀ p ≥ t.domain.2, ∀ q ≥ t.domain.2, t.evaluate q = t.evaluate p + t.slope i hi * (q - p)

theorem brokenLine (hx : t.x.Pairwise (· < ·)) : t.BrokenLine where
  on_line q := ⟨t.segment_lt q, evaluate_eq_line hx q⟩
  through_ends i hi hy := ⟨line_start hi (Nat.lt_of_succ_lt hy), line_end hx hi hy⟩
  continuous := continuous_evaluate hx
  before hi p hp q hq := by
    rw [evaluate_before hx hi hp, evaluate_before hx hi hq, ← line_add]
  behind i hi hlast p hp q hq := by
    rw [evaluate_behind hx hi hlast hp, evaluate_behind hx hi hlast hq, ← line_add]

end Table

/-! ### The numbers of a table of doubles -/

namespace Double

variable {a b : Float}

/-- The number that a finite double stands for. -/
def exact (x : Float) : ℚ := (value? x).getD 0

theorem value?_eq_exact (ha : a.isFinite = true) : value? a = some (exact a) := by
  obtain ⟨p, hp⟩ := isFinite_iff_exists.mp ha
  rw [exact, hp, Option.getD_some]

theorem exact_lt_iff (ha : a.isFinite = true) (hb : b.isFinite = true) :
    exact a < exact b ↔ a < b :=
  (lt_iff_value? (value?_eq_exact ha) (value?_eq_exact hb)).symm

theorem pairwise_exact {r : Float → Float → Prop} {s : ℚ → ℚ → Prop} {xs : List Float}
    (hfinite : ∀ x ∈ xs, x.isFinite = true)
    (hrs : ∀ {a b}, a.isFinite = true → b.isFinite = true → r a b → s (exact a) (exact b))
    (hxs : xs.Pairwise r) : (xs.map exact).Pairwise s := by
  rw [List.pairwise_map]
  exact hxs.imp_of_mem fun ha hb => hrs (hfinite _ ha) (hfinite _ hb)

end Double

namespace Table

/-- A table of doubles, read over the rationals. -/
def exact (t : Table Float) : Table ℚ where
  x := t.x.map Double.exact
  y := t.y.map Double.exact
  length_eq := by rw [List.length_map, List.length_map, t.length_eq]
  two_le := by
    rw [List.length_map]
    exact t.two_le

variable {t : Table Float} {x0 : Float} {q : ℚ}

theorem Built.exact_increasing (h : t.Built) : t.exact.x.Pairwise (· < ·) :=
  Double.pairwise_exact h.isFinite_x (fun ha hb => (Double.exact_lt_iff ha hb).mpr)
    (built_iff.mp h).2

/-- Over the rationals the segment used is the same. -/
theorem Built.segment_exact (h : t.Built) (hq : Double.value? x0 = some q) :
    t.exact.segment q = t.segment x0 := by
  have hlength : t.exact.x.length = t.x.length := List.length_map _
  have hcount : t.exact.countUpTo q = t.countUpTo x0 := by
    refine (Table.sortedAt h.exact_increasing q).countUpTo_unique ?_ fun j hj => ?_
    · rw [hlength]
      exact t.countUpTo_le_length x0
    · have hj' : j < t.x.length := hlength ▸ hj
      rw [← (h.sortedAt x0).le_iff_lt_countUpTo hj',
        Double.le_iff_value? (Double.value?_eq_exact (h.isFinite_x _ (List.getElem_mem hj'))) hq]
      simp only [exact, List.getElem_map]
  rw [segment, segment, hcount, hlength]

/-- In exact arithmetic a table is a broken line without jumps, which rises wherever it is read if
the tabulated values rise, and falls if they fall. -/
theorem exact_brokenLine {x y : List Float} (h : ofLists x y = .ok t) :
    t.exact.x = x.map Double.exact ∧ t.exact.y = y.map Double.exact ∧
      (∀ x0 q, Double.value? x0 = some q → t.exact.segment q = t.segment x0) ∧
      t.exact.BrokenLine ∧
      (y.Pairwise (· < ·) → StrictMono t.exact.evaluate) ∧
        (y.Pairwise (· > ·) → StrictAnti t.exact.evaluate) := by
  have hbuilt := built_of_ofLists h
  obtain ⟨rfl, rfl, -⟩ := ofLists_eq_ok.mp h
  have hx := hbuilt.exact_increasing
  refine ⟨rfl, rfl, fun x0 q hq => hbuilt.segment_exact hq, brokenLine hx, fun hy => ?_,
    fun hy => ?_⟩
  · have hrising : t.exact.y.Pairwise (· < ·) :=
      Double.pairwise_exact hbuilt.isFinite_y (fun ha hb => (Double.exact_lt_iff ha hb).mpr) hy
    exact strictMono_evaluate hx fun i hi => slope_pos hx hrising hi
  · have hfalling : t.exact.y.Pairwise (· > ·) :=
      Double.pairwise_exact hbuilt.isFinite_y (fun ha hb => (Double.exact_lt_iff hb ha).mpr) hy
    exact strictAnti_evaluate hx fun i hi => slope_neg hx hfalling hi

/-- Falling potentials make a falling curve. -/
theorem exact_brokenLine_stoichiometryTable :
    ofLists [0.0, 0.1, 1.0] [1.72, 1.2, 0.06] = .ok stoichiometryTable ∧
      StrictAnti stoichiometryTable.exact.evaluate :=
  ⟨ofLists_stoichiometryTable,
    (exact_brokenLine ofLists_stoichiometryTable).2.2.2.2.2 (by decide)⟩

end Table

end BatteryParams

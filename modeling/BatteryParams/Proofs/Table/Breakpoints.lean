import BatteryParams.Proofs.Table.Range

/-!
# Tabulated values

At a breakpoint a table gives the value tabulated there. A breakpoint but the last starts the
segment that is used there: its share of the way is 0, even if the width of the segment is out of
range, and no step rounds. The last breakpoint ends its segment. There the share is the width
divided by itself, which is 1 only if the width is in range. Two infinities have no quotient, and
without a share the table has no value.
-/

namespace BatteryParams

namespace Double

open Float.Model (UnpackedFloat)
open Float.Model.Format (binary64)

variable {a b l r t : Float} {p q : ℚ}

/-- Finite doubles are equal if they stand for the same number, as the two zeros do. -/
theorem beq_iff_value? (ha : value? a = some p) (hb : value? b = some q) :
    (a == b) = true ↔ p = q := by
  obtain ⟨o, ho⟩ := exists_compare (isNumber_of_value? ha) (isNumber_of_value? hb)
  have hlt : o = .lt ↔ p < q := by
    rw [← lt_iff_value? ha hb, lt_iff, ho, Option.some_inj]
  have hgt : o = .gt ↔ q < p := by
    rw [← lt_iff_value? hb ha, lt_iff, compare_swap, ho, Option.map_some, Option.some_inj,
      Ordering.swap_eq_lt]
  have heq : p = q ↔ ¬p < q ∧ ¬q < p := by
    rw [not_lt, not_lt, and_comm, le_antisymm_iff]
  show ((parts a).compare (parts b) == some .eq) = true ↔ _
  rw [ho, beq_iff_eq, Option.some_inj, heq, ← hlt, ← hgt]
  cases o <;> simp

/-! ### No number -/

theorem not_isNumber_iff : ¬IsNumber a ↔ parts a = .notANumber := not_not

/-- What is no number equals nothing. -/
theorem beq_eq_false_of_not_isNumber (ha : ¬IsNumber a) : (a == b) = false := by
  show ((parts a).compare (parts b) == some .eq) = false
  rw [not_isNumber_iff.mp ha]
  rfl

theorem parts_notANumber {u : UnpackedFloat} (hu : u = .notANumber) :
    UnpackedFloat.unpack binary64 (UnpackedFloat.pack binary64 u) = .notANumber := by
  rw [hu]
  rfl

theorem not_isNumber_add (hb : ¬IsNumber b) : ¬IsNumber (a + b) := by
  rw [not_isNumber_iff] at *
  refine parts_notANumber (u := UnpackedFloat.add binary64 (parts a) (parts b)) ?_
  rw [hb]
  cases parts a <;> rfl

theorem not_isNumber_mul (hb : ¬IsNumber b) : ¬IsNumber (a * b) := by
  rw [not_isNumber_iff] at *
  refine parts_notANumber (u := UnpackedFloat.mul binary64 (parts a) (parts b)) ?_
  rw [hb]
  cases parts a <;> rfl

/-- Two infinities have no quotient. -/
theorem not_isNumber_div_self (ha : IsNumber a) (hinfinite : a.isFinite = false) :
    ¬IsNumber (a / a) := by
  have hinf : (parts a).isFinite = false := hinfinite
  rw [not_isNumber_iff]
  refine parts_notANumber (u := UnpackedFloat.div binary64 (parts a) (parts a)) ?_
  cases hparts : parts a with
  | infinity s => rfl
  | notANumber => exact absurd hparts ha
  | zero s =>
    rw [hparts] at hinf
    cases hinf
  | finite s m e hm =>
    rw [hparts] at hinf
    cases hinf

/-! ### Nothing is rounded -/

/-- The number of a double is not rounded again. -/
theorem inRange?_rounded_value (ha : value? a = some p) : inRange? (rounded p) = some p := by
  obtain ⟨hrepresentable, hbound⟩ := representable_of_value? ha
  rw [rounded_of_representable hrepresentable, inRange?_eq_some hbound]

theorem inRange?_rounded_zero : inRange? (rounded 0) = some 0 :=
  inRange?_rounded_value (a := 0) (by decide)

theorem value?_sub_self (ha : value? a = some p) : value? (a - a) = some 0 := by
  rw [value?_sub ha ha, sub_self, inRange?_rounded_zero]

/-- Weighed by the share 0, the left value is the result. -/
theorem value?_weighed_zero (hl : value? l = some p) (hr : value? r = some q)
    (ht : value? t = some 0) : value? (l * (1 - t) + r * t) = some p := by
  have hrest : value? (1 - t) = some 1 := by
    rw [value?_sub value?_one ht, sub_zero, inRange?_rounded_value value?_one]
  have hleft : value? (l * (1 - t)) = some p := by
    rw [value?_mul hl hrest, mul_one, inRange?_rounded_value hl]
  have hright : value? (r * t) = some 0 := by
    rw [value?_mul hr ht, mul_zero, inRange?_rounded_zero]
  rw [value?_add hleft hright, add_zero, inRange?_rounded_value hl]

/-- Weighed by the share 1, the right value is the result. -/
theorem value?_weighed_one (hl : value? l = some p) (hr : value? r = some q)
    (ht : value? t = some 1) : value? (l * (1 - t) + r * t) = some q := by
  have hrest : value? (1 - t) = some 0 := by
    rw [value?_sub value?_one ht, sub_self, inRange?_rounded_zero]
  have hleft : value? (l * (1 - t)) = some 0 := by
    rw [value?_mul hl hrest, mul_zero, inRange?_rounded_zero]
  have hright : value? (r * t) = some q := by
    rw [value?_mul hr ht, mul_one, inRange?_rounded_value hr]
  rw [value?_add hleft hright, zero_add, inRange?_rounded_value hr]

/-- At the start of a segment the share is 0, however wide the segment is. -/
theorem value?_share_start (ha : value? a = some p) (hb : value? b = some q) (hlt : p < q) :
    value? ((a - a) / (b - a)) = some 0 := by
  have hoffset := value?_sub_self ha
  cases hwidth : (b - a).isFinite with
  | false =>
    have hnumber : IsNumber (b - a) :=
      isNumber_sub (isNumber_of_value? hb) (isFinite_iff_exists.mpr ⟨p, ha⟩)
    exact value?_div_of_infinite (isFinite_iff_exists.mpr ⟨0, hoffset⟩) hnumber hwidth
  | true =>
    obtain ⟨w, hw⟩ := isFinite_iff_exists.mp hwidth
    obtain rfl : rounded (q - p) = w := eq_of_inRange? ((value?_sub hb ha).symm.trans hw)
    have hpos : 0 < rounded (q - p) :=
      rounded_sub_pos (representable_of_value? ha).1 (representable_of_value? hb).1 hlt
    rw [value?_div hoffset hw hpos.ne', zero_div, inRange?_rounded_zero]

/-- At its end the share is 1 if the width is in range. -/
theorem value?_share_end (ha : value? a = some p) (hb : value? b = some q) (hlt : p < q)
    (hwidth : (b - a).isFinite = true) : value? ((b - a) / (b - a)) = some 1 := by
  obtain ⟨w, hw⟩ := isFinite_iff_exists.mp hwidth
  obtain rfl : rounded (q - p) = w := eq_of_inRange? ((value?_sub hb ha).symm.trans hw)
  have hpos : 0 < rounded (q - p) :=
    rounded_sub_pos (representable_of_value? ha).1 (representable_of_value? hb).1 hlt
  rw [value?_div hw hw hpos.ne', div_self hpos.ne', inRange?_rounded_value value?_one]

end Double

namespace Table

/-! ### Where the breakpoints part -/

section

variable {α : Type} [LE α] [DecidableLE α] {t : Table α} {x0 : α} {i : Nat}

/-- Whatever does not lie above `x0` has nothing above `x0` in front of it. -/
def SortedAt (t : Table α) (x0 : α) : Prop := t.x.Pairwise fun a b => b ≤ x0 → a ≤ x0

theorem countUpTo_le_length (t : Table α) (x0 : α) : t.countUpTo x0 ≤ t.x.length :=
  (List.takeWhile_sublist _).length_le

/-- The breakpoints counted are all that do not lie above `x0`. -/
theorem SortedAt.le_iff_lt_countUpTo (h : t.SortedAt x0) (hi : i < t.x.length) :
    t.x[i] ≤ x0 ↔ i < t.countUpTo x0 := by
  refine ⟨fun hle => ?_, le_of_lt_countUpTo hi⟩
  by_contra hcount
  have hstop : t.countUpTo x0 < t.x.length := by omega
  refine not_le_of_eq_countUpTo hstop rfl ?_
  rcases Nat.eq_or_lt_of_le (Nat.not_lt.mp hcount) with heq | hlt
  · simpa only [heq] using hle
  · exact List.pairwise_iff_getElem.mp h _ i hstop hi hlt hle

/-- Any place that parts the breakpoints at `x0` is their count. -/
theorem SortedAt.countUpTo_unique (h : t.SortedAt x0) {k : Nat} (hk : k ≤ t.x.length)
    (hparts : ∀ j (hj : j < t.x.length), t.x[j] ≤ x0 ↔ j < k) : t.countUpTo x0 = k := by
  have hcount := t.countUpTo_le_length x0
  have hagree (j : Nat) (hj : j < t.x.length) : j < t.countUpTo x0 ↔ j < k := by
    rw [← h.le_iff_lt_countUpTo hj, hparts j hj]
  rcases Nat.lt_trichotomy (t.countUpTo x0) k with hlt | heq | hgt
  · exact absurd ((hagree _ (by omega)).mpr hlt) (Nat.lt_irrefl _)
  · exact heq
  · exact absurd ((hagree _ (by omega)).mp hgt) (Nat.lt_irrefl _)

end

variable {t : Table Float} {i j : Nat}

theorem Built.sortedAt (h : t.Built) (x0 : Float) : t.SortedAt x0 :=
  (built_iff.mp h).2.imp fun hlt hle => Double.le_of_lt_of_le hlt hle

/-! ### The segment of a breakpoint -/

theorem Built.le_iff_le (h : t.Built) (hi : i < t.x.length) (hj : j < t.x.length) :
    t.x[i] ≤ t.x[j] ↔ i ≤ j := by
  have hnumber (k : Nat) (hk : k < t.x.length) : Double.IsNumber t.x[k] :=
    Double.isNumber_of_isFinite (h.isFinite_x _ (List.getElem_mem hk))
  have hincreasing := List.pairwise_iff_getElem.mp (built_iff.mp h).2
  rcases Nat.lt_trichotomy i j with hlt | rfl | hgt
  · exact iff_of_true (Double.le_of_lt (hincreasing i j hi hj hlt)) hlt.le
  · exact iff_of_true (Double.le_self (hnumber i hi)) (Nat.le_refl i)
  · refine iff_of_false ?_ (by omega)
    exact (Double.not_le_iff (hnumber j hj) (hnumber i hi)).mpr (hincreasing j i hj hi hgt)

theorem Built.countUpTo_breakpoint (h : t.Built) (hj : j < t.x.length) :
    t.countUpTo t.x[j] = j + 1 := by
  refine (h.sortedAt t.x[j]).countUpTo_unique hj fun i hi => ?_
  rw [h.le_iff_le hi hj]
  omega

/-- A breakpoint but the last starts the segment used there. -/
theorem Built.segment_inner (h : t.Built) (hj : j + 1 < t.x.length) : t.segment t.x[j] = j := by
  rw [segment, h.countUpTo_breakpoint]
  omega

theorem Built.segment_last (h : t.Built) (hj : j + 2 = t.x.length) : t.segment t.x[j + 1] = j := by
  rw [segment, h.countUpTo_breakpoint]
  omega

/-! ### The value of a breakpoint -/

/-- The values at the ends of a segment are finite. -/
theorem Built.exists_values (h : t.Built) (x0 : Float) :
    ∃ p q, Double.value? (t.leftValue x0) = some p ∧ Double.value? (t.rightValue x0) = some q := by
  obtain ⟨p, hp⟩ := Double.isFinite_iff_exists.mp (h.isFinite_y (t.leftValue x0) (List.get_mem _ _))
  obtain ⟨q, hq⟩ :=
    Double.isFinite_iff_exists.mp (h.isFinite_y (t.rightValue x0) (List.get_mem _ _))
  exact ⟨p, q, hp, hq⟩

theorem Built.value?_evaluate_inner (h : t.Built) (hj : j + 1 < t.x.length) (hy : j < t.y.length) :
    Double.value? (t.evaluate t.x[j]) = Double.value? t.y[j] := by
  obtain ⟨α, β, hα, hβ, hlt⟩ := h.exists_ends t.x[j]
  obtain ⟨p, q, hp, hq⟩ := h.exists_values t.x[j]
  have hstart : t.leftEnd t.x[j] = t.x[j] := by
    simp only [leftEnd, List.get_eq_getElem, h.segment_inner hj]
  have hvalue : t.leftValue t.x[j] = t.y[j] := by
    simp only [leftValue, List.get_eq_getElem, h.segment_inner hj]
  have hshare := Double.value?_share_start hα hβ hlt
  rw [evaluate_eq, ← hvalue, hp]
  rw [hstart] at hshare ⊢
  exact Double.value?_weighed_zero hp hq hshare

/-- At the last breakpoint the right value is weighed by the width of the last segment divided by
itself. -/
theorem Built.evaluate_last (h : t.Built) (hj : j + 2 = t.x.length) :
    t.evaluate t.x[j + 1] =
      t.leftValue t.x[j + 1] * (1 - (t.x[j + 1] - t.x[j]) / (t.x[j + 1] - t.x[j])) +
        t.rightValue t.x[j + 1] * ((t.x[j + 1] - t.x[j]) / (t.x[j + 1] - t.x[j])) := by
  have hstart : t.leftEnd t.x[j + 1] = t.x[j] := by
    simp only [leftEnd, List.get_eq_getElem, h.segment_last hj]
  have hend : t.rightEnd t.x[j + 1] = t.x[j + 1] := by
    simp only [rightEnd, List.get_eq_getElem, h.segment_last hj]
  rw [evaluate_eq, hstart, hend]

theorem Built.value?_evaluate_last (h : t.Built) (hj : j + 2 = t.x.length) (hy : j + 1 < t.y.length)
    (hwidth : (t.x[j + 1] - t.x[j]).isFinite = true) :
    Double.value? (t.evaluate t.x[j + 1]) = Double.value? t.y[j + 1] := by
  obtain ⟨α, hα⟩ := Double.isFinite_iff_exists.mp (h.isFinite_x t.x[j] (List.getElem_mem _))
  obtain ⟨β, hβ⟩ := Double.isFinite_iff_exists.mp (h.isFinite_x t.x[j + 1] (List.getElem_mem _))
  obtain ⟨p, q, hp, hq⟩ := h.exists_values t.x[j + 1]
  have hlt : t.x[j] < t.x[j + 1] := (built_iff.mp h).2.isChain.getElem j (by omega)
  have hvalue : t.rightValue t.x[j + 1] = t.y[j + 1] := by
    simp only [rightValue, List.get_eq_getElem, h.segment_last hj]
  have hshare := Double.value?_share_end hα hβ ((Double.lt_iff_value? hα hβ).mp hlt) hwidth
  rw [h.evaluate_last hj, ← hvalue, hq]
  exact Double.value?_weighed_one hp hq hshare

/-- Without a share the table has no value. -/
theorem Built.not_isNumber_evaluate_last (h : t.Built) (hj : j + 2 = t.x.length)
    (hwidth : (t.x[j + 1] - t.x[j]).isFinite = false) :
    ¬Double.IsNumber (t.evaluate t.x[j + 1]) := by
  have hend : Double.IsNumber t.x[j + 1] :=
    Double.isNumber_of_isFinite (h.isFinite_x _ (List.getElem_mem _))
  have hnumber : Double.IsNumber (t.x[j + 1] - t.x[j]) :=
    Double.isNumber_sub hend (h.isFinite_x _ (List.getElem_mem _))
  rw [h.evaluate_last hj]
  exact Double.not_isNumber_add
    (Double.not_isNumber_mul (Double.not_isNumber_div_self hnumber hwidth))

/-- A table gives the value tabulated at a breakpoint, as an equal double, unless the breakpoint is
the last one and the width of the last segment is out of range. -/
theorem evaluate_breakpoint_iff {x y : List Float} (h : ofLists x y = .ok t) (hx : j < x.length)
    (hy : j < y.length) :
    (t.evaluate x[j] == y[j]) = true ↔ (j + 1 = x.length → (x[j] - x[j - 1]).isFinite = true) := by
  have hbuilt := built_of_ofLists h
  obtain ⟨rfl, rfl, -⟩ := ofLists_eq_ok.mp h
  have hequal {a : Float} (hvalue : Double.value? a = Double.value? t.y[j]) :
      (a == t.y[j]) = true := by
    obtain ⟨p, hp⟩ := Double.isFinite_iff_exists.mp (hbuilt.isFinite_y t.y[j] (List.getElem_mem hy))
    exact (Double.beq_iff_value? (hvalue.trans hp) hp).mpr rfl
  by_cases hinner : j + 1 < t.x.length
  · exact iff_of_true (hequal (hbuilt.value?_evaluate_inner hinner hy)) (by omega)
  · have htwo := t.two_le
    obtain ⟨k, rfl⟩ : ∃ k, j = k + 1 := ⟨j - 1, by omega⟩
    have hlast : k + 2 = t.x.length := by omega
    cases hwidth : (t.x[k + 1] - t.x[k]).isFinite with
    | true =>
      exact iff_of_true (hequal (hbuilt.value?_evaluate_last hlast hy hwidth)) fun _ => hwidth
    | false =>
      have hnone := hbuilt.not_isNumber_evaluate_last hlast hwidth
      refine iff_of_false (fun heq => ?_) fun hall => ?_
      · rw [Double.beq_eq_false_of_not_isNumber hnone] at heq
        cases heq
      · exact absurd (hall hlast) (by simp [hwidth])

/-- A table over a range of stoichiometries. -/
def stoichiometryTable : Table Float := ⟨[0.0, 0.1, 1.0], [1.72, 1.2, 0.06], by simp, by simp⟩

theorem ofLists_stoichiometryTable : ofLists [0.0, 0.1, 1.0]
    [1.72, 1.2, 0.06] = .ok stoichiometryTable :=
  ofLists_eq_ok.mpr ⟨rfl, rfl, by decide, by decide⟩

theorem evaluate_breakpoint_stoichiometryTable :
    ofLists [0.0, 0.1, 1.0] [1.72, 1.2, 0.06] = .ok stoichiometryTable ∧
      (stoichiometryTable.evaluate 1.0 == 0.06) = true :=
  ⟨ofLists_stoichiometryTable,
    (evaluate_breakpoint_iff (j := 2) ofLists_stoichiometryTable (by simp) (by simp)).mpr
      fun _ => by decide +kernel⟩

/-- A table whose only segment is wider than the range of doubles. -/
def wideTable : Table Float := ⟨[-1e308, 1e308], [0.0, 1.0], by simp, by simp⟩

theorem wideTable_last :
    ofLists [-1e308, 1e308] [0.0, 1.0] = .ok wideTable ∧
      (wideTable.evaluate 1e308 == 1.0) = false :=
  ⟨ofLists_eq_ok.mpr ⟨rfl, rfl, by decide +kernel, by decide +kernel⟩, by decide +kernel⟩

end Table

end BatteryParams

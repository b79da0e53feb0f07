import BatteryParams.Proofs.Table.Breakpoints

/-!
# The segment of an argument

The breakpoints that do not lie above an argument come first, since breakpoints increase. So a
search may stop at the first one above it, or halve its way there, and finds the same place.
`Table.evaluate_segment` says which segment is used: the first one before the range, the last one
from its end on, and in between the only one that the argument lies in.
-/

namespace BatteryParams

namespace Double

variable {a b : Float}

/-- Two doubles in order have a difference that does not vanish, whatever is rounded off it. -/
theorem sub_ne_zero_of_lt (ha : a.isFinite = true) (hb : b.isFinite = true) (h : a < b) :
    (b - a == 0.0) = false := by
  obtain ⟨p, hp⟩ := isFinite_iff_exists.mp ha
  obtain ⟨q, hq⟩ := isFinite_iff_exists.mp hb
  have hpos : 0 < rounded (q - p) :=
    rounded_sub_pos (representable_of_value? hp).1 (representable_of_value? hq).1
      ((lt_iff_value? hp hq).mp h)
  rw [← Bool.not_eq_true]
  intro hzero
  obtain ⟨s, hs⟩ := parts_of_beq_zero hzero
  have hvalue : value? (b - a) = some 0 := by
    rw [value?, hs]
  rw [value?_sub hq hp] at hvalue
  exact hpos.ne' (eq_of_inRange? hvalue)

end Double

namespace Table

section

variable {α : Type} [LE α] [DecidableLE α] {t : Table α} {x0 : α} {i : Nat}

theorem segment_add_one (t : Table α) (x0 : α) : t.segment x0 + 1 = min (max (t.countUpTo x0) 1)
    (t.x.length - 1) := by
  have := t.two_le
  rw [segment]
  omega

/-- All but the first segment start at or before the argument. -/
theorem SortedAt.leftEnd_le (h : t.SortedAt x0) (hfirst : 0 < t.segment x0) :
    t.leftEnd x0 ≤ x0 := by
  have := t.segment_add_one x0
  refine (h.le_iff_lt_countUpTo (Nat.lt_of_succ_lt (t.segment_lt x0))).mpr ?_
  omega

/-- All but the last one end behind it. -/
theorem SortedAt.not_rightEnd_le (h : t.SortedAt x0) (hlast : t.segment x0 + 2 < t.x.length) :
    ¬t.rightEnd x0 ≤ x0 := by
  have := t.segment_add_one x0
  refine mt (h.le_iff_lt_countUpTo (t.segment_lt x0)).mp ?_
  omega

theorem SortedAt.segment_before (h : t.SortedAt x0) (hx : ¬t.domain.1 ≤ x0) : t.segment x0 = 0 := by
  have := t.segment_add_one x0
  have hcount := mt (h.le_iff_lt_countUpTo (Nat.lt_of_succ_lt t.two_le)).mpr hx
  omega

theorem SortedAt.segment_behind (h : t.SortedAt x0) (hx : t.domain.2 ≤ x0) :
    t.segment x0 = t.x.length - 2 := by
  have := t.segment_add_one x0
  have hcount := (h.le_iff_lt_countUpTo (Nat.sub_one_lt_of_lt t.two_le)).mp hx
  omega

/-- From the first breakpoint on and before the last one, the argument lies in the segment used and
in no other. -/
theorem SortedAt.segment_within (h : t.SortedAt x0) (hlow : t.domain.1 ≤ x0)
    (hhigh : ¬t.domain.2 ≤ x0)
    (hi : i + 1 < t.x.length) : t.x[i] ≤ x0 ∧ ¬t.x[i + 1] ≤ x0 ↔ i = t.segment x0 := by
  have := t.segment_add_one x0
  have hfirst := (h.le_iff_lt_countUpTo (Nat.lt_of_succ_lt t.two_le)).mp hlow
  have hlast := mt (h.le_iff_lt_countUpTo (Nat.sub_one_lt_of_lt t.two_le)).mpr hhigh
  rw [h.le_iff_lt_countUpTo, h.le_iff_lt_countUpTo]
  omega

end

variable {t : Table Float} {x0 : Float}

/-- The segment used at a finite argument is one of the table, has a width, and is the one that the
argument belongs to: the first one before the range, the last one from its end on, and in between
the only one that the argument lies in. It stands where the breakpoints part into those that do not
lie above the argument and those that do, however that place is found. -/
theorem evaluate_segment {x y : List Float} (h : ofLists x y = .ok t) (hx0 : x0.isFinite = true) :
    ∃ i, ∃ (hx : i + 1 < x.length) (hy : i + 1 < y.length), t.segment x0 = i ∧
      t.evaluate x0 =
        y[i] * (1 - (x0 - x[i]) / (x[i + 1] - x[i])) +
          y[i + 1] * ((x0 - x[i]) / (x[i + 1] - x[i])) ∧
      (∃ k ≤ x.length, (∀ j (hj : j < x.length), x[j] ≤ x0 ↔ j < k) ∧
        i + 1 = min (max k 1) (x.length - 1)) ∧
      1 ≤ x.length - 1 ∧ x[i] < x[i + 1] ∧ (x[i + 1] - x[i] == 0.0) = false ∧
      (x0 < x[0] → i = 0) ∧
      (x[x.length - 1] ≤ x0 → i = x.length - 2) ∧
      (¬x0 < x[0] → ¬x[x.length - 1] ≤ x0 →
        x[i] ≤ x0 ∧ x0 < x[i + 1] ∧ ∀ j (hj : j + 1 < x.length), x[j] ≤ x0 → x0 < x[j + 1] →
          j = i) := by
  have hbuilt := built_of_ofLists h
  obtain ⟨rfl, rfl, -⟩ := ofLists_eq_ok.mp h
  have hsorted := hbuilt.sortedAt x0
  have htwo := t.two_le
  have hi := t.segment_lt x0
  have hfinite (j : Nat) (hj : j < t.x.length) : t.x[j].isFinite = true :=
    hbuilt.isFinite_x _ (List.getElem_mem hj)
  have hnumber : Double.IsNumber x0 := Double.isNumber_of_isFinite hx0
  have habove (j : Nat) (hj : j < t.x.length) : ¬t.x[j] ≤ x0 ↔ x0 < t.x[j] :=
    Double.not_le_iff hnumber (Double.isNumber_of_isFinite (hfinite j hj))
  have hstep := (built_iff.mp hbuilt).2.isChain.getElem _ hi
  refine ⟨t.segment x0, hi, t.length_eq ▸ hi, rfl, rfl, ?_, by omega, hstep, ?_, ?_, ?_, ?_⟩
  · exact ⟨t.countUpTo x0, t.countUpTo_le_length x0, fun j hj => hsorted.le_iff_lt_countUpTo hj,
      t.segment_add_one x0⟩
  · exact Double.sub_ne_zero_of_lt (hfinite _ _) (hfinite _ hi) hstep
  · intro hbefore
    exact hsorted.segment_before ((habove 0 _).mpr hbefore)
  · exact hsorted.segment_behind
  · intro hlow hhigh
    rw [← habove, not_not] at hlow
    have hwithin (j : Nat) (hj : j + 1 < t.x.length) : t.x[j] ≤ x0 ∧ x0 < t.x[j + 1] ↔
        j = t.segment x0 := by
      rw [← habove]
      exact hsorted.segment_within hlow hhigh hj
    obtain ⟨hstart, hend⟩ := (hwithin _ hi).mpr rfl
    exact ⟨hstart, hend, fun j hj hle hlt => (hwithin j hj).mp ⟨hle, hlt⟩⟩

/-- A stoichiometry between the last two breakpoints. -/
theorem evaluate_segment_stoichiometryTable :
    ofLists [0.0, 0.1, 1.0] [1.72, 1.2, 0.06] = .ok stoichiometryTable ∧
      (0.5 : Float).isFinite = true ∧
      stoichiometryTable.segment 0.5 = 1 := by
  have hfinite : (0.5 : Float).isFinite = true := by decide
  obtain ⟨i, hx, -, hi, -, -, -, -, -, -, -, hwithin⟩ :=
    evaluate_segment ofLists_stoichiometryTable hfinite
  obtain ⟨-, -, honly⟩ :=
    hwithin (show ¬(0.5 : Float) < 0.0 by decide) (show ¬(1.0 : Float) ≤ 0.5 by decide)
  have hsegment : 1 = i :=
    honly 1 (by simp) (show (0.1 : Float) ≤ 0.5 by decide) (show (0.5 : Float) < 1.0 by decide)
  exact ⟨ofLists_stoichiometryTable, hfinite, hi.trans hsegment.symm⟩

end Table

end BatteryParams

import BatteryParams.Proofs.Document.Sections

/-!
# The time axis of an experiment

Samples make an experiment if there are as many of each kind as there are times and no time is
followed by one that is not above it. Such times increase if all of them are numbers, as in every
document. A double that is no number compares with nothing: it is neither found out of order nor in
order, so beside one an experiment may have any times.
-/

namespace BatteryParams

namespace Double

open Float.Model (UnpackedFloat)

variable {x : Float} {xs : List Float}

theorem isNumber_iff : IsNumber x ↔ x.isNaN = false := by
  show parts x ≠ .notANumber ↔ (parts x).isNaN = false
  cases parts x with
  | notANumber => exact iff_of_false (fun h => h rfl) Bool.noConfusion
  | infinity s => exact iff_of_true UnpackedFloat.noConfusion rfl
  | zero s => exact iff_of_true UnpackedFloat.noConfusion rfl
  | finite s m e hm => exact iff_of_true UnpackedFloat.noConfusion rfl

/-- Every entry of an increasing list of two or more is below or above another one, so it is a
number. -/
theorem isNumber_of_pairwise_lt (h : xs.Pairwise (· < ·)) (hlong : 2 ≤ xs.length) :
    ∀ x ∈ xs, IsNumber x := by
  intro x hx
  obtain ⟨i, hi, rfl⟩ := List.getElem_of_mem hx
  rw [List.pairwise_iff_getElem] at h
  by_cases hfirst : i = 0
  · subst hfirst
    exact (isNumber_of_lt (h 0 1 (by omega) (by omega) (by omega))).1
  · exact (isNumber_of_lt (h 0 i (by omega) hi (by omega))).2

/-- Where no entry is found out of order, the list increases unless a comparison says nothing. -/
theorem pairwise_lt_iff_of_stall? (hstall : stall? xs = none) :
    xs.Pairwise (· < ·) ↔ xs.length ≤ 1 ∨ ∀ x ∈ xs, x.isNaN = false := by
  constructor
  · intro h
    rcases Nat.lt_or_ge 1 xs.length with hlong | hshort
    · exact .inr fun x hx => isNumber_iff.mp (isNumber_of_pairwise_lt h hlong x hx)
    · exact .inl hshort
  · rintro (hshort | hnumber)
    · rw [List.pairwise_iff_getElem]
      intro i j _ hj hij
      omega
    · exact (stall?_eq_none_iff fun x hx => isNumber_iff.mpr (hnumber x hx)).mp hstall

theorem stall?_eq_none_of_pairwise_lt (h : xs.Pairwise (· < ·)) : stall? xs = none := by
  rw [stall?_eq_none_iff_getElem]
  intro i hi
  have hlt := h.isChain.getElem i hi
  obtain ⟨hbefore, hafter⟩ := isNumber_of_lt hlt
  exact (not_le_iff hbefore hafter).mpr hlt

end Double

/-! ### Samples that make an experiment -/

namespace Experiment

variable (time current voltage : List Float) (temperature : Option (List Float))

/-- As many samples of each kind as there are times. -/
def Aligned : Prop :=
  current.length = time.length ∧ voltage.length = time.length ∧
    ∀ ts ∈ temperature, ts.length = time.length

/-- Each time lies before every later one. -/
def Ordered : Prop := ∀ i j (hij : i < j) (hj : j < time.length), time[i] < time[j]

variable {time current voltage temperature}

theorem ordered_iff_pairwise : Ordered time ↔ time.Pairwise (· < ·) := by
  rw [List.pairwise_iff_getElem]
  exact ⟨fun h i j _ hj hij => h i j hij hj, fun h i j hij hj => h i j (hij.trans hj) hj hij⟩

theorem exists_ofLists_eq_ok_iff :
    (∃ e, ofLists time current voltage temperature = .ok e) ↔
      Aligned time current voltage temperature ∧ stall? time = none := by
  simp only [ofLists_eq_ok_iff_stall?, exists_eq_left]
  rfl

variable (time current voltage temperature)

/-- Samples are accepted exactly if they are aligned and no time is followed by one that is not
above it. To be accepted and to be aligned with ordered times come to the same unless a time that is
no number keeps company with others: then nothing refuses the samples although the times are in no
order. -/
theorem ofLists_iff_ordered :
    (∀ e, ofLists time current voltage temperature = .ok e ↔
      e = ⟨time, current, voltage, temperature⟩ ∧ Aligned time current voltage temperature ∧
        ∀ i (hi : i + 1 < time.length), ¬time[i + 1] ≤ time[i]) ∧
    (((∃ e, ofLists time current voltage temperature = .ok e) ↔
        Aligned time current voltage temperature ∧ Ordered time) ↔
      (Aligned time current voltage temperature →
        (∃ i, ∃ hi : i + 1 < time.length, time[i + 1] ≤ time[i]) ∨
        time.length ≤ 1 ∨ ∀ t ∈ time, t.isNaN = false)) := by
  refine ⟨fun e => ?_, ?_⟩
  · rw [ofLists_eq_ok_iff_stall?, stall?_eq_none_iff_getElem]
    rfl
  have hstalls : (∃ i, ∃ hi : i + 1 < time.length, time[i + 1] ≤ time[i]) ↔ stall? time ≠ none := by
    rw [Ne, stall?_eq_none_iff_getElem]
    simp only [not_forall, not_not]
  rw [exists_ofLists_eq_ok_iff, ordered_iff_pairwise, hstalls]
  by_cases haligned : Aligned time current voltage temperature
  case neg => simp [haligned]
  by_cases hstall : stall? time = none
  · simp [haligned, hstall, Double.pairwise_lt_iff_of_stall? hstall]
  · have hunordered : ¬time.Pairwise (· < ·) :=
      fun h => hstall (Double.stall?_eq_none_of_pairwise_lt h)
    simp [haligned, hstall, hunordered]

/-- The last time lies before the first one, and the one between them compares with neither. -/
theorem timesAroundNaN_accepted :
    (∃ e, ofLists [2.0, 0.0 / 0.0, 1.0] [-5.0, -5.0, -5.0] [4.2, 4.1, 4.0] none = .ok e) ∧
      ¬Ordered [2.0, 0.0 / 0.0, 1.0] := by
  refine ⟨⟨_, rfl⟩, fun h => ?_⟩
  exact absurd (h 0 2 (by decide) (by decide)) (by decide)

end Experiment

end BatteryParams

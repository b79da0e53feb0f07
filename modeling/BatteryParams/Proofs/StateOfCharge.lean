import BatteryParams.Proofs.Consistency.Cutoffs
import BatteryParams.Proofs.Table.Curve

/-!
# States of charge and the voltage check

A cell has stoichiometries at the states of charge between zero and one if neither of its electrodes
is a blend, and at no others. The running arithmetic rounds them. Over the rationals the full and
the empty cell stand exactly where the voltage check asks for the potentials, and a cell that is
charged stays within its windows: its negative electrode fills and its positive one empties
(`charge_within_cutoffs`).
-/

namespace BatteryParams

namespace Window

/-! ### When there are stoichiometries -/

section

variable {α : Type} [LE α] [DecidableLE α] [Add α] [Sub α] [Mul α] [OfNat α 0] [OfNat α 1]
  {charge : α} {s : α × α}

theorem stoichiometries_eq_ok {negative positive : Option (Window α)} :
    stoichiometries negative positive charge = .ok s ↔
      ((0 : α) ≤ charge ∧ charge ≤ (1 : α)) ∧
        ∃ n ∈ negative, ∃ p ∈ positive, s = (n.rising charge, p.falling charge) := by
  unfold stoichiometries
  split
  · next hrange =>
    cases negative with
    | none => simp
    | some n =>
      cases positive with
      | none => simp
      | some p => simp [hrange, eq_comm]
  · next hrange => simp [hrange]

theorem exists_stoichiometries {negative positive : Option (Window α)} :
    (∃ s, stoichiometries negative positive charge = .ok s) ↔
      ((0 : α) ≤ charge ∧ charge ≤ (1 : α)) ∧ negative.isSome ∧ positive.isSome := by
  simp only [stoichiometries_eq_ok, Option.isSome_iff_exists]
  constructor
  · rintro ⟨s, hrange, n, hn, p, hp, -⟩
    exact ⟨hrange, ⟨n, hn⟩, ⟨p, hp⟩⟩
  · rintro ⟨hrange, ⟨n, hn⟩, ⟨p, hp⟩⟩
    exact ⟨_, hrange, n, hn, p, hp, rfl⟩

/-- There are concentrations where there are stoichiometries. -/
theorem exists_concentrations {negative positive : Option (Window α × α)} :
    (∃ s, concentrations negative positive charge = .ok s) ↔
      ((0 : α) ≤ charge ∧ charge ≤ (1 : α)) ∧ negative.isSome ∧ positive.isSome := by
  rw [← Option.isSome_map (f := fun w : Window α × α => w.1) (x := negative),
    ← Option.isSome_map (f := fun w : Window α × α => w.1) (x := positive),
      ← exists_stoichiometries]
  constructor
  · rintro ⟨s, h⟩
    obtain ⟨s', hs', -⟩ := ok_of_bind h
    exact ⟨s', hs'⟩
  · rintro ⟨⟨x, y⟩, h⟩
    obtain ⟨-, n, hn, p, hp, -⟩ := stoichiometries_eq_ok.mp h
    obtain ⟨⟨w, cn⟩, rfl, -⟩ := Option.mem_map.mp hn
    obtain ⟨⟨w', cp⟩, rfl, -⟩ := Option.mem_map.mp hp
    refine ⟨(x * cn, y * cp), ?_⟩
    rw [concentrations, h]
    rfl

end

/-! ### Windows over the rationals -/

section

variable {w : Window ℚ} {q r : ℚ}

theorem rising_zero (w : Window ℚ) : w.rising 0 = w.minimum := by simp [rising]

theorem rising_one (w : Window ℚ) : w.rising 1 = w.maximum := by simp [rising]

theorem falling_zero (w : Window ℚ) : w.falling 0 = w.maximum := by simp [falling]

theorem falling_one (w : Window ℚ) : w.falling 1 = w.minimum := by simp [falling]

theorem rising_mono (hw : w.minimum ≤ w.maximum) : Monotone w.rising := by
  intro q r hqr
  have hwidth := mul_le_mul_of_nonneg_left hqr (sub_nonneg.mpr hw)
  exact add_le_add_right hwidth w.minimum

theorem falling_anti (hw : w.minimum ≤ w.maximum) : Antitone w.falling := by
  intro q r hqr
  have hwidth := mul_le_mul_of_nonneg_left hqr (sub_nonneg.mpr hw)
  exact sub_le_sub_left hwidth w.maximum

/-- Between the empty and the full cell the rising stoichiometry lies between its ends. -/
theorem rising_mem (hw : w.minimum ≤ w.maximum) (h0 : 0 ≤ q) (h1 : q ≤ 1) :
    w.minimum ≤ w.rising q ∧ w.rising q ≤ w.maximum :=
  ⟨w.rising_zero ▸ rising_mono hw h0, w.rising_one ▸ rising_mono hw h1⟩

theorem falling_mem (hw : w.minimum ≤ w.maximum) (h0 : 0 ≤ q) (h1 : q ≤ 1) :
    w.minimum ≤ w.falling q ∧ w.falling q ≤ w.maximum :=
  ⟨w.falling_one ▸ falling_anti hw h1, w.falling_zero ▸ falling_anti hw h0⟩

/-- A window of doubles, read over the rationals. -/
def exact (w : Window Float) : Window ℚ := ⟨Double.exact w.minimum, Double.exact w.maximum⟩

end

end Window

/-- The state of charge at which a cut-off voltage is reached. -/
def Cutoff.charge : Cutoff → ℚ
  | .upper => 1
  | .lower => 0

namespace Window

theorem stoichiometries_charge (n p : Window ℚ) (cutoff : Cutoff) :
    stoichiometries (some n) (some p) cutoff.charge = .ok (cutoff.stoichiometries n p) := by
  refine stoichiometries_eq_ok.mpr ⟨?_, n, rfl, p, rfl, ?_⟩
  · cases cutoff with
    | upper => exact ⟨zero_le_one, le_refl _⟩
    | lower => exact ⟨le_refl _, zero_le_one⟩
  · cases cutoff with
    | upper => exact Prod.ext n.rising_one.symm p.falling_one.symm
    | lower => exact Prod.ext n.rising_zero.symm p.falling_zero.symm

end Window

/-! ### Documents -/

/-- The findings that come of a comparison. -/
def Comparison.findings (c : Comparison) (tolerance : Float) : List Finding :=
  match c.positiveOcp, c.negativeOcp with
  | .ok a, .ok b => if tolerance < c.gap a b then [.voltageMismatch (c.mismatch tolerance a b)]
      else []
  | _, _ => c.allMissing

/-- The stoichiometries at which a comparison asks for the potentials, the negative one first. -/
def Comparison.exactEnds (c : Comparison) : ℚ × ℚ :=
  (Double.exact c.negativeEnd, Double.exact c.positiveEnd)

namespace Document

variable {d : Document} {n p : Particle}

/-- The stoichiometries of a document, computed over the rationals. -/
def exactStoichiometries (d : Document) (charge : ℚ) : Except (ChargeFault ℚ) (ℚ × ℚ) :=
  Window.stoichiometries (d.parameters.negativeElectrode.particle?.map fun p => p.window.exact)
    (d.parameters.positiveElectrode.particle?.map fun p => p.window.exact) charge

/-- The concentrations of a document, computed over the rationals. -/
def exactConcentrations (d : Document) (charge : ℚ) : Except (ChargeFault ℚ) (ℚ × ℚ) :=
  let scaled := fun p : Particle => (p.window.exact, Double.exact p.maximumConcentration)
  Window.concentrations (d.parameters.negativeElectrode.particle?.map scaled)
    (d.parameters.positiveElectrode.particle?.map scaled) charge

/-- Whether both electrodes hold one material. -/
def IsUnblended (d : Document) : Prop :=
  d.parameters.negativeElectrode.isBlended = false ∧ d.parameters.positiveElectrode.isBlended =
    false

theorem isUnblended_iff {α : Type} (f : Particle → α) :
    d.IsUnblended ↔ (d.parameters.negativeElectrode.particle?.map f).isSome ∧
      (d.parameters.positiveElectrode.particle?.map f).isSome := by
  have hblended (e : Electrode) : e.isBlended = false ↔ (e.particle?.map f).isSome := by
    rw [Electrode.isBlended, Option.isSome_map]
    cases e.particle? <;> simp
  rw [IsUnblended, hblended, hblended]

theorem voltageFindings_eq (hn : d.parameters.negativeElectrode.particle? = some n)
    (hp : d.parameters.positiveElectrode.particle? = some p)
    (hformulas : n.ocp.formula?.isSome ∧ p.ocp.formula?.isSome) (t : Tolerances) :
    d.voltageFindings t = [Cutoff.upper, Cutoff.lower].flatMap fun cutoff =>
      (Comparison.ofCell d.parameters.cell n p cutoff).findings t.voltage := by
  simp only [voltageFindings, hn, hp, hformulas.1, hformulas.2, Bool.and_self, if_true]
  exact List.flatMap_congr fun cutoff _ => Comparison.cutoffFindings_eq _ n p t.voltage cutoff

theorem exactStoichiometries_eq_ok (hn : d.parameters.negativeElectrode.particle? = some n)
    (hp : d.parameters.positiveElectrode.particle? = some p) {q : ℚ} {s : ℚ × ℚ} :
    d.exactStoichiometries q = .ok s ↔
      (0 ≤ q ∧ q ≤ 1) ∧ s = (n.window.exact.rising q, p.window.exact.falling q) := by
  rw [exactStoichiometries, hn, hp, Window.stoichiometries_eq_ok]
  simp

/-- The full and the empty cell stand where the voltage check asks for the potentials. -/
theorem exactStoichiometries_charge (hn : d.parameters.negativeElectrode.particle? = some n)
    (hp : d.parameters.positiveElectrode.particle? = some p) (cutoff : Cutoff) :
    d.exactStoichiometries cutoff.charge =
      .ok (Comparison.ofCell d.parameters.cell n p cutoff).exactEnds := by
  rw [exactStoichiometries, hn, hp, Option.map_some, Option.map_some, Window.stoichiometries_charge]
  cases cutoff <;> rfl

/-- The numbers of an accepted document are finite, so its windows are over the rationals what they
are in doubles. -/
theorem exact_window_le_iff {j : Json} (h : ofJson j = .ok d) {e : Electrode}
    (he : e = d.parameters.negativeElectrode ∨ e = d.parameters.positiveElectrode)
    (hp : e.particle? = some p) :
    p.window.exact.minimum ≤ p.window.exact.maximum ↔
      p.minimumStoichiometry ≤ p.maximumStoichiometry := by
  have hreadable : d.Readable := readable_of_read (ofJson_eq_ok.mp h)
  obtain ⟨-, -, hnegative, hpositive, -⟩ :=
    Parameters.forall_mem_numbers.mp hreadable.parameters.numbers
  have hnumbers : ∀ x ∈ e.numbers, x.isFinite = true := by
    rcases he with rfl | rfl
    · exact hnegative
    · exact hpositive
  have hmaterial : e.material = .single p := by
    unfold Electrode.particle? at hp
    split at hp
    · next hsingle => rw [hsingle, Option.some.inj hp]
    · cases hp
  have hfinite {x : Float} (hx : x ∈ p.numbers) : x.isFinite = true := by
    refine hnumbers x ?_
    rw [Electrode.numbers, hmaterial]
    exact List.mem_append_right _ hx
  have hminimum : p.minimumStoichiometry ∈ p.numbers := by simp [Particle.numbers]
  have hmaximum : p.maximumStoichiometry ∈ p.numbers := by simp [Particle.numbers]
  exact (Double.le_iff_value? (Double.value?_eq_exact (hfinite hminimum))
    (Double.value?_eq_exact (hfinite hmaximum))).symm

end Document

/-- A document has stoichiometries and concentrations at the states of charge between zero and one
if neither electrode is a blend, and only then, over the rationals and in doubles. Over the
rationals its voltage check asks for the potentials at the stoichiometries of the full and of the
empty cell, and between the two, in windows with the minimum not above the maximum, the
stoichiometries stay within their windows, the negative one rising and the positive one falling. -/
theorem charge_within_cutoffs (d : Document) :
    (∀ q : ℚ, ((∃ s, d.exactStoichiometries q = .ok s) ↔ (0 ≤ q ∧ q ≤ 1) ∧ d.IsUnblended) ∧
      ((∃ s, d.exactConcentrations q = .ok s) ↔ (0 ≤ q ∧ q ≤ 1) ∧ d.IsUnblended)) ∧
    (∀ x : Float, ((∃ s, d.stoichiometries x = .ok s) ↔ (0 ≤ x ∧ x ≤ 1) ∧ d.IsUnblended) ∧
      ((∃ s, d.concentrations x = .ok s) ↔ (0 ≤ x ∧ x ≤ 1) ∧ d.IsUnblended)) ∧
    ∀ n p, d.parameters.negativeElectrode.particle? = some n →
      d.parameters.positiveElectrode.particle? = some p →
      (∀ cutoff, d.exactStoichiometries cutoff.charge =
        .ok (Comparison.ofCell d.parameters.cell n p cutoff).exactEnds) ∧
      (n.ocp.formula?.isSome ∧ p.ocp.formula?.isSome → ∀ t, d.voltageFindings t =
        [Cutoff.upper, Cutoff.lower].flatMap fun cutoff =>
          (Comparison.ofCell d.parameters.cell n p cutoff).findings t.voltage) ∧
      (n.window.exact.minimum ≤ n.window.exact.maximum →
        p.window.exact.minimum ≤ p.window.exact.maximum →
        (∀ q s, d.exactStoichiometries q = .ok s →
          (n.window.exact.minimum ≤ s.1 ∧ s.1 ≤ n.window.exact.maximum) ∧
            p.window.exact.minimum ≤ s.2 ∧ s.2 ≤ p.window.exact.maximum) ∧
        ∀ q r s s', q ≤ r → d.exactStoichiometries q = .ok s → d.exactStoichiometries r = .ok s' →
          s.1 ≤ s'.1 ∧ s'.2 ≤ s.2) ∧
      ∀ j, Document.ofJson j = .ok d →
        (n.window.exact.minimum ≤ n.window.exact.maximum ↔
          n.minimumStoichiometry ≤ n.maximumStoichiometry) ∧
          (p.window.exact.minimum ≤ p.window.exact.maximum ↔
            p.minimumStoichiometry ≤ p.maximumStoichiometry) := by
  refine ⟨fun q => ⟨?_, ?_⟩, fun x => ⟨?_, ?_⟩,
    fun n p hn hp => ⟨Document.exactStoichiometries_charge hn hp,
    Document.voltageFindings_eq hn hp,
    fun hwindow hwindow' => ⟨fun q s h => ?_, fun q r s s' hqr h h' => ?_⟩,
    fun j hj => ⟨Document.exact_window_le_iff hj (.inl rfl) hn,
      Document.exact_window_le_iff hj (.inr rfl) hp⟩⟩⟩
  · rw [Document.exactStoichiometries, Window.exists_stoichiometries, Document.isUnblended_iff]
  · rw [Document.exactConcentrations, Window.exists_concentrations, Document.isUnblended_iff]
  · rw [Document.stoichiometries, Window.exists_stoichiometries, Document.isUnblended_iff]
  · rw [Document.concentrations, Window.exists_concentrations, Document.isUnblended_iff]
  · obtain ⟨⟨h0, h1⟩, rfl⟩ := (Document.exactStoichiometries_eq_ok hn hp).mp h
    exact ⟨Window.rising_mem hwindow h0 h1, Window.falling_mem hwindow' h0 h1⟩
  · obtain ⟨-, rfl⟩ := (Document.exactStoichiometries_eq_ok hn hp).mp h
    obtain ⟨-, rfl⟩ := (Document.exactStoichiometries_eq_ok hn hp).mp h'
    exact ⟨Window.rising_mono hwindow hqr, Window.falling_anti hwindow' hqr⟩

theorem charge_within_cutoffs_rootDocument :
    rootDocument.parameters.negativeElectrode.particle? = some rootMaterial ∧
      rootDocument.parameters.positiveElectrode.particle? = some rootMaterial ∧
      rootMaterial.window.exact.minimum ≤ rootMaterial.window.exact.maximum ∧
      rootDocument.exactStoichiometries 0 = .ok (0, 1) ∧
      rootDocument.exactStoichiometries (1 / 4) = .ok (1 / 4, 3 / 4) ∧
      (0 : ℚ) ≤ 1 / 4 ∧ (3 / 4 : ℚ) ≤ 1 ∧
      rootDocument.voltageFindings ⟨0.001⟩ = [Cutoff.upper, Cutoff.lower].flatMap fun cutoff =>
        (Comparison.ofCell rootDocument.parameters.cell rootMaterial rootMaterial cutoff).findings
          0.001 := by
  have hempty : rootDocument.exactStoichiometries 0 = .ok (0, 1) := by decide +kernel
  have hquarter : rootDocument.exactStoichiometries (1 / 4) = .ok (1 / 4, 3 / 4) := by
    decide +kernel
  have hread : Document.ofJson rootDocument.toJson = .ok rootDocument := by decide +kernel
  obtain ⟨-, hcheck, hordered, hdoubles⟩ :=
    (charge_within_cutoffs rootDocument).2.2 rootMaterial rootMaterial rfl rfl
  have hwindow := (hdoubles _ hread).1.mpr (by decide)
  have hmonotone := (hordered hwindow hwindow).2 0 (1 / 4) _ _ (by norm_num) hempty hquarter
  exact ⟨rfl, rfl, hwindow, hempty, hquarter, hmonotone.1, hmonotone.2, hcheck ⟨rfl, rfl⟩ ⟨0.001⟩⟩

end BatteryParams

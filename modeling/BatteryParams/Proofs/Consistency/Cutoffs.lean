import BatteryParams.Proofs.Service.Finite
import BatteryParams.Proofs.Strictness

/-!
# The voltage check

At either cut-off voltage the potentials of both electrodes are asked for. One or both may have no
value, and then every one that is missing is reported. Otherwise their difference is a number, since
formulas have finite values only, and it is either within the tolerance of the declared voltage or
reported with all the numbers behind it. The tolerance decides about these reports and nothing else:
a wider one drops those that it covers and keeps all other findings.
-/

namespace BatteryParams

/-! ### One cut-off voltage -/

/-- What is compared at a cut-off voltage: the difference of two potentials, where and at which
temperature each is asked for, and the voltage declared. -/
structure Comparison where
  cutoff : Cutoff
  positive : Value
  positiveEnd : Float
  negative : Value
  negativeEnd : Float
  temperature : Float
  declared : Float

namespace Comparison

/-- The full cell stands at the minimum of the positive electrode and the maximum of the negative
one, the empty cell the other way round. -/
def ofCell (cell : Cell) (negative positive : Particle) : Cutoff → Comparison
  | .upper => ⟨.upper, positive.ocp, positive.minimumStoichiometry, negative.ocp,
      negative.maximumStoichiometry,
      cell.referenceTemperature.getD cell.ambientTemperature, cell.upperVoltageCutoff⟩
  | .lower => ⟨.lower, positive.ocp, positive.maximumStoichiometry, negative.ocp,
      negative.minimumStoichiometry,
      cell.referenceTemperature.getD cell.ambientTemperature, cell.lowerVoltageCutoff⟩

def positiveOcp (c : Comparison) : Except EvalFault Float :=
  c.positive.evaluate c.positiveEnd (some c.temperature)

def negativeOcp (c : Comparison) : Except EvalFault Float :=
  c.negative.evaluate c.negativeEnd (some c.temperature)

/-- How far the difference of two potentials is from the declared voltage. -/
def gap (c : Comparison) (positive negative : Float) : Float :=
  (positive - negative - c.declared).abs

/-- The finding about an electrode that has no potential. -/
def missing (place : Field) (stoichiometry : Float) : Except EvalFault Float → List Finding
  | .ok _ => []
  | .error fault => [.ocpEvaluation place.key stoichiometry fault]

/-- The findings about the electrodes without a potential, the positive one first. -/
def allMissing (c : Comparison) : List Finding :=
  missing ParameterField.positiveElectrode c.positiveEnd c.positiveOcp ++
    missing ParameterField.negativeElectrode c.negativeEnd c.negativeOcp

def mismatch (c : Comparison) (tolerance positive negative : Float) : VoltageMismatch where
  cutoff := c.cutoff
  positiveStoichiometry := c.positiveEnd
  positiveOcp := positive
  negativeStoichiometry := c.negativeEnd
  negativeOcp := negative
  predicted := positive - negative
  declared := c.declared
  mismatch := c.gap positive negative
  tolerance

/-- How a comparison comes out. -/
inductive Outcome where
  | fails
  | differs
  | agrees

/-- The findings that go with an outcome. -/
def Gives (c : Comparison) (tolerance : Float) (ws : List Finding) : Outcome → Prop
  | .fails => ((∃ fault, c.positiveOcp = .error fault) ∨ ∃ fault, c.negativeOcp = .error fault) ∧
      ws = c.allMissing
  | .differs => ∃ p n, c.positiveOcp = .ok p ∧ c.negativeOcp = .ok n ∧ tolerance < c.gap p n ∧
      ws = [.voltageMismatch (c.mismatch tolerance p n)]
  | .agrees => ∃ p n, c.positiveOcp = .ok p ∧ c.negativeOcp = .ok n ∧ c.gap p n ≤ tolerance ∧
      ws = []

variable {cell : Cell} {n p : Particle} {cutoff : Cutoff} {tolerance a b : Float} {c : Comparison}
    {ws : List Finding}

theorem cutoffFindings_eq (cell : Cell) (n p : Particle) (tolerance : Float) (cutoff : Cutoff) :
    cutoffFindings cell n p tolerance cutoff =
      match (ofCell cell n p cutoff).positiveOcp, (ofCell cell n p cutoff).negativeOcp with
      | .ok a, .ok b =>
        if tolerance < (ofCell cell n p cutoff).gap a b then
          [.voltageMismatch ((ofCell cell n p cutoff).mismatch tolerance a b)]
        else []
      | _, _ => (ofCell cell n p cutoff).allMissing := by
  cases cutoff with
  | upper =>
    simp only [cutoffFindings, ocpAt, allMissing, positiveOcp, negativeOcp, ofCell,
      Cutoff.stoichiometries, Particle.window]
    cases p.ocp.evaluate p.minimumStoichiometry
      (some (cell.referenceTemperature.getD cell.ambientTemperature)) <;>
      cases n.ocp.evaluate n.maximumStoichiometry
        (some (cell.referenceTemperature.getD cell.ambientTemperature)) <;> rfl
  | lower =>
    simp only [cutoffFindings, ocpAt, allMissing, positiveOcp, negativeOcp, ofCell,
      Cutoff.stoichiometries, Particle.window]
    cases p.ocp.evaluate p.maximumStoichiometry
      (some (cell.referenceTemperature.getD cell.ambientTemperature)) <;>
      cases n.ocp.evaluate n.minimumStoichiometry
        (some (cell.referenceTemperature.getD cell.ambientTemperature)) <;> rfl

/-- The potentials are finite where they have a value, and so is the declared voltage. -/
structure Sound (c : Comparison) : Prop where
  positive : ∀ a, c.positiveOcp = .ok a → a.isFinite = true
  negative : ∀ b, c.negativeOcp = .ok b → b.isFinite = true
  declared : c.declared.isFinite = true

theorem Sound.isNumber_gap (hc : c.Sound) (ha : c.positiveOcp = .ok a)
    (hb : c.negativeOcp = .ok b) : Double.IsNumber (c.gap a b) := by
  have hpredicted : Double.IsNumber (a - b) :=
    Double.isNumber_sub (Double.isNumber_of_isFinite (hc.positive a ha)) (hc.negative b hb)
  exact Double.isNumber_abs (Double.isNumber_sub hpredicted hc.declared)

theorem exists_outcome (hc : (ofCell cell n p cutoff).Sound)
    (htolerance : Double.IsNumber tolerance) :
    ∃ o, (ofCell cell n p cutoff).Gives tolerance (cutoffFindings cell n p tolerance cutoff) o := by
  rw [cutoffFindings_eq]
  cases ha : (ofCell cell n p cutoff).positiveOcp with
  | error fault => exact ⟨.fails, .inl ⟨fault, ha⟩, rfl⟩
  | ok a =>
    cases hb : (ofCell cell n p cutoff).negativeOcp with
    | error fault => exact ⟨.fails, .inr ⟨fault, hb⟩, rfl⟩
    | ok b =>
      by_cases hgap : tolerance < (ofCell cell n p cutoff).gap a b
      · exact ⟨.differs, a, b, ha, hb, hgap, if_pos hgap⟩
      · refine ⟨.agrees, a, b, ha, hb, ?_, if_neg hgap⟩
        exact (Double.not_lt_iff htolerance (hc.isNumber_gap ha hb)).mp hgap

/-- No comparison has two outcomes. -/
theorem Gives.unique {o o' : Outcome} (h : c.Gives tolerance ws o) (h' : c.Gives tolerance ws o') :
    o = o' := by
  have hvalues {a b : Float} (ha : c.positiveOcp = .ok a) (hb : c.negativeOcp = .ok b) :
      ¬((∃ fault, c.positiveOcp = .error fault) ∨ ∃ fault, c.negativeOcp = .error fault) := by
    simp [ha, hb]
  cases o with
  | fails =>
    cases o' with
    | fails => rfl
    | differs =>
      obtain ⟨a, b, ha, hb, -⟩ := h'
      exact absurd h.1 (hvalues ha hb)
    | agrees =>
      obtain ⟨a, b, ha, hb, -⟩ := h'
      exact absurd h.1 (hvalues ha hb)
  | differs =>
    obtain ⟨a, b, ha, hb, -, hws⟩ := h
    cases o' with
    | fails => exact absurd h'.1 (hvalues ha hb)
    | differs => rfl
    | agrees =>
      obtain ⟨_, _, _, _, _, hws'⟩ := h'
      rw [hws] at hws'
      cases hws'
  | agrees =>
    obtain ⟨a, b, ha, hb, -, hws⟩ := h
    cases o' with
    | fails => exact absurd h'.1 (hvalues ha hb)
    | differs =>
      obtain ⟨_, _, _, _, _, hws'⟩ := h'
      rw [hws] at hws'
      cases hws'
    | agrees => rfl

end Comparison

/-! ### A wider tolerance -/

namespace Finding

/-- Whether a finding is one of the voltage check. -/
def isVoltage : Finding → Bool
  | .voltageMismatch _ | .ocpEvaluation _ _ _ => true
  | _ => false

/-- Whether a tolerance covers the mismatch that a finding reports. -/
def isCovered (tolerance : Float) : Finding → Bool
  | .voltageMismatch m => decide (m.mismatch ≤ tolerance)
  | _ => false

/-- The finding under another tolerance. -/
def withTolerance (tolerance : Float) : Finding → Finding
  | .voltageMismatch m => .voltageMismatch { m with tolerance }
  | w => w

/-- What is left of findings under a wider tolerance. -/
def relax (tolerance : Float) (ws : List Finding) : List Finding :=
  (ws.filter fun w => !w.isCovered tolerance).map (withTolerance tolerance)

variable {tolerance : Float}

theorem relax_append (ws ws' : List Finding) :
    relax tolerance (ws ++ ws') = relax tolerance ws ++ relax tolerance ws' := by
  simp only [relax, List.filter_append, List.map_append]

theorem relax_flatMap {α : Type} (f : α → List Finding) (xs : List α) :
    relax tolerance (xs.flatMap f) = xs.flatMap fun x => relax tolerance (f x) := by
  simp only [relax, List.filter_flatMap, List.map_flatMap]

theorem relax_of_not_mismatch {ws : List Finding} (h : ∀ w ∈ ws, ∀ m, w ≠ .voltageMismatch m) :
    relax tolerance ws = ws := by
  have hkept : ∀ w ∈ ws, w.isCovered tolerance = false ∧ w.withTolerance tolerance = w := by
    intro w hw
    cases w with
    | voltageMismatch m => exact absurd rfl (h _ hw m)
    | _ => exact ⟨rfl, rfl⟩
  rw [relax, List.filter_eq_self.mpr fun w hw => by simp [(hkept w hw).1]]
  exact (List.map_congr_left fun w hw => (hkept w hw).2).trans (List.map_id ws)

theorem relax_mismatch (m : VoltageMismatch) :
    relax tolerance [.voltageMismatch m] =
      if m.mismatch ≤ tolerance then [] else [.voltageMismatch { m with tolerance }] := by
  by_cases h : m.mismatch ≤ tolerance
  · rw [if_pos h, relax, List.filter_cons_of_neg (by simp [isCovered, h])]
    rfl
  · rw [if_neg h, relax, List.filter_cons_of_pos (by simp [isCovered, h])]
    rfl

theorem isConsistency_withTolerance (w : Finding) :
    (w.withTolerance tolerance).isConsistency = w.isConsistency := by
  cases w <;> rfl

end Finding

namespace Comparison

variable {t₁ t₂ : Float}

theorem exists_of_mem_allMissing {c : Comparison} {w : Finding} (hw : w ∈ c.allMissing) :
    ∃ electrode stoichiometry fault, w = .ocpEvaluation electrode stoichiometry fault := by
  have hmissing (place : Field) (stoichiometry : Float) (ocp : Except EvalFault Float)
      (h : w ∈ missing place stoichiometry ocp) :
      ∃ electrode stoichiometry fault, w = .ocpEvaluation electrode stoichiometry fault := by
    cases ocp with
    | ok a => cases h
    | error fault => exact ⟨_, _, _, List.mem_singleton.mp h⟩
  rcases List.mem_append.mp hw with hw | hw
  · exact hmissing _ _ _ hw
  · exact hmissing _ _ _ hw

/-- Whatever comes of a comparison, it is about voltages. -/
theorem isVoltage_of_mem_cutoffFindings {w : Finding} {cell : Cell} {n p : Particle}
    {tolerance : Float}
    {cutoff : Cutoff} (hw : w ∈ cutoffFindings cell n p tolerance cutoff) : w.isVoltage = true := by
  have hmissing (h : w ∈ (ofCell cell n p cutoff).allMissing) : w.isVoltage = true := by
    obtain ⟨_, _, _, rfl⟩ := exists_of_mem_allMissing h
    rfl
  rw [cutoffFindings_eq] at hw
  split at hw
  · split at hw
    · rw [List.mem_singleton.mp hw]
      rfl
    · cases hw
  · exact hmissing hw

theorem cutoffFindings_relax (h : t₁ ≤ t₂) (cell : Cell) (n p : Particle) (cutoff : Cutoff) :
    cutoffFindings cell n p t₂ cutoff = Finding.relax t₂ (cutoffFindings cell n p t₁ cutoff) := by
  obtain ⟨hnumber₁, hnumber₂⟩ := Double.isNumber_of_le h
  have hmissing : Finding.relax t₂ (ofCell cell n p cutoff).allMissing =
      (ofCell cell n p cutoff).allMissing := by
    refine Finding.relax_of_not_mismatch fun w hw m => ?_
    obtain ⟨_, _, _, rfl⟩ := exists_of_mem_allMissing hw
    nofun
  rw [cutoffFindings_eq, cutoffFindings_eq]
  cases (ofCell cell n p cutoff).positiveOcp with
  | error fault => exact hmissing.symm
  | ok a =>
    cases (ofCell cell n p cutoff).negativeOcp with
    | error fault => exact hmissing.symm
    | ok b =>
      show (if t₂ < (ofCell cell n p cutoff).gap a b then _ else _) =
        Finding.relax t₂ (if t₁ < (ofCell cell n p cutoff).gap a b then _ else _)
      by_cases hreported : t₁ < (ofCell cell n p cutoff).gap a b
      · obtain ⟨-, hgap⟩ := Double.isNumber_of_lt hreported
        rw [if_pos hreported, Finding.relax_mismatch]
        by_cases hcovered : (ofCell cell n p cutoff).gap a b ≤ t₂
        · exact (if_neg ((Double.not_lt_iff hnumber₂ hgap).mpr hcovered)).trans
            (if_pos hcovered).symm
        · exact (if_pos ((Double.not_le_iff hnumber₂ hgap).mp hcovered)).trans
            (if_neg hcovered).symm
      · have hcovered : ¬t₂ < (ofCell cell n p cutoff).gap a b :=
          fun hlt => hreported (Double.lt_of_le_of_lt h hlt)
        rw [if_neg hreported, if_neg hcovered]
        rfl

end Comparison

namespace Document

variable {d : Document} {n p : Particle} {t₁ t₂ : Tolerances}

theorem isVoltage_of_mem {w : Finding} {t : Tolerances} (hw : w ∈ d.voltageFindings t) :
    w.isVoltage = true := by
  unfold voltageFindings at hw
  split at hw
  · split at hw
    · obtain ⟨cutoff, -, hw⟩ := List.mem_flatMap.mp hw
      exact Comparison.isVoltage_of_mem_cutoffFindings hw
    · cases hw
  · cases hw

theorem voltageFindings_relax (h : t₁.voltage ≤ t₂.voltage) :
    d.voltageFindings t₂ = Finding.relax t₂.voltage (d.voltageFindings t₁) := by
  unfold voltageFindings
  split
  · split
    · rw [Finding.relax_flatMap]
      exact List.flatMap_congr fun cutoff _ => Comparison.cutoffFindings_relax h _ _ _ cutoff
    · rfl
  · rfl

/-- The findings under a wider tolerance are those that it does not cover. -/
theorem findings_relax (h : t₁.voltage ≤ t₂.voltage) :
    d.findings t₂ = Finding.relax t₂.voltage (d.findings t₁) := by
  have hversion : ∀ w ∈
      (if d.header.version.isLegacy then [Finding.deprecatedVersion d.header.version] else []),
      ∀ m, w ≠ .voltageMismatch m := by
    intro w hw m
    split at hw
    · rw [List.mem_singleton.mp hw]
      nofun
    · cases hw
  have hcompleteness : ∀ w ∈ d.completenessFinding?.toList, ∀ m, w ≠ .voltageMismatch m := by
    intro w hw m
    unfold completenessFinding? at hw
    split at hw
    · cases hw
    · rw [List.mem_singleton.mp hw]
      nofun
  rw [findings, findings, Finding.relax_append, Finding.relax_append,
    Finding.relax_of_not_mismatch hversion,
    Finding.relax_of_not_mismatch hcompleteness, voltageFindings_relax h]

/-- In an accepted document with formulas for potentials, both comparisons are sound. -/
theorem sound_ofCell {j : Json} (h : ofJson j = .ok d) {f g : Formula} (hn : n.ocp = .formula f)
    (hp : p.ocp = .formula g)
    (cutoff : Cutoff) : (Comparison.ofCell d.parameters.cell n p cutoff).Sound := by
  have hreadable : d.Readable := readable_of_read (ofJson_eq_ok.mp h)
  have hcell := (Parameters.forall_mem_numbers.mp hreadable.parameters.numbers).1
  have hvalue {v : Value} {f : Formula} (hv : v = .formula f) {x y : Float} {T : Option Float}
      (hy : v.evaluate x T = .ok y) : y.isFinite = true := by
    subst hv
    exact Value.isFinite_of_evaluate (v := .formula f) trivial trivial hy
  cases cutoff with
  | upper => exact ⟨fun _ => hvalue hp, fun _ => hvalue hn,
      hcell _ (by simp [Comparison.ofCell, Cell.numbers])⟩
  | lower => exact ⟨fun _ => hvalue hp, fun _ => hvalue hn,
      hcell _ (by simp [Comparison.ofCell, Cell.numbers])⟩

end Document

/-- A finite tolerance that is at least as wide as a usable one is usable. -/
theorem Tolerances.check_of_le {t₁ t₂ : Tolerances} (h₁ : t₁.check = .ok ())
    (hle : t₁.voltage ≤ t₂.voltage) (hfinite : t₂.voltage.isFinite = true) : t₂.check = .ok () := by
  have hsign (hnegative : t₂.voltage < 0.0) : False := by
    have hless : t₁.voltage < 0.0 := Double.lt_of_le_of_lt hle hnegative
    rw [check, checkValue, if_pos hless] at h₁
    split at h₁
    · cases h₁
    · cases h₁
  rw [check, checkValue, if_neg (by simp [hfinite]), if_neg hsign]

/-- A strict run that succeeds does so under every wider tolerance. -/
theorem Input.take_strict_relax {decode : Json.Decoder} {i : Input} {t₁ t₂ : Tolerances}
    {a : Accepted} (hle : t₁.voltage ≤ t₂.voltage) (hfinite : t₂.voltage.isFinite = true)
    (h : i.take decode ⟨t₁, true⟩ = .ok a) :
    ∃ a', i.take decode ⟨t₂, true⟩ = .ok a' ∧ a'.document = a.document := by
  rw [Input.take_eq] at h
  obtain ⟨_, hoptions, h⟩ := ok_of_bind h
  have hcheck : t₂.check = .ok () :=
    Tolerances.check_of_le (Rule.mapError_eq_ok.mp hoptions) hle hfinite
  obtain ⟨d, hd, h⟩ := ok_of_bind h
  obtain ⟨hlenient, hclean⟩ := Input.verdict_strict_eq_ok_iff.mp h
  cases hlenient
  have hrelaxed : ∀ w ∈ d.findings t₂, w.isConsistency = false := by
    intro w hw
    rw [Document.findings_relax hle, Finding.relax, List.mem_map] at hw
    obtain ⟨w', hw', rfl⟩ := hw
    rw [Finding.isConsistency_withTolerance]
    exact hclean w' (List.mem_filter.mp hw').1
  refine ⟨⟨d, d.findings t₂⟩, ?_, rfl⟩
  rw [Input.take_of_usable (show Options.check ⟨t₂, true⟩ = .ok () from hcheck), hd, ok_bind]
  exact Input.verdict_strict_eq_ok_iff.mpr ⟨Input.verdict_lenient t₂ d, hrelaxed⟩

/-- Where both potentials are formulas, the voltage check of an accepted document is two
comparisons, each with exactly one outcome. A wider tolerance only drops the mismatches that it
covers, so it keeps a strict run from failing, whatever decodes texts. -/
theorem voltage_check_exact :
    (∀ (j : Json) (d : Document) (n p : Particle) (f g : Formula) (t : Tolerances),
      Document.ofJson j = .ok d →
      d.parameters.negativeElectrode.particle? = some n →
      d.parameters.positiveElectrode.particle? = some p →
      n.ocp = .formula f → p.ocp = .formula g → 0 ≤ t.voltage →
      ∃ upper lower, d.voltageFindings t = upper ++ lower ∧
        (∃! o, (Comparison.ofCell d.parameters.cell n p .upper).Gives t.voltage upper o) ∧
        ∃! o, (Comparison.ofCell d.parameters.cell n p .lower).Gives t.voltage lower o) ∧
    (∀ (d : Document) (t₁ t₂ : Tolerances), t₁.voltage ≤ t₂.voltage →
      d.findings t₂ = ((d.findings t₁).filter fun w => !w.isCovered t₂.voltage).map
        (Finding.withTolerance t₂.voltage)) ∧
    ∀ (decode : Json.Decoder) (i : Input) (t₁ t₂ : Tolerances) (a : Accepted),
      t₁.voltage ≤ t₂.voltage → t₂.voltage.isFinite = true → i.take decode ⟨t₁, true⟩ = .ok a →
      ∃ a', i.take decode ⟨t₂, true⟩ = .ok a' ∧ a'.document = a.document := by
  refine ⟨fun j d n p f g t h hnegative hpositive hn hp ht => ?_,
    fun d t₁ t₂ => Document.findings_relax, fun decode i t₁ t₂ a => Input.take_strict_relax⟩
  obtain ⟨-, htolerance⟩ := Double.isNumber_of_le ht
  have hunique (cutoff : Cutoff) :
      ∃! o, (Comparison.ofCell d.parameters.cell n p cutoff).Gives t.voltage
        (cutoffFindings d.parameters.cell n p t.voltage cutoff) o := by
    obtain ⟨o, ho⟩ := Comparison.exists_outcome (Document.sound_ofCell h hn hp cutoff) htolerance
    exact ⟨o, ho, fun o' ho' => ho'.unique ho⟩
  refine ⟨_, _, ?_, hunique .upper, hunique .lower⟩
  simp [Document.voltageFindings, hnegative, hpositive, hn, hp, Value.formula?]

/-- A material with this potential. -/
def rootMaterial : Particle :=
  ⟨0.0, 1.0, 30000.0, 1.0, 4.0, .constant 1.0, none, .formula rootFormula, none, 1.0, none⟩

/-- A document whose potentials are far from its cut-off voltages. -/
def rootDocument : Document :=
  let plain := Document.plain
  let electrode : Electrode := ⟨1.0, none, none, none, .single rootMaterial⟩
  { plain with
    parameters.negativeElectrode := electrode
    parameters.positiveElectrode := electrode }

theorem voltage_check_exact_rootDocument :
    (∃ upper lower, rootDocument.voltageFindings ⟨0.001⟩ = upper ++ lower ∧
      (∃! o, (Comparison.ofCell rootDocument.parameters.cell rootMaterial rootMaterial .upper).Gives
        0.001 upper o) ∧
      ∃! o, (Comparison.ofCell rootDocument.parameters.cell rootMaterial rootMaterial .lower).Gives
        0.001 lower o) ∧
    rootDocument.findings ⟨5.0⟩ =
      ((rootDocument.findings ⟨0.001⟩).filter fun w => !w.isCovered 5.0).map
        (Finding.withTolerance 5.0) ∧
    ∃ a, (Input.tree rootDocument.toJson).take Input.strictDecoder ⟨⟨6.0⟩, true⟩ = .ok a ∧
      a.document = rootDocument := by
  have hread : Document.ofJson rootDocument.toJson = .ok rootDocument := by decide +kernel
  have hfindings : rootDocument.findings ⟨5.0⟩ = [.deprecatedVersion (.legacy 1.0)] := by
    decide +kernel
  have htaken : (Input.tree rootDocument.toJson).take Input.strictDecoder ⟨⟨5.0⟩, true⟩ =
      .ok ⟨rootDocument, [.deprecatedVersion (.legacy 1.0)]⟩ := by
    have hdocument : (Input.tree rootDocument.toJson).document Input.strictDecoder =
        .ok rootDocument := by
      rw [Input.document, Input.arrived, ok_bind, hread]
      rfl
    rw [Input.take_of_usable (show Options.check ⟨⟨5.0⟩, true⟩ = .ok () by decide), hdocument,
      ok_bind, Input.verdict, hfindings]
    rfl
  obtain ⟨hexact, hrelaxed, hstrict⟩ := voltage_check_exact
  have htwice := hexact _ _ rootMaterial rootMaterial rootFormula rootFormula ⟨0.001⟩ hread rfl rfl
    rfl rfl (by decide)
  exact ⟨htwice, hrelaxed rootDocument ⟨0.001⟩ ⟨5.0⟩ (by decide),
    hstrict _ _ ⟨5.0⟩ ⟨6.0⟩ _ (by decide) (by decide) htaken⟩

end BatteryParams

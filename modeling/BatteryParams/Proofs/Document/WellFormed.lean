import BatteryParams.Proofs.Document.Places
import BatteryParams.Proofs.Value

/-!
# Well-formed documents

A `Document` can be put together from any parts. It is well formed if its version is one, its
numbers are finite, it has what its model asks for, its experiments are samples over time, and the
user's own parameters are named so that each is read as what it is: the key `description` is kept
for texts, and a group that has an entry `x` or `y` would be taken for a table.
-/

namespace BatteryParams

/-! ### The numbers of a document

The values of a document are listed by `Document.values`; what follows lists all other numbers
outside its header. -/

def Cell.numbers (c : Cell) : List Float :=
  [c.electrodeArea, c.lowerVoltageCutoff, c.upperVoltageCutoff, c.nominalCellCapacity,
    c.ambientTemperature] ++
    [c.externalSurfaceArea, c.volume, c.initialTemperature, c.referenceTemperature, c.density,
      c.specificHeatCapacity, c.thermalConductivity].flatMap Option.toList

def Electrolyte.numbers (e : Electrolyte) : List Float :=
  [e.initialConcentration, e.cationTransferenceNumber] ++
    [e.diffusivityActivationEnergy, e.conductivityActivationEnergy].flatMap Option.toList

def Particle.numbers (p : Particle) : List Float :=
  [p.minimumStoichiometry, p.maximumStoichiometry, p.maximumConcentration, p.particleRadius,
    p.surfaceAreaPerUnitVolume, p.reactionRateConstant] ++
    [p.diffusivityActivationEnergy, p.reactionRateConstantActivationEnergy].flatMap Option.toList

def BlendMaterial.numbers (c : BlendMaterial) : List Float := c.volumeFraction :: c.particle.numbers

def ActiveMaterial.numbers : ActiveMaterial → List Float
  | .single p => p.numbers
  | .blended b => b.components.flatMap fun c => c.2.numbers

def Electrode.numbers (e : Electrode) : List Float :=
  e.thickness :: [e.porosity, e.transportEfficiency, e.conductivity].flatMap Option.toList ++
    e.material.numbers

def Separator.numbers (s : Separator) : List Float :=
  [s.thickness, s.porosity, s.transportEfficiency]

def Experiment.numbers (e : Experiment) : List Float :=
  e.time ++ e.current ++ e.voltage ++ e.temperature.getD []

def Parameters.numbers (p : Parameters) : List Float :=
  p.cell.numbers ++ p.electrolyte.elim [] Electrolyte.numbers ++ p.negativeElectrode.numbers ++
    p.positiveElectrode.numbers ++ p.separator.elim [] Separator.numbers

def Document.numbers (d : Document) : List Float :=
  d.parameters.numbers ++ (d.validation.getD []).flatMap fun e => e.2.numbers

/-! ### Completeness -/

/-- An electrode has all that a model asks for. -/
structure Electrode.Complete (model : Model) (e : Electrode) : Prop where
  porosity : .spme ≤ model → e.porosity.isSome = true
  transportEfficiency : .spme ≤ model → e.transportEfficiency.isSome = true
  conductivity : .dfn ≤ model → e.conductivity.isSome = true

/-- A parameter set has all that a model asks for. -/
structure Parameters.Complete (model : Model) (p : Parameters) : Prop where
  electrolyte : .spme ≤ model → p.electrolyte.isSome = true
  negativeElectrode : p.negativeElectrode.Complete model
  positiveElectrode : p.positiveElectrode.Complete model
  separator : .spme ≤ model → p.separator.isSome = true

/-! ### Experiments and the user's own parameters -/

/-- As many samples of each kind as there are times, and the times strictly increasing. -/
structure Experiment.WellFormed (e : Experiment) : Prop where
  current : e.current.length = e.time.length
  voltage : e.voltage.length = e.time.length
  temperature : ∀ ts ∈ e.temperature, ts.length = e.time.length
  time : e.time.Pairwise (· < ·)

namespace UserParameter

mutual

/-- Only a text goes by the name of a description and a text by no other name, here and in all
groups below; and no group has an entry `x` or `y`. -/
def WellNamed (name : String) : UserParameter → Prop
  | .value _ => name ≠ descriptionKey
  | .text _ => name = descriptionKey
  | .group entries => name ≠ descriptionKey ∧ (∀ e ∈ entries, e.1 ≠ "x" ∧ e.1 ≠ "y") ∧
      AllWellNamed entries

def AllWellNamed : List (String × UserParameter) → Prop
  | [] => True
  | (name, e) :: rest => e.WellNamed name ∧ AllWellNamed rest

end

end UserParameter

/-! ### Documents -/

namespace Document

/-- What has to hold of a document for its tree to be read back as the document. -/
structure WellFormed (d : Document) : Prop where
  version : d.header.version.WellFormed
  numbers : ∀ x ∈ d.numbers, x.isFinite = true
  constants : ∀ v ∈ d.values, ∀ c, v.2 = .constant c → c.isFinite = true
  pairs : 1 ≤ d.parameters.cell.numberOfElectrodePairs
  complete : d.parameters.Complete d.header.model
  experiments : ∀ es ∈ d.validation, ∀ e ∈ es, e.2.WellFormed
  userDefined : ∀ u ∈ d.parameters.userDefined, UserParameter.AllWellNamed u

/-- Every table of a document was given by the constructor of tables. -/
def TablesBuilt (d : Document) : Prop := ∀ v ∈ d.values, ∀ t, v.2 = .table t → t.Built

end Document

/-! ### Section by section

The same conditions, sorted by the sections they are about. -/

/-- What has to hold of a parameter set for its tree to be read back. -/
structure Parameters.Readable (model : Model) (p : Parameters) : Prop where
  numbers : ∀ x ∈ p.numbers, x.isFinite = true
  values : ∀ v ∈ p.values, v.2.WellFormed
  pairs : 1 ≤ p.cell.numberOfElectrodePairs
  complete : p.Complete model
  userDefined : ∀ u ∈ p.userDefined, UserParameter.AllWellNamed u

/-- What has to hold of a document for its tree to be read back. -/
structure Document.Readable (d : Document) : Prop where
  version : d.header.version.WellFormed
  parameters : d.parameters.Readable d.header.model
  samples : ∀ es ∈ d.validation, ∀ e ∈ es, ∀ x ∈ e.2.numbers, x.isFinite = true
  experiments : ∀ es ∈ d.validation, ∀ e ∈ es, e.2.WellFormed

namespace Document

theorem forall_mem_values {d : Document} {P : Value → Prop} :
    (∀ v ∈ d.values, P v.2) ↔ ∀ v ∈ d.parameters.values, P v.2 := by
  simp only [values, below, List.forall_mem_map]

theorem forall_mem_numbers {d : Document} {P : Float → Prop} :
    (∀ x ∈ d.numbers, P x) ↔
      (∀ x ∈ d.parameters.numbers, P x) ∧ ∀ es ∈ d.validation, ∀ e ∈ es, ∀ x ∈ e.2.numbers,
        P x := by
  rw [numbers, List.forall_mem_append, List.forall_mem_flatMap]
  cases d.validation <;> simp

theorem values_wellFormed_iff {d : Document} :
    (∀ v ∈ d.values, v.2.WellFormed) ↔
      (∀ v ∈ d.values, ∀ c, v.2 = .constant c → c.isFinite = true) ∧ d.TablesBuilt := by
  constructor
  · intro h
    refine ⟨fun v hv c hc => ?_, fun v hv t ht => ?_⟩
    · have hwell := h v hv
      rwa [hc] at hwell
    · have hwell := h v hv
      rwa [ht] at hwell
  · rintro ⟨hconstants, htables⟩ v hv
    cases hkind : v.2 with
    | constant c => exact hconstants v hv c hkind
    | formula f => exact trivial
    | table t => exact htables v hv t hkind

theorem readable_iff {d : Document} : d.Readable ↔ d.WellFormed ∧ d.TablesBuilt := by
  constructor
  · intro h
    obtain ⟨hconstants, htables⟩ :=
      values_wellFormed_iff.mp (forall_mem_values.mpr h.parameters.values)
    exact ⟨⟨h.version, forall_mem_numbers.mpr ⟨h.parameters.numbers, h.samples⟩, hconstants,
      h.parameters.pairs, h.parameters.complete, h.experiments, h.parameters.userDefined⟩, htables⟩
  · rintro ⟨h, htables⟩
    obtain ⟨hnumbers, hsamples⟩ := forall_mem_numbers.mp h.numbers
    have hvalues := forall_mem_values.mp (values_wellFormed_iff.mpr ⟨h.constants, htables⟩)
    exact ⟨h.version, ⟨hnumbers, hvalues, h.pairs, h.complete, h.userDefined⟩, hsamples,
      h.experiments⟩

end Document

end BatteryParams

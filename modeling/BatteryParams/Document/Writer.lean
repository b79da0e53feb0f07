import BatteryParams.Document.Basic
import BatteryParams.Field.Tables

/-!
# Writing documents

`Document.toJson` gives the tree of a document. For every section `written` lists its entries by the
table of its fields, and `toJson` gives its tree: absent entries are left out, and every other one
stands under the key of its field.
-/

namespace BatteryParams

/-- An entry to be written, unless it is absent. -/
abbrev Written := Field × Option Json

/-- The object of the entries that are present. -/
def Json.ofWritten (entries : List Written) : Json :=
  Json.ofMembers (entries.filterMap fun e => e.2.map (e.1.key, ·))

def Header.written (h : Header) : List Written :=
  [(HeaderField.bpx, some h.version.toJson),
    (HeaderField.title, h.title.map .string),
    (HeaderField.description, h.description.map .string),
    (HeaderField.references, h.references.map .string),
    (HeaderField.model, some (.string h.model.name))]

def Header.toJson (h : Header) : Json := Json.ofWritten h.written

def Cell.written (c : Cell) : List Written :=
  [(CellField.electrodeArea, some (.ofFloat c.electrodeArea)),
    (CellField.externalSurfaceArea, c.externalSurfaceArea.map .ofFloat),
    (CellField.volume, c.volume.map .ofFloat),
    (CellField.numberOfElectrodePairs, some (.number (.natural c.numberOfElectrodePairs.toUInt64))),
    (CellField.lowerVoltageCutoff, some (.ofFloat c.lowerVoltageCutoff)),
    (CellField.upperVoltageCutoff, some (.ofFloat c.upperVoltageCutoff)),
    (CellField.nominalCellCapacity, some (.ofFloat c.nominalCellCapacity)),
    (CellField.ambientTemperature, some (.ofFloat c.ambientTemperature)),
    (CellField.initialTemperature, c.initialTemperature.map .ofFloat),
    (CellField.referenceTemperature, c.referenceTemperature.map .ofFloat),
    (CellField.density, c.density.map .ofFloat),
    (CellField.specificHeatCapacity, c.specificHeatCapacity.map .ofFloat),
    (CellField.thermalConductivity, c.thermalConductivity.map .ofFloat)]

def Cell.toJson (c : Cell) : Json := Json.ofWritten c.written

def Electrolyte.written (e : Electrolyte) : List Written :=
  [(ElectrolyteField.initialConcentration, some (.ofFloat e.initialConcentration)),
    (ElectrolyteField.cationTransferenceNumber, some (.ofFloat e.cationTransferenceNumber)),
    (ElectrolyteField.diffusivity, some e.diffusivity.toJson),
    (ElectrolyteField.diffusivityActivationEnergy, e.diffusivityActivationEnergy.map .ofFloat),
    (ElectrolyteField.conductivity, some e.conductivity.toJson),
    (ElectrolyteField.conductivityActivationEnergy, e.conductivityActivationEnergy.map .ofFloat)]

def Electrolyte.toJson (e : Electrolyte) : Json := Json.ofWritten e.written

def Particle.written (p : Particle) : List Written :=
  [(ParticleField.minimumStoichiometry, some (.ofFloat p.minimumStoichiometry)),
    (ParticleField.maximumStoichiometry, some (.ofFloat p.maximumStoichiometry)),
    (ParticleField.maximumConcentration, some (.ofFloat p.maximumConcentration)),
    (ParticleField.particleRadius, some (.ofFloat p.particleRadius)),
    (ParticleField.surfaceAreaPerUnitVolume, some (.ofFloat p.surfaceAreaPerUnitVolume)),
    (ParticleField.diffusivity, some p.diffusivity.toJson),
    (ParticleField.diffusivityActivationEnergy, p.diffusivityActivationEnergy.map .ofFloat),
    (ParticleField.ocp, some p.ocp.toJson),
    (ParticleField.entropicChange, p.entropicChange.map Value.toJson),
    (ParticleField.reactionRateConstant, some (.ofFloat p.reactionRateConstant)),
    (ParticleField.reactionRateConstantActivationEnergy,
      p.reactionRateConstantActivationEnergy.map .ofFloat)]

def BlendMaterial.written (c : BlendMaterial) : List Written :=
  (ParticleField.volumeFraction, some (.ofFloat c.volumeFraction)) :: c.particle.written

def BlendMaterial.toJson (c : BlendMaterial) : Json := Json.ofWritten c.written

def Blend.toJson (b : Blend) : Json := .object (b.components.map fun c => (c.1, c.2.toJson))

def ActiveMaterial.written : ActiveMaterial → List Written
  | .single p => p.written
  | .blended b => [(ElectrodeField.particle, some b.toJson)]

def Electrode.written (e : Electrode) : List Written :=
  [(ElectrodeField.thickness, some (.ofFloat e.thickness)),
    (ElectrodeField.porosity, e.porosity.map .ofFloat),
    (ElectrodeField.transportEfficiency, e.transportEfficiency.map .ofFloat),
    (ElectrodeField.conductivity, e.conductivity.map .ofFloat)] ++ e.material.written

def Electrode.toJson (e : Electrode) : Json := Json.ofWritten e.written

def Separator.written (s : Separator) : List Written :=
  [(SeparatorField.thickness, some (.ofFloat s.thickness)),
    (SeparatorField.porosity, some (.ofFloat s.porosity)),
    (SeparatorField.transportEfficiency, some (.ofFloat s.transportEfficiency))]

def Separator.toJson (s : Separator) : Json := Json.ofWritten s.written

def Experiment.written (e : Experiment) : List Written :=
  [(ExperimentField.time, some (.ofFloats e.time)),
    (ExperimentField.current, some (.ofFloats e.current)),
    (ExperimentField.voltage, some (.ofFloats e.voltage)),
    (ExperimentField.temperature, e.temperature.map .ofFloats)]

def Experiment.toJson (e : Experiment) : Json := Json.ofWritten e.written

namespace UserParameter

mutual

def toJson : UserParameter → Json
  | .value v => v.toJson
  | .text s => .string s
  | .group entries => .object (membersOf entries)

def membersOf : List (String × UserParameter) → List (String × Json)
  | [] => []
  | (name, e) :: rest => (name, e.toJson) :: membersOf rest

end

end UserParameter

def Parameters.written (p : Parameters) : List Written :=
  [(ParameterField.cell, some p.cell.toJson),
    (ParameterField.electrolyte, p.electrolyte.map Electrolyte.toJson),
    (ParameterField.negativeElectrode, some p.negativeElectrode.toJson),
    (ParameterField.positiveElectrode, some p.positiveElectrode.toJson),
    (ParameterField.separator, p.separator.map Separator.toJson),
    (ParameterField.userDefined, p.userDefined.map fun u => .object (UserParameter.membersOf u))]

def Parameters.toJson (p : Parameters) : Json := Json.ofWritten p.written

def Document.written (d : Document) : List Written :=
  [(DocumentField.header, some d.header.toJson),
    (DocumentField.parameterisation, some d.parameters.toJson),
    (DocumentField.validation,
      d.validation.map fun experiments => .object (experiments.map fun e => (e.1, e.2.toJson)))]

def Document.toJson (d : Document) : Json := Json.ofWritten d.written

end BatteryParams

import BatteryParams.Document.Basic
import BatteryParams.Field.Tables
import BatteryParams.Issue

/-!
# The values of a document

Every parameter that may vary is listed once, with the path that leads to it: those of the
electrolyte, of the negative and of the positive electrode, and the user's own. A path is reported
as a text, which every section of a document puts together in its own way, and by which a value is
looked up.
-/

namespace BatteryParams

/-- A value and the text of its path. -/
abbrev Listed := String × Value

def Electrolyte.valueFields (e : Electrolyte) : List (Field × Value) :=
  [(ElectrolyteField.diffusivity, e.diffusivity), (ElectrolyteField.conductivity, e.conductivity)]

def Particle.valueFields (p : Particle) : List (Field × Value) :=
  [(ParticleField.diffusivity, p.diffusivity), (ParticleField.ocp, p.ocp)] ++
    (p.entropicChange.map fun v => (ParticleField.entropicChange, v)).toList

/-- The values of a material, with paths that start at its electrode. -/
def ActiveMaterial.listing : ActiveMaterial → List Listed
  | .single p => p.valueFields.map fun f => (f.1.key, f.2)
  | .blended b =>
    b.components.flatMap fun c =>
      c.2.particle.valueFields.map fun f => (s!"{ElectrodeField.particle.key}/{c.1}/{f.1.key}", f.2)

namespace UserParameter

mutual

/-- The values of a parameter of the user's own that has a path. -/
def listing (path : String) : UserParameter → List Listed
  | .value v => [(path, v)]
  | .text _ => []
  | .group entries => groupListing path entries

def groupListing (path : String) : List (String × UserParameter) → List Listed
  | [] => []
  | (name, e) :: rest => e.listing (joinPath path name) ++ groupListing path rest

end

end UserParameter

namespace Parameters

/-- Both electrodes with their fields. -/
def electrodeFields (p : Parameters) : List (Field × Electrode) :=
  [(ParameterField.negativeElectrode, p.negativeElectrode),
    (ParameterField.positiveElectrode, p.positiveElectrode)]

/-- The values of parameters that have a path. -/
def listing (path : String) (p : Parameters) : List Listed :=
  let electrolyte := joinPath path ParameterField.electrolyte.key
  (p.electrolyte.elim [] fun e => e.valueFields.map fun f => (joinPath electrolyte f.1.key, f.2)) ++
    (p.electrodeFields.flatMap fun e =>
      e.2.material.listing.map fun v => (joinPath (joinPath path e.1.key) v.1, v.2)) ++
    (p.userDefined.elim [] fun u =>
      UserParameter.groupListing (joinPath path ParameterField.userDefined.key) u)

end Parameters

namespace Document

def listing (d : Document) : List Listed := d.parameters.listing DocumentField.parameterisation.key

/-- The first value that is listed with a path. -/
def value? (d : Document) (path : String) : Option Value :=
  (d.listing.find? (·.1 == path)).map (·.2)

end Document

end BatteryParams

import BatteryParams.Document.Basic
import BatteryParams.Field.Tables
import BatteryParams.Reading

/-!
# Reading documents

`Document.read` reads a tree section by section, each by its own table of fields and none depending
on another, and lists the issues of all. For every section `body` reads the entries of its record
and `read` its object. The model that says which fields are required is looked up first
(`statedModel`). `Document.ofJson` gives the document when there is no issue.
-/

namespace BatteryParams

/-- A document refused for its issues. -/
structure Rejection where
  issues : List Issue
deriving DecidableEq, Repr

def Rejection.message (e : Rejection) : String := schemaMessage e.issues

/-- Whether some issue is at the place that a text names. -/
def Rejection.hasPath (e : Rejection) (path : String) : Bool :=
  e.issues.any (·.reportedPath == path)

namespace Header

def body (r : Record) : Reading Header :=
  Header.mk <$> r.required HeaderField.bpx Rule.version
    <*> r.entry HeaderField.title Rule.text
    <*> r.entry HeaderField.description Rule.text
    <*> r.entry HeaderField.references Rule.text
    <*> r.required HeaderField.model Rule.model

def read (model : Model) : Path → Json → Reading Header := Record.read model HeaderField.table body

end Header

namespace Cell

def body (r : Record) : Reading Cell :=
  Cell.mk <$> r.required CellField.electrodeArea Rule.number
    <*> r.entry CellField.externalSurfaceArea Rule.number
    <*> r.entry CellField.volume Rule.number
    <*> r.required CellField.numberOfElectrodePairs Rule.count
    <*> r.required CellField.lowerVoltageCutoff Rule.number
    <*> r.required CellField.upperVoltageCutoff Rule.number
    <*> r.required CellField.nominalCellCapacity Rule.number
    <*> r.required CellField.ambientTemperature Rule.number
    <*> r.entry CellField.initialTemperature Rule.number
    <*> r.entry CellField.referenceTemperature Rule.number
    <*> r.entry CellField.density Rule.number
    <*> r.entry CellField.specificHeatCapacity Rule.number
    <*> r.entry CellField.thermalConductivity Rule.number

def read (model : Model) : Path → Json → Reading Cell := Record.read model CellField.table body

end Cell

namespace Electrolyte

def body (r : Record) : Reading Electrolyte :=
  Electrolyte.mk <$> r.required ElectrolyteField.initialConcentration Rule.number
    <*> r.required ElectrolyteField.cationTransferenceNumber Rule.number
    <*> r.required ElectrolyteField.diffusivity Rule.value
    <*> r.entry ElectrolyteField.diffusivityActivationEnergy Rule.number
    <*> r.required ElectrolyteField.conductivity Rule.value
    <*> r.entry ElectrolyteField.conductivityActivationEnergy Rule.number

def read (model : Model) : Path → Json → Reading Electrolyte :=
  Record.read model ElectrolyteField.table body

end Electrolyte

namespace Particle

def body (r : Record) : Reading Particle :=
  Particle.mk <$> r.required ParticleField.minimumStoichiometry Rule.number
    <*> r.required ParticleField.maximumStoichiometry Rule.number
    <*> r.required ParticleField.maximumConcentration Rule.number
    <*> r.required ParticleField.particleRadius Rule.number
    <*> r.required ParticleField.surfaceAreaPerUnitVolume Rule.number
    <*> r.required ParticleField.diffusivity Rule.value
    <*> r.entry ParticleField.diffusivityActivationEnergy Rule.number
    <*> r.required ParticleField.ocp Rule.value
    <*> r.entry ParticleField.entropicChange Rule.value
    <*> r.required ParticleField.reactionRateConstant Rule.number
    <*> r.entry ParticleField.reactionRateConstantActivationEnergy Rule.number

end Particle

namespace Blend

/-- The parts of one material of a blend, each if it could be read. -/
structure Parts where
  volumeFraction : Option Float
  particle : Option Particle

def Parts.component? (p : Parts) : Option BlendMaterial := do
  some ⟨← p.volumeFraction, ← p.particle⟩

def readMaterial (model : Model) (path : Path) (member : String × Json) :
    Reading (String × Parts) :=
  let body := fun r : Record =>
    let fraction := r.required ParticleField.volumeFraction Rule.number
    let particle := Particle.body r
    Reading.mk (some (Parts.mk fraction.value particle.value)) (fraction.issues ++ particle.issues)
  let parts := Record.read model (ParticleField.table ++ ParticleField.blendTable) body
    (path ++ [member.1]) member.2
  ⟨some (member.1, parts.value.getD ⟨none, none⟩), parts.issues⟩

/-- The blend of materials that were read. Their fractions are judged as soon as all of them could
be read, whatever else is wrong. -/
def ofParts (path : Path) (materials : List (String × Parts)) : Reading Blend :=
  match materials.mapM fun m => m.2.volumeFraction.map (m.1, ·) with
  | none => ⟨none, []⟩
  | some fractions =>
    match blendFault? fractions with
    | some f => .issue path (.blend f)
    | none =>
      match materials.mapM fun m => m.2.component?.map (m.1, ·) with
      | none => ⟨none, []⟩
      | some components => .ofExcept path ((ofComponents components).mapError .blend)

def read (model : Model) (path : Path) : Json → Reading Blend
  | .object members =>
    let materials := Reading.each (readMaterial model path) members
    (ofParts path (materials.value.getD [])).withIssues materials.issues
  | j => .issue path (.wrongKind .materials j.kind)

end Blend

namespace Electrode

/-- The fields of an electrode, with those of its material or with its blend. -/
def fields (isBlend : Bool) : List Field :=
  ElectrodeField.table ++ if isBlend then ElectrodeField.blendTable else ParticleField.table

def materialBody (isBlend : Bool) (r : Record) : Reading ActiveMaterial :=
  if isBlend then .blended <$> r.required ElectrodeField.particle (Blend.read r.model)
  else .single <$> Particle.body r

def body (isBlend : Bool) (r : Record) : Reading Electrode :=
  Electrode.mk <$> r.required ElectrodeField.thickness Rule.number
    <*> r.entry ElectrodeField.porosity Rule.number
    <*> r.entry ElectrodeField.transportEfficiency Rule.number
    <*> r.entry ElectrodeField.conductivity Rule.number
    <*> materialBody isBlend r

/-- Read an electrode; it is a blend when it has an entry for the materials of one. -/
def read (model : Model) (path : Path) (j : Json) : Reading Electrode :=
  let isBlend := (j.member? ElectrodeField.particle.key).isSome
  Record.read model (fields isBlend) (body isBlend) path j

end Electrode

namespace Separator

def body (r : Record) : Reading Separator :=
  Separator.mk <$> r.required SeparatorField.thickness Rule.number
    <*> r.required SeparatorField.porosity Rule.number
    <*> r.required SeparatorField.transportEfficiency Rule.number

def read (model : Model) : Path → Json → Reading Separator :=
  Record.read model SeparatorField.table body

end Separator

namespace Experiment

/-- The entries of an experiment. The samples are judged as soon as times, currents and voltages
could be read; temperatures that could not be read count as absent. -/
def body (r : Record) : Reading Experiment :=
  let time := r.required ExperimentField.time Rule.numberList
  let current := r.required ExperimentField.current Rule.numberList
  let voltage := r.required ExperimentField.voltage Rule.numberList
  let temperature := r.entry ExperimentField.temperature Rule.numberList
  let issues := time.issues ++ current.issues ++ voltage.issues ++ temperature.issues
  match time.value, current.value, voltage.value with
  | some t, some c, some v =>
    let judged :=
      Reading.ofExcept r.path ((ofLists t c v temperature.value.join).mapError .experiment)
    ⟨temperature.value.bind fun _ => judged.value, issues ++ judged.issues⟩
  | _, _, _ => ⟨none, issues⟩

def readMember (model : Model) (path : Path) (member : String × Json) :
    Reading (String × Experiment) :=
  (member.1, ·) <$> Record.read model ExperimentField.table body (path ++ [member.1]) member.2

def readAll (model : Model) (path : Path) : Json → Reading (Named Experiment)
  | .object members => Reading.each (readMember model path) members
  | j => .issue path (.wrongKind .experiments j.kind)

end Experiment

namespace UserParameter

/-- Whether an object is meant as a table and not as a group. -/
def looksLikeTable (members : List (String × Json)) : Bool :=
  members.any fun m => m.1 == "x" || m.1 == "y"

mutual

/-- Read a parameter of the user's own. The description is a text, an object that does not look like
a table is a group, and all else is a value. -/
def read (path : Path) (key : String) : Json → Reading UserParameter
  | .object members =>
    if key = descriptionKey then .issue path (.wrongKind .text .object)
    else if looksLikeTable members then .value <$> Rule.value path (.object members)
    else .group <$> readGroup path members
  | j =>
    if key = descriptionKey then .text <$> Rule.text path j
    else .value <$> Rule.value path j

def readGroup (path : Path) : List (String × Json) → Reading (List (String × UserParameter))
  | [] => .clean []
  | (key, j) :: rest =>
    (fun e es => (key, e) :: es) <$> read (path ++ [key]) key j <*> readGroup path rest

end

def readAll (path : Path) : Json → Reading UserDefined
  | .object members => readGroup path members
  | j => .issue path (.wrongKind .object j.kind)

end UserParameter

namespace Parameters

def body (r : Record) : Reading Parameters :=
  Parameters.mk <$> r.required ParameterField.cell (Cell.read r.model)
    <*> r.entry ParameterField.electrolyte (Electrolyte.read r.model)
    <*> r.required ParameterField.negativeElectrode (Electrode.read r.model)
    <*> r.required ParameterField.positiveElectrode (Electrode.read r.model)
    <*> r.entry ParameterField.separator (Separator.read r.model)
    <*> r.entry ParameterField.userDefined UserParameter.readAll

def read (model : Model) : Path → Json → Reading Parameters :=
  Record.read model ParameterField.table body

end Parameters

namespace Document

/-- The model that a tree declares in its header; the least demanding one if it declares none. -/
def statedModel (j : Json) : Model :=
  let declared := do
    let header ← j.member? DocumentField.header.key
    let name ← (← header.member? HeaderField.model.key).toText?
    Model.ofName? name
  declared.getD .spm

def body (r : Record) : Reading Document :=
  Document.mk <$> r.required DocumentField.header (Header.read r.model)
    <*> r.required DocumentField.parameterisation (Parameters.read r.model)
    <*> r.entry DocumentField.validation (Experiment.readAll r.model)

/-- Read a document, listing all its issues. -/
def read (j : Json) : Reading Document := Record.read (statedModel j) DocumentField.table body [] j

def ofJson (j : Json) : Except Rejection Document :=
  match (read j).issues, (read j).value with
  | [], some d => .ok d
  | issues, _ => .error ⟨issues⟩

end Document

end BatteryParams

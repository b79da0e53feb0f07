import BatteryParams.Document.Reader

/-!
# The issues of a document, part by part

What a section reports is what it reports of its unknown keys, then of each of its entries in turn,
and in the end, for experiments and blends, of the section as a whole. A `Part` is one entry with
the check of what is filed under its key; `parts` lists those of a section in the order in which
they are read.
-/

namespace BatteryParams

/-- The issues of a node and of what is below it. -/
abbrev Check := Path → Json → List Issue

namespace Reading

variable {α β : Type}

/-- The issues that a reader meets. -/
def check (read : Path → Json → Reading α) : Check := fun path j => (read path j).issues

@[simp]
theorem issues_map (f : α → β) (r : Reading α) : (f <$> r).issues = r.issues := rfl

@[simp]
theorem issues_seq (f : Reading (α → β)) (r : Reading α) :
    (f <*> r).issues = f.issues ++ r.issues := rfl

theorem issues_each (read : α → Reading β) (as : List α) :
    (each read as).issues = as.flatMap fun a => (read a).issues := by
  induction as with
  | nil => rfl
  | cons a as ih => rw [each, issues_seq, issues_map, ih, List.flatMap_cons]

end Reading

/-! ### Issues of one place -/

/-- Whether a rule is about a key that should not be there, or about one that should. -/
def IssueCause.aboutKey : IssueCause → Bool
  | .missing _ | .unknown => true
  | _ => false

/-- At most one issue, at a place and about what stands there. -/
def AtPlace (path : Path) (issues : List Issue) : Prop :=
  issues = [] ∨ ∃ cause : IssueCause, cause.aboutKey = false ∧ issues = [⟨path, cause⟩]

section

variable {α ε : Type} {path : Path}

theorem atPlace_nil : AtPlace path [] := .inl rfl

theorem atPlace_issue {cause : IssueCause} (h : cause.aboutKey = false) :
    AtPlace path [⟨path, cause⟩] :=
  .inr ⟨cause, h, rfl⟩

/-- At most one issue, at a place and of one kind. -/
def JudgedAt (path : Path) (cause : ε → IssueCause) (issues : List Issue) : Prop :=
  issues = [] ∨ ∃ e, issues = [⟨path, cause e⟩]

variable {cause : ε → IssueCause}

theorem judgedAt_nil : JudgedAt path cause [] := .inl rfl

theorem judgedAt_issue (e : ε) : JudgedAt path cause [⟨path, cause e⟩] := .inr ⟨e, rfl⟩

theorem judgedAt_ofExcept (cause : ε → IssueCause) (e : Except ε α) :
    JudgedAt path cause (Reading.ofExcept path (e.mapError cause)).issues := by
  cases e with
  | ok a => exact judgedAt_nil
  | error fault => exact judgedAt_issue fault

theorem JudgedAt.atPlace {issues : List Issue} (hissues : JudgedAt path cause issues)
    (h : ∀ e, (cause e).aboutKey = false) : AtPlace path issues := by
  rcases hissues with rfl | ⟨e, rfl⟩
  · exact atPlace_nil
  · exact atPlace_issue (h e)

end

namespace Rule

variable {α : Type} {path : Path} {j : Json}

theorem atPlace_expect (expected : Expected) (decode : Json → Option α) :
    AtPlace path (expect expected decode path j).issues := by
  unfold expect
  split
  · exact atPlace_nil
  · exact atPlace_issue rfl

theorem atPlace_number : AtPlace path (number path j).issues := atPlace_expect _ _

theorem atPlace_count : AtPlace path (count path j).issues := atPlace_expect _ _

theorem atPlace_text : AtPlace path (text path j).issues := atPlace_expect _ _

theorem atPlace_numberList : AtPlace path (numberList path j).issues := atPlace_expect _ _

theorem atPlace_value : AtPlace path (value path j).issues :=
  (judgedAt_ofExcept .value _).atPlace fun _ => rfl

theorem atPlace_version : AtPlace path (version path j).issues :=
  (judgedAt_ofExcept .version _).atPlace fun _ => rfl

theorem atPlace_model : AtPlace path (model path j).issues := by
  unfold model
  split
  · split
    · exact atPlace_nil
    · exact atPlace_issue rfl
  · exact atPlace_issue rfl

end Rule

/-! ### The entries of a record -/

/-- An object with tables of fields, and where it stands. -/
structure ClosedObject where
  path : Path
  fields : List Field
  members : List (String × Json)

/-- What is reported of the entry of a field, by what is filed under its key, if anything is. -/
def Field.report (f : Field) (check : Check) (model : Model) (path : Path) :
    Option Json → List Issue
  | some j => check (path ++ [f.key]) j
  | none => if f.requirement.isRequired model then [⟨path ++ [f.key], .missing f.requirement⟩]
      else []

/-- An entry of a record: its field, what is reported of it, and the closed objects in it. -/
structure Part where
  field : Field
  check : Check
  closed : Path → Json → List ClosedObject

namespace Part

/-- An entry that a rule decides as a whole. -/
def leaf {α : Type} (f : Field) (rule : Path → Json → Reading α) : Part :=
  ⟨f, Reading.check rule, fun _ _ => []⟩

def report (p : Part) (model : Model) (path : Path) (content : Option Json) : List Issue :=
  p.field.report p.check model path content

def issues (r : Record) (p : Part) : List Issue :=
  p.report r.model r.path (Named.find? p.field.key r.members)

end Part

namespace Record

variable {α : Type}

@[simp]
theorem issues_entry (r : Record) (f : Field) (read : Path → Json → Reading α) :
    (r.entry f read).issues =
      f.report (Reading.check read) r.model r.path (Named.find? f.key r.members) := by
  cases hfind : Named.find? f.key r.members with
  | some j =>
    rw [entry, hfind]
    rfl
  | none =>
    cases hrequired : f.requirement.isRequired r.model <;>
      simp [entry, hfind, hrequired, Field.report, Reading.issue, Reading.clean]

@[simp]
theorem issues_required (r : Record) (f : Field) (read : Path → Json → Reading α) :
    (r.required f read).issues =
      f.report (Reading.check read) r.model r.path (Named.find? f.key r.members) :=
  issues_entry r f read

theorem issues_read (model : Model) (fields : List Field) (body : Record → Reading α) (path : Path)
    (members : List (String × Json)) :
    (Record.read model fields body path (.object members)).issues =
      unknownIssues path fields members ++ (body ⟨path, members, model⟩).issues := rfl

end Record

/-! ### Closed objects -/

/-- A closed object, if there is an object at all. -/
def closedObject (fields : List Field) (path : Path) : Json → List ClosedObject
  | .object members => [⟨path, fields, members⟩]
  | _ => []

/-- The closed objects in a part of a record, if it is there. -/
def Part.closedIn (path : Path) (j : Json) (p : Part) : List ClosedObject :=
  (j.member? p.field.key).elim [] (p.closed (path ++ [p.field.key]))

/-- The closed objects of a record: itself, then those in its parts. -/
def closedRecord (fields : List Field) (parts : List Part) (path : Path) (j : Json) :
    List ClosedObject :=
  closedObject fields path j ++ parts.flatMap (Part.closedIn path j)

/-- The closed objects in the members of an object whose keys are free names. -/
def closedMapping (closed : Path → Json → List ClosedObject) (path : Path) :
    Json → List ClosedObject
  | .object members => members.flatMap fun m => closed (path ++ [m.1]) m.2
  | _ => []

/-! ### The parts of each section -/

open Reading

def Header.parts : List Part :=
  [.leaf HeaderField.bpx Rule.version, .leaf HeaderField.title Rule.text,
    .leaf HeaderField.description Rule.text,
    .leaf HeaderField.references Rule.text, .leaf HeaderField.model Rule.model]

theorem Header.issues_body (r : Record) : (body r).issues = parts.flatMap (Part.issues r) := by
  simp [body, parts, Part.issues, Part.report, Part.leaf]

def Cell.parts : List Part :=
  [.leaf CellField.electrodeArea Rule.number, .leaf CellField.externalSurfaceArea Rule.number,
    .leaf CellField.volume Rule.number, .leaf CellField.numberOfElectrodePairs Rule.count,
    .leaf CellField.lowerVoltageCutoff Rule.number, .leaf CellField.upperVoltageCutoff Rule.number,
    .leaf CellField.nominalCellCapacity Rule.number, .leaf CellField.ambientTemperature Rule.number,
    .leaf CellField.initialTemperature Rule.number,
    .leaf CellField.referenceTemperature Rule.number,
    .leaf CellField.density Rule.number, .leaf CellField.specificHeatCapacity Rule.number,
    .leaf CellField.thermalConductivity Rule.number]

theorem Cell.issues_body (r : Record) : (body r).issues = parts.flatMap (Part.issues r) := by
  simp [body, parts, Part.issues, Part.report, Part.leaf]

def Electrolyte.parts : List Part :=
  [.leaf ElectrolyteField.initialConcentration Rule.number,
    .leaf ElectrolyteField.cationTransferenceNumber Rule.number,
    .leaf ElectrolyteField.diffusivity Rule.value,
    .leaf ElectrolyteField.diffusivityActivationEnergy Rule.number,
    .leaf ElectrolyteField.conductivity Rule.value,
    .leaf ElectrolyteField.conductivityActivationEnergy Rule.number]

theorem Electrolyte.issues_body (r : Record) : (body r).issues = parts.flatMap (Part.issues r) := by
  simp [body, parts, Part.issues, Part.report, Part.leaf]

def Particle.parts : List Part :=
  [.leaf ParticleField.minimumStoichiometry Rule.number,
    .leaf ParticleField.maximumStoichiometry Rule.number,
    .leaf ParticleField.maximumConcentration Rule.number,
    .leaf ParticleField.particleRadius Rule.number,
    .leaf ParticleField.surfaceAreaPerUnitVolume Rule.number,
    .leaf ParticleField.diffusivity Rule.value,
    .leaf ParticleField.diffusivityActivationEnergy Rule.number, .leaf ParticleField.ocp Rule.value,
    .leaf ParticleField.entropicChange Rule.value,
    .leaf ParticleField.reactionRateConstant Rule.number,
    .leaf ParticleField.reactionRateConstantActivationEnergy Rule.number]

theorem Particle.issues_body (r : Record) : (body r).issues = parts.flatMap (Part.issues r) := by
  simp [body, parts, Part.issues, Part.report, Part.leaf]

def Separator.parts : List Part :=
  [.leaf SeparatorField.thickness Rule.number, .leaf SeparatorField.porosity Rule.number,
    .leaf SeparatorField.transportEfficiency Rule.number]

theorem Separator.issues_body (r : Record) : (body r).issues = parts.flatMap (Part.issues r) := by
  simp [body, parts, Part.issues, Part.report, Part.leaf]

namespace Blend

/-- The parts of one material. -/
def materialParts : List Part := .leaf ParticleField.volumeFraction Rule.number :: Particle.parts

/-- The tables of one material. -/
def materialFields : List Field := ParticleField.table ++ ParticleField.blendTable

/-- The entries of one material. -/
def materialBody (r : Record) : Reading Parts :=
  let fraction := r.required ParticleField.volumeFraction Rule.number
  let particle := Particle.body r
  ⟨some ⟨fraction.value, particle.value⟩, fraction.issues ++ particle.issues⟩

theorem issues_materialBody (r : Record) :
    (materialBody r).issues = materialParts.flatMap (Part.issues r) := by
  show (r.required ParticleField.volumeFraction Rule.number).issues ++ (Particle.body r).issues = _
  rw [Particle.issues_body, Record.issues_required]
  rfl

/-- The issues of a blend are those of its materials, and then that of the materials as a whole. -/
theorem issues_read (model : Model) (path : Path) (members : List (String × Json)) :
    check (read model) path (.object members) =
      (members.flatMap fun m =>
        check (Record.read model materialFields materialBody) (path ++ [m.1]) m.2) ++
        (ofParts path ((Reading.each (readMaterial model path) members).value.getD [])).issues := by
  have hmaterials : (Reading.each (readMaterial model path) members).issues =
      members.flatMap fun m =>
        check (Record.read model materialFields materialBody) (path ++ [m.1]) m.2 :=
    issues_each _ members
  rw [← hmaterials]
  rfl

/-- The materials of a blend are judged as a whole at most once, at the place of the blend. -/
theorem judgedAt_ofParts (path : Path) (materials : List (String × Parts)) :
    JudgedAt path .blend (ofParts path materials).issues := by
  unfold ofParts
  split
  · exact judgedAt_nil
  · split
    · exact judgedAt_issue _
    · split
      · exact judgedAt_nil
      · exact judgedAt_ofExcept _ _

end Blend

namespace Electrode

/-- The parts of an electrode, whatever its material. -/
def ownParts : List Part :=
  [.leaf ElectrodeField.thickness Rule.number, .leaf ElectrodeField.porosity Rule.number,
    .leaf ElectrodeField.transportEfficiency Rule.number,
    .leaf ElectrodeField.conductivity Rule.number]

/-- The parts of the material of an electrode. -/
def materialParts (model : Model) (isBlend : Bool) : List Part :=
  if isBlend then
    [⟨ElectrodeField.particle, check (Blend.read model),
      closedMapping (closedObject Blend.materialFields)⟩]
  else Particle.parts

def parts (model : Model) (isBlend : Bool) : List Part := ownParts ++ materialParts model isBlend

theorem issues_body (isBlend : Bool) (r : Record) :
    (body isBlend r).issues = (parts r.model isBlend).flatMap (Part.issues r) := by
  cases isBlend with
  | true =>
    simp [body, materialBody, parts, ownParts, materialParts, Part.issues, Part.report, Part.leaf]
  | false =>
    simp [body, materialBody, parts, ownParts, materialParts, Part.issues, Part.report, Part.leaf,
      Particle.issues_body]

/-- The closed objects in an electrode: itself and the materials of its blend. -/
def closed (path : Path) (j : Json) : List ClosedObject :=
  closedObject (fields (j.member? ElectrodeField.particle.key).isSome) path j ++
    (j.member? ElectrodeField.particle.key).elim []
      (closedMapping (closedObject Blend.materialFields) (path ++ [ElectrodeField.particle.key]))

end Electrode

namespace Experiment

def parts : List Part :=
  [.leaf ExperimentField.time Rule.numberList, .leaf ExperimentField.current Rule.numberList,
    .leaf ExperimentField.voltage Rule.numberList,
    .leaf ExperimentField.temperature Rule.numberList]

/-- The samples are judged as a whole at most once, at the place of the experiment. -/
theorem issues_body (r : Record) :
    ∃ judged, JudgedAt r.path .experiment judged ∧
      (body r).issues = parts.flatMap (Part.issues r) ++ judged := by
  have hparts :
      parts.flatMap (Part.issues r) = (r.required ExperimentField.time Rule.numberList).issues ++
      (r.required ExperimentField.current Rule.numberList).issues ++
      (r.required ExperimentField.voltage Rule.numberList).issues ++
      (r.entry ExperimentField.temperature Rule.numberList).issues := by
    simp [parts, Part.issues, Part.report, Part.leaf]
  rw [hparts]
  unfold body
  dsimp only
  split
  · exact ⟨_, judgedAt_ofExcept _ _, rfl⟩
  · exact ⟨[], judgedAt_nil, (List.append_nil _).symm⟩

theorem issues_readAll (model : Model) (path : Path) (members : List (String × Json)) :
    check (readAll model) path (.object members) =
      members.flatMap fun m =>
        check (Record.read model ExperimentField.table body) (path ++ [m.1]) m.2 :=
  issues_each _ members

end Experiment

namespace Parameters

def parts (model : Model) : List Part :=
  [⟨ParameterField.cell, check (Cell.read model), closedObject CellField.table⟩,
    ⟨ParameterField.electrolyte, check (Electrolyte.read model),
      closedObject ElectrolyteField.table⟩,
    ⟨ParameterField.negativeElectrode, check (Electrode.read model), Electrode.closed⟩,
    ⟨ParameterField.positiveElectrode, check (Electrode.read model), Electrode.closed⟩,
    ⟨ParameterField.separator, check (Separator.read model), closedObject SeparatorField.table⟩,
    ⟨ParameterField.userDefined, check UserParameter.readAll, fun _ _ => []⟩]

theorem issues_body (r : Record) : (body r).issues = (parts r.model).flatMap (Part.issues r) := by
  simp [body, parts, Part.issues, Part.report]

end Parameters

namespace Document

def parts (model : Model) : List Part :=
  [⟨DocumentField.header, check (Header.read model), closedObject HeaderField.table⟩,
    ⟨DocumentField.parameterisation, check (Parameters.read model),
      closedRecord ParameterField.table (Parameters.parts model)⟩,
    ⟨DocumentField.validation, check (Experiment.readAll model),
      closedMapping (closedObject ExperimentField.table)⟩]

theorem issues_body (r : Record) : (body r).issues = (parts r.model).flatMap (Part.issues r) := by
  simp [body, parts, Part.issues, Part.report]

end Document

end BatteryParams

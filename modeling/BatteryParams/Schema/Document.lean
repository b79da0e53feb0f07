import BatteryParams.Expr.Registry
import BatteryParams.Field.Tables
import BatteryParams.Schema.Basic

/-!
# The schema of documents

`documentSchema` describes the shape of a parameter document for other programs. Its objects are
made from the same tables of fields by which documents are read. Which fields a model asks for
beyond those that are always required stands in a note, since it depends on another part of the
document.
-/

namespace BatteryParams

/-- The name of the description of what a field holds. -/
def Field.definitionName (f : Field) : String :=
  if f = ParameterField.negativeElectrode ∨ f = ParameterField.positiveElectrode then "Electrode"
  else if f = ParameterField.userDefined then "UserDefined"
  else f.key

def Requirement.label : Requirement → String
  | .always => "always"
  | .optional => "optional"
  | .since least => s!"from {least.name}"

namespace Schema

def ofFieldKind (f : Field) : Schema :=
  match f.kind with
  | .number => .number
  | .count => .integer 1
  | .text => .string
  | .version => .anyOf [.versionString, .noted .number [("deprecated", .bool true)]]
  | .model => .choice (Model.all.map Model.name)
  | .value => .ref "Value"
  | .numberList => .list .number none
  | .record => .ref f.definitionName
  | .mapping => .ref f.definitionName

/-- What a field holds, with notes on the field. -/
def ofField (f : Field) : Schema :=
  .noted (ofFieldKind f)
    [("title", .string f.name), ("description", .string f.description),
      ("x-requirement", .string f.requirement.label)]

/-- An object with the entries of a table and no others. -/
def ofTable (fields : List Field) : Schema :=
  .object (some (fields.map fun f => (f.key, ofField f)))
    (some ((fields.filter fun f => f.requirement = .always).map (·.key))) none none

/-- An object whose members all have one description. -/
def mapping (members : Schema) (minProperties : Option Nat) : Schema :=
  .object none none (some members) minProperties

/-- A value: a number, a formula or a table. -/
def value : Schema :=
  .anyOf
    [.number,
      .noted .string
        [("description", .string "Expression in x (and optionally T)"),
          ("x-functions", texts (Registry.standard.sorted.map Builtin.name))],
      .ref "InterpolatedTable"]

def interpolatedTable : Schema :=
  .object (some [("x", .list .number (some 2)), ("y", .list .number (some 2))]) (some ["x", "y"])
    none none

def userDefined : Schema :=
  .object (some [("description", .string)]) none (some (.anyOf [.ref "Value", .ref "UserDefined"]))
    none

end Schema

def documentSchema : SchemaDocument where
  root := .noted (Schema.ofTable DocumentField.table) [("title", .string "BPX")]
  definitions :=
    [("Value", Schema.value),
      ("InterpolatedTable", Schema.interpolatedTable),
      ("Header", Schema.ofTable HeaderField.table),
      ("Parameterisation", Schema.ofTable ParameterField.table),
      ("Cell", Schema.ofTable CellField.table),
      ("Electrolyte", Schema.ofTable ElectrolyteField.table),
      ("Electrode",
        .oneOf
          [Schema.ofTable (ElectrodeField.table ++ ParticleField.table),
            Schema.ofTable (ElectrodeField.table ++ ElectrodeField.blendTable)]),
      ("Particle",
        Schema.mapping (Schema.ofTable (ParticleField.table ++ ParticleField.blendTable)) (some 1)),
      ("Separator", Schema.ofTable SeparatorField.table),
      ("Experiment", Schema.ofTable ExperimentField.table),
      ("Validation", Schema.mapping (.ref "Experiment") none),
      ("UserDefined", Schema.userDefined)]

end BatteryParams

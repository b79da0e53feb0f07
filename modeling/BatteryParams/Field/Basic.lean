import BatteryParams.Model

/-!
# Fields

A `Field` pairs the key under which a document holds an entry with its code name, the shape of what
it holds and the models that ask for it. The tables of fields drive reading, the completeness report
and the exported description alike.
-/

namespace BatteryParams

inductive Requirement where
  | always
  | optional
  /-- In this model and every more demanding one; below it the field is unused. -/
  | since (model : Model)
deriving DecidableEq, Repr

namespace Requirement

def isRequired (model : Model) : Requirement → Bool
  | .always => true
  | .optional => false
  | .since least => decide (least ≤ model)

/-- Whether a field plays no part in a model. -/
def isUnused (model : Model) : Requirement → Bool
  | .since least => decide (model < least)
  | _ => false

end Requirement

inductive FieldKind where
  | number
  | count
  | text
  | version
  | model
  | value
  | numberList
  /-- An object with a table of fields of its own. -/
  | record
  /-- An object whose keys are free names. -/
  | mapping
deriving DecidableEq, Repr

/-- An entry that a document may hold. -/
structure Field where
  key : String
  name : String
  kind : FieldKind
  requirement : Requirement
  description : String
deriving DecidableEq, Repr

def Field.withKey? (table : List Field) (key : String) : Option Field := table.find? (·.key == key)

def Field.withName? (table : List Field) (name : String) : Option Field :=
  table.find? (·.name == name)

end BatteryParams

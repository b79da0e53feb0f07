import BatteryParams.Field.Basic
import BatteryParams.Value
import BatteryParams.Version

/-!
# Issues of a document

An issue says at which place of a document which rule is broken. A place is the list of the keys
that lead to it; it is reported as a text, which the parts of a document on the way put together
(`joinPath`). A document with issues is refused as a whole, and the refusal lists all of them.
-/

namespace BatteryParams

/-- Why the materials of an electrode are no blend. -/
inductive BlendFault where
  | empty
  | outOfRange (name : String) (fraction : Float)
  | total (sum : Float)
deriving DecidableEq, Repr

def BlendFault.message : BlendFault → String
  | .empty => "a blended electrode needs at least one material"
  | .outOfRange name fraction =>
    s!"volume fraction of '{name}' must lie in [0, 1], got " ++ Decimal.prose.render fraction
  | .total sum => s!"blend volume fractions must sum to 1, got {Decimal.prose.render sum}"

/-- Why lists of samples are no experiment. -/
inductive ExperimentFault where
  | length (key : String) (samples times : Nat)
  | timeNotIncreasing
deriving DecidableEq, Repr

def ExperimentFault.message : ExperimentFault → String
  | .length key samples times => s!"'{key}' has {samples} samples but 'Time [s]' has {times}"
  | .timeNotIncreasing => "'Time [s]' must be strictly increasing"

/-- What a rule asks for at a place that holds something of the wrong kind. -/
inductive Expected where
  | object
  | materials
  | experiments
  | number
  | count
  | text
  | numberList
deriving DecidableEq, Repr

def Expected.wording : Expected → String
  | .object => "an object"
  | .materials => "an object of named materials"
  | .experiments => "an object of named experiments"
  | .number => "a number"
  | .count => "a positive integer"
  | .text => "a string"
  | .numberList => "a list of numbers"

/-- The rule that a place of a document breaks. -/
inductive IssueCause where
  | missing (requirement : Requirement)
  | unknown
  | wrongKind (expected : Expected) (found : Json.Kind)
  | version (e : VersionFault)
  | model (name : String)
  | value (e : ValueFault)
  | blend (f : BlendFault)
  | experiment (f : ExperimentFault)
deriving DecidableEq, Repr

/-- The classes under which issues are listed. -/
inductive IssueClass where
  | missing
  | unknown
  | wrongType
  | malformed
  | validation
deriving DecidableEq, Repr

def IssueClass.name : IssueClass → String
  | .missing => "missing"
  | .unknown => "unknown"
  | .wrongType => "wrong_type"
  | .malformed => "syntax"
  | .validation => "validation"

namespace IssueCause

/-- The class under which a broken rule is listed. -/
def issueClass : IssueCause → IssueClass
  | .missing _ => .missing
  | .unknown => .unknown
  | .wrongKind _ _ => .wrongType
  | .version _ => .wrongType
  | .model _ => .validation
  | .value (.formula _) => .malformed
  | .value (.table _) => .validation
  | .value (.shape _) => .wrongType
  | .blend _ => .validation
  | .experiment _ => .validation

def message : IssueCause → String
  | .missing (.since least) => s!"field required for {least.name} models"
  | .missing _ => "field required"
  | .unknown => "unknown field"
  | .wrongKind expected found => s!"expected {expected.wording}, found {found.text}"
  | .version e => e.message
  | .model name => Model.unknownMessage name
  | .value e => e.message
  | .blend f => f.message
  | .experiment f => f.message

end IssueCause

/-- A path in a document: the keys on the way, from the root on. -/
abbrev Path := List String

/-- The keys of a path, joined by slashes. -/
def Path.text (path : Path) : String := "/".intercalate path

/-- The path of what has a key within something else; the root has no path of its own. -/
def joinPath (parent key : String) : String := if parent.isEmpty then key else s!"{parent}/{key}"

/-- A path as it is reported: each part on the way joins its key to the path of the one that it is
in. -/
def Path.reported (path : Path) : String := path.foldl joinPath ""

/-- A broken rule and the place that breaks it. -/
structure Issue where
  path : Path
  cause : IssueCause
deriving DecidableEq, Repr

def Issue.reportedPath (i : Issue) : String := i.path.reported

def Issue.message (i : Issue) : String := s!"{i.reportedPath}: {i.cause.message}"

/-- The message that refuses a document for its issues. -/
def schemaMessage (issues : List Issue) : String :=
  let count := issues.length
  s!"Schema error ({count} issue(s)): " ++ "; ".intercalate (issues.map Issue.message)

end BatteryParams

import BatteryParams.Field.Tables
import BatteryParams.Settings
import BatteryParams.StateOfCharge

/-!
# Consistency of a document

Findings about a document that was read without issue: a deprecated version, fields that the model
does not use, and cut-off voltages that the open-circuit potentials do not confirm. A document with
a finding is still accepted; judged strictly, it is refused for any finding but the deprecation.

The voltage check runs when both electrodes hold one material whose open-circuit potential is a
formula. At either cut-off both potentials are evaluated at the ends of the stoichiometry windows,
at the reference temperature or else at the ambient one, and their difference is compared with the
declared voltage.
-/

namespace BatteryParams

namespace Cutoff

def field : Cutoff → Field
  | .upper => CellField.upperVoltageCutoff
  | .lower => CellField.lowerVoltageCutoff

def phrase : Cutoff → String
  | .upper => "upper voltage cut-off"
  | .lower => "lower voltage cut-off"

def declared (c : Cell) : Cutoff → Float
  | .upper => c.upperVoltageCutoff
  | .lower => c.lowerVoltageCutoff

end Cutoff

/-- A cut-off voltage that the open-circuit potentials do not confirm. -/
structure VoltageMismatch where
  cutoff : Cutoff
  positiveStoichiometry : Float
  positiveOcp : Float
  negativeStoichiometry : Float
  negativeOcp : Float
  predicted : Float
  declared : Float
  mismatch : Float
  tolerance : Float
deriving DecidableEq, Repr

inductive Finding where
  | unusedFields (model : Model) (fields : List Path)
  | voltageMismatch (m : VoltageMismatch)
  | ocpEvaluation (electrode : String) (stoichiometry : Float) (error : EvalFault)
  | deprecatedVersion (version : Version)
deriving DecidableEq, Repr

namespace Finding

/-- Whether a finding refuses a document that is judged strictly. -/
def isConsistency : Finding → Bool
  | .deprecatedVersion _ => false
  | _ => true

def kindName : Finding → String
  | .unusedFields _ _ => "unused_fields"
  | .voltageMismatch _ => "voltage_mismatch"
  | .ocpEvaluation _ _ _ => "ocp_evaluation"
  | .deprecatedVersion _ => "deprecated_version"

def message : Finding → String
  | .unusedFields model fields =>
    s!"fields not used by the {model.name} model were provided: " ++
      ", ".intercalate (fields.map Path.text)
  | .voltageMismatch m =>
    let positiveStoichiometry := Decimal.prose.render m.positiveStoichiometry
    let positiveOcp := Decimal.prose.render m.positiveOcp
    let negativeStoichiometry := Decimal.prose.render m.negativeStoichiometry
    let negativeOcp := Decimal.prose.render m.negativeOcp
    let predicted := Decimal.prose.render m.predicted
    let declared := Decimal.prose.render m.declared
    let mismatch := Decimal.fixed 4 m.mismatch
    let tolerance := Decimal.prose.render m.tolerance
    s!"the {m.cutoff.phrase} computed from the Positive electrode OCP at stoichiometry " ++
      s!"{positiveStoichiometry} ({positiveOcp} V) and the Negative electrode OCP at " ++
      s!"stoichiometry {negativeStoichiometry} ({negativeOcp} V) is {predicted} V, which " ++
      s!"differs from the declared {declared} V by {mismatch} V, above the tolerance of " ++
      s!"{tolerance} V"
  | .ocpEvaluation electrode stoichiometry error =>
    let place := Decimal.prose.render stoichiometry
    s!"could not evaluate the {electrode} OCP at stoichiometry {place}: " ++ error.message
  | .deprecatedVersion version =>
    s!"BPX version {version.text} is a bare number; use a MAJOR.MINOR.PATCH string"

/-- The entries of a finding, its kind first. -/
def members (w : Finding) : List (String × Json) :=
  ("kind", .string w.kindName) ::
    match w with
    | .unusedFields model fields =>
      [("model", .string model.name), ("fields", .list (fields.map fun f => .string f.text))]
    | .voltageMismatch m =>
      [("limit", .string m.cutoff.field.key),
        ("positive_stoichiometry", .ofFloat m.positiveStoichiometry),
        ("positive_ocp", .ofFloat m.positiveOcp),
        ("negative_stoichiometry", .ofFloat m.negativeStoichiometry),
        ("negative_ocp", .ofFloat m.negativeOcp),
        ("predicted", .ofFloat m.predicted),
        ("declared", .ofFloat m.declared),
        ("mismatch", .ofFloat m.mismatch),
        ("tolerance", .ofFloat m.tolerance)]
    | .ocpEvaluation electrode stoichiometry error =>
      [("electrode", .string electrode), ("stoichiometry", .ofFloat stoichiometry),
        ("message", .string error.message)]
    | .deprecatedVersion version => [("version", .string version.text)]

end Finding

/-- The fields of an electrode that depend on the model, and whether they are present. -/
def Electrode.modelFields (e : Electrode) : List (Field × Bool) :=
  [(ElectrodeField.porosity, e.porosity.isSome),
    (ElectrodeField.transportEfficiency, e.transportEfficiency.isSome),
    (ElectrodeField.conductivity, e.conductivity.isSome)]

/-- The fields of a parameter set that depend on the model, where they stand, and whether they are
present. -/
def Parameters.modelFields (p : Parameters) : List (Path × Field × Bool) :=
  let inside := fun (place : Field) (e : Electrode) =>
    e.modelFields.map fun (f, present) => ([place.key, f.key], f, present)
  [([ParameterField.electrolyte.key], ParameterField.electrolyte, p.electrolyte.isSome)] ++
    inside ParameterField.negativeElectrode p.negativeElectrode ++
    inside ParameterField.positiveElectrode p.positiveElectrode ++
    [([ParameterField.separator.key], ParameterField.separator, p.separator.isSome)]

/-- The open-circuit potential of a material at a stoichiometry, or the finding that it has none. -/
def ocpAt (place : Field) (p : Particle) (stoichiometry temperature : Float) :
    Except Finding Float :=
  (p.ocp.evaluate stoichiometry (some temperature)).mapError
    (.ocpEvaluation place.key stoichiometry)

/-- The findings about one cut-off voltage of a cell whose electrodes hold these materials. -/
def cutoffFindings (cell : Cell) (negative positive : Particle) (tolerance : Float)
    (cutoff : Cutoff) : List Finding :=
  let temperature := cell.referenceTemperature.getD cell.ambientTemperature
  let (negativeEnd, positiveEnd) := cutoff.stoichiometries negative.window positive.window
  match ocpAt ParameterField.positiveElectrode positive positiveEnd temperature,
      ocpAt ParameterField.negativeElectrode negative negativeEnd temperature with
  | .ok positiveOcp, .ok negativeOcp =>
    let predicted := positiveOcp - negativeOcp
    let declared := cutoff.declared cell
    let mismatch := (predicted - declared).abs
    if tolerance < mismatch then
      [.voltageMismatch
        ⟨cutoff, positiveEnd, positiveOcp, negativeEnd, negativeOcp, predicted, declared, mismatch,
          tolerance⟩]
    else []
  | .error w, .ok _ => [w]
  | .ok _, .error w => [w]
  | .error w, .error w' => [w, w']

namespace Document

/-- The paths of the fields that are present although the model does not use them. -/
def unusedFields (d : Document) : List Path :=
  (d.parameters.modelFields.filter fun (_, f, present) =>
    present && f.requirement.isUnused d.model).map (·.1)

def completenessFinding? (d : Document) : Option Finding :=
  if d.unusedFields.isEmpty then none else some (.unusedFields d.model d.unusedFields)

def voltageFindings (d : Document) (tolerances : Tolerances) : List Finding :=
  match d.parameters.negativeElectrode.particle?, d.parameters.positiveElectrode.particle? with
  | some negative, some positive =>
    if negative.ocp.formula?.isSome && positive.ocp.formula?.isSome then
      [Cutoff.upper, Cutoff.lower].flatMap
        (cutoffFindings d.parameters.cell negative positive tolerances.voltage)
    else []
  | _, _ => []

/-- All findings about a document: deprecation, completeness, voltages. -/
def findings (d : Document) (tolerances : Tolerances) : List Finding :=
  (if d.header.version.isLegacy then [.deprecatedVersion d.header.version] else []) ++
    d.completenessFinding?.toList ++ d.voltageFindings tolerances

end Document

end BatteryParams

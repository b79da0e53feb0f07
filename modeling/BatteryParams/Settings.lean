import BatteryParams.Decimal.Layout
import BatteryParams.Json.Basic

/-!
# Settings

How a document is judged: the tolerance of the voltage check, and whether findings refuse the
document. A tolerance must be finite and not negative; settings decoded from a tree may break that
and are checked again before they are used.
-/

namespace BatteryParams

inductive ToleranceFault where
  | negative (check : String) (value : Float)
  | nonFinite (check : String) (value : Float)
deriving DecidableEq, Repr

def ToleranceFault.message : ToleranceFault → String
  | .negative check value => s!"{check} tolerance should not be negative, got " ++
      Decimal.prose.render value
  | .nonFinite check value => s!"{check} tolerance must be finite, got " ++
      Decimal.prose.render value

/-- The tolerances of the checks. -/
structure Tolerances where
  voltage : Float
deriving DecidableEq, Repr

namespace Tolerances

def voltageCheck : String := "Voltage [V]"

def default : Tolerances := ⟨1e-3⟩

/-- A tolerance must be finite and not negative. -/
def checkValue (check : String) (value : Float) : Except ToleranceFault Unit :=
  if !value.isFinite then .error (.nonFinite check value)
  else if value < 0.0 then .error (.negative check value)
  else .ok ()

def check (t : Tolerances) : Except ToleranceFault Unit := checkValue voltageCheck t.voltage

def withVoltage (t : Tolerances) (value : Float) : Except ToleranceFault Tolerances := do
  checkValue voltageCheck value
  .ok { t with voltage := value }

def ofVoltage (value : Float) : Except ToleranceFault Tolerances := default.withVoltage value

def get? (t : Tolerances) (check : String) : Option Float :=
  if check = voltageCheck then some t.voltage else none

/-- The number that a tree is, finite or not. -/
def number? : Json → Option Float
  | .number n => some n.toFloat
  | _ => none

/-- The tolerances that a tree spells, by name or as a list. -/
def ofJson? : Json → Option Tolerances
  | .object members => do some ⟨← number? (← Named.find? voltageCheck members)⟩
  | .list [value] => (number? value).map .mk
  | _ => none

def toJson (t : Tolerances) : Json := .object [(voltageCheck, .ofFloat t.voltage)]

end Tolerances

/-- How a document is judged. -/
structure Options where
  tolerances : Tolerances
  strict : Bool
deriving DecidableEq, Repr

namespace Options

/-- The default tolerances, and findings do not refuse a document. -/
def default : Options := ⟨.default, false⟩

def check (o : Options) : Except ToleranceFault Unit := o.tolerances.check

def withVoltageTolerance (o : Options) (value : Float) : Except ToleranceFault Options := do
  .ok { o with tolerances := ← o.tolerances.withVoltage value }

def bool? : Json → Option Bool
  | .bool b => some b
  | _ => none

/-- The options that a tree spells, by name or as a list. An entry that is left out has its default;
in a list only the last entries can be left out. -/
def ofJson? : Json → Option Options
  | .object members => do
    let tolerances ← (Named.find? "tolerances" members).elim (some .default) Tolerances.ofJson?
    let strict ← (Named.find? "strict" members).elim (some false) bool?
    some ⟨tolerances, strict⟩
  | .list [] => some default
  | .list [tolerances] => do some ⟨← Tolerances.ofJson? tolerances, false⟩
  | .list [tolerances, strict] => do some ⟨← Tolerances.ofJson? tolerances, ← bool? strict⟩
  | _ => none

def toJson (o : Options) : Json :=
  .object [("tolerances", o.tolerances.toJson), ("strict", .bool o.strict)]

end Options

end BatteryParams

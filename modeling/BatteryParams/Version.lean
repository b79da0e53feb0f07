import BatteryParams.Decimal.Layout
import BatteryParams.Json.Basic

/-!
# Format versions

A document states the version of its format as three numbers joined by dots. A bare number is still
accepted, as a deprecated form.
-/

namespace BatteryParams

/-- The version of the format of a document. -/
inductive Version where
  | semantic (text : String)
  | legacy (number : Float)
deriving DecidableEq, Repr

inductive VersionFault where
  | malformed (text : String)
  | outOfRange (number : Float)
  | kind (found : Json.Kind)
deriving DecidableEq, Repr

def VersionFault.message : VersionFault → String
  | .malformed text => s!"'{text}' is not a MAJOR.MINOR.PATCH version"
  | .outOfRange number => s!"version {Decimal.prose.render number} is out of range"
  | .kind found => s!"expected a version string, found {found.text}"

namespace Version

/-- Three runs of digits, none empty, joined by dots. -/
def isSemantic (text : String) : Bool :=
  let parts := text.toList.splitOn '.'
  parts.length == 3 && parts.all fun part => !part.isEmpty && part.all Char.isDigit

def ofJson : Json → Except VersionFault Version
  | .string text => if isSemantic text then .ok (.semantic text) else .error (.malformed text)
  | .number n => if n.toFloat.isFinite then .ok (.legacy n.toFloat)
      else .error (.outOfRange n.toFloat)
  | j => .error (.kind j.kind)

def toJson : Version → Json
  | .semantic text => .string text
  | .legacy number => Json.ofFloat number

/-- Whether a version is a bare number. -/
def isLegacy : Version → Bool
  | .semantic _ => false
  | .legacy _ => true

def text : Version → String
  | .semantic text => text
  | .legacy number => Decimal.prose.render number

end Version

end BatteryParams

import BatteryParams.Named

/-!
# JSON trees

A `Json` is a decoded JSON text. Numbers keep the form in which they were written, a natural number,
a negative integer or a double, since whole numbers are written without a point; readers only ask
for the double that a number is (`Json.Number.toFloat`) or for a count (`Json.Number.toCount?`). The
members of an object are filed by name.
-/

namespace BatteryParams

/-- A JSON number: a natural number or a negative integer whose magnitude has 64 bits, or else a
double. -/
inductive Json.Number where
  | natural (n : UInt64)
  | negative (magnitude : UInt64)
  | float (x : Float)
deriving DecidableEq, Repr

/-- A decoded JSON text. -/
inductive Json where
  | null
  | bool (b : Bool)
  | number (n : Json.Number)
  | string (s : String)
  | list (items : List Json)
  | object (members : List (String × Json))
deriving Repr, Inhabited

namespace Json

/-- The double nearest to a number. -/
def Number.toFloat : Number → Float
  | .natural n => n.toFloat
  | .negative magnitude => -magnitude.toFloat
  | .float x => x

/-- The integer from 1 to 4294967295 that a number is, if it is one, whatever form it is written
in. -/
def Number.toCount? : Number → Option UInt32
  | .natural n => if 0 < n ∧ n ≤ 4294967295 then some n.toUInt32 else none
  | .negative _ => none
  | .float x =>
    let n := x.toUInt64
    if n.toFloat == x ∧ 0 < n ∧ n ≤ 4294967295 then some n.toUInt32 else none

/-- The number that stands for a double; a double that is not finite has none and becomes `null`. -/
def ofFloat (x : Float) : Json := if x.isFinite then .number (.float x) else .null

def ofFloats (xs : List Float) : Json := .list (xs.map ofFloat)

/-- An object from its members in any order. -/
def ofMembers (members : List (String × Json)) : Json := .object (Named.ofList members)

/-- The words for what a JSON tree is. -/
inductive Kind where
  | null
  | boolean
  | number
  | string
  | list
  | object
deriving DecidableEq, Repr

def kind : Json → Kind
  | .null => .null
  | .bool _ => .boolean
  | .number _ => .number
  | .string _ => .string
  | .list _ => .list
  | .object _ => .object

def Kind.text : Kind → String
  | .null => "null"
  | .boolean => "a boolean"
  | .number => "a number"
  | .string => "a string"
  | .list => "a list"
  | .object => "an object"

/-- The member of an object under `key`; other trees have none. -/
def member? (key : String) : Json → Option Json
  | .object members => Named.find? key members
  | _ => none

/-- The finite double that a tree is, if it is a number. -/
def toFloat? : Json → Option Float
  | .number n => if n.toFloat.isFinite then some n.toFloat else none
  | _ => none

def toCount? : Json → Option UInt32
  | .number n => n.toCount?
  | _ => none

def toText? : Json → Option String
  | .string s => some s
  | _ => none

def toFloats? : Json → Option (List Float)
  | .list items => items.mapM toFloat?
  | _ => none

end Json

end BatteryParams

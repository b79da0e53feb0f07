import BatteryParams.Expr.Eval
import BatteryParams.Expr.Parser
import BatteryParams.Json.Basic
import BatteryParams.Table

/-!
# Parameter values

A parameter that may vary with the operating point is a constant, a formula or an interpolation
table. All three answer the same questions: their value at one argument, with or without a
temperature, and their values at many. In a document a constant is a number, a formula a string, and
a table an object with the lists `x` and `y`.
-/

namespace BatteryParams

/-- A formula together with the text that spells it. -/
structure Formula where
  source : String
  tree : Expr
  parsed : Expr.parse source = .ok tree

namespace Formula

instance : DecidableEq Formula := fun a b =>
  if h : a.source = b.source then
    isTrue (by
      obtain ⟨source, tree, parsed⟩ := a
      obtain ⟨source', tree', parsed'⟩ := b
      simp only at h
      subst h
      have htree : tree = tree' := by
        rw [parsed] at parsed'
        exact Except.ok.inj parsed'
      subst htree
      rfl)
  else isFalse fun heq => h (congrArg source heq)

def parse (source : String) : Except FormulaError Formula :=
  match h : Expr.parse source with
  | .ok tree => .ok ⟨source, tree, h⟩
  | .error e => .error e

end Formula

/-- A constant, a formula or a table. -/
inductive Value where
  | constant (c : Float)
  | formula (f : Formula)
  | table (t : Table Float)
deriving DecidableEq

/-- How a tree fails to have the shape of a value. -/
inductive ShapeFault where
  | outOfRange (value : Float)
  | foreignKey (key : String)
  | missingList (key : String)
  | badList (key : String)
  | kind (found : Json.Kind)
deriving DecidableEq, Repr

def ShapeFault.message : ShapeFault → String
  | .outOfRange value => s!"number {Decimal.prose.render value} is out of range"
  | .foreignKey key => s!"table objects only take 'x' and 'y', found '{key}'"
  | .missingList key => s!"table is missing a '{key}' list"
  | .badList key => s!"'{key}' must only contain numbers"
  | .kind found =>
    "expected a number, an expression string or an " ++ r#"{"x", "y"}"# ++
      s!" table, found {found.text}"

inductive ValueFault where
  | formula (e : FormulaError)
  | table (f : TableFault)
  | shape (f : ShapeFault)
deriving DecidableEq, Repr

def ValueFault.message : ValueFault → String
  | .formula e => s!"Invalid expression: {e.message}"
  | .table f => s!"Invalid table: {f.message}"
  | .shape f => f.message

namespace Value

inductive Kind where
  | constant
  | formula
  | table
deriving DecidableEq, Repr

def kind : Value → Kind
  | .constant _ => .constant
  | .formula _ => .formula
  | .table _ => .table

/-- One of the two lists of a table. -/
def tableList (members : List (String × Json)) (key : String) : Except ValueFault (List Float) :=
  match Named.find? key members with
  | some (.list items) =>
    match items.mapM Json.toFloat? with
    | some xs => .ok xs
    | none => .error (.shape (.badList key))
  | _ => .error (.shape (.missingList key))

def ofMembers (members : List (String × Json)) : Except ValueFault Value :=
  match members.find? fun m => m.1 != "x" && m.1 != "y" with
  | some (key, _) => .error (.shape (.foreignKey key))
  | none => do
    let x ← tableList members "x"
    let y ← tableList members "y"
    match Table.ofLists x y with
    | .ok t => .ok (.table t)
    | .error f => .error (.table f)

def ofJson : Json → Except ValueFault Value
  | .number n =>
    if n.toFloat.isFinite then .ok (.constant n.toFloat)
      else .error (.shape (.outOfRange n.toFloat))
  | .string source =>
    match Formula.parse source with
    | .ok f => .ok (.formula f)
    | .error e => .error (.formula e)
  | .object members => ofMembers members
  | j => .error (.shape (.kind j.kind))

def toJson : Value → Json
  | .constant c => Json.ofFloat c
  | .formula f => .string f.source
  | .table t => .object [("x", Json.ofFloats t.x), ("y", Json.ofFloats t.y)]

/-- Tables take finite arguments only, as formulas do. -/
def checkArguments (xs : List Float) : Except EvalFault Unit :=
  match xs.find? (!·.isFinite) with
  | some value => .error (.nonFinite .x value)
  | none => .ok ()

def evaluate (v : Value) (x : Float) (T : Option Float) : Except EvalFault Float :=
  match v with
  | .constant c => .ok c
  | .formula f => do
    let out ← f.tree.evaluate ⟨some (.scalar x), T.map .scalar⟩
    match (out.toList 1)[0]? with
    | some y => .ok y
    | none => .error (.missing 0)
  | .table t => do
    checkArguments [x]
    return t.evaluate x

/-- The values at several arguments, all at one temperature. -/
def evaluateEach (v : Value) (xs : List Float) (T : Option Float) : Except EvalFault (List Float) :=
  match v with
  | .constant c => .ok (List.replicate xs.length c)
  | .formula f => do
    let out ← f.tree.evaluate ⟨some (.array xs), T.map .scalar⟩
    return out.toList xs.length
  | .table t => do
    checkArguments xs
    return t.evaluateEach xs

def formula? : Value → Option Formula
  | .formula f => some f
  | _ => none

end Value

end BatteryParams

import BatteryParams.Expr.Basic
import BatteryParams.Named

/-!
# Registries

A registry is the set of built-in functions that a formula may call. The standard registry holds all
of them; a smaller one narrows what formulas are accepted.
-/

namespace BatteryParams

/-- The built-in functions that may be called. -/
structure Registry where
  builtins : List Builtin
deriving DecidableEq, Repr

namespace Registry

def standard : Registry := ⟨Builtin.all⟩

/-- The function of a registry that goes by a name. -/
def find? (r : Registry) (name : String) : Option Builtin := r.builtins.find? (·.name == name)

/-- The registry of those standard functions whose names are listed. -/
def ofNames (names : List String) : Registry := ⟨names.filterMap standard.find?⟩

/-- The functions of a registry, each once, in the order of their names. -/
def sorted (r : Registry) : List Builtin :=
  (Named.ofList (r.builtins.map fun f => (f.name, f))).map (·.2)

end Registry

end BatteryParams

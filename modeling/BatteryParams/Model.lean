/-!
# Battery models

A document is made for one of three models, each asking for all that the one before it asks for and
more: the single particle model, the same with electrolyte, and the Doyle-Fuller-Newman model.
-/

namespace BatteryParams

/-- The model that a document is made for. -/
inductive Model where
  | spm
  | spme
  | dfn
deriving DecidableEq, Repr

namespace Model

/-- Every model, from the least demanding on. -/
def all : List Model := [.spm, .spme, .dfn]

def name : Model → String
  | .spm => "SPM"
  | .spme => "SPMe"
  | .dfn => "DFN"

def ofName? (name : String) : Option Model := all.find? (·.name == name)

/-- The place of a model among all models. -/
def rank : Model → Nat
  | .spm => 0
  | .spme => 1
  | .dfn => 2

instance : LE Model := ⟨fun a b => a.rank ≤ b.rank⟩

instance : LT Model := ⟨fun a b => a.rank < b.rank⟩

instance : DecidableLE Model := fun a b => inferInstanceAs (Decidable (a.rank ≤ b.rank))

instance : DecidableLT Model := fun a b => inferInstanceAs (Decidable (a.rank < b.rank))

def unknownMessage (name : String) : String :=
  s!"unknown model '{name}', expected one of SPM, SPMe, DFN"

end Model

end BatteryParams

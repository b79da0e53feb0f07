import BatteryParams.Document.Basic

/-!
# Stoichiometry windows

An electrode of one material works between its minimum and its maximum stoichiometry. Charging the
cell fills the negative electrode from its minimum up and empties the positive one from its maximum
down. The full and the empty cell stand at opposite ends of the two windows, and the cut-off
voltages belong to these ends.

The windows are stated for any type with an order and arithmetic. They run on doubles and can be
read over the rationals.
-/

namespace BatteryParams

/-- The stoichiometries between which an electrode works. -/
structure Window (α : Type) where
  minimum : α
  maximum : α
deriving DecidableEq, Repr

/-- The two cut-off voltages: of the full cell and of the empty one. -/
inductive Cutoff where
  | upper
  | lower
deriving DecidableEq, Repr

/-- Why a cell has no stoichiometries at a state of charge. -/
inductive ChargeFault (α : Type) where
  | outOfRange (charge : α)
  | blended
deriving DecidableEq, Repr

namespace Window

variable {α : Type} [LE α] [DecidableLE α] [Add α] [Sub α] [Mul α] [OfNat α 0] [OfNat α 1]

/-- The stoichiometry that rises from the minimum with the state of charge. -/
def rising (w : Window α) (charge : α) : α := w.minimum + (w.maximum - w.minimum) * charge

/-- The stoichiometry that falls from the maximum with the state of charge. -/
def falling (w : Window α) (charge : α) : α := w.maximum - (w.maximum - w.minimum) * charge

/-- The stoichiometries of the negative and the positive electrode at a state of charge between zero
and one. A blend has no window. -/
def stoichiometries (negative positive : Option (Window α)) (charge : α) : Except (ChargeFault α)
    (α × α) :=
  if (0 : α) ≤ charge ∧ charge ≤ (1 : α) then
    match negative, positive with
    | some n, some p => .ok (n.rising charge, p.falling charge)
    | _, _ => .error .blended
  else .error (.outOfRange charge)

/-- The concentrations of the two electrodes, each with its maximum concentration beside its
window. -/
def concentrations (negative positive : Option (Window α × α)) (charge : α) :
    Except (ChargeFault α) (α × α) := do
  let (n, p) ← stoichiometries (negative.map (·.1)) (positive.map (·.1)) charge
  match negative, positive with
  | some (_, cn), some (_, cp) => .ok (n * cn, p * cp)
  | _, _ => .error .blended

end Window

/-- The stoichiometries of the negative and the positive electrode at which a cut-off voltage is
reached. -/
def Cutoff.stoichiometries {α : Type} (negative positive : Window α) : Cutoff → α × α
  | .upper => (negative.maximum, positive.minimum)
  | .lower => (negative.minimum, positive.maximum)

def ChargeFault.message : ChargeFault Float → String
  | .outOfRange charge =>
    s!"target SOC should be between 0 and 1, got {Decimal.prose.render charge}"
  | .blended => "blended electrodes have no single stoichiometry window"

def Particle.window (p : Particle) : Window Float :=
  ⟨p.minimumStoichiometry, p.maximumStoichiometry⟩

namespace Document

def stoichiometries (d : Document) (charge : Float) : Except (ChargeFault Float) (Float × Float) :=
  Window.stoichiometries (d.parameters.negativeElectrode.particle?.map Particle.window)
    (d.parameters.positiveElectrode.particle?.map Particle.window) charge

def concentrations (d : Document) (charge : Float) : Except (ChargeFault Float) (Float × Float) :=
  let scaled := fun p : Particle => (p.window, p.maximumConcentration)
  Window.concentrations (d.parameters.negativeElectrode.particle?.map scaled)
    (d.parameters.positiveElectrode.particle?.map scaled) charge

end Document

end BatteryParams

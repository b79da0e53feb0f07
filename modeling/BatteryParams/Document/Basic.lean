import BatteryParams.Increasing
import BatteryParams.Issue

/-!
# Parameter documents

A document names its format and model in a header and describes a cell: the cell as a whole, its
electrolyte, its two electrodes, its separator, parameters of the user's own, and experiments to
validate the parameters against.

An electrode holds one active material or a blend of several by volume. A blend exists only with
fractions that lie between zero and one and sum to one within `blendTolerance`.
-/

namespace BatteryParams

/-- What a document says about itself. -/
structure Header where
  version : Version
  title : Option String
  description : Option String
  references : Option String
  model : Model
deriving DecidableEq

structure Cell where
  electrodeArea : Float
  externalSurfaceArea : Option Float
  volume : Option Float
  numberOfElectrodePairs : UInt32
  lowerVoltageCutoff : Float
  upperVoltageCutoff : Float
  nominalCellCapacity : Float
  ambientTemperature : Float
  initialTemperature : Option Float
  referenceTemperature : Option Float
  density : Option Float
  specificHeatCapacity : Option Float
  thermalConductivity : Option Float
deriving DecidableEq

structure Electrolyte where
  initialConcentration : Float
  cationTransferenceNumber : Float
  diffusivity : Value
  diffusivityActivationEnergy : Option Float
  conductivity : Value
  conductivityActivationEnergy : Option Float
deriving DecidableEq

structure Particle where
  minimumStoichiometry : Float
  maximumStoichiometry : Float
  maximumConcentration : Float
  particleRadius : Float
  surfaceAreaPerUnitVolume : Float
  diffusivity : Value
  diffusivityActivationEnergy : Option Float
  ocp : Value
  entropicChange : Option Value
  reactionRateConstant : Float
  reactionRateConstantActivationEnergy : Option Float
deriving DecidableEq

/-- One material of a blend and its share of the volume. -/
structure BlendMaterial where
  volumeFraction : Float
  particle : Particle
deriving DecidableEq

/-- How far the fractions of a blend may be from summing to one. -/
def blendTolerance : Float := 1e-6

/-- What keeps materials with these fractions from being a blend: there are none, one lies outside
its range, or they do not sum to one. -/
def blendFault? (fractions : List (String × Float)) : Option BlendFault :=
  if fractions.isEmpty then some .empty
  else
    match fractions.find? fun f => !(decide (0.0 ≤ f.2) && decide (f.2 ≤ 1.0)) with
    | some (name, fraction) => some (.outOfRange name fraction)
    | none =>
      let total := fractions.foldl (fun sum f => sum + f.2) (-0.0)
      if (total - 1.0).abs > blendTolerance then some (.total total) else none

def fractions (components : Named BlendMaterial) : List (String × Float) :=
  components.map fun c => (c.1, c.2.volumeFraction)

/-- Named materials whose fractions make a blend. -/
structure Blend where
  components : Named BlendMaterial
  sound : blendFault? (fractions components) = none
deriving DecidableEq

def Blend.ofComponents (components : Named BlendMaterial) : Except BlendFault Blend :=
  match h : blendFault? (fractions components) with
  | none => .ok ⟨components, h⟩
  | some f => .error f

/-- What an electrode stores lithium in. -/
inductive ActiveMaterial where
  | single (p : Particle)
  | blended (b : Blend)
deriving DecidableEq

structure Electrode where
  thickness : Float
  porosity : Option Float
  transportEfficiency : Option Float
  conductivity : Option Float
  material : ActiveMaterial
deriving DecidableEq

namespace Electrode

def particle? (e : Electrode) : Option Particle :=
  match e.material with
  | .single p => some p
  | .blended _ => none

def isBlended (e : Electrode) : Bool := e.particle?.isNone

end Electrode

structure Separator where
  thickness : Float
  porosity : Float
  transportEfficiency : Float
deriving DecidableEq

structure Experiment where
  time : List Float
  current : List Float
  voltage : List Float
  temperature : Option (List Float)
deriving DecidableEq

/-- The experiment with these samples: as many of each as there are times, and the times strictly
increasing. -/
def Experiment.ofLists (time current voltage : List Float) (temperature : Option (List Float)) :
    Except ExperimentFault Experiment :=
  let lists := [("Current [A]", current), ("Voltage [V]", voltage)] ++
    (temperature.map fun t => ("Temperature [K]", t)).toList
  match lists.find? fun l => l.2.length != time.length with
  | some (key, samples) => .error (.length key samples.length time.length)
  | none =>
    if (stall? time).isSome then .error .timeNotIncreasing
      else .ok ⟨time, current, voltage, temperature⟩

/-- A parameter of the user's own: a value, a text, or a group of further parameters. -/
inductive UserParameter where
  | value (v : Value)
  | text (s : String)
  | group (entries : List (String × UserParameter))

namespace UserParameter

mutual

def decEq : (a b : UserParameter) → Decidable (a = b)
  | .value v, .value w =>
    if h : v = w then isTrue (h ▸ rfl) else isFalse fun heq => h (UserParameter.value.inj heq)
  | .text s, .text t =>
    if h : s = t then isTrue (h ▸ rfl) else isFalse fun heq => h (UserParameter.text.inj heq)
  | .group es, .group fs =>
    match decEqEntries es fs with
    | isTrue h => isTrue (h ▸ rfl)
    | isFalse h => isFalse fun heq => h (UserParameter.group.inj heq)
  | .value _, .text _ => isFalse nofun
  | .value _, .group _ => isFalse nofun
  | .text _, .value _ => isFalse nofun
  | .text _, .group _ => isFalse nofun
  | .group _, .value _ => isFalse nofun
  | .group _, .text _ => isFalse nofun

def decEqEntries : (a b : List (String × UserParameter)) → Decidable (a = b)
  | [], [] => isTrue rfl
  | [], _ :: _ => isFalse nofun
  | _ :: _, [] => isFalse nofun
  | (m, e) :: es, (n, f) :: fs =>
    if hname : m = n then
      match decEq e f, decEqEntries es fs with
      | isTrue he, isTrue hes => isTrue (by rw [hname, he, hes])
      | isFalse he, _ => isFalse fun heq => he (Prod.mk.inj (List.cons.inj heq).1).2
      | _, isFalse hes => isFalse fun heq => hes (List.cons.inj heq).2
    else isFalse fun heq => hname (Prod.mk.inj (List.cons.inj heq).1).1

end

instance : DecidableEq UserParameter := decEq

end UserParameter

abbrev UserDefined := Named UserParameter

/-- What is filed under a row of names, each but the last naming a group. -/
def UserDefined.find? : List String → UserDefined → Option UserParameter
  | [], _ => none
  | [name], entries => Named.find? name entries
  | name :: names, entries =>
    match Named.find? name entries with
    | some (.group inner) => UserDefined.find? names inner
    | _ => none

/-- The name that is kept for a text that describes a group. -/
def descriptionKey : String := "description"

structure Parameters where
  cell : Cell
  electrolyte : Option Electrolyte
  negativeElectrode : Electrode
  positiveElectrode : Electrode
  separator : Option Separator
  userDefined : Option UserDefined
deriving DecidableEq

structure Document where
  header : Header
  parameters : Parameters
  validation : Option (Named Experiment)
deriving DecidableEq

def Document.model (d : Document) : Model := d.header.model

end BatteryParams

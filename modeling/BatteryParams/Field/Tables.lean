import BatteryParams.Field.Basic

/-!
# Tables of fields

The entries of every object of a document, in the order in which they are read and reported. The
tables of a blend are apart: `ElectrodeField.blendTable` replaces the particle fields of an
electrode with a blend, and `ParticleField.blendTable` adds to the particle fields of each of its
materials.
-/

namespace BatteryParams

namespace DocumentField

def header : Field :=
  ⟨"Header", "header", .record, .always, "File metadata"⟩

def parameterisation : Field :=
  ⟨"Parameterisation", "parameterisation", .record, .always, "Cell parameter set"⟩

def validation : Field :=
  ⟨"Validation", "validation", .mapping, .optional,
    "Named experiments for validating the parameter set"⟩

def table : List Field :=
  [header, parameterisation, validation]

end DocumentField

namespace HeaderField

def bpx : Field :=
  ⟨"BPX", "bpx", .version, .always, "BPX format version"⟩

def title : Field :=
  ⟨"Title", "title", .text, .optional, "Parameterisation title"⟩

def description : Field :=
  ⟨"Description", "description", .text, .optional,
    "Additional cell description such as form factor"⟩

def references : Field :=
  ⟨"References", "references", .text, .optional, "References"⟩

def model : Field :=
  ⟨"Model", "model", .model, .always, "Model type (SPM, SPMe, DFN)"⟩

def table : List Field :=
  [bpx, title, description, references, model]

end HeaderField

namespace ParameterField

def cell : Field :=
  ⟨"Cell", "cell", .record, .always, "Cell-level parameters"⟩

def electrolyte : Field :=
  ⟨"Electrolyte", "electrolyte", .record, .since .spme, "Electrolyte parameters"⟩

def negativeElectrode : Field :=
  ⟨"Negative electrode", "negative_electrode", .record, .always, "Negative electrode parameters"⟩

def positiveElectrode : Field :=
  ⟨"Positive electrode", "positive_electrode", .record, .always, "Positive electrode parameters"⟩

def separator : Field :=
  ⟨"Separator", "separator", .record, .since .spme, "Separator parameters"⟩

def userDefined : Field :=
  ⟨"User-defined", "user_defined", .mapping, .optional, "Extension parameters outside the standard"⟩

def table : List Field :=
  [cell, electrolyte, negativeElectrode, positiveElectrode, separator, userDefined]

end ParameterField

namespace CellField

def electrodeArea : Field :=
  ⟨"Electrode area [m2]", "electrode_area", .number, .always, "Electrode cross-sectional area"⟩

def externalSurfaceArea : Field :=
  ⟨"External surface area [m2]", "external_surface_area", .number, .optional,
    "External surface area of cell"⟩

def volume : Field :=
  ⟨"Volume [m3]", "volume", .number, .optional, "Volume of the cell"⟩

def numberOfElectrodePairs : Field :=
  ⟨"Number of electrode pairs connected in parallel to make a cell", "number_of_electrode_pairs",
    .count, .always, "Number of electrode pairs connected in parallel to make a cell"⟩

def lowerVoltageCutoff : Field :=
  ⟨"Lower voltage cut-off [V]", "lower_voltage_cutoff", .number, .always, "Minimum allowed voltage"⟩

def upperVoltageCutoff : Field :=
  ⟨"Upper voltage cut-off [V]", "upper_voltage_cutoff", .number, .always, "Maximum allowed voltage"⟩

def nominalCellCapacity : Field :=
  ⟨"Nominal cell capacity [A.h]", "nominal_cell_capacity", .number, .always,
    "Nominal cell capacity, used to convert between current and C-rate"⟩

def ambientTemperature : Field :=
  ⟨"Ambient temperature [K]", "ambient_temperature", .number, .always, "Ambient temperature"⟩

def initialTemperature : Field :=
  ⟨"Initial temperature [K]", "initial_temperature", .number, .optional, "Initial temperature"⟩

def referenceTemperature : Field :=
  ⟨"Reference temperature [K]", "reference_temperature", .number, .optional,
    "Reference temperature for the Arrhenius temperature dependence"⟩

def density : Field :=
  ⟨"Density [kg.m-3]", "density", .number, .optional, "Density (lumped)"⟩

def specificHeatCapacity : Field :=
  ⟨"Specific heat capacity [J.K-1.kg-1]", "specific_heat_capacity", .number, .optional,
    "Specific heat capacity (lumped)"⟩

def thermalConductivity : Field :=
  ⟨"Thermal conductivity [W.m-1.K-1]", "thermal_conductivity", .number, .optional,
    "Thermal conductivity (lumped)"⟩

def table : List Field :=
  [electrodeArea, externalSurfaceArea, volume, numberOfElectrodePairs, lowerVoltageCutoff,
    upperVoltageCutoff, nominalCellCapacity, ambientTemperature, initialTemperature,
    referenceTemperature, density, specificHeatCapacity, thermalConductivity]

end CellField

namespace ElectrolyteField

def initialConcentration : Field :=
  ⟨"Initial concentration [mol.m-3]", "initial_concentration", .number, .always,
    "Initial / rest lithium ion concentration in the electrolyte"⟩

def cationTransferenceNumber : Field :=
  ⟨"Cation transference number", "cation_transference_number", .number, .always,
    "Cation transference number"⟩

def diffusivity : Field :=
  ⟨"Diffusivity [m2.s-1]", "diffusivity", .value, .always,
    "Lithium ion diffusivity in electrolyte (constant or function of concentration)"⟩

def diffusivityActivationEnergy : Field :=
  ⟨"Diffusivity activation energy [J.mol-1]", "diffusivity_activation_energy", .number, .optional,
    "Activation energy for diffusivity in electrolyte"⟩

def conductivity : Field :=
  ⟨"Conductivity [S.m-1]", "conductivity", .value, .always,
    "Electrolyte conductivity (constant or function of concentration)"⟩

def conductivityActivationEnergy : Field :=
  ⟨"Conductivity activation energy [J.mol-1]", "conductivity_activation_energy", .number, .optional,
    "Activation energy for conductivity in electrolyte"⟩

def table : List Field :=
  [initialConcentration, cationTransferenceNumber, diffusivity, diffusivityActivationEnergy,
    conductivity, conductivityActivationEnergy]

end ElectrolyteField

namespace ParticleField

def minimumStoichiometry : Field :=
  ⟨"Minimum stoichiometry", "minimum_stoichiometry", .number, .always, "Minimum stoichiometry"⟩

def maximumStoichiometry : Field :=
  ⟨"Maximum stoichiometry", "maximum_stoichiometry", .number, .always, "Maximum stoichiometry"⟩

def maximumConcentration : Field :=
  ⟨"Maximum concentration [mol.m-3]", "maximum_concentration", .number, .always,
    "Maximum concentration of lithium ions in particles"⟩

def particleRadius : Field :=
  ⟨"Particle radius [m]", "particle_radius", .number, .always, "Particle radius"⟩

def surfaceAreaPerUnitVolume : Field :=
  ⟨"Surface area per unit volume [m-1]", "surface_area_per_unit_volume", .number, .always,
    "Particle surface area per unit of volume"⟩

def diffusivity : Field :=
  ⟨"Diffusivity [m2.s-1]", "diffusivity", .value, .always,
    "Lithium ion diffusivity in particle (constant or function of stoichiometry)"⟩

def diffusivityActivationEnergy : Field :=
  ⟨"Diffusivity activation energy [J.mol-1]", "diffusivity_activation_energy", .number, .optional,
    "Activation energy for diffusivity in particles"⟩

def ocp : Field :=
  ⟨"OCP [V]", "ocp", .value, .always,
    "Open-circuit potential at the reference temperature, function of particle stoichiometry"⟩

def entropicChange : Field :=
  ⟨"Entropic change coefficient [V.K-1]", "entropic_change", .value, .optional,
    "Entropic change coefficient, function of particle stoichiometry"⟩

def reactionRateConstant : Field :=
  ⟨"Reaction rate constant [mol.m-2.s-1]", "reaction_rate_constant", .number, .always,
    "Normalised reaction rate constant"⟩

def reactionRateConstantActivationEnergy : Field :=
  ⟨"Reaction rate constant activation energy [J.mol-1]", "reaction_rate_constant_activation_energy",
    .number, .optional, "Activation energy of reaction rate constant in particles"⟩

def volumeFraction : Field :=
  ⟨"Volume fraction", "volume_fraction", .number, .always,
    "Share of the active material volume taken by this material"⟩

def table : List Field :=
  [minimumStoichiometry, maximumStoichiometry, maximumConcentration, particleRadius,
    surfaceAreaPerUnitVolume, diffusivity, diffusivityActivationEnergy, ocp, entropicChange,
    reactionRateConstant, reactionRateConstantActivationEnergy]

/-- The further field of a material in a blend. -/
def blendTable : List Field :=
  [volumeFraction]

end ParticleField

namespace ElectrodeField

def thickness : Field :=
  ⟨"Thickness [m]", "thickness", .number, .always, "Electrode thickness"⟩

def porosity : Field :=
  ⟨"Porosity", "porosity", .number, .since .spme, "Electrolyte volume fraction (porosity)"⟩

def transportEfficiency : Field :=
  ⟨"Transport efficiency", "transport_efficiency", .number, .since .spme,
    "Transport efficiency / inverse MacMullin number"⟩

def conductivity : Field :=
  ⟨"Conductivity [S.m-1]", "conductivity", .number, .since .dfn,
    "Effective electronic conductivity of the porous electrode matrix"⟩

def particle : Field :=
  ⟨"Particle", "particle", .mapping, .optional, "Blended active materials by name"⟩

/-- The fields of an electrode, whatever its material. -/
def table : List Field :=
  [thickness, porosity, transportEfficiency, conductivity]

/-- The field that holds the materials of a blend. -/
def blendTable : List Field :=
  [particle]

end ElectrodeField

namespace SeparatorField

def thickness : Field :=
  ⟨"Thickness [m]", "thickness", .number, .always, "Separator thickness"⟩

def porosity : Field :=
  ⟨"Porosity", "porosity", .number, .always, "Electrolyte volume fraction (porosity)"⟩

def transportEfficiency : Field :=
  ⟨"Transport efficiency", "transport_efficiency", .number, .always,
    "Transport efficiency / inverse MacMullin number"⟩

def table : List Field :=
  [thickness, porosity, transportEfficiency]

end SeparatorField

namespace ExperimentField

def time : Field :=
  ⟨"Time [s]", "time", .numberList, .always, "Time in seconds"⟩

def current : Field :=
  ⟨"Current [A]", "current", .numberList, .always, "Current vs time"⟩

def voltage : Field :=
  ⟨"Voltage [V]", "voltage", .numberList, .always, "Voltage vs time"⟩

def temperature : Field :=
  ⟨"Temperature [K]", "temperature", .numberList, .optional, "Temperature vs time"⟩

def table : List Field :=
  [time, current, voltage, temperature]

end ExperimentField

end BatteryParams

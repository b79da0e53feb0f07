import BatteryParams.Document.Values
import Mathlib.Data.List.Basic

/-!
# The places of values and issues

A value or an issue is reported with a text and stands at a place, the keys that lead to it. The
parts of a document put the texts together in several ways: most join one key to the path of the
part around them, some join two keys first and then both to that path, and the user's own parameters
pass the text on from group to group. All of these give the keys of the place joined by slashes, as
long as the first key is not empty.
-/

namespace BatteryParams

/-! ### Texts of paths -/

section

variable {parent key : String} {path : Path}

theorem joinPath_of_ne (h : parent ≠ "") (key : String) :
    joinPath parent key = parent ++ "/" ++ key := by
  have hempty : ¬parent.isEmpty := by simpa using h
  rw [joinPath, if_neg hempty]
  simp [toString, String.append_assoc]

theorem joinPath_empty (key : String) : joinPath "" key = key := by
  rw [joinPath, if_pos (by decide)]

theorem joinPath_ne (h : parent ≠ "") (key : String) : joinPath parent key ≠ "" := by
  rw [joinPath_of_ne h]
  simp

/-- Two keys may be joined to each other before they are joined to a path. -/
theorem joinPath_joined (h : key ≠ "") (parent name : String) :
    joinPath parent (key ++ "/" ++ name) = joinPath (joinPath parent key) name := by
  by_cases hparent : parent = ""
  · rw [hparent, joinPath_empty, joinPath_empty, joinPath_of_ne h]
  · rw [joinPath_of_ne hparent, joinPath_of_ne (joinPath_ne hparent key), joinPath_of_ne hparent]
    simp [String.append_assoc]

theorem foldl_joinPath (h : parent ≠ "") (path : Path) :
    path.foldl joinPath parent = "/".intercalate (parent :: path) := by
  induction path generalizing parent with
  | nil => rw [List.foldl_nil, String.intercalate_singleton]
  | cons key rest ih =>
    rw [List.foldl_cons, ih (joinPath_ne h key), joinPath_of_ne h, String.intercalate_cons_cons,
      String.intercalate_cons_append]

/-- The keys are reported joined by slashes; an empty one in front of others would lose its
slash. -/
theorem Path.reported_cons (h : key = "" → path = []) :
    Path.reported (key :: path) = "/".intercalate (key :: path) := by
  rw [reported, List.foldl_cons, joinPath_empty]
  by_cases hkey : key = ""
  · rw [h hkey, List.foldl_nil, String.intercalate_singleton]
  · exact foldl_joinPath hkey path

/-- A material or an experiment is opened with two keys at once and reported as if by one each. -/
theorem Path.reported_joined (path : Path) (h : key ≠ "") (name : String) :
    Path.reported (path ++ [key ++ "/" ++ name]) = Path.reported (path ++ [key, name]) := by
  simp only [reported, List.foldl_append, List.foldl_cons, List.foldl_nil, joinPath_joined h]

end

/-! ### Values and their keys -/

/-- A value and the keys that lead to it. -/
abbrev Placed := Path × Value

/-- Values placed below a key. -/
def below (key : String) (values : List Placed) : List Placed :=
  values.map fun v => (key :: v.1, v.2)

def Electrolyte.values (e : Electrolyte) : List Placed :=
  [([ElectrolyteField.diffusivity.key], e.diffusivity),
    ([ElectrolyteField.conductivity.key], e.conductivity)]

def Particle.values (p : Particle) : List Placed :=
  [([ParticleField.diffusivity.key], p.diffusivity), ([ParticleField.ocp.key], p.ocp)] ++
    (p.entropicChange.map fun v => ([ParticleField.entropicChange.key], v)).toList

def ActiveMaterial.values : ActiveMaterial → List Placed
  | .single p => p.values
  | .blended b =>
    below ElectrodeField.particle.key (b.components.flatMap fun c => below c.1 c.2.particle.values)

namespace UserParameter

mutual

def values : UserParameter → List Placed
  | .value v => [([], v)]
  | .text _ => []
  | .group entries => groupValues entries

def groupValues : List (String × UserParameter) → List Placed
  | [] => []
  | (name, e) :: rest => below name e.values ++ groupValues rest

end

end UserParameter

def Parameters.values (p : Parameters) : List Placed :=
  (p.electrolyte.elim [] fun e => below ParameterField.electrolyte.key e.values) ++
    below ParameterField.negativeElectrode.key p.negativeElectrode.material.values ++
    below ParameterField.positiveElectrode.key p.positiveElectrode.material.values ++
    (p.userDefined.elim [] fun u =>
      below ParameterField.userDefined.key (UserParameter.groupValues u))

def Document.values (d : Document) : List Placed :=
  below DocumentField.parameterisation.key d.parameters.values

/-! ### Values are listed with the texts of their keys -/

/-- Values as they are listed below a path. -/
def listedAt (path : String) (values : List Placed) : List Listed :=
  values.map fun v => (v.1.foldl joinPath path, v.2)

theorem listedAt_below (path key : String) (values : List Placed) :
    listedAt path (below key values) = listedAt (joinPath path key) values := by
  rw [listedAt, below, List.map_map]
  rfl

theorem listedAt_append (path : String) (values values' : List Placed) :
    listedAt path (values ++ values') = listedAt path values ++ listedAt path values' :=
  List.map_append

theorem listedAt_flatMap {α : Type} (path : String) (xs : List α) (values : α → List Placed) :
    listedAt path (xs.flatMap values) = xs.flatMap fun x => listedAt path (values x) :=
  List.map_flatMap

theorem listedAt_elim {α : Type} (path : String) (o : Option α) (values : α → List Placed) :
    listedAt path (o.elim [] values) = o.elim [] fun a => listedAt path (values a) := by
  cases o <;> rfl

theorem Electrolyte.listed_valueFields (path : String) (e : Electrolyte) :
    (e.valueFields.map fun f => (joinPath path f.1.key, f.2)) = listedAt path e.values :=
  rfl

theorem Particle.listed_valueFields (path : String) (p : Particle) :
    (p.valueFields.map fun f => (joinPath path f.1.key, f.2)) = listedAt path p.values := by
  rw [valueFields, values, listedAt_append, List.map_append]
  cases p.entropicChange <;> rfl

/-- The path of an electrode is joined to those of its material, which in a blend have three
keys. -/
theorem ActiveMaterial.listed_listing (path : String) (m : ActiveMaterial) :
    (m.listing.map fun v => (joinPath path v.1, v.2)) = listedAt path m.values := by
  cases m with
  | single p =>
    rw [listing, values, List.map_map]
    exact p.listed_valueFields path
  | blended b =>
    rw [listing, values, listedAt_below, listedAt_flatMap, List.map_flatMap]
    refine List.flatMap_congr fun c _ => ?_
    rw [listedAt_below, ← Particle.listed_valueFields, List.map_map]
    refine List.map_congr_left fun f _ => ?_
    have hmaterial : ElectrodeField.particle.key ++ "/" ++ c.1 ≠ "" := by simp
    have hjoined : s!"{ElectrodeField.particle.key}/{c.1}/{f.1.key}" =
        ElectrodeField.particle.key ++ "/" ++ c.1 ++ "/" ++ f.1.key := by
      simp [toString, String.append_assoc]
    show (joinPath path s!"{ElectrodeField.particle.key}/{c.1}/{f.1.key}", f.2) = _
    rw [hjoined, joinPath_joined hmaterial, joinPath_joined (by decide)]

namespace UserParameter

mutual

theorem listing_eq (path : String) : ∀ u : UserParameter, u.listing path = listedAt path u.values
  | .value _ => by rw [listing, values]; rfl
  | .text _ => by rw [listing, values]; rfl
  | .group entries => by rw [listing, values, groupListing_eq]

theorem groupListing_eq (path : String) :
    ∀ es : List (String × UserParameter), groupListing path es = listedAt path (groupValues es)
  | [] => by rw [groupListing, groupValues]; rfl
  | (name, u) :: rest => by
    rw [groupListing, groupValues, listedAt_append, listedAt_below, listing_eq, groupListing_eq]

end

end UserParameter

theorem Parameters.listing_eq (path : String) (p : Parameters) :
    p.listing path = listedAt path p.values := by
  simp only [listing, values, electrodeFields, listedAt_append, listedAt_elim, listedAt_below,
    Electrolyte.listed_valueFields, ActiveMaterial.listed_listing, UserParameter.groupListing_eq,
    List.flatMap_cons, List.flatMap_nil, List.append_nil, List.append_assoc]

namespace Document

/-- Every value is listed with its keys joined by slashes. -/
theorem listing_eq (d : Document) :
    d.listing = d.values.map fun v => ("/".intercalate v.1, v.2) := by
  have hbase : DocumentField.parameterisation.key ≠ "" := by decide
  rw [listing, Parameters.listing_eq, values, below, listedAt, List.map_map]
  exact List.map_congr_left fun v _ => Prod.ext (foldl_joinPath hbase v.1) rfl

theorem value?_eq (d : Document) (path : String) :
    d.value? path = (d.values.find? (·.1.text == path)).map (·.2) := by
  rw [value?, listing_eq, List.find?_map, Option.map_map]
  rfl

end Document

end BatteryParams

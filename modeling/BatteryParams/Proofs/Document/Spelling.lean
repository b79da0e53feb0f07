import BatteryParams.Proofs.Document.Independence
import BatteryParams.Proofs.Document.Lossless
import BatteryParams.Proofs.Json.Spelling

/-!
# Spelling of numbers

No reader sees how a number is spelled: it reads the same from the doubles of a tree as from the
tree, value and issues alike (`SeesDoubles`). This holds for the rules of single entries, for a
section if its body reads the same from the doubles of a record, and so for whole documents.
-/

namespace BatteryParams

/-- What is read from a tree, and what is reported of it, comes from its doubles. -/
def SeesDoubles {α : Type} (read : Path → Json → Reading α) : Prop :=
  ∀ path j, read path j.asDoubles = read path j

/-! ### Rules -/

theorem Version.ofJson_asDoubles (j : Json) : ofJson j.asDoubles = ofJson j := by
  cases j <;> rfl

namespace Value

theorem tableList_asDoubles (members : List (String × Json)) (key : String) :
    tableList (members.map fun m => (m.1, m.2.asDoubles)) key = tableList members key := by
  rw [tableList, tableList, Named.find?_map]
  cases Named.find? key members with
  | none => rfl
  | some j =>
    cases j with
    | list items => simp only [Option.map_some, Json.asDoubles_list, Json.mapM_toFloat?_asDoubles]
    | _ => rfl

theorem ofMembers_asDoubles (members : List (String × Json)) :
    ofMembers (members.map fun m => (m.1, m.2.asDoubles)) = ofMembers members := by
  rw [ofMembers, ofMembers, List.find?_map]
  simp only [Function.comp_def, tableList_asDoubles]
  cases members.find? fun m => m.1 != "x" && m.1 != "y" <;> rfl

theorem ofJson_asDoubles (j : Json) : ofJson j.asDoubles = ofJson j := by
  cases j with
  | object members =>
    rw [Json.asDoubles_object]
    exact ofMembers_asDoubles members
  | _ => rfl

end Value

namespace Rule

theorem seesDoubles_expect {α : Type} {expected : Expected} {decode : Json → Option α}
    (h : ∀ j : Json, decode j.asDoubles = decode j) : SeesDoubles (expect expected decode) := by
  intro path j
  rw [expect, expect, h, Json.kind_asDoubles]

@[simp]
theorem seesDoubles_number : SeesDoubles number := seesDoubles_expect Json.toFloat?_asDoubles

@[simp]
theorem seesDoubles_count : SeesDoubles count := seesDoubles_expect Json.toCount?_asDoubles

@[simp]
theorem seesDoubles_text : SeesDoubles text := seesDoubles_expect Json.toText?_asDoubles

@[simp]
theorem seesDoubles_numberList : SeesDoubles numberList :=
  seesDoubles_expect Json.toFloats?_asDoubles

@[simp]
theorem seesDoubles_value : SeesDoubles value := by
  intro path j
  rw [value, value, Value.ofJson_asDoubles]

@[simp]
theorem seesDoubles_version : SeesDoubles version := by
  intro path j
  rw [version, version, Version.ofJson_asDoubles]

@[simp]
theorem seesDoubles_model : SeesDoubles model := by
  intro path j
  cases j <;> rfl

end Rule

/-! ### Records and lists of members -/

/-- Members that are each read from their doubles are so together. -/
theorem Reading.each_asDoubles {α : Type} {read : String × Json → Reading α}
    {members : List (String × Json)} (h : ∀ m ∈ members, read (m.1, m.2.asDoubles) = read m) :
    each read (members.map fun m => (m.1, m.2.asDoubles)) = each read members := by
  induction members with
  | nil => rfl
  | cons m rest ih =>
    obtain ⟨hm, hrest⟩ := List.forall_mem_cons.mp h
    rw [List.map_cons, each, each, hm, ih hrest]

namespace Record

variable {α : Type} {f : Field} {read : Path → Json → Reading α}

/-- The same entries, with every number spelled as the double that it is. -/
def asDoubles (r : Record) : Record :=
  { r with members := r.members.map fun m => (m.1, m.2.asDoubles) }

@[simp]
theorem model_asDoubles (r : Record) : r.asDoubles.model = r.model := rfl

@[simp]
theorem path_asDoubles (r : Record) : r.asDoubles.path = r.path := rfl

@[simp]
theorem entry_asDoubles (h : SeesDoubles read) (r : Record) :
    r.asDoubles.entry f read = r.entry f read := by
  rw [entry, entry, asDoubles, Named.find?_map]
  cases Named.find? f.key r.members with
  | none => rfl
  | some j =>
    show some <$> read (r.path ++ [f.key]) j.asDoubles = some <$> read (r.path ++ [f.key]) j
    rw [h]

@[simp]
theorem required_asDoubles (h : SeesDoubles read) (r : Record) :
    r.asDoubles.required f read = r.required f read := by
  rw [required, entry_asDoubles h]
  rfl

theorem unknownIssues_asDoubles (path : Path) (fields : List Field)
    (members : List (String × Json)) :
    unknownIssues path fields (members.map fun m => (m.1, m.2.asDoubles)) =
      unknownIssues path fields members := by
  rw [unknownIssues, unknownIssues, List.filter_map, List.map_map]
  rfl

theorem seesDoubles_read {model : Model} {fields : List Field} {body : Record → Reading α}
    (h : ∀ r : Record, body r.asDoubles = body r) :
    SeesDoubles (Record.read model fields body) := by
  intro path j
  cases j with
  | object members =>
    have hbody := h ⟨path, members, model⟩
    rw [Json.asDoubles_object, Record.read, Record.read, unknownIssues_asDoubles, ← hbody]
    rfl
  | _ => rfl

end Record

/-! ### Sections -/

section

variable (model : Model)

@[simp]
theorem Header.seesDoubles_read : SeesDoubles (read model) :=
  Record.seesDoubles_read fun r => by simp [body]

@[simp]
theorem Cell.seesDoubles_read : SeesDoubles (read model) :=
  Record.seesDoubles_read fun r => by simp [body]

@[simp]
theorem Electrolyte.seesDoubles_read : SeesDoubles (read model) :=
  Record.seesDoubles_read fun r => by simp [body]

@[simp]
theorem Separator.seesDoubles_read : SeesDoubles (read model) :=
  Record.seesDoubles_read fun r => by simp [body]

@[simp]
theorem Particle.body_asDoubles (r : Record) : body r.asDoubles = body r := by
  simp [body]

theorem Blend.readMaterial_asDoubles (path : Path) (m : String × Json) :
    readMaterial model path (m.1, m.2.asDoubles) = readMaterial model path m := by
  have hbody (r : Record) : materialBody r.asDoubles = materialBody r := by simp [materialBody]
  have hread : SeesDoubles (Record.read model materialFields materialBody) :=
    Record.seesDoubles_read hbody
  exact congrArg (fun parts : Reading Parts =>
    (⟨some (m.1, parts.value.getD ⟨none, none⟩), parts.issues⟩ :
    Reading (String × Parts))) (hread (path ++ [m.1]) m.2)

@[simp]
theorem Blend.seesDoubles_read : SeesDoubles (read model) := by
  intro path j
  cases j with
  | object members =>
    rw [Json.asDoubles_object, read, read,
      Reading.each_asDoubles fun m _ => readMaterial_asDoubles model path m]
  | _ => rfl

@[simp]
theorem Electrode.seesDoubles_read : SeesDoubles (read model) := by
  intro path j
  have hblend : (j.asDoubles.member? ElectrodeField.particle.key).isSome =
      (j.member? ElectrodeField.particle.key).isSome := by
    rw [Json.member?_asDoubles, Option.isSome_map]
  rw [read, read, hblend]
  exact Record.seesDoubles_read (fun r => by simp [body, materialBody]) path j

@[simp]
theorem Experiment.seesDoubles_readAll : SeesDoubles (readAll model) := by
  have hbody (r : Record) : body r.asDoubles = body r := by simp [body]
  intro path j
  cases j with
  | object members =>
    rw [Json.asDoubles_object, readAll, readAll]
    refine Reading.each_asDoubles fun m _ => ?_
    rw [readMember, readMember, Record.seesDoubles_read hbody]
  | _ => rfl

end

namespace UserParameter

theorem looksLikeTable_asDoubles (members : List (String × Json)) :
    looksLikeTable (members.map fun m => (m.1, m.2.asDoubles)) = looksLikeTable members := by
  rw [looksLikeTable, looksLikeTable, List.any_map]
  rfl

theorem leaf_asDoubles {path : Path} {key : String} {j : Json}
    (h : ∀ members, j ≠ .object members) : read path key j.asDoubles = read path key j := by
  have hdoubles : ∀ members, j.asDoubles ≠ .object members := by
    cases j <;> simp_all [Json.asDoubles]
  rw [read_leaf hdoubles, read_leaf h, Rule.seesDoubles_text, Rule.seesDoubles_value]

mutual

theorem read_asDoubles (path : Path) (key : String) :
    ∀ j : Json, read path key j.asDoubles = read path key j
  | .object members => by
    have hvalue := Rule.seesDoubles_value path (.object members)
    rw [Json.asDoubles] at hvalue ⊢
    rw [read, read, hvalue, readGroup_asDoubles path members, Json.membersAsDoubles_eq_map,
      looksLikeTable_asDoubles]
  | .null | .bool _ | .number _ | .string _ | .list _ => leaf_asDoubles (by simp)

theorem readGroup_asDoubles (path : Path) :
    ∀ members : List (String × Json), readGroup path (Json.membersAsDoubles members) =
      readGroup path members
  | [] => rfl
  | (key, j) :: rest => by
    rw [Json.membersAsDoubles, readGroup, readGroup, read_asDoubles (path ++ [key]) key j,
      readGroup_asDoubles path rest]

end

@[simp]
theorem seesDoubles_readAll : SeesDoubles readAll := by
  intro path j
  cases j with
  | object members => exact readGroup_asDoubles path members
  | _ => rfl

end UserParameter

@[simp]
theorem Parameters.seesDoubles_read (model : Model) : SeesDoubles (read model) :=
  Record.seesDoubles_read fun r => by simp [body]

namespace Document

theorem statedModel_asDoubles (j : Json) : statedModel j.asDoubles = statedModel j := by
  rw [statedModel, statedModel, Json.member?_asDoubles]
  cases j.member? DocumentField.header.key with
  | none => rfl
  | some header =>
    simp only [Option.map_some, Option.bind_eq_bind, Option.bind_some, Json.member?_asDoubles]
    cases header.member? HeaderField.model.key with
    | none => rfl
    | some name => simp

theorem read_asDoubles (j : Json) : read j.asDoubles = read j := by
  rw [read, read, statedModel_asDoubles]
  exact Record.seesDoubles_read (fun r => by simp [body]) [] j

theorem ofJson_asDoubles (j : Json) : ofJson j.asDoubles = ofJson j := by
  rw [ofJson, ofJson, read_asDoubles]

end Document

end BatteryParams

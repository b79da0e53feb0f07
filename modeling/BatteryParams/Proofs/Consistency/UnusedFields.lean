import BatteryParams.Proofs.Consistency.Cutoffs
import BatteryParams.Proofs.Document.Issues

/-!
# Fields that a model does not use

The completeness report goes through a fixed row of places and asks the document which of them are
filled. Whether a field hangs on the model stands in the tables, and whether it is there in the
tree. For an accepted tree these agree: the row has every field of every table that hangs on the
model, and a place is filled in the document exactly if its key is in the tree.
-/

namespace BatteryParams

open Reading (clean)
open Record

/-! ### Entries of an accepted tree -/

theorem Record.isSome_entry {α : Type} {r : Record} {f : Field} {read : Path → Json → Reading α}
    {o : Option α}
    (h : r.entry f read = clean o) : o.isSome = (Named.find? f.key r.members).isSome := by
  rcases entry_eq_clean.mp h with ⟨j, a, hj, -, rfl⟩ | ⟨hj, -, rfl⟩
  · rw [hj]
    rfl
  · rw [hj]
    rfl

/-- The fields of an electrode that hang on the model. -/
def Electrode.modelTable : List Field :=
  [ElectrodeField.porosity, ElectrodeField.transportEfficiency, ElectrodeField.conductivity]

theorem Electrode.modelFields_of_read {model : Model} {path : Path} {j : Json} {e : Electrode}
    (h : Electrode.read model path j = clean e) :
    (∃ members, j = .object members) ∧ e.modelFields = modelTable.map fun f =>
      (f, (j.member? f.key).isSome) := by
  obtain ⟨members, rfl, hbody⟩ := read_eq_clean h
  rw [Reading.eq_clean_iff_yields] at hbody
  simp only [body, Reading.yields_seq, Reading.yields_map] at hbody
  obtain ⟨_, -, _, hporosity, _, hefficiency, _, hconductivity, _, -, rfl⟩ := hbody
  refine ⟨⟨members, rfl⟩, ?_⟩
  rw [modelFields, isSome_entry hporosity, isSome_entry hefficiency, isSome_entry hconductivity]
  rfl

theorem Electrode.placed_modelFields {members : List (String × Json)} {place : Field} {j : Json}
    {e : Electrode} (hplace : Named.find? place.key members = some j)
    (h : e.modelFields = modelTable.map fun f => (f, (j.member? f.key).isSome)) :
    (e.modelFields.map fun m => ([place.key, m.1.key], m.1, m.2)) =
      (modelTable.map fun f => ([place.key, f.key], f)).map fun m =>
        (m.1, m.2, ((Json.object members).follow? m.1).isSome) := by
  rw [h, List.map_map, List.map_map]
  refine List.map_congr_left fun f _ => ?_
  simp only [Function.comp_apply, Json.follow?_object hplace, Json.follow?_single]

namespace Parameters

/-- The places of the fields that hang on the model, in the order of the report. -/
def modelPlaces : List (Path × Field) :=
  let within (place : Field) := Electrode.modelTable.map fun f => ([place.key, f.key], f)
  [([ParameterField.electrolyte.key], ParameterField.electrolyte)] ++
    within ParameterField.negativeElectrode ++
    within ParameterField.positiveElectrode ++
      [([ParameterField.separator.key], ParameterField.separator)]

theorem modelFields_of_read {model : Model} {path : Path} {j : Json} {p : Parameters}
    (h : read model path j = clean p) :
    (∃ members, j = .object members) ∧
      (∀ place ∈ [ParameterField.negativeElectrode, ParameterField.positiveElectrode],
        ∃ members, j.follow? [place.key] = some (.object members)) ∧
      p.modelFields = modelPlaces.map fun m => (m.1, m.2, (j.follow? m.1).isSome) := by
  obtain ⟨members, rfl, hbody⟩ := read_eq_clean h
  rw [Reading.eq_clean_iff_yields] at hbody
  simp only [body, Reading.yields_seq, Reading.yields_map] at hbody
  obtain ⟨_, -, _, helectrolyte, _, hnegative, _, hpositive, _, hseparator, _, -, rfl⟩ := hbody
  obtain ⟨n, hn, hnread⟩ := required_eq_clean.mp hnegative
  obtain ⟨q, hq, hqread⟩ := required_eq_clean.mp hpositive
  obtain ⟨⟨nmembers, rfl⟩, hnfields⟩ := Electrode.modelFields_of_read hnread
  obtain ⟨⟨qmembers, rfl⟩, hqfields⟩ := Electrode.modelFields_of_read hqread
  refine ⟨⟨members, rfl⟩, ?_, ?_⟩
  · simp only [List.forall_mem_cons]
    exact ⟨⟨nmembers, Json.follow?_object hn⟩, ⟨qmembers, Json.follow?_object hq⟩,
      List.forall_mem_nil _⟩
  · rw [modelFields, modelPlaces, List.map_append, List.map_append, List.map_append,
      ← Electrode.placed_modelFields hn hnfields, ← Electrode.placed_modelFields hq hqfields,
      isSome_entry helectrolyte, isSome_entry hseparator]
    simp only [List.map_cons, List.map_nil, Json.follow?_single]
    rfl

end Parameters

namespace Document

variable {j : Json} {d : Document}

theorem modelFields_of_read (h : read j = clean d) :
    (∃ members, j.follow? [DocumentField.parameterisation.key] = some (.object members)) ∧
      (∀ place ∈ [ParameterField.negativeElectrode, ParameterField.positiveElectrode],
        ∃ members, j.follow? [DocumentField.parameterisation.key, place.key] =
          some (.object members)) ∧
      d.parameters.modelFields = Parameters.modelPlaces.map fun m =>
        (m.1, m.2, (j.follow? (DocumentField.parameterisation.key :: m.1)).isSome) := by
  obtain ⟨members, rfl, hbody⟩ := read_eq_clean h
  rw [Reading.eq_clean_iff_yields] at hbody
  simp only [body, Reading.yields_seq, Reading.yields_map] at hbody
  obtain ⟨_, -, p, hp, _, -, rfl⟩ := hbody
  obtain ⟨inner, hinner, hread⟩ := required_eq_clean.mp hp
  obtain ⟨⟨entries, rfl⟩, hplaces, hfields⟩ := Parameters.modelFields_of_read hread
  simp only [Json.follow?_object hinner]
  exact ⟨⟨entries, rfl⟩, hplaces, hfields⟩

/-- The unused fields are the places of the row that are filled in the tree though the model does
not use them. -/
theorem unusedFields_eq (h : read j = clean d) :
    d.unusedFields = (Parameters.modelPlaces.filter fun m =>
      (j.follow? (DocumentField.parameterisation.key :: m.1)).isSome &&
        m.2.requirement.isUnused d.model).map (·.1) := by
  rw [unusedFields, (modelFields_of_read h).2.2, List.filter_map, List.map_map]
  rfl

/-! ### The tables -/

theorem mem_closedAt {o : ClosedObject} {path : Path} {fields : List Field} :
    o ∈ closedAt path fields j ↔ ∃ members, j.follow? path = some (.object members) ∧
      o = ⟨path, fields, members⟩ := by
  rw [closedAt]
  cases j.follow? path with
  | none => simp
  | some inner => cases inner <;> simp [closedObject]

theorem fields_of_mem_closedWithin {o : ClosedObject} {path : Path} {fields : List Field}
    (h : o ∈ closedWithin path fields j) : o.fields = fields := by
  have hobject {path : Path} {inner : Json} (ho : o ∈ closedObject fields path inner) :
      o.fields = fields := by
    cases inner with
    | object members => rw [List.mem_singleton.mp ho]
    | _ => cases ho
  rw [closedWithin] at h
  cases hfollow : j.follow? path with
  | none =>
    rw [hfollow] at h
    cases h
  | some inner =>
    rw [hfollow] at h
    cases inner with
    | object members =>
      obtain ⟨m, -, ho⟩ := List.mem_flatMap.mp h
      exact hobject ho
    | _ => cases h

/-- A field that hangs on the model stands in no table that is the same for all models. -/
theorem not_mem_of_since {f : Field} {least : Model} (h : f.requirement = .since least)
    {table : List Field}
    (htable : ∀ f ∈ table, f.requirement = .always ∨ f.requirement = .optional) : f ∉ table := by
  intro hmem
  rcases htable f hmem with hfixed | hfixed
  · rw [h] at hfixed
    cases hfixed
  · rw [h] at hfixed
    cases hfixed

theorem place_of_mem_closedElectrode {place : Field} {o : ClosedObject} {f : Field} {least : Model}
    (ho : o ∈ closedElectrode place j) (hf : f ∈ o.fields) (h : f.requirement = .since least) :
    j.follow? o.path = some (.object o.members) ∧ f ∈ Electrode.modelTable ∧
      o.path = [DocumentField.parameterisation.key, place.key] := by
  have htable (isBlend : Bool) : ∀ f ∈ Electrode.fields isBlend,
      (f.requirement = .always ∨ f.requirement = .optional) ∨ f ∈ Electrode.modelTable := by
    cases isBlend <;> decide
  rcases List.mem_append.mp ho with ho | ho
  · obtain ⟨members, hfollow, rfl⟩ := mem_closedAt.mp ho
    refine ⟨hfollow, ?_, rfl⟩
    rcases htable _ f hf with hfixed | hmem
    · exact absurd (List.mem_singleton_self f)
        (not_mem_of_since h (List.forall_mem_singleton.mpr hfixed))
    · exact hmem
  · rw [fields_of_mem_closedWithin ho] at hf
    exact absurd hf (not_mem_of_since h (by decide))

/-- Every field that hangs on the model has its place in the row, below its object. -/
theorem place_of_mem_closedObjects {o : ClosedObject} {f : Field} {least : Model}
    (ho : o ∈ closedObjects j) (hf : f ∈ o.fields) (h : f.requirement = .since least) :
    j.follow? o.path = some (.object o.members) ∧
      ∃ m ∈ Parameters.modelPlaces, m.2 = f ∧
        o.path ++ [f.key] = DocumentField.parameterisation.key :: m.1 := by
  have hparameters : ∀ f ∈ ParameterField.table,
      (f.requirement = .always ∨ f.requirement = .optional) ∨
        ([f.key], f) ∈ Parameters.modelPlaces := by decide
  have hplaces : ∀ place ∈ [ParameterField.negativeElectrode, ParameterField.positiveElectrode],
      ∀ f ∈ Electrode.modelTable, ([place.key, f.key], f) ∈ Parameters.modelPlaces := by decide
  have htable {path : Path} {fields : List Field} (ho : o ∈ closedAt path fields j) :
      f ∈ fields := by
    obtain ⟨members, -, rfl⟩ := mem_closedAt.mp ho
    exact hf
  simp only [List.forall_mem_cons] at hplaces
  simp only [closedObjects, List.mem_append] at ho
  rcases ho with (((((((ho | ho) | ho) | ho) | ho) | ho) | ho) | ho) | ho
  · exact absurd (htable ho) (not_mem_of_since h (by decide))
  · exact absurd (htable ho) (not_mem_of_since h (by decide))
  · obtain ⟨members, hfollow, rfl⟩ := mem_closedAt.mp ho
    rcases hparameters f hf with hfixed | hmem
    · exact absurd (List.mem_singleton_self f)
        (not_mem_of_since h (List.forall_mem_singleton.mpr hfixed))
    · exact ⟨hfollow, _, hmem, rfl, rfl⟩
  · exact absurd (htable ho) (not_mem_of_since h (by decide))
  · exact absurd (htable ho) (not_mem_of_since h (by decide))
  · obtain ⟨hfollow, hmem, hpath⟩ := place_of_mem_closedElectrode ho hf h
    exact ⟨hfollow, _, hplaces.1 f hmem, rfl, by rw [hpath]; rfl⟩
  · obtain ⟨hfollow, hmem, hpath⟩ := place_of_mem_closedElectrode ho hf h
    exact ⟨hfollow, _, hplaces.2.1 f hmem, rfl, by rw [hpath]; rfl⟩
  · exact absurd (htable ho) (not_mem_of_since h (by decide))
  · rw [fields_of_mem_closedWithin ho] at hf
    exact absurd hf (not_mem_of_since h (by decide))

theorem mem_of_electrode {place : Field} {o : ClosedObject}
    (hplace : place ∈ [ParameterField.negativeElectrode, ParameterField.positiveElectrode])
    (ho : o ∈ closedElectrode place j) : o ∈ closedObjects j := by
  simp only [List.mem_cons, List.not_mem_nil, or_false] at hplace
  rcases hplace with rfl | rfl
  · simp only [closedObjects, List.mem_append, ho, true_or, or_true]
  · simp only [closedObjects, List.mem_append, ho, true_or, or_true]

/-- Every place of the row lies below an object of the tree whose tables have its field. -/
theorem exists_closedObject (h : read j = clean d) {m : Path × Field}
    (hm : m ∈ Parameters.modelPlaces) :
    ∃ o ∈ closedObjects j, m.2 ∈ o.fields ∧
      o.path ++ [m.2.key] = DocumentField.parameterisation.key :: m.1 := by
  have hrow : ∀ m ∈ Parameters.modelPlaces, (m.1 = [m.2.key] ∧ m.2 ∈ ParameterField.table) ∨
      ∃ place ∈ [ParameterField.negativeElectrode, ParameterField.positiveElectrode],
        m.1 = [place.key, m.2.key] ∧ m.2 ∈ ElectrodeField.table := by decide
  obtain ⟨⟨members, hmembers⟩, hplaces, -⟩ := modelFields_of_read h
  rcases hrow m hm with ⟨hpath, hmem⟩ | ⟨place, hplace, hpath, hmem⟩
  · have ho : ∃ o ∈ closedAt [DocumentField.parameterisation.key] ParameterField.table j,
        o.path = [DocumentField.parameterisation.key] ∧ m.2 ∈ o.fields :=
      ⟨_, mem_closedAt.mpr ⟨members, hmembers, rfl⟩, rfl, hmem⟩
    obtain ⟨o, ho, hopath, hofield⟩ := ho
    refine ⟨o, ?_, hofield, by rw [hopath, hpath]; rfl⟩
    simp only [closedObjects, List.mem_append, ho, true_or, or_true]
  · obtain ⟨entries, hentries⟩ := hplaces place hplace
    have ho : ∃ o ∈ closedElectrode place j,
        o.path = [DocumentField.parameterisation.key, place.key] ∧ m.2 ∈ o.fields :=
      ⟨_, List.mem_append_left _ (mem_closedAt.mpr ⟨entries, hentries, rfl⟩), rfl,
        List.mem_append_left _ hmem⟩
    obtain ⟨o, ho, hopath, hofield⟩ := ho
    exact ⟨o, mem_of_electrode hplace ho, hofield, by rw [hopath, hpath]; rfl⟩

/-- Nothing is missing in the objects of an accepted tree. -/
theorem mem_of_isRequired (h : ofJson j = .ok d) {o : ClosedObject} (ho : o ∈ closedObjects j)
    {f : Field} (hf : f ∈ o.fields) (hrequired : f.requirement.isRequired d.model = true) :
    f.key ∈ o.members.map (·.1) := by
  have hread := ofJson_eq_ok.mp h
  have hkeys := (reports_read j).keys
  rw [closedRecord_parts, statedModel_of_read hread, hread] at hkeys
  have hnone : (closedObjects j).flatMap (ClosedObject.faults d.header.model) = [] :=
    hkeys.nil_eq.symm
  have hfaults := List.flatMap_eq_nil_iff.mp hnone o ho
  have hmissing := (List.append_eq_nil_iff.mp hfaults).2
  by_contra habsent
  rw [ClosedObject.missingIssues, List.map_eq_nil_iff, ClosedObject.missingFields,
    List.filter_eq_nil_iff] at hmissing
  exact hmissing f hf (by simp only [decide_eq_true_eq]; exact ⟨hrequired, habsent⟩)

end Document

/-! ### The report -/

theorem Model.not_le_iff {a b : Model} : ¬a ≤ b ↔ b < a := Nat.not_le

theorem Requirement.isUnused_iff {r : Requirement} {model : Model} :
    r.isUnused model = true ↔ ∃ least, r = .since least ∧ model < least := by
  cases r with
  | since least => simp [isUnused]
  | _ => simp [isUnused]

/-- An object has an entry for a field that plays no part in a model. -/
def ClosedObject.HasUnused (o : ClosedObject) (model : Model) (f : Field) : Prop :=
  ∃ least, f.requirement = .since least ∧ model < least ∧ f.key ∈ o.members.map (·.1)

namespace Document

variable {j : Json} {d : Document}

/-- The order of the report: the electrolyte, what an electrode may have for either electrode, and
the separator. -/
def reportOrder : List Path :=
  let within (place : Field) := ElectrodeField.table.map fun f => [place.key, f.key]
  [[ParameterField.electrolyte.key]] ++ within ParameterField.negativeElectrode ++
    within ParameterField.positiveElectrode ++ [[ParameterField.separator.key]]

theorem mem_keys_iff {o : ClosedObject} {f : Field}
    (h : j.follow? o.path = some (.object o.members)) :
    f.key ∈ o.members.map (·.1) ↔ (j.follow? (o.path ++ [f.key])).isSome = true := by
  have hfollow : j.follow? (o.path ++ [f.key]) = Named.find? f.key o.members := by
    rw [Json.follow?_concat, h]
    rfl
  rw [hfollow, ← Option.ne_none_iff_isSome, Ne, Named.find?_eq_none_iff, not_not]

/-- What is reported is what the objects of the tree have for another model. -/
theorem mem_unusedFields_iff (h : read j = clean d) {place : Path} :
    place ∈ d.unusedFields.map (DocumentField.parameterisation.key :: ·) ↔
      ∃ o ∈ closedObjects j, ∃ f ∈ o.fields, o.HasUnused d.model f ∧ place = o.path ++ [f.key] := by
  rw [unusedFields_eq h, List.mem_map]
  simp only [List.mem_map, List.mem_filter, Bool.and_eq_true, Requirement.isUnused_iff]
  constructor
  · rintro ⟨_, ⟨m, ⟨hm, hpresent, least, hleast, hless⟩, rfl⟩, rfl⟩
    obtain ⟨o, ho, hf, hpath⟩ := exists_closedObject h hm
    have hfollow := (place_of_mem_closedObjects ho hf hleast).1
    exact ⟨o, ho, m.2, hf, ⟨least, hleast, hless, (mem_keys_iff hfollow).mpr (hpath ▸ hpresent)⟩,
      hpath.symm⟩
  · rintro ⟨o, ho, f, hf, ⟨least, hleast, hless, hkey⟩, rfl⟩
    obtain ⟨hfollow, m, hm, rfl, hpath⟩ := place_of_mem_closedObjects ho hf hleast
    have hpresent := (mem_keys_iff hfollow).mp hkey
    exact ⟨m.1, ⟨m, ⟨hm, hpath ▸ hpresent, least, hleast, hless⟩, rfl⟩, hpath.symm⟩

theorem unusedFields_eq_nil_iff (h : read j = clean d) :
    d.unusedFields = [] ↔ ¬∃ o ∈ closedObjects j, ∃ f ∈ o.fields, o.HasUnused d.model f := by
  constructor
  · rintro hnil ⟨o, ho, f, hf, hunused⟩
    have hmem := (mem_unusedFields_iff h).mpr ⟨o, ho, f, hf, hunused, rfl⟩
    rw [hnil] at hmem
    cases hmem
  · intro hnone
    rw [List.eq_nil_iff_forall_not_mem]
    intro place hplace
    obtain ⟨o, ho, f, hf, hunused, -⟩ := (mem_unusedFields_iff h).mp (List.mem_map_of_mem hplace)
    exact hnone ⟨o, ho, f, hf, hunused⟩

theorem completenessFinding?_eq_none_iff : d.completenessFinding? = none ↔ d.unusedFields = [] := by
  rw [completenessFinding?, ← List.isEmpty_iff]
  split <;> simp [*]

theorem completenessFinding?_of_ne_nil (h : d.unusedFields ≠ []) :
    d.completenessFinding? = some (.unusedFields d.model d.unusedFields) := by
  rw [completenessFinding?, if_neg (by simpa using h)]

/-- Among all findings the completeness report is the one about unused fields. -/
theorem unusedFields_not_mem_findings_iff {t : Tolerances} :
    (∀ model fields, Finding.unusedFields model fields ∉ d.findings t) ↔
      d.completenessFinding? = none := by
  constructor
  · intro h
    by_contra hsome
    have hfinding := completenessFinding?_of_ne_nil (mt completenessFinding?_eq_none_iff.mpr hsome)
    refine h d.model d.unusedFields ?_
    rw [findings, hfinding]
    simp
  · intro h model fields hmem
    rw [findings, h, Option.toList_none, List.append_nil, List.mem_append] at hmem
    rcases hmem with hversion | hvoltage
    · split at hversion
      · cases List.mem_singleton.mp hversion
      · cases hversion
    · cases isVoltage_of_mem hvoltage

/-- The completeness report of an accepted tree has, each once and in its order, the entries of the
tree whose fields the model does not use. So nothing is reported exactly if every field that hangs
on the model is there for the models that ask for it and for no others. -/
theorem unusedFields_exact (h : ofJson j = .ok d) :
    d.model = statedModel j ∧ d.unusedFields.Nodup ∧ d.unusedFields.Sublist reportOrder ∧
      (∀ place, place ∈ d.unusedFields.map (DocumentField.parameterisation.key :: ·) ↔
        ∃ o ∈ closedObjects j, ∃ f ∈ o.fields, o.HasUnused d.model f ∧ place = o.path ++ [f.key]) ∧
      (d.completenessFinding? = none ↔ ¬∃ o ∈ closedObjects j, ∃ f ∈ o.fields,
        o.HasUnused d.model f) ∧
      (∀ w, d.completenessFinding? = some w → w = .unusedFields d.model d.unusedFields) ∧
      ∀ t, (∀ model fields, Finding.unusedFields model fields ∉ d.findings t) ↔
        ∀ o ∈ closedObjects j, ∀ f ∈ o.fields, ∀ least, f.requirement = .since least →
          (f.key ∈ o.members.map (·.1) ↔ least ≤ d.model) := by
  have hread := ofJson_eq_ok.mp h
  have hsublist : d.unusedFields.Sublist reportOrder := by
    have hplaces : (Parameters.modelPlaces.map (·.1)).Sublist reportOrder := by decide
    rw [unusedFields_eq hread]
    exact (List.filter_sublist.map _).trans hplaces
  have hnone := completenessFinding?_eq_none_iff.trans (unusedFields_eq_nil_iff hread)
  refine ⟨(statedModel_of_read hread).symm, hsublist.nodup (by decide), hsublist,
    fun place => mem_unusedFields_iff hread, hnone, fun w hw => ?_, fun t => ?_⟩
  · by_cases hnil : d.unusedFields = []
    · rw [completenessFinding?_eq_none_iff.mpr hnil] at hw
      cases hw
    · rw [completenessFinding?_of_ne_nil hnil] at hw
      exact (Option.some_inj.mp hw).symm
  · rw [unusedFields_not_mem_findings_iff, hnone]
    constructor
    · intro hunused o ho f hf least hleast
      constructor
      · intro hkey
        by_contra hless
        exact hunused ⟨o, ho, f, hf, least, hleast, Model.not_le_iff.mp hless, hkey⟩
      · intro hle
        exact mem_of_isRequired h ho hf (by rw [hleast]; exact decide_eq_true hle)
    · rintro hexact ⟨o, ho, f, hf, least, hleast, hless, hkey⟩
      exact Model.not_le_iff.mpr hless ((hexact o ho f hf least hleast).mp hkey)

/-- The porosity of `Input.porous` is reported, and so not every field of it is there for its model
alone. -/
theorem unusedFields_exact_porous :
    ofJson Input.porous.toJson = .ok Input.porous ∧
      Input.porous.unusedFields = [["Negative electrode", "Porosity"]] ∧
      ¬∀ o ∈ closedObjects Input.porous.toJson, ∀ f ∈ o.fields, ∀ least,
        f.requirement = .since least →
        (f.key ∈ o.members.map (·.1) ↔ least ≤ Input.porous.model) := by
  have hread : ofJson Input.porous.toJson = .ok Input.porous := by decide +kernel
  have hunused : Input.porous.unusedFields = [["Negative electrode", "Porosity"]] := by
    decide +kernel
  refine ⟨hread, hunused, fun hall => ?_⟩
  obtain ⟨-, -, -, -, -, -, hclean⟩ := unusedFields_exact hread
  have hnone := (unusedFields_not_mem_findings_iff (t := ⟨0.001⟩)).mp ((hclean ⟨0.001⟩).mpr hall)
  rw [completenessFinding?_eq_none_iff, hunused] at hnone
  cases hnone

end Document

end BatteryParams

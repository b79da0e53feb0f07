import BatteryParams.Consistency
import BatteryParams.Proofs.Document.Independence

/-!
# Another model in the header

The model that a header names is looked up first and handed down to every section. There it tells
which fields must be there, and nothing else about reading depends on it. So with another model in
its header an accepted document is read as it was before, up to the fields that this model asks for
and the document does not have.
-/

namespace BatteryParams

open Reading (clean)
open Record

/-! ### Readings up to issues -/

namespace Reading

variable {α β : Type} {a : α} {is js : List Issue}

/-- These issues are met, and without any `a` is read. -/
def ReadsBut (r : Reading α) (a : α) (issues : List Issue) : Prop :=
  r.issues = issues ∧ (issues = [] → r = clean a)

theorem readsBut_clean (a : α) : (clean a).ReadsBut a [] := ⟨rfl, fun _ => rfl⟩

theorem ReadsBut.map {r : Reading α} (h : r.ReadsBut a is) (f : α → β) :
    (f <$> r).ReadsBut (f a) is := by
  refine ⟨h.1, fun hnone => ?_⟩
  rw [h.2 hnone]
  rfl

theorem ReadsBut.seq {f : Reading (α → β)} {r : Reading α} {g : α → β} (hf : f.ReadsBut g is)
    (hr : r.ReadsBut a js) : (f <*> r).ReadsBut (g a) (is ++ js) := by
  refine ⟨by rw [issues_seq, hf.1, hr.1], fun hnone => ?_⟩
  obtain ⟨his, hjs⟩ := List.append_eq_nil_iff.mp hnone
  rw [hf.2 his, hr.2 hjs]
  rfl

theorem ReadsBut.withIssues {r : Reading α} (h : r.ReadsBut a is) :
    (r.withIssues []).ReadsBut a is := h

end Reading

open Reading (ReadsBut readsBut_clean)

/-! ### Entries -/

/-- The issue of a field that a model asks for and that is not there. -/
def Field.lacking (f : Field) (model : Model) (path : Path) (present : Bool) : List Issue :=
  if !present && f.requirement.isRequired model then [⟨path ++ [f.key], .missing f.requirement⟩]
    else []

namespace Record

variable {α : Type} {r : Record} {f : Field} {read read' : Path → Json → Reading α} {model : Model}

/-- The same entries, read for another model. -/
def under (model : Model) (r : Record) : Record := { r with model }

theorem required_under {a : α} (h : r.required f read = clean a) {is : List Issue}
    (hread : ∀ path j, path = r.path ++ [f.key] → read path j = clean a →
      (read' path j).ReadsBut a is) :
    ((r.under model).required f read').ReadsBut a is := by
  obtain ⟨j, hj, hclean⟩ := required_eq_clean.mp h
  have hbut := hread _ j rfl hclean
  refine ⟨?_, fun hnone => required_eq_clean.mpr ⟨j, hj, hbut.2 hnone⟩⟩
  rw [issues_required, under, hj]
  exact hbut.1

theorem required_same (model : Model) {a : α} (h : r.required f read = clean a) :
    ((r.under model).required f read).ReadsBut a [] :=
  required_under h fun _ _ _ hclean => hclean ▸ readsBut_clean a

theorem entry_same (model : Model) {o : Option α} (h : r.entry f read = clean o) :
    ((r.under model).entry f read).ReadsBut o (f.lacking model r.path o.isSome) := by
  rcases entry_eq_clean.mp h with ⟨j, a, hj, hclean, rfl⟩ | ⟨hnone, -, rfl⟩
  · have hentry : (r.under model).entry f read = clean (some a) :=
      entry_eq_clean.mpr (.inl ⟨j, a, hj, hclean, rfl⟩)
    rw [hentry]
    exact readsBut_clean (some a)
  · have hfind : Named.find? f.key (r.under model).members = none := hnone
    refine ⟨?_, fun hlacking => entry_eq_clean.mpr (.inr ⟨hfind, ?_, rfl⟩)⟩
    · rw [issues_entry, hfind]
      cases hrequired : f.requirement.isRequired model <;>
        simp [Field.report, Field.lacking, under, hrequired]
    · simpa [Field.lacking, under] using hlacking

theorem entry_optional (model : Model) {o : Option α} (hf : f.requirement = .optional)
    (h : r.entry f read = clean o) : ((r.under model).entry f read).ReadsBut o [] := by
  have hlacking : f.lacking model r.path o.isSome = [] := by
    simp [Field.lacking, hf, Requirement.isRequired]
  exact hlacking ▸ entry_same model h

theorem read_under {other : Model} {fields : List Field} {body : Record → Reading α} {path : Path}
    {j : Json} {a : α} {is : List Issue}
    (hbody : ∀ r : Record, r.path = path → r.model = model → body r = clean a →
      (body (r.under other)).ReadsBut a is)
    (h : Record.read model fields body path j = clean a) :
    (Record.read other fields body path j).ReadsBut a is := by
  cases j with
  | object members =>
    obtain ⟨hkeys, hmembers⟩ := Reading.withIssues_eq_clean.mp h
    have hbut := hbody ⟨path, members, model⟩ rfl rfl hmembers
    simp only [Record.read, hkeys]
    exact hbut.withIssues
  | _ => exact absurd h Reading.issue_ne_clean

/-- The same entries, but for one. -/
def insert (key : String) (j : Json) (r : Record) : Record :=
  { r with members := Named.insert key j r.members }

theorem entry_insert {key : String} {j : Json} (h : key ≠ f.key) :
    (r.insert key j).entry f read = r.entry f read := by
  rw [entry, insert, Named.find?_insert, if_neg h]
  rfl

theorem required_insert {key : String} {j : Json} (h : key ≠ f.key) :
    (r.insert key j).required f read = r.required f read := by
  rw [required, entry_insert h]
  rfl

theorem required_inserted {a : α} {j : Json} (h : read (r.path ++ [f.key]) j = clean a) :
    (r.insert f.key j).required f read = clean a :=
  required_eq_clean.mpr ⟨j, by rw [insert, Named.find?_insert, if_pos rfl], h⟩

theorem unknownIssues_insert {path : Path} {fields : List Field} {key : String} {j : Json}
    {members : List (String × Json)} (h : key ∈ fields.map (·.key)) :
    unknownIssues path fields (Named.insert key j members) = unknownIssues path fields members := by
  rw [← unknownIssues_without h, Named.without_insert, unknownIssues_without h]

end Record

/-! ### Sections that are read alike for all models -/

section

variable (model other : Model)

theorem Header.read_eq : Header.read model = Header.read other := by
  funext path j
  cases j <;> rfl

theorem Cell.read_eq : Cell.read model = Cell.read other := by
  funext path j
  cases j <;> rfl

theorem Electrolyte.read_eq : Electrolyte.read model = Electrolyte.read other := by
  funext path j
  cases j <;> rfl

theorem Separator.read_eq : Separator.read model = Separator.read other := by
  funext path j
  cases j <;> rfl

theorem Blend.readMaterial_eq : Blend.readMaterial model = Blend.readMaterial other := by
  funext path member
  obtain ⟨name, j⟩ := member
  cases j <;> rfl

theorem Blend.read_eq : Blend.read model = Blend.read other := by
  funext path j
  cases j with
  | object members => simp only [Blend.read, Blend.readMaterial_eq model other]
  | _ => rfl

theorem Experiment.readMember_eq : Experiment.readMember model = Experiment.readMember other := by
  funext path member
  obtain ⟨name, j⟩ := member
  cases j <;> rfl

theorem Experiment.readAll_eq : Experiment.readAll model = Experiment.readAll other := by
  funext path j
  cases j with
  | object members => simp only [Experiment.readAll, Experiment.readMember_eq model other]
  | _ => rfl

end

/-! ### Electrodes and parameter sets -/

/-- What is missing from an electrode for a model. -/
def Electrode.lacking (model : Model) (path : Path) (e : Electrode) : List Issue :=
  ElectrodeField.porosity.lacking model path e.porosity.isSome ++
    ElectrodeField.transportEfficiency.lacking model path e.transportEfficiency.isSome ++
    ElectrodeField.conductivity.lacking model path e.conductivity.isSome

theorem Electrode.materialBody_under {model : Model} {isBlend : Bool} {r : Record}
    {m : ActiveMaterial}
    (h : materialBody isBlend r = clean m) : materialBody isBlend (r.under model) = clean m := by
  cases isBlend with
  | true =>
    rw [materialBody, if_pos rfl, Reading.eq_clean_iff_yields, Reading.yields_map] at h ⊢
    obtain ⟨b, hb, rfl⟩ := h
    refine ⟨b, ?_, rfl⟩
    rw [under, Blend.read_eq model r.model]
    exact required_eq_clean.mpr (required_eq_clean.mp hb)
  | false => exact h

theorem Electrode.body_under {model : Model} {isBlend : Bool} {r : Record} {e : Electrode}
    (h : body isBlend r = clean e) :
    (body isBlend (r.under model)).ReadsBut e (e.lacking model r.path) := by
  rw [Reading.eq_clean_iff_yields] at h
  simp only [body, Reading.yields_seq, Reading.yields_map] at h
  obtain ⟨_, hthickness, _, hporosity, _, hefficiency, _, hconductivity, m, hmaterial, rfl⟩ := h
  have hsame : (materialBody isBlend (r.under model)).ReadsBut m [] :=
    materialBody_under hmaterial ▸ readsBut_clean m
  have hseq := (required_same model hthickness).map Electrode.mk |>.seq (entry_same model hporosity)
    |>.seq (entry_same model hefficiency) |>.seq (entry_same model hconductivity) |>.seq hsame
  rwa [List.append_nil] at hseq

theorem Electrode.read_under {model other : Model} {path : Path} {j : Json} {e : Electrode}
    (h : read model path j = clean e) : (read other path j).ReadsBut e (e.lacking other path) :=
  Record.read_under (fun _ hpath _ hbody => hpath ▸ body_under hbody) h

/-- What is missing from a parameter set for a model: one issue for each field that hangs on the
model, is not there and is asked for by this model, since it is at least as demanding as the first
one to ask for the field. -/
def Parameters.lacking (model : Model) (p : Parameters) : List Issue :=
  (p.modelFields.filter fun (_, f, present) => !present && f.requirement.isRequired model).map
      fun (path, f, _) =>
    ⟨DocumentField.parameterisation.key :: path, .missing f.requirement⟩

namespace Parameters

theorem lacking_eq (model : Model) (p : Parameters) :
    p.lacking model =
      ParameterField.electrolyte.lacking model [DocumentField.parameterisation.key]
        p.electrolyte.isSome ++
        p.negativeElectrode.lacking model [DocumentField.parameterisation.key,
          ParameterField.negativeElectrode.key] ++
        p.positiveElectrode.lacking model [DocumentField.parameterisation.key,
          ParameterField.positiveElectrode.key] ++
        ParameterField.separator.lacking model [DocumentField.parameterisation.key]
          p.separator.isSome := by
  have hflat (fs : List (Path × Field × Bool)) :
      (fs.filter fun (_, f, present) => !present && f.requirement.isRequired model).map
          (fun (path, f, _) =>
            (⟨DocumentField.parameterisation.key :: path, .missing f.requirement⟩ : Issue)) =
        fs.flatMap fun (path, f, present) =>
          if !present && f.requirement.isRequired model then
            [⟨DocumentField.parameterisation.key :: path, .missing f.requirement⟩]
          else [] := by
    induction fs with
    | nil => rfl
    | cons first rest ih =>
      obtain ⟨path, f, present⟩ := first
      rw [List.flatMap_cons, ← ih, List.filter_cons]
      dsimp only
      split <;> rfl
  rw [lacking, hflat]
  simp [modelFields, Electrode.modelFields, Electrode.lacking, Field.lacking]

/-- One issue for each of them. -/
theorem lacking_nodup (model : Model) (p : Parameters) :
    ((p.lacking model).map (·.path)).Nodup := by
  have hpaths : (p.modelFields.map (·.1)).Nodup := by
    simp only [modelFields, Electrode.modelFields, List.map_append, List.map_cons, List.map_nil]
    decide
  have hlacking : (p.lacking model).map (·.path) =
      ((p.modelFields.filter fun (_, f, present) => !present && f.requirement.isRequired model).map
        (·.1)).map (DocumentField.parameterisation.key :: ·) := by
    rw [lacking, List.map_map, List.map_map]
    rfl
  rw [hlacking]
  exact (hpaths.sublist (List.filter_sublist.map _)).map (List.cons_injective)

/-- Nothing is missing for a model that is no more demanding than one for which nothing is
missing. -/
theorem lacking_eq_nil {model least : Model} {p : Parameters} (h : p.Complete model)
    (hle : least ≤ model) : p.lacking least = [] := by
  have hfield (f : Field) (path : Path) {o : Bool} {first : Model}
      (hf : f.requirement = .since first)
      (ho : first ≤ model → o = true) : f.lacking least path o = [] := by
    rw [Field.lacking, hf, if_neg]
    simp only [Requirement.isRequired, Bool.and_eq_true, Bool.not_eq_true', decide_eq_true_eq,
      not_and]
    intro hnone hfirst
    rw [ho (Nat.le_trans hfirst hle)] at hnone
    cases hnone
  have helectrode (path : Path) {e : Electrode} (he : e.Complete model) :
      e.lacking least path = [] := by
    rw [Electrode.lacking, hfield _ _ rfl he.porosity, hfield _ _ rfl he.transportEfficiency,
      hfield _ _ rfl he.conductivity]
    rfl
  rw [lacking_eq, helectrode _ h.negativeElectrode, helectrode _ h.positiveElectrode,
    hfield _ _ rfl h.electrolyte, hfield _ _ rfl h.separator]
  rfl

theorem body_under {model : Model} {r : Record} {p : Parameters}
    (hpath : r.path = [DocumentField.parameterisation.key])
    (h : body r = clean p) : (body (r.under model)).ReadsBut p (p.lacking model) := by
  rw [Reading.eq_clean_iff_yields] at h
  simp only [body, Reading.yields_seq, Reading.yields_map] at h
  obtain ⟨_, hcell, _, helectrolyte, _, hnegative, _, hpositive, _, hseparator, _, huser, rfl⟩ := h
  rw [Cell.read_eq r.model model] at hcell
  rw [Electrolyte.read_eq r.model model] at helectrolyte
  rw [Separator.read_eq r.model model] at hseparator
  have helectrode {f : Field} {e : Electrode} (he : r.required f (Electrode.read r.model) =
      clean e) : ((r.under model).required f (Electrode.read model)).ReadsBut e
        (e.lacking model [DocumentField.parameterisation.key, f.key]) := by
    refine required_under he fun path j heq hj => ?_
    rw [hpath, List.singleton_append] at heq
    subst heq
    exact Electrode.read_under hj
  have hseq := (required_same model hcell).map Parameters.mk |>.seq (entry_same model helectrolyte)
    |>.seq (helectrode hnegative) |>.seq (helectrode hpositive) |>.seq (entry_same model hseparator)
    |>.seq (entry_optional model rfl huser)
  rw [List.append_nil, hpath] at hseq
  rw [lacking_eq]
  exact hseq

theorem read_under {model other : Model} {j : Json} {p : Parameters}
    (h : read model [DocumentField.parameterisation.key] j = clean p) :
    (read other [DocumentField.parameterisation.key] j).ReadsBut p (p.lacking other) :=
  Record.read_under (fun _ hpath _ hbody => body_under hpath hbody) h

end Parameters

/-! ### Documents -/

namespace Header

/-- The same header, but for the model. -/
def relabel (model : Model) (h : Header) : Header := { h with model }

theorem read_relabel {least model other : Model} {path : Path} {entries : List (String × Json)}
    {h : Header} (hread : read least path (.object entries) = clean h) :
    read other path (.object (Named.insert HeaderField.model.key (.string model.name) entries)) =
      clean (h.relabel model) := by
  rw [read_eq least other] at hread
  obtain ⟨hkeys, hbody⟩ := Reading.withIssues_eq_clean.mp hread
  rw [Reading.eq_clean_iff_yields] at hbody
  simp only [body, Reading.yields_seq, Reading.yields_map] at hbody
  obtain ⟨_, hversion, _, htitle, _, hdescription, _, hreferences, _, -, rfl⟩ := hbody
  have hkey : HeaderField.model.key ∈ HeaderField.table.map (·.key) := by decide
  refine Reading.withIssues_eq_clean.mpr ⟨(unknownIssues_insert hkey).trans hkeys, ?_⟩
  rw [Reading.eq_clean_iff_yields]
  simp only [body, Reading.yields_seq, Reading.yields_map]
  exact ⟨_, (required_insert (by decide)).trans hversion, _,
    (entry_insert (by decide)).trans htitle,
    _, (entry_insert (by decide)).trans hdescription, _,
    (entry_insert (by decide)).trans hreferences,
    _, required_inserted (r := ⟨path, entries, other⟩)
      (Rule.model_eq_clean.mpr ⟨_, rfl, ofName?_name model⟩), rfl⟩

end Header

namespace Document

/-- The same document, but for the model in its header. -/
def relabel (model : Model) (d : Document) : Document := { d with header := d.header.relabel model }

/-- The same tree, but for the model in its header. -/
def relabelTree (model : Model) (j : Json) : Json :=
  match j, j.member? DocumentField.header.key with
  | .object members, some (.object entries) =>
    .object (Named.insert DocumentField.header.key
      (.object (Named.insert HeaderField.model.key (.string model.name) entries)) members)
  | _, _ => j

variable {j : Json} {d : Document}

/-- An accepted tree is an object that has an object as its header. -/
theorem exists_header (h : read j = clean d) : ∃ members entries, j = .object members ∧
    Named.find? DocumentField.header.key members = some (.object entries) ∧
      Header.read (statedModel j) [DocumentField.header.key] (.object entries) =
        clean d.header := by
  obtain ⟨members, rfl, hbody⟩ := read_eq_clean h
  rw [Reading.eq_clean_iff_yields] at hbody
  simp only [body, Reading.yields_seq, Reading.yields_map] at hbody
  obtain ⟨header, hheader, _, -, _, -, rfl⟩ := hbody
  obtain ⟨tree, htree, hread⟩ := required_eq_clean.mp hheader
  obtain ⟨entries, rfl, -⟩ := read_eq_clean hread
  exact ⟨members, entries, rfl, htree, hread⟩

theorem body_relabel {model : Model} {r : Record} {entries : List (String × Json)}
    (hpath : r.path = [])
    (hfind : Named.find? DocumentField.header.key r.members = some (.object entries))
    (h : body r = clean d) : (body ((r.under model).insert DocumentField.header.key
      (.object (Named.insert HeaderField.model.key (.string model.name) entries)))).ReadsBut
        (d.relabel model) (d.parameters.lacking model) := by
  rw [Reading.eq_clean_iff_yields] at h
  simp only [body, Reading.yields_seq, Reading.yields_map] at h
  obtain ⟨header, hheader, p, hp, es, hes, rfl⟩ := h
  obtain ⟨tree, htree, hread⟩ := required_eq_clean.mp hheader
  rw [hfind] at htree
  cases htree
  have hheader' : ((r.under model).insert DocumentField.header.key
      (.object (Named.insert HeaderField.model.key (.string model.name) entries))).required
        DocumentField.header (Header.read model) = clean (header.relabel model) :=
    required_inserted (r := r.under model) (Header.read_relabel hread)
  have hp' :
      ((r.under model).required DocumentField.parameterisation (Parameters.read model)).ReadsBut p
      (p.lacking model) := by
    refine required_under hp fun path j heq hj => ?_
    rw [hpath, List.nil_append] at heq
    subst heq
    exact Parameters.read_under hj
  rw [Experiment.readAll_eq r.model model] at hes
  have hes' := entry_optional model rfl hes
  have hbeside : DocumentField.header.key ≠ DocumentField.parameterisation.key ∧
      DocumentField.header.key ≠ DocumentField.validation.key := by decide
  rw [← required_insert hbeside.1] at hp'
  rw [← entry_insert hbeside.2] at hes'
  have hseq :=
    (hheader' ▸ readsBut_clean (header.relabel model)).map Document.mk |>.seq hp' |>.seq hes'
  rw [List.nil_append, List.append_nil] at hseq
  exact hseq

/-- A tree with another model in its header is read for that model, up to what is missing for it. -/
theorem read_relabelTree (h : read j = clean d) (model : Model) :
    (read (relabelTree model j)).ReadsBut (d.relabel model) (d.parameters.lacking model) := by
  obtain ⟨members, entries, rfl, hfind, -⟩ := exists_header h
  obtain ⟨hkeys, hbody⟩ := Reading.withIssues_eq_clean.mp h
  have htree : relabelTree model (.object members) = .object (Named.insert DocumentField.header.key
      (.object (Named.insert HeaderField.model.key (.string model.name) entries)) members) := by
    simp only [relabelTree, Json.member?, hfind]
  have hheader : (relabelTree model (.object members)).member? DocumentField.header.key =
      some (.object (Named.insert HeaderField.model.key (.string model.name) entries)) := by
    rw [htree, Json.member?, Named.find?_insert, if_pos rfl]
  have hmodel :
      (Json.object (Named.insert HeaderField.model.key (.string model.name) entries)).member?
      HeaderField.model.key = some (.string model.name) := by
    rw [Json.member?, Named.find?_insert, if_pos rfl]
  have hstated := statedModel_of_member? hheader hmodel (Header.ofName?_name model)
  have hkey : DocumentField.header.key ∈ DocumentField.table.map (·.key) := by decide
  rw [read, hstated, htree, Record.read, unknownIssues_insert hkey, hkeys]
  exact (body_relabel rfl hfind hbody).withIssues

/-- An accepted document with another model in its header is refused exactly for what it lacks for
that model, with one issue for each field, and is accepted as the same document if it lacks nothing,
as it does for every less demanding model. -/
theorem ofJson_relabelTree (h : ofJson j = .ok d) (model : Model) :
    (issues (relabelTree model j) = d.parameters.lacking model ∧
        ((d.parameters.lacking model).map (·.path)).Nodup) ∧
      (d.parameters.lacking model = [] → ofJson (relabelTree model j) = .ok (d.relabel model)) ∧
      (model ≤ d.header.model → ofJson (relabelTree model j) = .ok (d.relabel model)) := by
  have hread := ofJson_eq_ok.mp h
  have hbut := read_relabelTree hread model
  have haccepted (hnone : d.parameters.lacking model = []) :
      ofJson (relabelTree model j) = .ok (d.relabel model) :=
    ofJson_eq_ok.mpr (hbut.2 hnone)
  refine ⟨⟨(issues_eq _).trans hbut.1, d.parameters.lacking_nodup model⟩, haccepted,
    fun hle => haccepted ?_⟩
  exact Parameters.lacking_eq_nil (readable_of_read hread).parameters.complete hle

/-- For the most demanding model, a document for the one before it lacks the conductivities of both
electrodes. -/
theorem ofJson_relabelTree_sample : ofJson sample.toJson = .ok sample ∧
    issues (relabelTree .dfn sample.toJson) =
      [⟨["Parameterisation", "Negative electrode", "Conductivity [S.m-1]"], .missing (.since .dfn)⟩,
        ⟨["Parameterisation", "Positive electrode", "Conductivity [S.m-1]"],
          .missing (.since .dfn)⟩] ∧
    ofJson (relabelTree .spm sample.toJson) = .ok (sample.relabel .spm) := by
  have hread := ofJson_toJson_sample.2
  have hlacking : sample.parameters.lacking .dfn =
      [⟨["Parameterisation", "Negative electrode", "Conductivity [S.m-1]"], .missing (.since .dfn)⟩,
        ⟨["Parameterisation", "Positive electrode", "Conductivity [S.m-1]"],
          .missing (.since .dfn)⟩] := by decide
  exact ⟨hread, hlacking ▸ (ofJson_relabelTree hread .dfn).1.1,
    (ofJson_relabelTree hread .spm).2.2 (by decide)⟩

end Document

end BatteryParams

import BatteryParams.Proofs.Document.SectionReports
import BatteryParams.Proofs.Schema.Fields

/-!
# Descriptions of records

A record and its description come from one table of fields: what one holds to be unknown, the other
does too, and both ask for the same entries, but for those that only some models ask for. So a
record fits its description if each of its fields does, with a gap where a field has one, and what
is reported of the record as a whole is left to the reader.
-/

namespace BatteryParams

open Reading (check)
open Record

namespace Schema

variable {hops : Nat} {fields : List Field} {j : Json}

theorem admitsMember_ofTable (hkeys : (fields.map (·.key)).Nodup) {name : String} {inner : Json} :
    AdmitsMember documentSchema.toJson (fields.map fun f => (f.key, ofField f)) none name inner ↔
      ∃ f ∈ fields, f.key = name ∧ (ofField f).Describes Schema.reach inner := by
  have hnodup : ((fields.map fun f => (f.key, ofField f)).map (·.1)).Nodup := by rwa [List.map_map]
  rw [AdmitsMember]
  cases hfind : Named.find? name (fields.map fun f => (f.key, ofField f)) with
  | none =>
    have hlacks := Named.find?_eq_none_iff.mp hfind
    simp only [List.map_map, List.mem_map, Function.comp_apply, not_exists, not_and] at hlacks
    simpa using fun f hf hkey => absurd hkey (hlacks f hf)
  | some s =>
    obtain ⟨f, hf, heq⟩ := List.mem_map.mp (Named.mem_of_find? hfind)
    cases heq
    constructor
    · intro h
      exact ⟨f, hf, rfl, h⟩
    · rintro ⟨f', hf', hkey, h⟩
      obtain rfl : f' = f := List.inj_on_of_nodup_map hkeys hf' hf hkey
      exact h

/-- What the description of a record asks of an object. -/
theorem describes_ofTable (hkeys : (fields.map (·.key)).Nodup) :
    (ofTable fields).Describes hops j ↔
      ∃ members, j = .object members ∧
        (∀ m ∈ members, ∃ f ∈ fields, f.key = m.1 ∧ (ofField f).Describes Schema.reach m.2) ∧
        ∀ f ∈ fields, f.requirement = .always → (Named.find? f.key members).isSome = true := by
  have hnames : (((some (fields.map fun f => (f.key, ofField f))).getD []).map (·.1)).Nodup := by
    rwa [Option.getD_some, List.map_map]
  refine (admits_object hnames).trans ?_
  simp only [Option.getD_some, admitsMember_ofTable hkeys, List.forall_mem_map, List.mem_filter,
    decide_eq_true_eq, and_imp, Option.mem_def, reduceCtorEq, false_implies, implies_true, and_true]

/-- The entries of a record are described elsewhere, so it does not matter how many references led
to it. -/
theorem describes_ofTable_hops {others : Nat} (hkeys : (fields.map (·.key)).Nodup) :
    (ofTable fields).Describes hops j ↔ (ofTable fields).Describes others j :=
  (describes_ofTable hkeys).trans (describes_ofTable hkeys).symm

/-- A described record has described entries. -/
theorem describes_member? (hkeys : (fields.map (·.key)).Nodup)
    (h : (ofTable fields).Describes hops j) {f : Field}
    (hf : f ∈ fields) {inner : Json} (hfind : j.member? f.key = some inner) :
    (ofField f).Describes Schema.reach inner := by
  obtain ⟨members, rfl, hmembers, -⟩ := (describes_ofTable hkeys).mp h
  obtain ⟨f', hf', hkey, hinner⟩ := hmembers _ (Named.mem_of_find? hfind)
  obtain rfl : f' = f := List.inj_on_of_nodup_map hkeys hf' hf hkey
  exact hinner

/-- A described record has no key beyond its fields, and the fields that are always required. -/
theorem members_of_ofTable (hkeys : (fields.map (·.key)).Nodup)
    (h : (ofTable fields).Describes hops j) :
    (∀ key, key ∉ fields.map (·.key) → j.member? key = none) ∧
      ∀ f ∈ fields, f.requirement = .always → (j.member? f.key).isSome = true := by
  obtain ⟨members, rfl, hmembers, hpresent⟩ := (describes_ofTable hkeys).mp h
  refine ⟨fun key hkey => ?_, hpresent⟩
  rw [Json.member?, Named.find?_eq_none_iff]
  intro hmem
  obtain ⟨m, hm, rfl⟩ := List.mem_map.mp hmem
  obtain ⟨f, hf, hfield, -⟩ := hmembers m hm
  exact hkey (List.mem_map.mpr ⟨f, hf, hfield⟩)

/-- Written entries make a described record if they are described and none is missing. -/
theorem describes_ofWritten {entries : List (Field × Json)} (hkeys : (fields.map (·.key)).Nodup)
    (hentries : (entries.map (·.1)).Sublist fields)
    (hdescribed : ∀ e ∈ entries, (ofField e.1).Describes Schema.reach e.2)
    (hpresent : ∀ f ∈ fields, f.requirement = .always → f ∈ entries.map (·.1)) :
    (ofTable fields).Describes hops (.ofWritten (entries.map fun e => (e.1, some e.2))) := by
  have hnodup : ((entries.map fun e => (e.1, some e.2)).map (·.1.key)).Nodup := by
    have hwritten := (hentries.map (·.key)).nodup hkeys
    rw [List.map_map] at hwritten ⊢
    exact hwritten
  refine (describes_ofTable hkeys).mpr ⟨_, rfl, fun m hm => ?_, fun f hf hrequired => ?_⟩
  · obtain ⟨_, hwritten, hvalue⟩ := List.mem_filterMap.mp (Named.mem_of_mem_ofList hm)
    obtain ⟨e, he, rfl⟩ := List.mem_map.mp hwritten
    cases hvalue
    exact ⟨e.1, hentries.subset (List.mem_map_of_mem he), rfl, hdescribed e he⟩
  · obtain ⟨e, he, rfl⟩ := List.mem_map.mp (hpresent f hf hrequired)
    have hfind : (Json.ofWritten (entries.map fun e => (e.1, some e.2))).member? e.1.key =
        some e.2 :=
      member?_ofWritten hnodup (List.mem_map_of_mem he)
    exact Option.isSome_of_mem hfind

end Schema

section

variable {hops : Nat} {model : Model} {fields : List Field} {parts : List Part}
    {gap : Field → Json → Prop} {α : Type}
  {body : Record → Reading α}

/-- The body of a record reports its parts, and then what its description leaves to the reader. -/
def LeavesRest (model : Model) (parts : List Part) (body : Record → Reading α) : Prop :=
  ∀ r : Record, r.model = model →
    ∃ judged : List Issue, (∀ i ∈ judged, i.cause.LeftToReader) ∧
      (body r).issues = parts.flatMap (Part.issues r) ++ judged

theorem leavesRest_of_eq (h : ∀ r : Record,
    r.model = model → (body r).issues = parts.flatMap (Part.issues r)) :
    LeavesRest model parts body := by
  intro r hr
  refine ⟨[], List.forall_mem_nil _, ?_⟩
  rw [List.append_nil, h r hr]

namespace Part

/-- A part of a record fits the description of its field. -/
def Fits (p : Part) (gap : Json → Prop) : Prop :=
  Schema.Fits Schema.reach (Schema.ofField p.field) p.check gap

variable {p : Part} {path : Path} {members : List (String × Json)}

theorem isSome_of_issues (h : p.issues ⟨path, members, model⟩ = [])
    (hrequired : p.field.requirement = .always) :
    (Named.find? p.field.key members).isSome = true := by
  rw [issues, report] at h
  cases hfind : Named.find? p.field.key members with
  | some inner => rfl
  | none =>
    rw [hfind, Field.report, hrequired] at h
    cases h

theorem Fits.describes_of_issues {gap : Json → Prop} (hp : p.Fits gap)
    (h : p.issues ⟨path, members, model⟩ = [])
    {inner : Json} (hfind : Named.find? p.field.key members = some inner) (hinner : inner.Filed) :
    (Schema.ofField p.field).Describes Schema.reach inner := by
  rw [issues, report, hfind] at h
  exact hp.describes _ inner hinner h

/-- A part of a described record reports only what is left to the reader, unless it is there and
lies in the gap. -/
theorem Fits.left_iff {gap : Json → Prop} (hp : p.Fits gap)
    (hpresent : p.field.requirement = .always → (Named.find? p.field.key members).isSome = true)
    (hadmitted : ∀ inner, Named.find? p.field.key members = some inner →
      inner.Filed ∧ (Schema.ofField p.field).Describes Schema.reach inner) :
    (∀ i ∈ p.issues ⟨path, members, model⟩, i.cause.LeftToReader) ↔
      ¬∃ inner, Named.find? p.field.key members = some inner ∧ gap inner := by
  rw [issues, report]
  cases hfind : Named.find? p.field.key members with
  | some inner =>
    obtain ⟨hfiled, hinner⟩ := hadmitted inner hfind
    simpa [Field.report] using Schema.Fits.left_iff hp _ inner hfiled hinner
  | none =>
    have hrequired : p.field.requirement ≠ .always := fun h => by simpa [hfind] using hpresent h
    cases hreq : p.field.requirement with
    | always => exact absurd hreq hrequired
    | optional => simp [Field.report, hreq, Requirement.isRequired]
    | since least => simp [Field.report, hreq, IssueCause.LeftToReader]

end Part

/-- A record fits its description if its fields do. -/
theorem fits_record (hbody : LeavesRest model parts body) (hkeys : (fields.map (·.key)).Nodup)
    (hfields : (parts.map (·.field)).Perm fields) (hparts : ∀ p ∈ parts, p.Fits (gap p.field)) :
    Schema.Fits hops (Schema.ofTable fields) (check (Record.read model fields body))
      fun j => ∃ f ∈ fields, ∃ inner, j.member? f.key = some inner ∧ gap f inner where
  describes := by
    intro path j hfiled hcheck
    cases j with
    | object members =>
      obtain ⟨judged, -, hissues⟩ := hbody ⟨path, members, model⟩ rfl
      rw [check, issues_read, hissues, List.append_eq_nil_iff, List.append_eq_nil_iff,
        List.flatMap_eq_nil_iff] at hcheck
      obtain ⟨hunknown, hnone, -⟩ := hcheck
      obtain ⟨hordered, hinner⟩ := Json.filed_object.mp hfiled
      have hpart : ∀ f ∈ fields, ∃ p ∈ parts, p.field = f :=
        fun f hf => List.mem_map.mp (hfields.mem_iff.mpr hf)
      refine (Schema.describes_ofTable hkeys).mpr ⟨members, rfl, fun m hm => ?_,
        fun f hf hrequired => ?_⟩
      · obtain ⟨f, hf, hkey⟩ := exists_field_of_unknownIssues hunknown m hm
        obtain ⟨p, hp, rfl⟩ := hpart f hf
        have hfind : Named.find? p.field.key members = some m.2 :=
          hkey ▸ Named.find?_of_mem (Named.nodup_of_ordered hordered) hm
        exact ⟨p.field, hf, hkey,
          (hparts p hp).describes_of_issues (hnone p hp) hfind (hinner m hm)⟩
      · obtain ⟨p, hp, rfl⟩ := hpart f hf
        exact Part.isSome_of_issues (hnone p hp) hrequired
    | _ => cases hcheck
  left_iff := by
    intro path j hfiled hj
    obtain ⟨members, rfl, hmembers, hpresent⟩ := (Schema.describes_ofTable hkeys).mp hj
    obtain ⟨judged, hjudged, hissues⟩ := hbody ⟨path, members, model⟩ rfl
    obtain ⟨hordered, hinner⟩ := Json.filed_object.mp hfiled
    have hunknown : unknownIssues path fields members = [] := by
      rw [unknownIssues, List.map_eq_nil_iff, List.filter_eq_nil_iff]
      intro m hm
      obtain ⟨f, hf, hkey, -⟩ := hmembers m hm
      simpa using ⟨f, hf, hkey⟩
    have hadmitted : ∀ f ∈ fields, ∀ inner, Named.find? f.key members = some inner →
        inner.Filed ∧ (Schema.ofField f).Describes Schema.reach inner := by
      intro f hf inner hfind
      exact ⟨hinner _ (Named.mem_of_find? hfind), Schema.describes_member? hkeys hj hf hfind⟩
    have hfield : ∀ p ∈ parts, p.field ∈ fields :=
      fun p hp => hfields.mem_iff.mp (List.mem_map_of_mem hp)
    have hleft : ∀ p ∈ parts, ((∀ i ∈ p.issues ⟨path, members, model⟩, i.cause.LeftToReader) ↔
        ¬∃ inner, Named.find? p.field.key members = some inner ∧ gap p.field inner) :=
      fun p hp => (hparts p hp).left_iff (hpresent _ (hfield p hp)) (hadmitted _ (hfield p hp))
    rw [check, issues_read, hissues, hunknown, List.nil_append, List.forall_mem_append,
      and_iff_left hjudged, List.forall_mem_flatMap]
    have hmoved :
        (∀ p ∈ parts, ¬∃ inner, Named.find? p.field.key members = some inner ∧ gap p.field inner) ↔
        ∀ f ∈ fields, ¬∃ inner, Named.find? f.key members = some inner ∧ gap f inner := by
      constructor
      · intro h f hf
        obtain ⟨p, hp, rfl⟩ := List.mem_map.mp (hfields.mem_iff.mpr hf)
        exact h p hp
      · exact fun h p hp => h p.field (hfield p hp)
    rw [forall₂_congr hleft, hmoved]
    simp [Json.member?]

/-- A record of entries that fit has no gap. -/
theorem fits_flat (hbody : LeavesRest model parts body) (hkeys : (fields.map (·.key)).Nodup)
    (hfields : (parts.map (·.field)).Perm fields) (hparts : ∀ p ∈ parts, p.Fits Schema.NoGap) :
    Schema.Fits hops (Schema.ofTable fields) (check (Record.read model fields body))
      Schema.NoGap := by
  have hrecord :
        Schema.Fits hops (Schema.ofTable fields) (check (Record.read model fields body)) fun j =>
      ∃ f ∈ fields, ∃ inner, j.member? f.key = some inner ∧ Schema.NoGap inner :=
    fits_record hbody hkeys hfields hparts
  exact hrecord.congr fun j => by simp [Schema.NoGap]

/-! ### Mappings and references -/

theorem Schema.describes_mapping {member : Schema} {least : Option Nat} {j : Json} :
    (mapping member least).Describes hops j ↔
      ∃ members, j = .object members ∧ (∀ m ∈ members, member.Describes Schema.reach m.2) ∧
        ∀ n ∈ least, n.toUInt64.toNat ≤ members.length := by
  have hmember (name : String) (inner : Json) :
      AdmitsMember documentSchema.toJson [] (some member) name inner ↔
        member.Describes Schema.reach inner := by
    simp [AdmitsMember, Named.find?, Describes, refLimit_documentSchema]
  refine Iff.trans (admits_object ?_) ?_
  · exact List.nodup_nil
  · simp [hmember]

/-- An object whose keys are free names fits its description if its members do. -/
theorem fits_mapping {member : Schema} {least : Option Nat} {each check : Check}
    (hmember : Schema.Fits Schema.reach member each Schema.NoGap)
    (hobject : ∀ path members, ∃ judged : List Issue, (∀ i ∈ judged, i.cause.LeftToReader) ∧
      check path (.object members) = (members.flatMap fun m => each (path ++ [m.1]) m.2) ++ judged)
    (hother : ∀ path j, check path j = [] → ∃ members, j = .object members)
    (hleast : ∀ path members, check path (.object members) = [] → ∀ n ∈ least,
      n.toUInt64.toNat ≤ members.length) :
    Schema.Fits hops (Schema.mapping member least) check Schema.NoGap where
  describes := by
    intro path j hfiled hcheck
    obtain ⟨members, rfl⟩ := hother path j hcheck
    obtain ⟨judged, -, hissues⟩ := hobject path members
    have hlong := hleast path members hcheck
    rw [hissues, List.append_eq_nil_iff, List.flatMap_eq_nil_iff] at hcheck
    have hinner := (Json.filed_object.mp hfiled).2
    exact Schema.describes_mapping.mpr
      ⟨members, rfl, fun m hm => hmember.describes _ m.2 (hinner m hm) (hcheck.1 m hm), hlong⟩
  left_iff := by
    intro path j hfiled hj
    obtain ⟨members, rfl, hmembers, -⟩ := Schema.describes_mapping.mp hj
    obtain ⟨judged, hjudged, hissues⟩ := hobject path members
    have hinner := (Json.filed_object.mp hfiled).2
    rw [hissues, List.forall_mem_append, List.forall_mem_flatMap, Schema.NoGap, not_false_eq_true,
      iff_true]
    exact ⟨fun m hm => (hmember.left_iff _ m.2 (hinner m hm) (hmembers m hm)).mpr id, hjudged⟩

theorem Schema.Fits.ref {name : String} {s : Schema} {check : Check} {gap : Json → Prop}
    (h : s.Fits hops check gap) (hname : Named.find? name documentSchema.definitions = some s)
    (hplain : '/' ∉ name.toList ∧ '~' ∉ name.toList) : Schema.Fits (hops + 1)
    (.ref name) check gap where
  describes :=
    fun path j hfiled hcheck => (describes_ref hname hplain).mpr (h.describes path j hfiled hcheck)
  left_iff := fun path j hfiled hj => h.left_iff path j hfiled ((describes_ref hname hplain).mp hj)

/-- An entry with a section of its own is described as the section is. -/
theorem Schema.describes_section {f : Field} {s : Schema} {j : Json}
    (hkind : f.kind = .record ∨ f.kind = .mapping)
    (hname : Named.find? f.definitionName documentSchema.definitions = some s)
    (hplain : '/' ∉ f.definitionName.toList ∧ '~' ∉ f.definitionName.toList) :
    (ofField f).Describes (hops + 1) j ↔ s.Describes hops j := by
  have hkinds : ofFieldKind f = .ref f.definitionName := by
    unfold ofFieldKind
    rcases hkind with hkind | hkind <;> rw [hkind]
  rw [describes_ofField, hkinds]
  exact describes_ref hname hplain

/-- An entry with a section of its own fits its field if it fits the description of the section. -/
theorem Part.fits_section {f : Field} {check : Check} {closed : Path → Json → List ClosedObject}
    {s : Schema} {gap : Json → Prop} (hkind : f.kind = .record ∨ f.kind = .mapping)
    (hname : Named.find? f.definitionName documentSchema.definitions = some s)
    (hplain : '/' ∉ f.definitionName.toList ∧ '~' ∉ f.definitionName.toList)
    (h : ∀ {hops}, s.Fits hops check gap) : (Part.mk f check closed).Fits gap where
  describes := fun path j hfiled hcheck =>
    (Schema.describes_section hkind hname hplain).mpr (h.describes path j hfiled hcheck)
  left_iff := fun path j hfiled hj =>
    h.left_iff path j hfiled ((Schema.describes_section hkind hname hplain).mp hj)

end

end BatteryParams

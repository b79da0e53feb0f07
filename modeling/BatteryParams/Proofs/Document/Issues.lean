import BatteryParams.Proofs.Document.Acceptance
import BatteryParams.Proofs.Document.SectionReports

/-!
# The issues of a document

A tree that is refused is refused for its issues, each at a place of its own that is there in the
tree, or in an object that lacks it, and each reported with the keys of its place joined by slashes.
The issues about keys are exactly the unknown keys and the missing fields of the closed objects of
the tree, whatever else is wrong with it.
-/

namespace BatteryParams.Document

open Reading (check)

/-- The issues for which a tree is refused; an accepted tree has none. -/
def issues (j : Json) : List Issue :=
  match ofJson j with
  | .ok _ => []
  | .error r => r.issues

theorem issues_eq (j : Json) : issues j = (read j).issues := by
  rw [issues]
  cases h : ofJson j with
  | ok d =>
    have hread := ofJson_eq_ok.mp h
    rw [hread]
    rfl
  | error r => exact issues_of_ofJson h

/-! ### Unknown and missing keys -/

/-- The object at a place as a closed one, if there is an object. -/
def closedAt (path : Path) (fields : List Field) (j : Json) : List ClosedObject :=
  (j.follow? path).elim [] (closedObject fields path)

/-- The members of the object at a place as closed objects, as far as they are objects. -/
def closedWithin (path : Path) (fields : List Field) (j : Json) : List ClosedObject :=
  (j.follow? path).elim [] (closedMapping (closedObject fields) path)

/-- The closed objects of an electrode: the electrode, whose tables hang on whether it has an entry
for the materials of a blend, and each of these materials. -/
def closedElectrode (f : Field) (j : Json) : List ClosedObject :=
  let path := [DocumentField.parameterisation.key, f.key]
  let materials := [DocumentField.parameterisation.key, f.key, ElectrodeField.particle.key]
  closedAt path (Electrode.fields (j.follow? materials).isSome) j ++
    closedWithin materials (ParticleField.table ++ ParticleField.blendTable) j

/-- The closed objects of a tree that is read as a document, as far as they are objects reached
through objects. -/
def closedObjects (j : Json) : List ClosedObject :=
  let parameters := DocumentField.parameterisation.key
  closedAt [] DocumentField.table j ++
    closedAt [DocumentField.header.key] HeaderField.table j ++
    closedAt [parameters] ParameterField.table j ++
    closedAt [parameters, ParameterField.cell.key] CellField.table j ++
    closedAt [parameters, ParameterField.electrolyte.key] ElectrolyteField.table j ++
    closedElectrode ParameterField.negativeElectrode j ++
    closedElectrode ParameterField.positiveElectrode j ++
    closedAt [parameters, ParameterField.separator.key] SeparatorField.table j ++
    closedWithin [DocumentField.validation.key] ExperimentField.table j

section

variable {j ps : Json}

theorem closedAt_parameters (hps : j.member? DocumentField.parameterisation.key = some ps)
    (f : Field) (fields : List Field) :
    closedAt [DocumentField.parameterisation.key, f.key] fields j =
      (ps.member? f.key).elim []
        (closedObject fields [DocumentField.parameterisation.key, f.key]) := by
  rw [closedAt, Json.follow?_of_member? hps, Json.follow?_single]

theorem closedElectrode_eq (hps : j.member? DocumentField.parameterisation.key = some ps)
    (f : Field) : closedElectrode f j =
      (ps.member? f.key).elim []
        (Electrode.closed [DocumentField.parameterisation.key, f.key]) := by
  have hmaterials :
      j.follow? [DocumentField.parameterisation.key, f.key, ElectrodeField.particle.key] =
      (ps.member? f.key).bind (Json.member? ElectrodeField.particle.key) := by
    rw [Json.follow?_of_member? hps, Json.follow?_cons]
    congr 1
    funext e
    exact Json.follow?_single _ e
  rw [closedElectrode, closedAt_parameters hps, closedWithin, hmaterials]
  cases ps.member? f.key <;> rfl

theorem closedRecord_parts (j : Json) (model : Model) :
    closedRecord DocumentField.table (parts model) [] j = closedObjects j := by
  cases hps : j.member? DocumentField.parameterisation.key with
  | none =>
    have hnone (rest : Path) : j.follow? (DocumentField.parameterisation.key :: rest) = none := by
      rw [Json.follow?_cons, hps, Option.bind_none]
    simp [closedRecord, parts, Part.closedIn, closedObjects, closedAt, closedElectrode,
      closedWithin, hps, hnone, Json.follow?_nil, Json.follow?_single]
  | some ps =>
    simp only [closedObjects, closedAt_parameters hps, closedElectrode_eq hps]
    simp [closedRecord, parts, Parameters.parts, Part.closedIn, closedAt, closedWithin, hps,
      Json.follow?_nil, Json.follow?_single]
    cases ps.member? ParameterField.userDefined.key <;> rfl

end

theorem filter_missing_faults (model : Model) (o : ClosedObject) :
    (o.faults model).filter (·.cause.issueClass = .missing) = o.missingIssues model := by
  rw [ClosedObject.faults, List.filter_append, List.filter_eq_nil_iff.mpr, List.filter_eq_self.mpr,
    List.nil_append]
  · exact List.forall_mem_map.mpr fun _ _ => rfl
  · exact List.forall_mem_map.mpr fun _ _ => by simp [IssueCause.issueClass]

theorem filter_unknown_faults (model : Model) (o : ClosedObject) :
    (o.faults model).filter (·.cause.issueClass = .unknown) = o.unknownIssues := by
  rw [ClosedObject.faults, List.filter_append, List.filter_eq_self.mpr, List.filter_eq_nil_iff.mpr,
    List.append_nil]
  · exact List.forall_mem_map.mpr fun _ _ => by simp [IssueCause.issueClass]
  · exact List.forall_mem_map.mpr fun _ _ => rfl

theorem aboutKey_iff (cause : IssueCause) :
    cause.aboutKey = true ↔ cause.issueClass = .unknown ∨ cause.issueClass = .missing := by
  cases cause with
  | value e => cases e <;> simp [IssueCause.aboutKey, IssueCause.issueClass]
  | _ => simp [IssueCause.aboutKey, IssueCause.issueClass]

theorem filter_aboutKey {c : IssueClass} (h : c = .unknown ∨ c = .missing) (issues : List Issue) :
    (issues.filter (·.cause.aboutKey)).filter (·.cause.issueClass = c) =
      issues.filter (·.cause.issueClass = c) := by
  rw [List.filter_filter]
  refine List.filter_congr fun i _ => ?_
  by_cases hc : i.cause.issueClass = c
  · have hkey : i.cause.aboutKey = true := (aboutKey_iff i.cause).mpr (by rwa [hc])
    simp [hc, hkey]
  · simp [hc]

/-- The issues about keys are, one each, the keys of the closed objects that stand in none of their
tables, and the fields of these tables that the declared model asks for and the objects do not
have. -/
theorem key_issues_exact (j : Json) :
    ((issues j).filter (·.cause.issueClass = .unknown)).Perm
        ((closedObjects j).flatMap ClosedObject.unknownIssues) ∧
      ((issues j).filter (·.cause.issueClass = .missing)).Perm
        ((closedObjects j).flatMap (ClosedObject.missingIssues (statedModel j))) := by
  have hkeys := (reports_read j).keys
  rw [closedRecord_parts, ← issues_eq] at hkeys
  constructor
  · have hperm := hkeys.filter (·.cause.issueClass = .unknown)
    rw [filter_aboutKey (.inl rfl), List.filter_flatMap] at hperm
    simpa only [filter_unknown_faults] using hperm
  · have hperm := hkeys.filter (·.cause.issueClass = .missing)
    rw [filter_aboutKey (.inr rfl), List.filter_flatMap] at hperm
    simpa only [filter_missing_faults] using hperm

/-- A tree with a header for the most demanding model, with an entry too many, an electrode without
a thickness, of a blend that is no object, and these further sections. -/
def brokenTreeWith (sections : List (String × Json)) : Json :=
  let header := Json.ofMembers [("BPX", .bool true), ("Colour", .null), ("Model", .string "DFN")]
  let electrode :=
    Json.ofMembers [("Particle", .string "Graphite"), ("Porosity", .number (.natural 1))]
  .ofMembers [("Header", header),
    ("Parameterisation", .ofMembers (("Negative electrode", electrode) :: sections))]

def brokenTree : Json := brokenTreeWith []

/-- The refusal of `brokenTree`. -/
def broken : Rejection :=
  let parameter (f : Field) : Issue := ⟨["Parameterisation", f.key], .missing f.requirement⟩
  let negative (f : Field) (cause : IssueCause) : Issue :=
    ⟨["Parameterisation", "Negative electrode", f.key], cause⟩
  let missing (f : Field) : Issue := negative f (.missing f.requirement)
  ⟨[⟨["Header", "Colour"], .unknown⟩, ⟨["Header", "BPX"], .version (.kind .boolean)⟩,
    parameter ParameterField.cell, parameter ParameterField.electrolyte,
    missing ElectrodeField.thickness, missing ElectrodeField.transportEfficiency,
    missing ElectrodeField.conductivity,
    negative ElectrodeField.particle (.wrongKind .materials .string),
    parameter ParameterField.positiveElectrode, parameter ParameterField.separator]⟩

theorem ofJson_brokenTree : ofJson brokenTree = .error broken := by decide +kernel

/-- The header has a key of no table, and seven fields are asked for that are not there. -/
theorem key_issues_exact_broken :
    [⟨["Header", "Colour"], .unknown⟩].Perm
        ((closedObjects brokenTree).flatMap ClosedObject.unknownIssues) ∧
      (broken.issues.filter (·.cause.issueClass = .missing)).Perm
        ((closedObjects brokenTree).flatMap (ClosedObject.missingIssues .dfn)) ∧
      (broken.issues.filter (·.cause.issueClass = .missing)).length = 7 := by
  have hissues : issues brokenTree = broken.issues := by rw [issues, ofJson_brokenTree]
  have hmodel : statedModel brokenTree = .dfn := by decide +kernel
  have hunknown : broken.issues.filter (·.cause.issueClass = .unknown) =
      [⟨["Header", "Colour"], .unknown⟩] := by decide
  have hexact := key_issues_exact brokenTree
  rw [hissues, hmodel, hunknown] at hexact
  exact ⟨hexact.1, hexact.2, by decide⟩

/-! ### Places -/

/-- An issue is about the whole tree, or one key of it, or it is in a section. -/
theorem place_of_issue {j : Json} {i : Issue} (h : i ∈ (read j).issues) :
    i.path.length ≤ 1 ∨ ∃ f ∈ DocumentField.table, [f.key] <+: i.path := by
  cases j with
  | object members =>
    rw [read, Record.issues_read, issues_body, List.mem_append, List.mem_flatMap] at h
    rcases h with hunknown | ⟨p, hp, hi⟩
    · obtain ⟨m, -, rfl⟩ := List.mem_map.mp hunknown
      exact .inl (Nat.le_refl 1)
    · exact .inr ⟨p.field, List.mem_map_of_mem hp, (Part.branch (sound_parts _ p hp)).below i hi⟩
  | _ =>
    obtain rfl := List.mem_singleton.mp h
    exact .inl (Nat.zero_le 1)

theorem reportedPath_of_issue {j : Json} {i : Issue} (h : i ∈ (read j).issues) :
    i.reportedPath = "/".intercalate i.path := by
  have hkeys : ∀ f ∈ DocumentField.table, f.key ≠ "" := by decide
  rw [Issue.reportedPath]
  cases hpath : i.path with
  | nil => exact String.intercalate_nil.symm
  | cons key rest =>
    refine Path.reported_cons fun hempty => ?_
    rcases place_of_issue h with hshort | ⟨f, hf, hsection⟩
    · rw [hpath, List.length_cons] at hshort
      exact List.eq_nil_of_length_eq_zero (by omega)
    · rw [hpath, List.cons_prefix_cons, hempty] at hsection
      exact absurd hsection.1 (hkeys f hf)

/-- An issue is reported with its keys joined by slashes. They lead to what it is about, or, for a
missing entry, to the object that lacks it; and no two issues stand at one place. -/
theorem issue_places {j : Json} {r : Rejection} (hfiled : j.Filed) (h : ofJson j = .error r) :
    (∀ i ∈ r.issues, i.reportedPath = "/".intercalate i.path ∧
      i.cause.issueClass.StandsAt j i.path) ∧ (r.issues.map (·.path)).Nodup := by
  have hreports := reports_read j
  have hissues := issues_of_ofJson h
  rw [← hissues] at hreports
  refine ⟨fun i hi => ⟨reportedPath_of_issue (hissues ▸ hi), ?_⟩, hreports.apart hfiled⟩
  exact hreports.stands hfiled i.path i.cause hi

/-- The paths that are reported of `brokenTree`. -/
def brokenTexts : List String :=
  ["Header/Colour", "Header/BPX", "Parameterisation/Cell", "Parameterisation/Electrolyte",
    "Parameterisation/Negative electrode/Thickness [m]",
    "Parameterisation/Negative electrode/Transport efficiency",
    "Parameterisation/Negative electrode/Conductivity [S.m-1]",
    "Parameterisation/Negative electrode/Particle", "Parameterisation/Positive electrode",
    "Parameterisation/Separator"]

theorem issue_places_broken :
    ofJson brokenTree = .error broken ∧ broken.issues.map (·.reportedPath) = brokenTexts ∧
      (∀ i ∈ broken.issues, i.reportedPath = "/".intercalate i.path ∧
        i.cause.issueClass.StandsAt brokenTree i.path) ∧ (broken.issues.map (·.path)).Nodup := by
  have hfiled : brokenTree.Filed := by decide +kernel
  exact ⟨ofJson_brokenTree, by decide +kernel, issue_places hfiled ofJson_brokenTree⟩

end BatteryParams.Document

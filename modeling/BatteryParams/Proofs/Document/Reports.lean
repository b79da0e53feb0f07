import BatteryParams.Proofs.Document.Parts
import BatteryParams.Proofs.Json.Filed
import BatteryParams.Proofs.Json.Place
import Mathlib.Data.List.Nodup
import Mathlib.Data.List.Perm.Basic

/-!
# What is reported of a node

What a check reports of a node is at the node or below it, at places that are really there, at no
place twice, and its issues about keys are those of the closed objects in the node (`Reports`). An
object is checked key by key: what is reported under one key is a branch of its own (`Branch`), and
branches under different keys do not meet (`Branches`). So a record or a mapping is reported rightly
if each of its entries is.
-/

namespace BatteryParams

open Reading (check)

/-! ### Places and faults -/

/-- The place that an issue of a class is about is there, or, for a missing entry, is the place in
an object where it is not. -/
def IssueClass.StandsAt (j : Json) (place : Path) : IssueClass → Prop
  | .missing =>
    ∃ parent key members, place = parent ++ [key] ∧ j.follow? parent = some (.object members) ∧
      key ∉ members.map (·.1)
  | .unknown | .wrongType | .malformed | .validation => (j.follow? place).isSome = true

namespace ClosedObject

/-- The keys of an object that stand in none of its tables. -/
def unknownKeys (o : ClosedObject) : List String :=
  (o.members.map (·.1)).filter fun key => key ∉ o.fields.map (·.key)

/-- The fields that a model asks for and an object does not have. -/
def missingFields (model : Model) (o : ClosedObject) : List Field :=
  o.fields.filter fun f => f.requirement.isRequired model ∧ f.key ∉ o.members.map (·.1)

def unknownIssues (o : ClosedObject) : List Issue :=
  o.unknownKeys.map fun key => ⟨o.path ++ [key], .unknown⟩

def missingIssues (model : Model) (o : ClosedObject) : List Issue :=
  (o.missingFields model).map fun f => ⟨o.path ++ [f.key], .missing f.requirement⟩

def faults (model : Model) (o : ClosedObject) : List Issue :=
  o.unknownIssues ++ o.missingIssues model

/-- The issue of a field that is missing in an object, if it is. -/
def missingIssue (model : Model) (path : Path) (members : List (String × Json)) (f : Field) :
    List Issue :=
  if f.requirement.isRequired model ∧ f.key ∉ members.map (·.1) then
    [⟨path ++ [f.key], .missing f.requirement⟩]
  else []

theorem missingIssues_eq (model : Model) (o : ClosedObject) :
    o.missingIssues model = o.fields.flatMap (missingIssue model o.path o.members) := by
  obtain ⟨path, fields, members⟩ := o
  rw [missingIssues, missingFields]
  induction fields with
  | nil => rfl
  | cons f rest ih =>
    rw [List.filter_cons, List.flatMap_cons, ← ih, missingIssue]
    split <;> simp_all

end ClosedObject

/-- The issues of a node, with the closed objects in it. -/
structure Reports (model : Model) (path : Path) (j : Json) (issues : List Issue)
    (closed : List ClosedObject) : Prop where
  below : ∀ i ∈ issues, path <+: i.path
  stands : j.Filed → ∀ place cause, ⟨path ++ place, cause⟩ ∈ issues →
    cause.issueClass.StandsAt j place
  apart : j.Filed → (issues.map (·.path)).Nodup
  keys : (issues.filter (·.cause.aboutKey)).Perm (closed.flatMap (ClosedObject.faults model))

section

variable {model : Model} {path : Path} {j : Json} {issues judged : List Issue}
    {closed : List ClosedObject}

theorem IssueCause.standsAt_nil {cause : IssueCause} (h : cause.aboutKey = false) :
    cause.issueClass.StandsAt j [] := by
  cases cause with
  | missing => cases h
  | unknown => cases h
  | value e => cases e <;> rfl
  | _ => rfl

theorem IssueClass.StandsAt.under {c : IssueClass} {key : String} {rest : Path} {inner : Json}
    (h : c.StandsAt inner rest) (hmember : j.member? key = some inner) :
    c.StandsAt j (key :: rest) := by
  have hfollow (rest : Path) : j.follow? (key :: rest) = inner.follow? rest :=
    Json.follow?_of_member? hmember
  cases c with
  | missing =>
    obtain ⟨parent, last, members, rfl, hparent, hlast⟩ := h
    exact ⟨key :: parent, last, members, rfl, (hfollow parent).trans hparent, hlast⟩
  | unknown | wrongType | malformed | validation =>
    show (j.follow? (key :: rest)).isSome = true
    rw [hfollow]
    exact h

theorem AtPlace.filter_aboutKey (h : AtPlace path judged) :
    judged.filter (·.cause.aboutKey) = [] := by
  rcases h with rfl | ⟨cause, hcause, rfl⟩
  · rfl
  · simp [hcause]

theorem AtPlace.path_eq (h : AtPlace path judged) :
    ∀ i ∈ judged, i.path = path ∧ i.cause.aboutKey = false := by
  rcases h with rfl | ⟨cause, hcause, rfl⟩
  · exact List.forall_mem_nil _
  · exact List.forall_mem_singleton.mpr ⟨rfl, hcause⟩

theorem AtPlace.below (h : AtPlace path judged) : ∀ i ∈ judged, path <+: i.path :=
  fun i hi => ⟨[], by rw [List.append_nil, (h.path_eq i hi).1]⟩

theorem AtPlace.stands (h : AtPlace path judged) {place : Path} {cause : IssueCause}
    (hmem : ⟨path ++ place, cause⟩ ∈ judged) : cause.issueClass.StandsAt j place := by
  obtain ⟨hpath, hcause⟩ := h.path_eq _ hmem
  obtain rfl : place = [] := List.append_cancel_left (hpath.trans (List.append_nil path).symm)
  exact IssueCause.standsAt_nil hcause

theorem AtPlace.nodup (h : AtPlace path judged) : (judged.map (·.path)).Nodup := by
  rcases h with rfl | ⟨cause, -, rfl⟩
  · exact List.nodup_nil
  · exact List.nodup_singleton _

/-! ### Branches of an object -/

variable {members : List (String × Json)} {key : String}

/-- The issues under one key of an object. -/
structure Branch (path : Path) (members : List (String × Json)) (key : String)
    (issues : List Issue) : Prop where
  below : ∀ i ∈ issues, path ++ [key] <+: i.path
  stands : (Json.object members).Filed → ∀ place cause, ⟨path ++ place, cause⟩ ∈ issues →
    cause.issueClass.StandsAt (.object members) place
  apart : (Json.object members).Filed → (issues.map (·.path)).Nodup

/-- The issues under the keys of an object. -/
structure Branches (path : Path) (members : List (String × Json)) (issues : List Issue) : Prop where
  below : ∀ i ∈ issues, ∃ key, path ++ [key] <+: i.path
  stands : (Json.object members).Filed → ∀ place cause, ⟨path ++ place, cause⟩ ∈ issues →
    cause.issueClass.StandsAt (.object members) place
  apart : (Json.object members).Filed → (issues.map (·.path)).Nodup

theorem branch_nil : Branch path members key [] where
  below := List.forall_mem_nil _
  stands := fun _ _ _ h => absurd h List.not_mem_nil
  apart := fun _ => List.nodup_nil

theorem branch_single {cause : IssueCause} (h : cause.issueClass.StandsAt (.object members) [key]) :
    Branch path members key [⟨path ++ [key], cause⟩] where
  below := List.forall_mem_singleton.mpr List.prefix_rfl
  stands := by
    intro _ place cause' hmem
    obtain ⟨hplace, rfl⟩ := Issue.mk.inj (List.mem_singleton.mp hmem)
    rw [List.append_cancel_left hplace]
    exact h
  apart := fun _ => List.nodup_singleton _

theorem Reports.branch {inner : Json} (h : Reports model (path ++ [key]) inner issues closed)
    (hfind : (Json.object members).Filed → Named.find? key members = some inner) :
      Branch path members key issues where
  below := h.below
  stands := by
    intro hfiled place cause hmem
    have hinner : inner.Filed := Json.Filed.of_find? (Json.filed_object.mp hfiled).2 (hfind hfiled)
    obtain ⟨rest, hrest⟩ := h.below _ hmem
    obtain rfl : key :: rest = place :=
      List.append_cancel_left ((List.append_assoc _ _ _).symm.trans hrest)
    rw [List.append_cons] at hmem
    exact (h.stands hinner rest cause hmem).under (hfind hfiled)
  apart := fun hfiled =>
    h.apart (Json.Filed.of_find? (Json.filed_object.mp hfiled).2 (hfind hfiled))

/-- One key comes next on the way to a place. -/
theorem key_eq_of_below {place : Path} {key' : String} (h : path ++ [key] <+: place)
    (h' : path ++ [key'] <+: place) : key = key' := by
  have hprefix := List.prefix_of_prefix_length_le h h' (by simp)
  rw [List.prefix_append_right_inj, List.cons_prefix_cons] at hprefix
  exact hprefix.1

/-- Issues under different keys do not meet. -/
theorem branches_flatMap {α : Type} {xs : List α} {key : α → String} {issues : α → List Issue}
    (hkeys : (Json.object members).Filed → (xs.map key).Nodup)
    (h : ∀ x ∈ xs, Branch path members (key x) (issues x)) :
      Branches path members (xs.flatMap issues) where
  below := List.forall_mem_flatMap.mpr fun x hx i hi => ⟨key x, (h x hx).below i hi⟩
  stands := by
    intro hfiled place cause hmem
    obtain ⟨x, hx, hi⟩ := List.mem_flatMap.mp hmem
    exact (h x hx).stands hfiled place cause hi
  apart := by
    intro hfiled
    have hnodup := hkeys hfiled
    rw [List.Nodup, List.pairwise_map] at hnodup
    rw [List.map_flatMap, List.nodup_flatMap]
    refine ⟨fun x hx => (h x hx).apart hfiled, hnodup.imp_of_mem fun {x y} hx hy hne p hp hp' => ?_⟩
    obtain ⟨i, hi, rfl⟩ := List.mem_map.mp hp
    obtain ⟨i', hi', heq⟩ := List.mem_map.mp hp'
    have hx' : path ++ [key x] <+: i.path := (h x hx).below i hi
    have hy' : path ++ [key y] <+: i.path := heq ▸ (h y hy).below i' hi'
    exact hne (key_eq_of_below hx' hy')

/-- An object is reported by its branches and by what is reported of it as a whole. -/
theorem Branches.reports (h : Branches path members issues) (hjudged : AtPlace path judged)
    (hkeys : (issues.filter (·.cause.aboutKey)).Perm (closed.flatMap (ClosedObject.faults model))) :
    Reports model path (.object members) (issues ++ judged) closed where
  below := by
    refine List.forall_mem_append.mpr ⟨fun i hi => ?_, hjudged.below⟩
    obtain ⟨key, hkey⟩ := h.below i hi
    exact (List.prefix_append path [key]).trans hkey
  stands := by
    intro hfiled place cause hmem
    rcases List.mem_append.mp hmem with hi | hi
    · exact h.stands hfiled place cause hi
    · exact hjudged.stands hi
  apart := by
    intro hfiled
    rw [List.map_append, List.nodup_append]
    refine ⟨h.apart hfiled, hjudged.nodup, fun p hp p' hp' heq => ?_⟩
    obtain ⟨i, hi, rfl⟩ := List.mem_map.mp hp
    obtain ⟨i', hi', rfl⟩ := List.mem_map.mp hp'
    obtain ⟨key, hkey⟩ := h.below i hi
    -- the place of a branch is longer than that of the object
    rw [heq, (hjudged.path_eq i' hi').1] at hkey
    exact Nat.not_succ_le_self path.length (by simpa using hkey.length_le)
  keys := by
    rw [List.filter_append, hjudged.filter_aboutKey, List.append_nil]
    exact hkeys

/-- What is decided as a whole has no closed objects in it. -/
theorem AtPlace.reports (h : AtPlace path issues) : Reports model path j issues [] where
  below := h.below
  stands := fun _ _ _ => h.stands
  apart := fun _ => h.nodup
  keys := by
    rw [h.filter_aboutKey]
    exact List.Perm.nil

end

/-! ### Parts -/

section

open Record

variable {model : Model} {path : Path} {members : List (String × Json)} {fields : List Field}
    {parts : List Part}

/-- A check that reports every node rightly, with the closed objects in it. -/
def Sound (model : Model) (check : Check) (closed : Path → Json → List ClosedObject) : Prop :=
  ∀ path j, Reports model path j (check path j) (closed path j)

def Part.Sound (model : Model) (p : Part) : Prop := BatteryParams.Sound model p.check p.closed

theorem unknownIssues_eq (path : Path) (fields : List Field) (members : List (String × Json)) :
    unknownIssues path fields members = (ClosedObject.mk path fields members).unknownIssues := by
  simp only [unknownIssues, ClosedObject.unknownIssues, ClosedObject.unknownKeys, List.filter_map,
    List.map_map]
  congr 1
  refine List.filter_congr fun m _ => ?_
  rw [Bool.eq_iff_iff]
  simp

theorem closedRecord_of_not_object {j : Json} (h : ∀ members, j ≠ .object members) :
    closedRecord fields parts path j = [] := by
  cases j with
  | object members => exact absurd rfl (h members)
  | _ => simp [closedRecord, closedObject, Part.closedIn, Json.member?]

namespace Part

/-- An entry that a rule decides as a whole, at its own place. -/
structure Plain (p : Part) : Prop where
  atPlace : ∀ path j, AtPlace path (p.check path j)
  closed : ∀ path j, p.closed path j = []

@[simp]
theorem plain_leaf {α : Type} {f : Field} {rule : Path → Json → Reading α}
    (h : ∀ path j, AtPlace path (rule path j).issues) : (leaf f rule).Plain := ⟨h, fun _ _ => rfl⟩

theorem Plain.sound {p : Part} (h : p.Plain) : p.Sound model := by
  intro path j
  rw [h.closed]
  exact (h.atPlace path j).reports

theorem flatMap_closedIn_of_plain (h : ∀ p ∈ parts, p.Plain) (path : Path) (j : Json) :
    parts.flatMap (closedIn path j) = [] := by
  refine List.flatMap_eq_nil_iff.mpr fun p hp => ?_
  rw [closedIn]
  cases j.member? p.field.key with
  | none => rfl
  | some inner => exact (h p hp).closed _ inner

theorem branch {p : Part} (h : p.Sound model) :
    Branch path members p.field.key (p.issues ⟨path, members, model⟩) := by
  rw [issues, report]
  cases hfind : Named.find? p.field.key members with
  | some j => exact (h (path ++ [p.field.key]) j).branch fun _ => hfind
  | none =>
    rw [Field.report]
    split
    · exact branch_single ⟨[], _, members, rfl, rfl, Named.find?_eq_none_iff.mp hfind⟩
    · exact branch_nil

theorem keys_issues {p : Part} (h : p.Sound model) :
    ((p.issues ⟨path, members, model⟩).filter (·.cause.aboutKey)).Perm
      (ClosedObject.missingIssue model path members p.field ++
        (p.closedIn path (.object members)).flatMap (ClosedObject.faults model)) := by
  rw [issues, report, ClosedObject.missingIssue, closedIn, Json.member?]
  cases hfind : Named.find? p.field.key members with
  | some j =>
    have hmem : p.field.key ∈ members.map (·.1) := List.mem_map_of_mem (Named.mem_of_find? hfind)
    rw [if_neg fun hmissing => hmissing.2 hmem]
    exact (h (path ++ [p.field.key]) j).keys
  | none =>
    have hlacks : p.field.key ∉ members.map (·.1) := Named.find?_eq_none_iff.mp hfind
    cases hrequired : p.field.requirement.isRequired model <;>
      simp [Field.report, hrequired, hlacks, IssueCause.aboutKey]

end Part

/-! ### Records -/

/-- The branches of a record: one for each unknown key and one for each part. -/
def recordBranches (model : Model) (parts : List Part) (o : ClosedObject) :
    List (String × List Issue) :=
  o.unknownKeys.map (fun key => (key, [⟨o.path ++ [key], .unknown⟩])) ++
    parts.map fun p => (p.field.key, p.issues ⟨o.path, o.members, model⟩)

theorem flatMap_recordBranches :
    (recordBranches model parts ⟨path, fields, members⟩).flatMap (·.2) =
      unknownIssues path fields members ++ parts.flatMap (Part.issues ⟨path, members, model⟩) := by
  rw [recordBranches, List.flatMap_append, List.flatMap_map, List.flatMap_map, unknownIssues_eq,
    ClosedObject.unknownIssues, List.map_eq_flatMap]

theorem nodup_partKeys (hkeys : (fields.map (·.key)).Nodup)
    (hfields : (parts.map (·.field)).Perm fields) : (parts.map (·.field.key)).Nodup := by
  have hperm := (hfields.map (·.key)).nodup_iff.mpr hkeys
  rwa [List.map_map] at hperm

/-- The keys of an object are different, and an unknown key is not that of a part. -/
theorem nodup_recordBranches (hkeys : (fields.map (·.key)).Nodup)
    (hfields : (parts.map (·.field)).Perm fields) (hfiled : (Json.object members).Filed) :
    ((recordBranches model parts ⟨path, fields, members⟩).map (·.1)).Nodup := by
  let o : ClosedObject := ⟨path, fields, members⟩
  have hmembers : (members.map (·.1)).Nodup :=
    Named.nodup_of_ordered (Json.filed_object.mp hfiled).1
  have hnames :
      (recordBranches model parts o).map (·.1) = o.unknownKeys ++ parts.map (·.field.key) := by
    simp [recordBranches, Function.comp_def]
  rw [hnames, List.nodup_append]
  refine ⟨hmembers.filter _, nodup_partKeys hkeys hfields, fun key hkey key' hkey' heq => ?_⟩
  obtain ⟨p, hp, rfl⟩ := List.mem_map.mp hkey'
  have hfield : p.field ∈ fields := hfields.subset (List.mem_map_of_mem hp)
  have hunknown : key ∉ fields.map (·.key) := by simpa using (List.mem_filter.mp hkey).2
  exact hunknown (heq ▸ List.mem_map_of_mem hfield)

theorem branch_unknown {key : String} (h : key ∈ members.map (·.1)) :
    Branch path members key [⟨path ++ [key], .unknown⟩] := by
  apply branch_single
  show ((Json.object members).follow? [key]).isSome = true
  rw [Json.follow?_single, Option.isSome_iff_ne_none]
  exact fun hnone => Named.find?_eq_none_iff.mp hnone h

theorem branches_record (hkeys : (fields.map (·.key)).Nodup)
    (hfields : (parts.map (·.field)).Perm fields) (hparts : ∀ p ∈ parts, p.Sound model) :
    Branches path members
      (unknownIssues path fields members ++
        parts.flatMap (Part.issues ⟨path, members, model⟩)) := by
  have hbranches :
      ∀ b ∈ recordBranches model parts ⟨path, fields, members⟩, Branch path members b.1 b.2 := by
    rw [recordBranches, List.forall_mem_append, List.forall_mem_map, List.forall_mem_map]
    refine ⟨fun key hkey => branch_unknown (List.mem_of_mem_filter hkey),
      fun p hp => Part.branch (hparts p hp)⟩
  rw [← flatMap_recordBranches]
  exact branches_flatMap (nodup_recordBranches hkeys hfields) hbranches

/-- What is missing in a record is what is missing of its parts. -/
theorem perm_missingIssues (hfields : (parts.map (·.field)).Perm fields) :
    (parts.flatMap fun p => ClosedObject.missingIssue model path members p.field).Perm
      ((ClosedObject.mk path fields members).missingIssues model) := by
  have hmap :=
    List.flatMap_map Part.field (ClosedObject.missingIssue model path members) (l := parts)
  rw [ClosedObject.missingIssues_eq, ← hmap]
  exact hfields.flatMap_right _

/-- The issues of a record about keys are its own and those of its parts. -/
theorem keys_record (hfields : (parts.map (·.field)).Perm fields)
    (hparts : ∀ p ∈ parts, p.Sound model) :
    ((unknownIssues path fields members ++
        parts.flatMap (Part.issues ⟨path, members, model⟩)).filter (·.cause.aboutKey)).Perm
      ((closedRecord fields parts path (.object members)).flatMap (ClosedObject.faults model)) := by
  let o : ClosedObject := ⟨path, fields, members⟩
  have hunknown : (unknownIssues path fields members).filter (·.cause.aboutKey) =
      o.unknownIssues := by
    rw [unknownIssues_eq, List.filter_eq_self]
    exact List.forall_mem_map.mpr fun _ _ => rfl
  have hissues :
      ((parts.flatMap (Part.issues ⟨path, members, model⟩)).filter (·.cause.aboutKey)).Perm
      (o.missingIssues model ++
        (parts.flatMap (Part.closedIn path (.object members))).flatMap
          (ClosedObject.faults model)) := by
    rw [List.filter_flatMap, List.flatMap_assoc]
    -- a part reports its own key or what is in it, so the record's own faults are spread over the
    -- parts
    refine (List.Perm.flatMap_left parts fun p hp => Part.keys_issues (hparts p hp)).trans ?_
    exact (List.flatMap_append_perm parts _ _).symm.trans
      ((perm_missingIssues hfields).append_right _)
  have hclosed : closedRecord fields parts path (.object members) =
      o :: parts.flatMap (Part.closedIn path (.object members)) := rfl
  rw [List.filter_append, hunknown, hclosed, List.flatMap_cons, ClosedObject.faults,
    List.append_assoc]
  exact hissues.append_left _

/-- The body of a record reports its parts, and then at most one fault of the record as a whole. -/
def ReportsParts {α : Type} (model : Model) (parts : List Part) (body : Record → Reading α) :
    Prop :=
  ∀ r : Record, r.model = model →
    ∃ judged, AtPlace r.path judged ∧ (body r).issues = parts.flatMap (Part.issues r) ++ judged

theorem reportsParts_of_eq {α : Type} {body : Record → Reading α}
    (h : ∀ r : Record, r.model = model → (body r).issues = parts.flatMap (Part.issues r)) :
    ReportsParts model parts body := by
  intro r hr
  refine ⟨[], atPlace_nil, ?_⟩
  rw [List.append_nil, h r hr]

/-- A record is reported rightly if its parts are and if what is reported of it as a whole stands at
its place. -/
theorem sound_read {α : Type} {body : Record → Reading α} (hbody : ReportsParts model parts body)
    (hkeys : (fields.map (·.key)).Nodup) (hfields : (parts.map (·.field)).Perm fields)
    (hparts : ∀ p ∈ parts, p.Sound model) :
    Sound model (check (Record.read model fields body)) (closedRecord fields parts) := by
  intro path j
  cases j with
  | object members =>
    obtain ⟨judged, hjudged, hissues⟩ := hbody ⟨path, members, model⟩ rfl
    rw [check, issues_read, hissues, ← List.append_assoc]
    exact (branches_record hkeys hfields hparts).reports hjudged (keys_record hfields hparts)
  | _ =>
    rw [closedRecord_of_not_object (by simp)]
    exact (atPlace_issue rfl).reports

/-- What is reported at or below an entry of a record is what is reported of the entry. -/
theorem mem_check_iff {α : Type} {body : Record → Reading α} (hbody : ReportsParts model parts body)
    (hkeys : (fields.map (·.key)).Nodup) (hfields : (parts.map (·.field)).Perm fields)
    (hparts : ∀ p ∈ parts, p.Sound model) {p : Part} (hp : p ∈ parts) {inner : Json}
    (hfind : Named.find? p.field.key members = some inner) {i : Issue}
    (hi : path ++ [p.field.key] <+: i.path) :
    i ∈ check (Record.read model fields body) path (.object members) ↔
      i ∈ p.check (path ++ [p.field.key]) inner := by
  obtain ⟨judged, hjudged, hissues⟩ := hbody ⟨path, members, model⟩ rfl
  have hentry : p.issues ⟨path, members, model⟩ = p.check (path ++ [p.field.key]) inner := by
    rw [Part.issues, Part.report, hfind]
    rfl
  rw [check, issues_read, hissues, ← hentry, List.mem_append, List.mem_append, List.mem_flatMap]
  refine ⟨?_, fun hmem => .inr (.inl ⟨p, hp, hmem⟩)⟩
  rintro (hunknown | ⟨q, hq, hmem⟩ | hwhole)
  · rw [unknownIssues_eq] at hunknown
    obtain ⟨key, hkey, rfl⟩ := List.mem_map.mp hunknown
    have hfield : p.field ∈ fields := hfields.subset (List.mem_map_of_mem hp)
    have hstranger : key ∉ fields.map (·.key) := by simpa using (List.mem_filter.mp hkey).2
    rw [← key_eq_of_below hi List.prefix_rfl] at hstranger
    exact absurd (List.mem_map_of_mem hfield) hstranger
  · have hkey : q.field.key = p.field.key :=
      key_eq_of_below ((Part.branch (hparts q hq)).below i hmem) hi
    exact List.inj_on_of_nodup_map (nodup_partKeys hkeys hfields) hq hp hkey ▸ hmem
  · -- the place of an entry is longer than that of the record
    rw [(hjudged.path_eq i hwhole).1] at hi
    exact absurd hi.length_le (by simp)

/-- A record of plain entries has no closed object but itself. -/
theorem sound_flat {α : Type} {body : Record → Reading α}
    (hbody : ReportsParts model parts body) (hkeys : (fields.map (·.key)).Nodup)
    (hfields : (parts.map (·.field)).Perm fields) (hplain : ∀ p ∈ parts, p.Plain) :
    Sound model (check (Record.read model fields body)) (closedObject fields) := by
  have hclosed : closedRecord fields parts = closedObject fields := by
    funext path j
    rw [closedRecord, Part.flatMap_closedIn_of_plain hplain, List.append_nil]
  rw [← hclosed]
  exact sound_read hbody hkeys hfields fun p hp => (hplain p hp).sound

/-! ### Mappings -/

/-- An object whose keys are free names is reported rightly if its members are. -/
theorem reports_members {issues : String × Json → List Issue}
    {closed : String × Json → List ClosedObject}
    {judged : List Issue} (hjudged : AtPlace path judged)
    (h : ∀ m ∈ members, Reports model (path ++ [m.1]) m.2 (issues m) (closed m)) :
    Reports model path (.object members) (members.flatMap issues ++ judged)
      (members.flatMap closed) := by
  have hnames (hfiled : (Json.object members).Filed) : (members.map (·.1)).Nodup :=
    Named.nodup_of_ordered (Json.filed_object.mp hfiled).1
  have hbranches : ∀ m ∈ members, Branch path members m.1 (issues m) :=
    fun m hm => (h m hm).branch fun hfiled => Named.find?_of_mem (hnames hfiled) hm
  refine (branches_flatMap hnames hbranches).reports hjudged ?_
  rw [List.filter_flatMap, List.flatMap_assoc]
  exact List.Perm.flatMap_left members fun m hm => (h m hm).keys

end

end BatteryParams

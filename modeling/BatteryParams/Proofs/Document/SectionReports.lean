import BatteryParams.Proofs.Document.Reports
import BatteryParams.Proofs.Document.RoundTrip

/-!
# What is reported of each section

Every section of a document is reported rightly: a flat section since its entries are, a blend and
the experiments since their members are, an electrode by what its material is, and the user's own
parameters by recursion over the tree.
-/

namespace BatteryParams

open Reading (check)
open Record

section

variable (model : Model)

theorem Header.sound_check : Sound model (check (read model)) (closedObject HeaderField.table) := by
  refine sound_flat (reportsParts_of_eq fun r _ => issues_body r) HeaderField.keys_nodup
    (List.Perm.refl _) ?_
  simp [parts, Rule.atPlace_version, Rule.atPlace_text, Rule.atPlace_model]

theorem Cell.plain_parts : ∀ p ∈ parts, p.Plain := by
  simp [parts, Rule.atPlace_number, Rule.atPlace_count]

theorem Cell.sound_check : Sound model (check (read model)) (closedObject CellField.table) :=
  sound_flat (reportsParts_of_eq fun r _ => issues_body r) CellField.keys_nodup (List.Perm.refl _)
    plain_parts

theorem Electrolyte.sound_check : Sound model (check (read model))
    (closedObject ElectrolyteField.table) := by
  refine sound_flat (reportsParts_of_eq fun r _ => issues_body r) ElectrolyteField.keys_nodup
    (List.Perm.refl _) ?_
  simp [parts, Rule.atPlace_number, Rule.atPlace_value]

theorem Separator.sound_check : Sound model (check (read model))
    (closedObject SeparatorField.table) := by
  refine sound_flat (reportsParts_of_eq fun r _ => issues_body r) SeparatorField.keys_nodup
    (List.Perm.refl _) ?_
  simp [parts, Rule.atPlace_number]

theorem Particle.plain_parts : ∀ p ∈ parts, p.Plain := by
  simp [parts, Rule.atPlace_number, Rule.atPlace_value]

namespace Blend

theorem sound_material :
    Sound model (check (Record.read model materialFields materialBody))
      (closedObject materialFields) := by
  refine sound_flat (reportsParts_of_eq fun r _ => issues_materialBody r) ?_ ?_ ?_
  · exact (List.perm_append_singleton _ _).map _ |>.nodup_iff.mpr ParticleField.keys_nodup
  · exact (List.perm_append_singleton _ _).symm
  · exact List.forall_mem_cons.mpr ⟨Part.plain_leaf fun _ _ => Rule.atPlace_number,
      Particle.plain_parts⟩

theorem sound_check : Sound model (check (read model))
    (closedMapping (closedObject materialFields)) := by
  intro path j
  cases j with
  | object members =>
    rw [issues_read]
    exact reports_members ((judgedAt_ofParts path _).atPlace fun _ => rfl)
      fun m _ => sound_material model (path ++ [m.1]) m.2
  | _ => exact (atPlace_issue rfl).reports

end Blend

namespace Electrode

theorem plain_ownParts : ∀ p ∈ ownParts, p.Plain := by
  simp [ownParts, Rule.atPlace_number]

theorem sound_parts (isBlend : Bool) : ∀ p ∈ parts model isBlend, p.Sound model := by
  refine List.forall_mem_append.mpr ⟨fun p hp => (plain_ownParts p hp).sound, ?_⟩
  cases isBlend with
  | true => exact List.forall_mem_singleton.mpr (Blend.sound_check model)
  | false => exact fun p hp => (Particle.plain_parts p hp).sound

theorem closedRecord_parts (path : Path) (j : Json) :
    closedRecord (fields (j.member? ElectrodeField.particle.key).isSome)
      (parts model (j.member? ElectrodeField.particle.key).isSome) path j = closed path j := by
  rw [closedRecord, closed, parts, List.flatMap_append,
    Part.flatMap_closedIn_of_plain plain_ownParts, List.nil_append]
  cases hfind : j.member? ElectrodeField.particle.key with
  | none => exact congrArg _ (Part.flatMap_closedIn_of_plain Particle.plain_parts path j)
  | some inner => simp [materialParts, Part.closedIn, hfind]

theorem fields_parts (isBlend : Bool) : (parts model isBlend).map (·.field) = fields isBlend := by
  cases isBlend <;> rfl

theorem sound_check : Sound model (check (read model)) closed := by
  intro path j
  let isBlend := (j.member? ElectrodeField.particle.key).isSome
  have hbody : ReportsParts model (parts model isBlend) (body isBlend) :=
    reportsParts_of_eq fun r hr => hr ▸ issues_body isBlend r
  rw [← closedRecord_parts model]
  exact sound_read hbody (keys_nodup isBlend) (List.Perm.of_eq (fields_parts model isBlend))
    (sound_parts model isBlend) path j

end Electrode

namespace Experiment

theorem sound_member :
    Sound model (check (Record.read model ExperimentField.table body))
      (closedObject ExperimentField.table) := by
  have hbody : ReportsParts model parts body := by
    intro r _
    obtain ⟨judged, hjudged, hissues⟩ := issues_body r
    exact ⟨judged, hjudged.atPlace fun _ => rfl, hissues⟩
  refine sound_flat hbody ExperimentField.keys_nodup (List.Perm.refl _) ?_
  simp [parts, Rule.atPlace_numberList]

theorem sound_check : Sound model (check (readAll model))
    (closedMapping (closedObject ExperimentField.table)) := by
  intro path j
  cases j with
  | object members =>
    rw [issues_readAll, ← List.append_nil (List.flatMap _ _)]
    exact reports_members atPlace_nil fun m _ => sound_member model (path ++ [m.1]) m.2
  | _ => exact (atPlace_issue rfl).reports

end Experiment

namespace UserParameter

variable {model}

theorem issues_readGroup (path : Path) (members : List (String × Json)) :
    (readGroup path members).issues = members.flatMap fun m =>
      (read (path ++ [m.1]) m.1 m.2).issues := by
  induction members with
  | nil => rfl
  | cons m rest ih =>
    obtain ⟨key, j⟩ := m
    rw [readGroup, Reading.issues_seq, Reading.issues_map, ih, List.flatMap_cons]

theorem atPlace_leaf {path : Path} {key : String} {j : Json} (h : ∀ members, j ≠ .object members) :
    AtPlace path (read path key j).issues := by
  rw [read_leaf h]
  split
  · exact Rule.atPlace_text
  · exact Rule.atPlace_value

theorem reports_readGroup {path : Path} {members : List (String × Json)}
    (h : ∀ m ∈ members,
      Reports model (path ++ [m.1]) m.2 (read (path ++ [m.1]) m.1 m.2).issues []) :
    Reports model path (.object members) (readGroup path members).issues [] := by
  have hnone : (members.flatMap fun _ => ([] : List ClosedObject)) = [] := by simp
  rw [issues_readGroup, ← List.append_nil (List.flatMap _ _), ← hnone]
  exact reports_members atPlace_nil h

mutual

/-- The user's own parameters are not closed, at any depth. -/
theorem reports_read (path : Path) (key : String) :
    ∀ j : Json, Reports model path j (read path key j).issues []
  | .object members => by
    by_cases hkey : key = descriptionKey
    · have hissue : AtPlace path (read path key (.object members)).issues := by
        simp only [read, if_pos hkey]
        exact atPlace_issue rfl
      exact hissue.reports
    · cases htable : looksLikeTable members with
      | true =>
        rw [read_table hkey htable]
        exact AtPlace.reports Rule.atPlace_value
      | false =>
        rw [read_group hkey htable, Reading.issues_map]
        exact reports_readGroup (reports_entries path members)
  | .null | .bool _ | .number _ | .string _ | .list _ => (atPlace_leaf (by simp)).reports

theorem reports_entries (path : Path) :
    ∀ members : List (String × Json), ∀ m ∈ members,
      Reports model (path ++ [m.1]) m.2 (read (path ++ [m.1]) m.1 m.2).issues []
  | [] => List.forall_mem_nil _
  | (key, j) :: rest =>
    List.forall_mem_cons.mpr ⟨reports_read (path ++ [key]) key j, reports_entries path rest⟩

end

theorem sound_check : Sound model (check readAll) fun _ _ => [] := by
  intro path j
  cases j with
  | object members => exact reports_readGroup (reports_entries path members)
  | _ => exact (atPlace_issue rfl).reports

end UserParameter

theorem Parameters.sound_parts : ∀ p ∈ parts model, p.Sound model := by
  simp only [parts, List.forall_mem_cons]
  exact ⟨Cell.sound_check model, Electrolyte.sound_check model, Electrode.sound_check model,
    Electrode.sound_check model, Separator.sound_check model, UserParameter.sound_check,
    List.forall_mem_nil _⟩

theorem Parameters.sound_check :
    Sound model (check (read model)) (closedRecord ParameterField.table (parts model)) :=
  sound_read (reportsParts_of_eq fun r hr => hr ▸ issues_body r) ParameterField.keys_nodup
    (List.Perm.refl _) (sound_parts model)

end

namespace Document

theorem sound_parts (model : Model) : ∀ p ∈ parts model, p.Sound model := by
  simp only [parts, List.forall_mem_cons]
  exact ⟨Header.sound_check _, Parameters.sound_check _, Experiment.sound_check _,
    List.forall_mem_nil _⟩

/-- What is reported of a tree that is read as a document. -/
theorem reports_read (j : Json) :
    Reports (statedModel j) [] j (read j).issues
      (closedRecord DocumentField.table (parts (statedModel j)) [] j) :=
  sound_read (reportsParts_of_eq fun r hr => hr ▸ issues_body r) DocumentField.keys_nodup
    (List.Perm.refl _) (sound_parts _) [] j

end Document

end BatteryParams

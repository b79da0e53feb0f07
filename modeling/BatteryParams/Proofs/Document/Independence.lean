import BatteryParams.Proofs.Document.Issues

/-!
# Sections are read on their own

The issues of a document are made up of shares, in the order of its sections: those of the unknown
keys of the document and of its parameter set, and those of each section, which hang on what stands
in its place and on the declared model alone. So what is changed in one section shows in its own
share and in no other.
-/

namespace BatteryParams

open Record

/-- The sections of a document that are read each on its own. -/
inductive Section where
  | header
  | cell
  | electrolyte
  | negativeElectrode
  | positiveElectrode
  | separator
  | userDefined
  | validation
deriving DecidableEq

namespace Section

/-- The place of the object that has a section as an entry. -/
def container : Section → Path
  | .header | .validation => []
  | .cell | .electrolyte | .negativeElectrode | .positiveElectrode | .separator | .userDefined =>
    [DocumentField.parameterisation.key]

def field : Section → Field
  | .header => DocumentField.header
  | .cell => ParameterField.cell
  | .electrolyte => ParameterField.electrolyte
  | .negativeElectrode => ParameterField.negativeElectrode
  | .positiveElectrode => ParameterField.positiveElectrode
  | .separator => ParameterField.separator
  | .userDefined => ParameterField.userDefined
  | .validation => DocumentField.validation

def path (s : Section) : Path := s.container ++ [s.field.key]

/-- What is reported of a tree in the place of a section. -/
def check (model : Model) : Section → Check
  | .header => Reading.check (Header.read model)
  | .cell => Reading.check (Cell.read model)
  | .electrolyte => Reading.check (Electrolyte.read model)
  | .negativeElectrode | .positiveElectrode => Reading.check (Electrode.read model)
  | .separator => Reading.check (Separator.read model)
  | .userDefined => Reading.check UserParameter.readAll
  | .validation => Reading.check (Experiment.readAll model)

/-- What is reported of a section, by what stands in its place, if anything does. -/
def report (model : Model) (s : Section) (content : Option Json) : List Issue :=
  s.field.report (s.check model) model s.container content

end Section

/-- What the issues of a document are made up of. -/
inductive Share where
  | documentKeys
  | parameterKeys
  | of (s : Section)
deriving DecidableEq

namespace Share

/-- The shares in the order in which they are reported. -/
def order : List Share :=
  [.documentKeys, .of .header, .parameterKeys, .of .cell, .of .electrolyte, .of .negativeElectrode,
    .of .positiveElectrode, .of .separator, .of .userDefined, .of .validation]

/-- The unknown keys of the object at a place. -/
def unknownAt (path : Path) (fields : List Field) (j : Json) : List Issue :=
  (Document.closedAt path fields j).flatMap ClosedObject.unknownIssues

def issues (j : Json) : Share → List Issue
  | .documentKeys => unknownAt [] DocumentField.table j
  | .parameterKeys => unknownAt [DocumentField.parameterisation.key] ParameterField.table j
  | .of s => s.report (Document.statedModel j) (j.follow? s.path)

end Share

theorem Record.unknownIssues_without {path : Path} {fields : List Field} {key : String}
    {members : List (String × Json)} (hkey : key ∈ fields.map (·.key)) :
    unknownIssues path fields (Named.without key members) = unknownIssues path fields members := by
  rw [unknownIssues, unknownIssues, Named.without, List.filter_filter]
  congr 1
  refine List.filter_congr fun m _ => ?_
  by_cases hm : m.1 = key
  · have hknown : fields.any (·.key == m.1) = true := by
      rw [hm]
      simpa using hkey
    simp [hknown]
  · simp [hm]

namespace Document

variable {j j' : Json} {ps : List (String × Json)}

/-- What is reported of a parameter set. -/
theorem check_parameters (model : Model) (path : Path) (ps : List (String × Json)) :
    Reading.check (Parameters.read model) path (.object ps) =
      unknownIssues path ParameterField.table ps ++
        (Parameters.parts model).flatMap (Part.issues ⟨path, ps, model⟩) := by
  rw [← Parameters.issues_body]
  rfl

theorem check_document (members : List (String × Json)) :
    issues (.object members) = unknownIssues [] DocumentField.table members ++
      (parts (statedModel (.object members))).flatMap
        (Part.issues ⟨[], members, statedModel (.object members)⟩) := by
  rw [issues_eq, ← issues_body]
  rfl

theorem unknownAt_of_follow? {path : Path} {fields : List Field} {members : List (String × Json)}
    (h : j.follow? path = some (.object members)) :
    Share.unknownAt path fields j = unknownIssues path fields members := by
  rw [Share.unknownAt, closedAt, h, unknownIssues_eq]
  exact List.flatMap_singleton _ _

/-- The issues of a document with a parameter set are its shares, one after the other. -/
theorem issues_eq_shares (h : j.follow? [DocumentField.parameterisation.key] = some (.object ps)) :
    issues j = Share.order.flatMap (Share.issues j) := by
  obtain ⟨members, _, rfl, hfind, hps⟩ := Json.follow?_cons_eq_some.mp h
  cases hps
  have hdocument (f : Field) : (Json.object members).follow? [f.key] = Named.find? f.key members :=
    Json.follow?_single _ _
  have hparameters (f : Field) :
      (Json.object members).follow? [DocumentField.parameterisation.key, f.key] =
        Named.find? f.key ps := by
    rw [Json.follow?_object hfind, Json.follow?_single]
    rfl
  let M := statedModel (.object members)
  have hpart : Part.issues ⟨[], members, M⟩ ⟨DocumentField.parameterisation,
      Reading.check (Parameters.read M), closedRecord ParameterField.table (Parameters.parts M)⟩ =
        unknownIssues [DocumentField.parameterisation.key] ParameterField.table ps ++
          (Parameters.parts M).flatMap
            (Part.issues ⟨[DocumentField.parameterisation.key], ps, M⟩) := by
    rw [Part.issues, Part.report, hfind, ← check_parameters]
    rfl
  rw [check_document]
  simp only [parts, List.flatMap_cons, List.flatMap_nil]
  rw [hpart]
  simp [Share.order, Share.issues, unknownAt_of_follow? h,
    unknownAt_of_follow? (Json.follow?_nil _), Section.report,
    Section.path, Section.container, Section.field, Section.check, hdocument, hparameters,
    Parameters.parts, Part.issues, Part.report, M]

/-! ### What a section does not touch -/

theorem unknownAt_of_equalBut {path rest : Path} {key : String} {fields : List Field}
    (h : Json.EqualBut (path ++ key :: rest) j j') (hkey : key ∈ fields.map (·.key)) :
    Share.unknownAt path fields j' = Share.unknownAt path fields j := by
  obtain ⟨members, members', hm, hm', hothers⟩ := h.others
  rw [unknownAt_of_follow? hm, unknownAt_of_follow? hm', ← unknownIssues_without hkey, hothers,
    unknownIssues_without hkey]

end Document

namespace Section

theorem apart {s t : Section} (h : t ≠ s) : ¬t.path <+: s.path ∧ ¬s.path <+: t.path := by
  cases s <;> cases t <;> first | exact absurd rfl h | decide

/-- A section is an entry of the document. -/
theorem exists_documentKey (s : Section) :
    ∃ key rest, s.path = key :: rest ∧ key ∈ DocumentField.table.map (·.key) := by
  cases s <;> exact ⟨_, _, rfl, by decide⟩

/-- A section is an entry of the parameter set or stands beside it. -/
theorem within_or_beside (s : Section) :
    (s.path = [DocumentField.parameterisation.key] ++ [s.field.key] ∧
      s.field.key ∈ ParameterField.table.map (·.key)) ∨
      ¬[DocumentField.parameterisation.key] <+: s.path ∧
        ¬s.path <+: [DocumentField.parameterisation.key] := by
  cases s <;> decide

end Section

namespace Document

variable {j j' : Json} {ps : List (String × Json)} {s : Section}

theorem statedModel_of_equalBut (h : Json.EqualBut s.path j j') (hs : s ≠ .header) :
    statedModel j' = statedModel j := by
  obtain ⟨habove, hbelow⟩ := Section.apart (Ne.symm hs)
  have hheader : j'.member? DocumentField.header.key = j.member? DocumentField.header.key := by
    have hfollow := h.follow?_eq habove hbelow
    simpa only [Section.path, Section.container, Section.field, List.nil_append,
      Json.follow?_single] using hfollow
  rw [statedModel, statedModel, hheader]

theorem exists_parameters (h : Json.EqualBut s.path j j')
    (hps : j.follow? [DocumentField.parameterisation.key] = some (.object ps)) :
    ∃ ps', j'.follow? [DocumentField.parameterisation.key] = some (.object ps') := by
  rcases s.within_or_beside with ⟨hpath, -⟩ | ⟨habove, hbelow⟩
  · rw [hpath] at h
    obtain ⟨_, ps', -, hps', -⟩ := h.others
    exact ⟨ps', hps'⟩
  · exact ⟨ps, (h.follow?_eq habove hbelow).trans hps⟩

/-- A change in one section leaves every other share as it is. -/
theorem share_of_equalBut (h : Json.EqualBut s.path j j') (hmodel : statedModel j' = statedModel j)
    {share : Share} (hshare : share ≠ .of s) : share.issues j' = share.issues j := by
  cases share with
  | documentKeys =>
    obtain ⟨key, rest, hpath, hkey⟩ := s.exists_documentKey
    rw [hpath, ← List.nil_append (key :: rest)] at h
    exact unknownAt_of_equalBut h hkey
  | parameterKeys =>
    rcases s.within_or_beside with ⟨hpath, hkey⟩ | ⟨habove, hbelow⟩
    · rw [hpath] at h
      exact unknownAt_of_equalBut h hkey
    · rw [Share.issues, Share.issues, Share.unknownAt, Share.unknownAt, closedAt, closedAt,
        h.follow?_eq habove hbelow]
  | of t =>
    obtain ⟨habove, hbelow⟩ := Section.apart fun heq => hshare (congrArg Share.of heq)
    rw [Share.issues, Share.issues, hmodel, h.follow?_eq habove hbelow]

/-- The issues of a tree with a parameter set are those of its sections, one after the other, each
reported by what stands in the place of the section and by the declared model. What is put in the
place of one section, with the declared model kept, changes its own share and leaves what stands
before and after it. -/
theorem sections_independent
    (hps : j.follow? [DocumentField.parameterisation.key] = some (.object ps)) :
    issues j = Share.order.flatMap (Share.issues j) ∧
      ∀ s : Section, ∃ before after,
        issues j = before ++ s.report (statedModel j) (j.follow? s.path) ++ after ∧
        ∀ j', Json.EqualBut s.path j j' → (s = .header → statedModel j' = statedModel j) →
          issues j' = before ++ s.report (statedModel j) (j'.follow? s.path) ++ after := by
  refine ⟨issues_eq_shares hps, fun s => ?_⟩
  have hmem : Share.of s ∈ Share.order := by cases s <;> decide
  have hnodup : Share.order.Nodup := by decide
  obtain ⟨before, after, horder⟩ := List.append_of_mem hmem
  -- the share of the section stands once in the order, and the others do not see the change
  rw [horder, List.nodup_middle, List.nodup_cons, List.mem_append, not_or] at hnodup
  have hshares {j' : Json} (hmodel : statedModel j' = statedModel j) :
      Share.order.flatMap (Share.issues j') = before.flatMap (Share.issues j') ++
        s.report (statedModel j) (j'.follow? s.path) ++ after.flatMap (Share.issues j') := by
    rw [horder, List.flatMap_append, List.flatMap_cons, Share.issues, hmodel, List.append_assoc]
  refine ⟨before.flatMap (Share.issues j), after.flatMap (Share.issues j), ?_,
    fun j' h hheader => ?_⟩
  · rw [issues_eq_shares hps, hshares rfl]
  · have hmodel : statedModel j' = statedModel j := by
      by_cases hs : s = .header
      · exact hheader hs
      · exact statedModel_of_equalBut h hs
    have hsame {shares : List Share} (hs : Share.of s ∉ shares) :
        shares.flatMap (Share.issues j') = shares.flatMap (Share.issues j) :=
      List.flatMap_congr fun share hshare => share_of_equalBut h hmodel fun heq => hs (heq ▸ hshare)
    obtain ⟨ps', hps'⟩ := exists_parameters h hps
    rw [issues_eq_shares hps', hshares hmodel, hsame hnodup.1.1, hsame hnodup.1.2]

/-- Without a cell or with a text in its place, the rest of the issues is the same. -/
theorem sections_independent_broken : ∃ before after,
    issues brokenTree = before ++ [⟨["Parameterisation", "Cell"], .missing .always⟩] ++ after ∧
      issues (brokenTreeWith [("Cell", .string "Pouch")]) =
        before ++ [⟨["Parameterisation", "Cell"], .wrongKind .object .string⟩] ++ after := by
  obtain ⟨before, after, hmissing, hchanged⟩ := (sections_independent (j := brokenTree) rfl).2 .cell
  exact ⟨before, after, hmissing, hchanged _ (.under rfl rfl rfl (.here rfl)) nofun⟩

end Document

end BatteryParams

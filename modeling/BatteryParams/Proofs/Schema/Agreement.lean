import BatteryParams.Proofs.Document.Issues
import BatteryParams.Proofs.Document.Lossless
import BatteryParams.Proofs.Schema.UserDefined

/-!
# The reader and the description of documents

The description of documents that is handed to other programs and the reader of documents are two
accounts of one format. Whatever the reader accepts is valid under the description. The other way
around, of a valid tree the reader reports only what the description leaves to it, unless the tree
lies in one of the gaps of its sections.
-/

namespace BatteryParams

open Reading (check)
open Schema (NoGap Fits ofTable)

/-- Validity under a description with the descriptions that it refers to. -/
def SchemaDocument.Validates (d : SchemaDocument) (j : Json) : Prop :=
  Json.Valid d.toJson d.toJson.refLimit d.toJson j

theorem validates_iff {j : Json} :
    documentSchema.Validates j ↔ (ofTable DocumentField.table).Describes Schema.reach j := by
  have hheading : ∀ e ∈ documentSchema.heading, Json.Keyword.ofName? e.1 = none := by
    rw [SchemaDocument.heading, List.forall_mem_cons, List.forall_mem_singleton]
    exact ⟨by decide, by decide⟩
  have hkeys : ((documentSchema.root.keywords ++ documentSchema.heading).map (·.1)).Nodup := by
    rw [List.map_append]
    decide
  have hroot : documentSchema.Validates j ↔ documentSchema.root.Describes Schema.reach j :=
    Schema.admits_noted hheading hkeys
  exact hroot.trans (Schema.admits_noted (by decide) (by decide))

namespace Parameters

variable {hops : Nat} (model : Model)

/-- The gap of a section of the parameters. -/
def gap (f : Field) : Json → Prop :=
  if f = ParameterField.cell then Cell.TooMany
  else if f = ParameterField.negativeElectrode ∨
    f = ParameterField.positiveElectrode then Electrode.Bare
  else if f = ParameterField.userDefined then UserParameter.StrayEntry
  else NoGap

/-- A count above every count, an electrode without any material, or an object of the user's own
with a stray axis. -/
def HasGap (j : Json) : Prop :=
  (∃ cell, j.member? ParameterField.cell.key = some cell ∧ Cell.TooMany cell) ∨
    (∃ f ∈ [ParameterField.negativeElectrode, ParameterField.positiveElectrode],
      ∃ e, j.member? f.key = some e ∧ Electrode.Bare e) ∨
    ∃ own, j.member? ParameterField.userDefined.key = some own ∧ UserParameter.StrayEntry own

theorem hasGap_iff {j : Json} :
    HasGap j ↔ ∃ f ∈ ParameterField.table, ∃ inner, j.member? f.key = some inner ∧ gap f inner := by
  constructor
  · rintro (⟨cell, hfind, hgap⟩ | ⟨f, hf, e, hfind, hgap⟩ | ⟨own, hfind, hgap⟩)
    · exact ⟨ParameterField.cell, by decide, cell, hfind, hgap⟩
    · simp only [List.mem_cons, List.not_mem_nil, or_false] at hf
      rcases hf with rfl | rfl
      · exact ⟨ParameterField.negativeElectrode, by decide, e, hfind, hgap⟩
      · exact ⟨ParameterField.positiveElectrode, by decide, e, hfind, hgap⟩
    · exact ⟨ParameterField.userDefined, by decide, own, hfind, hgap⟩
  · rintro ⟨f, -, inner, hfind, hgap⟩
    unfold gap at hgap
    split at hgap
    · next hf => exact .inl ⟨inner, hf ▸ hfind, hgap⟩
    · split at hgap
      · next hf => exact .inr (.inl ⟨f, by simpa using hf, inner, hfind, hgap⟩)
      · split at hgap
        · next hf => exact .inr (.inr ⟨inner, hf ▸ hfind, hgap⟩)
        · exact hgap.elim

theorem fits_read : Fits hops (ofTable ParameterField.table) (check (read model)) HasGap := by
  have hparts : ∀ p ∈ parts model, p.Fits (gap p.field) := by
    simp only [parts, List.forall_mem_cons]
    exact ⟨Part.fits_section (.inl rfl) rfl (by decide) (Cell.fits_read model),
      Part.fits_section (.inl rfl) rfl (by decide) (Electrolyte.fits_read model),
      Part.fits_section (.inl rfl) rfl (by decide) (Electrode.fits_read model),
      Part.fits_section (.inl rfl) rfl (by decide) (Electrode.fits_read model),
      Part.fits_section (.inl rfl) rfl (by decide) (Separator.fits_read model),
      Part.fits_section (.inr rfl) rfl (by decide) UserParameter.fits_readAll,
      List.forall_mem_nil _⟩
  exact (fits_record (leavesRest_of_eq fun r hr => hr ▸ issues_body r) ParameterField.keys_nodup
    (List.Perm.refl _) hparts).congr fun j => hasGap_iff.symm

end Parameters

namespace Document

variable {j : Json}

/-- A tree whose parameters have a gap. -/
def HasGap (j : Json) : Prop :=
  ∃ parameters, j.member? DocumentField.parameterisation.key = some parameters ∧
    Parameters.HasGap parameters

def gap (f : Field) : Json → Prop := if f = DocumentField.parameterisation then Parameters.HasGap
    else NoGap

theorem hasGap_iff : HasGap j ↔ ∃ f ∈ DocumentField.table, ∃ inner, j.member? f.key = some inner ∧
    gap f inner := by
  constructor
  · rintro ⟨parameters, hfind, hgap⟩
    exact ⟨DocumentField.parameterisation, by decide, parameters, hfind, hgap⟩
  · rintro ⟨f, -, inner, hfind, hgap⟩
    unfold gap at hgap
    split at hgap
    · next hf => exact ⟨inner, hf ▸ hfind, hgap⟩
    · exact hgap.elim

theorem fits_read (model : Model) :
    Fits Schema.reach (ofTable DocumentField.table)
      (check (Record.read model DocumentField.table body)) HasGap := by
  have hparts : ∀ p ∈ parts model, p.Fits (gap p.field) := by
    simp only [parts, List.forall_mem_cons]
    exact ⟨Part.fits_section (.inl rfl) rfl (by decide) (Header.fits_read model),
      Part.fits_section (.inl rfl) rfl (by decide) (Parameters.fits_read model),
      Part.fits_section (.inr rfl) rfl (by decide) (Experiment.fits_readAll model),
      List.forall_mem_nil _⟩
  exact (fits_record (leavesRest_of_eq fun r hr => hr ▸ issues_body r) DocumentField.keys_nodup
    (List.Perm.refl _) hparts).congr fun j => hasGap_iff.symm

theorem validates_of_issues (hfiled : j.Filed) (h : issues j = []) :
    documentSchema.Validates j := by
  rw [issues_eq] at h
  exact validates_iff.mpr ((fits_read (statedModel j)).describes [] j hfiled h)

/-! ### Trees with parameters of the user's own -/

/-- The parameters that every document has, and those of the user's own. -/
theorem describes_requiredParameters {hops : Nat} {cell negative positive own : Json}
    (hcell : (Schema.ofField ParameterField.cell).Describes Schema.reach cell)
    (hnegative : (Schema.ofField ParameterField.negativeElectrode).Describes Schema.reach negative)
    (hpositive : (Schema.ofField ParameterField.positiveElectrode).Describes Schema.reach positive)
    (hown : (Schema.ofField ParameterField.userDefined).Describes Schema.reach own) :
    (ofTable ParameterField.table).Describes hops
      (.ofWritten [(ParameterField.cell, some cell),
        (ParameterField.negativeElectrode, some negative),
        (ParameterField.positiveElectrode, some positive),
        (ParameterField.userDefined, some own)]) := by
  let entries : List (Field × Json) :=
    [(ParameterField.cell, cell), (ParameterField.negativeElectrode, negative),
      (ParameterField.positiveElectrode, positive), (ParameterField.userDefined, own)]
  have hkeys : entries.map (·.1) = [ParameterField.cell, ParameterField.negativeElectrode,
      ParameterField.positiveElectrode, ParameterField.userDefined] := rfl
  have hentries : ∀ e ∈ entries, (Schema.ofField e.1).Describes Schema.reach e.2 := by
    simp only [entries, List.forall_mem_cons]
    exact ⟨hcell, hnegative, hpositive, hown, List.forall_mem_nil _⟩
  refine Schema.describes_ofWritten ParameterField.keys_nodup ?_ hentries ?_
  · rw [hkeys]
    decide
  · rw [hkeys]
    decide

theorem describes_requiredSections {header parameters : Json}
    (hheader : (Schema.ofField DocumentField.header).Describes Schema.reach header) (hparameters :
      (Schema.ofField DocumentField.parameterisation).Describes Schema.reach parameters) :
    documentSchema.Validates
      (.ofWritten [(DocumentField.header, some header),
        (DocumentField.parameterisation, some parameters)]) := by
  let entries : List (Field × Json) :=
    [(DocumentField.header, header), (DocumentField.parameterisation, parameters)]
  have hkeys : entries.map (·.1) = [DocumentField.header, DocumentField.parameterisation] := rfl
  have hentries : ∀ e ∈ entries, (Schema.ofField e.1).Describes Schema.reach e.2 :=
    List.forall_mem_cons.mpr ⟨hheader, List.forall_mem_singleton.mpr hparameters⟩
  refine validates_iff.mpr (Schema.describes_ofWritten DocumentField.keys_nodup ?_ hentries ?_)
  · rw [hkeys]
    decide
  · rw [hkeys]
    decide

/-- Whatever stands in the plain tree for the user's own parameters, the tree is valid if these are:
all else is read without an issue. -/
theorem validates_plainTreeWith {own : Json}
    (hown : ∀ {hops}, Schema.userDefined.Describes hops own) :
    documentSchema.Validates (plainTreeWith own) := by
  -- both electrodes are one tree under one description
  refine describes_requiredSections
    ((Schema.describes_section (.inl rfl) rfl (by decide)).mpr ?header)
    ((Schema.describes_section (.inl rfl) rfl (by decide)).mpr
      (describes_requiredParameters
        ((Schema.describes_section (.inl rfl) rfl (by decide)).mpr ?cell)
        ((Schema.describes_section (.inl rfl) rfl (by decide)).mpr ?electrode)
        ((Schema.describes_section (.inl rfl) rfl (by decide)).mpr ?electrode)
        ((Schema.describes_section (.inr rfl) rfl (by decide)).mpr hown)))
  case header =>
    exact (Header.fits_read .spm).describes [] _ (by decide +kernel) (by decide +kernel)
  case cell => exact (Cell.fits_read .spm).describes [] _ (by decide +kernel) (by decide +kernel)
  case electrode =>
    exact (Electrode.fits_read .spm).describes [] _ (by decide +kernel) (by decide +kernel)

/-- A group with a value is valid as soon as the value is. -/
theorem describes_ageing {name : String} {j : Json} (hname : name ≠ descriptionKey)
    (hvalue : (Schema.ref "Value").Describes Schema.reach j) {hops : Nat} :
    Schema.userDefined.Describes hops (.ofMembers [("Ageing", .ofMembers [(name, j)])]) := by
  have hentry : UserParameter.Described name j := by
    rw [UserParameter.Described, if_neg hname]
    exact .inl hvalue
  have hgroup : UserParameter.Described "Ageing" (.ofMembers [(name, j)]) := by
    rw [UserParameter.Described, if_neg (by decide)]
    exact .inr (UserParameter.describes_ref_iff.mpr ⟨_, rfl, List.forall_mem_singleton.mpr hentry⟩)
  exact UserParameter.describes_iff.mpr ⟨_, rfl, List.forall_mem_singleton.mpr hgroup⟩

/-! ### What is reported of valid trees -/

/-- Of a valid tree the reader reports only what the description leaves to it, exactly if the tree
has no gap: no count above every count, no electrode without any material, and no object of the
user's own with a stray axis. -/
theorem left_issues_iff (hfiled : j.Filed) (h : documentSchema.Validates j) :
    (∀ i ∈ issues j, i.cause.LeftToReader) ↔ ¬HasGap j := by
  rw [issues_eq]
  exact (fits_read (statedModel j)).left_iff [] j hfiled (validates_iff.mp h)

/-- A tree with a formula of the user's own that breaks off. -/
def unfinishedTree : Json :=
  plainTreeWith (.ofMembers [("Ageing", .ofMembers [("Loss", .string "2 +")])])

/-- That a formula can be read is left to the reader. -/
theorem left_issues_unfinished : unfinishedTree.Filed ∧ documentSchema.Validates unfinishedTree ∧
    (issues unfinishedTree).map (·.path) =
      [["Parameterisation", "User-defined", "Ageing", "Loss"]] ∧
    (∀ i ∈ issues unfinishedTree, i.cause.LeftToReader) ∧ ¬HasGap unfinishedTree := by
  have hfiled : unfinishedTree.Filed := by decide +kernel
  have hvalid : documentSchema.Validates unfinishedTree :=
    validates_plainTreeWith
      (describes_ageing (by decide) (Schema.describes_value.mpr (.inr (.inl ⟨_, rfl⟩))))
  have hissues : issues unfinishedTree = [⟨["Parameterisation", "User-defined", "Ageing", "Loss"],
      .value (.formula ⟨.unexpected .endOfInput, 3⟩)⟩] := by decide +kernel
  have hleft : ∀ i ∈ issues unfinishedTree, i.cause.LeftToReader := by
    rw [hissues, List.forall_mem_singleton]
    exact .inl rfl
  exact ⟨hfiled, hvalid, by rw [hissues]; rfl, hleft, (left_issues_iff hfiled hvalid).mp hleft⟩

/-- A tree with a group of the user's own in which a value is called `x`. -/
def strayTree : Json :=
  plainTreeWith (.ofMembers [("Ageing", .ofMembers [("x", .number (.natural 1))])])

/-- The tree is valid, and it is refused for the shape of the group. -/
theorem strayTree_refused : strayTree.Filed ∧ documentSchema.Validates strayTree ∧
    issues strayTree =
      [⟨["Parameterisation", "User-defined", "Ageing"], .value (.shape (.missingList "x"))⟩] ∧
    ¬(IssueCause.value (.shape (.missingList "x"))).LeftToReader := by
  refine ⟨by decide +kernel, validates_plainTreeWith (describes_ageing (by decide)
    ?_), by decide +kernel, ?_⟩
  · exact Schema.describes_value.mpr (.inl rfl)
  · simp [IssueCause.LeftToReader, IssueCause.issueClass]

/-! ### What accepted trees are valid as -/

theorem describes_parameters (h : documentSchema.Validates j) :
    ∃ parameters, j.member? DocumentField.parameterisation.key = some parameters ∧
      (ofTable ParameterField.table).Describes Schema.reach parameters := by
  have hj := validates_iff.mp h
  obtain ⟨-, hpresent⟩ := Schema.members_of_ofTable DocumentField.keys_nodup hj
  obtain ⟨parameters, hfind⟩ :=
    Option.isSome_iff_exists.mp (hpresent DocumentField.parameterisation (by decide) rfl)
  have hentry := Schema.describes_member? DocumentField.keys_nodup hj (by decide) hfind
  have hsection := (Schema.describes_section (.inl rfl) rfl (by decide)).mp hentry
  exact ⟨parameters, hfind, (Schema.describes_ofTable_hops ParameterField.keys_nodup).mp hsection⟩

/-- Each electrode is valid as one of the two variants and not as the other. -/
theorem existsUnique_variant {p : Json}
    (h : (ofTable ParameterField.table).Describes Schema.reach p) {f : Field}
    (hf : f = ParameterField.negativeElectrode ∨ f = ParameterField.positiveElectrode) :
    ∃ e, p.member? f.key = some e ∧
      ∃! isBlend, (ofTable (Electrode.fields isBlend)).Describes Schema.reach e := by
  have hmem : f ∈ ParameterField.table ∧ f.requirement = .always ∧ f.kind = .record ∧
      f.definitionName = "Electrode" := by
    rcases hf with rfl | rfl <;> decide
  obtain ⟨hfield, halways, hkind, hname⟩ := hmem
  obtain ⟨e, hfind⟩ := Option.isSome_iff_exists.mp
    ((Schema.members_of_ofTable ParameterField.keys_nodup h).2 f hfield halways)
  have hentry := Schema.describes_member? ParameterField.keys_nodup h hfield hfind
  have hdefinition : Named.find? f.definitionName documentSchema.definitions =
      some (.oneOf [ofTable (Electrode.fields false), ofTable (Electrode.fields true)]) := by
    rw [hname]
    rfl
  have hplain : '/' ∉ f.definitionName.toList ∧ '~' ∉ f.definitionName.toList := by
    rw [hname]
    decide
  have hvariants := (Schema.describes_section (.inl hkind) hdefinition hplain).mp hentry
  refine ⟨e, hfind, ?_⟩
  rcases Schema.admits_oneOf.mp hvariants with ⟨hvalid, hother⟩ | ⟨hother, hvalid⟩
  · refine ⟨false, (Schema.describes_ofTable_hops (Electrode.keys_nodup false)).mp hvalid,
      fun isBlend hblend => ?_⟩
    cases isBlend with
    | false => rfl
    | true =>
      exact absurd ((Schema.describes_ofTable_hops (Electrode.keys_nodup true)).mp hblend) hother
  · refine ⟨true, (Schema.describes_ofTable_hops (Electrode.keys_nodup true)).mp hvalid,
      fun isBlend hblend => ?_⟩
    cases isBlend with
    | false =>
      exact absurd ((Schema.describes_ofTable_hops (Electrode.keys_nodup false)).mp hblend) hother
    | true => rfl

/-- Every object among the user's own parameters is valid as a group or as a table. -/
theorem describes_own {p own : Json} (h : (ofTable ParameterField.table).Describes Schema.reach p)
    (hfind : p.member? ParameterField.userDefined.key = some own) {names : List String}
    {members : List (String × Json)} (hfollow : own.follow? names = some (.object members)) :
    Schema.userDefined.Describes Schema.reach (.object members) ∨
      Schema.interpolatedTable.Describes Schema.reach (.object members) := by
  have hentry := Schema.describes_member? ParameterField.keys_nodup h (by decide) hfind
  have hown :=
    UserParameter.describes_iff.mp ((Schema.describes_section (.inr rfl) rfl (by decide)).mp hentry)
  rw [UserParameter.describes_iff, Schema.describes_table, ← UserParameter.describes_ref_iff]
  exact UserParameter.describes_below (.inl (UserParameter.describes_ref_iff.mpr hown)) hfollow

/-- Whatever is accepted is valid under the description of documents: each electrode as exactly one
of its two variants, and every object among the user's own parameters, at any depth, as a group or
as a table. -/
theorem validates_of_ofJson {d : Document} (hfiled : j.Filed) (h : ofJson j = .ok d) :
    documentSchema.Validates j ∧
      (∀ f ∈ [ParameterField.negativeElectrode, ParameterField.positiveElectrode],
        ∃ e, j.follow? [DocumentField.parameterisation.key, f.key] = some e ∧
          ∃! isBlend,
            (ofTable (Electrode.fields isBlend)).Describes documentSchema.toJson.refLimit e) ∧
      ∀ names members,
        j.follow? (DocumentField.parameterisation.key :: ParameterField.userDefined.key :: names) =
          some (.object members) →
        Schema.userDefined.Describes documentSchema.toJson.refLimit (.object members) ∨
          Schema.interpolatedTable.Describes documentSchema.toJson.refLimit (.object members) := by
  have hissues : issues j = [] := by rw [issues, h]
  have hvalid := validates_of_issues hfiled hissues
  obtain ⟨parameters, hparameters, hdescribed⟩ := describes_parameters hvalid
  rw [Schema.refLimit_documentSchema]
  refine ⟨hvalid, fun f hf => ?_, fun names members hfollow => ?_⟩
  · rw [Json.follow?_of_member? hparameters, Json.follow?_single]
    exact existsUnique_variant hdescribed (by simpa using hf)
  · rw [Json.follow?_of_member? hparameters, Json.follow?_cons, Option.bind_eq_some_iff] at hfollow
    obtain ⟨own, hown, hrest⟩ := hfollow
    exact describes_own hdescribed hown hrest

theorem validates_plain : plainTree.Filed ∧ ofJson plainTree = .ok plain ∧
    documentSchema.Validates plainTree ∧
    (∃ e, plainTree.follow? [DocumentField.parameterisation.key,
      ParameterField.negativeElectrode.key] = some e ∧
      ∃! isBlend, (ofTable (Electrode.fields isBlend)).Describes documentSchema.toJson.refLimit e) ∧
    ∃ group, plainTree.follow? [DocumentField.parameterisation.key, ParameterField.userDefined.key,
        "Ageing"] = some (.object group) ∧
      (Schema.userDefined.Describes documentSchema.toJson.refLimit (.object group) ∨
        Schema.interpolatedTable.Describes documentSchema.toJson.refLimit (.object group)) := by
  obtain ⟨hvalid, helectrodes, hgroups⟩ := validates_of_ofJson plainTree_filed ofJson_plainTree
  have hgroup : plainTree.follow? [DocumentField.parameterisation.key,
      ParameterField.userDefined.key, "Ageing"] =
      some (.object [("Loss", .number (.natural 2)), ("description", .string "By cycles")]) := by
        rfl
  exact ⟨plainTree_filed, ofJson_plainTree, hvalid,
    helectrodes ParameterField.negativeElectrode (by decide), _, hgroup,
    hgroups ["Ageing"] _ hgroup⟩

end Document

end BatteryParams

import BatteryParams.Proofs.Document.Faithful

/-!
# Documents keep the tree they were read from

The sections of the last module are put together: materials to blends, blends and materials to
electrodes, the user's own parameters to groups of any depth, and all of them to documents. A tree
that is accepted as a document and the tree that the document is written as have the same keys at
every level, the same texts and lists, and the same numbers.
-/

namespace BatteryParams

open Reading (clean)
open Record

/-- Named members that are each read faithfully, as what they stand for or as some form of it. -/
theorem Json.asDoubles_of_each {α β : Type} {read : String × Json → Reading (String × β)}
    {write : α → Json} {form : α → β} {members : List (String × Json)} {entries : List (String × α)}
    (hread : ∀ m ∈ members, ∀ name a, read m = clean (name, form a) → name = m.1 ∧
      (write a).asDoubles = m.2.asDoubles)
    (h : Reading.each read members = clean (entries.map fun e => (e.1, form e.2))) :
    (object (entries.map fun e => (e.1, write e.2))).asDoubles = (object members).asDoubles := by
  rw [asDoubles_object, asDoubles_object, Json.object.injEq, List.map_map]
  induction members generalizing entries with
  | nil =>
    have hempty : entries.map (fun e => (e.1, form e.2)) = [] := (Reading.clean_inj.mp h).symm
    rw [List.map_eq_nil_iff.mp hempty]
    rfl
  | cons m rest ih =>
    obtain ⟨first, hfirst, others, hothers, heq⟩ := Reading.each_cons.mp h
    cases entries with
    | nil => cases heq
    | cons e entries =>
      obtain ⟨rfl, rfl⟩ := List.cons.inj heq
      obtain ⟨hrest, hmore⟩ := List.forall_mem_cons.mp hread
      obtain ⟨hname, hwrite⟩ := hrest e.1 e.2 hfirst
      rw [List.map_cons, List.map_cons, ih hmore hothers, Function.comp_apply, hname, hwrite]

/-! ### Blends -/

namespace Blend

theorem readMaterial_eq_clean {model : Model} {path : Path} {member : String × Json} {name : String}
    {c : BlendMaterial} (h : readMaterial model path member = clean (name, c.parts)) :
    name = member.1 ∧ ∃ members, member.2 = .object members ∧
      unknownIssues (path ++ [member.1]) (ParticleField.table ++ ParticleField.blendTable) members =
        [] ∧
      Record.required ⟨path ++ [member.1], members,
        model⟩ ParticleField.volumeFraction Rule.number = clean c.volumeFraction ∧
      Particle.body ⟨path ++ [member.1], members, model⟩ = clean c.particle := by
  obtain ⟨key, j⟩ := member
  obtain ⟨hvalue, hissues⟩ := Reading.eq_clean_iff.mp h
  cases j with
  | object members =>
    obtain ⟨hunknown, hbody⟩ := List.append_eq_nil_iff.mp hissues
    obtain ⟨hnoFraction, hnoParticle⟩ := List.append_eq_nil_iff.mp hbody
    obtain ⟨hname, hparts⟩ := Prod.mk.inj (Option.some.inj hvalue)
    obtain ⟨hfraction, hparticle⟩ := Parts.mk.inj hparts
    exact ⟨hname.symm, members, rfl, hunknown, Reading.eq_clean_iff.mpr ⟨hfraction, hnoFraction⟩,
      Reading.eq_clean_iff.mpr ⟨hparticle, hnoParticle⟩⟩
  | _ => cases hissues

theorem asDoubles_of_readMaterial {model : Model} {path : Path} {member : String × Json}
    (hfiled : member.2.Filed) {name : String} {c : BlendMaterial}
    (h : readMaterial model path member = clean (name, c.parts)) :
    name = member.1 ∧ c.toJson.asDoubles = member.2.asDoubles := by
  obtain ⟨hname, members, hmember, hunknown, hfraction, hparticle⟩ := readMaterial_eq_clean h
  refine ⟨hname, ?_⟩
  rw [hmember] at hfiled ⊢
  let r : Record := ⟨path ++ [member.1], members, model⟩
  have hr : r.Filed := hfiled
  have hfields :
      ∀ f ∈ ParticleField.table ++ ParticleField.blendTable, f ∈ c.written.map (·.1) := by
    intro f hf
    show f ∈ ParticleField.volumeFraction :: ParticleField.table
    rw [List.mem_cons]
    exact (List.mem_append.mp hf).symm.imp List.mem_singleton.mp id
  have hholds : ∀ e ∈ c.written, r.Holds e :=
    List.forall_mem_cons.mpr ⟨holds_of_required Rule.faithful_number hr hfraction,
      Particle.holds_of_body hr hparticle⟩
  exact asDoubles_ofWritten hr hunknown hfields ParticleField.keys_nodup hholds

theorem faithful_read (model : Model) : Faithful (read model) toJson := by
  intro path j b hfiled h
  cases j with
  | object members =>
    obtain ⟨hissues, hjudged⟩ := Reading.withIssues_eq_clean.mp h
    obtain ⟨cs, hcs, -⟩ := exists_components hissues
    rw [hcs] at hjudged
    have hcomponents : b.components = cs := by
      have hparts : ofParts path (cs.map fun c => (c.1, c.2.parts)) = clean b := hjudged
      rwa [ofParts_parts, Reading.ofExcept_eq_clean, Rule.mapError_eq_ok,
        ofComponents_eq_ok] at hparts
    rw [← hcomponents] at hcs
    exact Json.asDoubles_of_each
      (fun m hm name c => asDoubles_of_readMaterial ((Json.filed_object.mp hfiled).2 m hm)) hcs
  | _ => exact absurd h Reading.issue_ne_clean

end Blend

/-! ### Electrodes -/

namespace Electrode

theorem holds_of_materialBody {isBlend : Bool} {r : Record} {m : ActiveMaterial} (hr : r.Filed)
    (h : materialBody isBlend r = clean m) : ∀ e ∈ m.written, r.Holds e := by
  rw [Reading.eq_clean_iff_yields] at h
  cases isBlend with
  | true =>
    simp only [materialBody, if_true, Reading.yields_map] at h
    obtain ⟨b, hb, rfl⟩ := h
    exact List.forall_mem_singleton.mpr (holds_of_required (Blend.faithful_read r.model) hr hb)
  | false =>
    simp only [materialBody, Bool.false_eq_true, if_false, Reading.yields_map] at h
    obtain ⟨p, hp, rfl⟩ := h
    exact Particle.holds_of_body hr hp

theorem isBlended_of_materialBody {isBlend : Bool} {r : Record} {m : ActiveMaterial}
    (h : materialBody isBlend r = clean m) {e : Electrode} (hm : e.material = m) :
    e.isBlended = isBlend := by
  rw [Reading.eq_clean_iff_yields] at h
  subst hm
  cases isBlend with
  | true =>
    simp only [materialBody, if_true, Reading.yields_map] at h
    obtain ⟨b, -, hb⟩ := h
    rw [isBlended, particle?, ← hb]
    rfl
  | false =>
    simp only [materialBody, Bool.false_eq_true, if_false, Reading.yields_map] at h
    obtain ⟨p, -, hp⟩ := h
    rw [isBlended, particle?, ← hp]
    rfl

theorem holds_of_body {isBlend : Bool} {r : Record} {e : Electrode} (hr : r.Filed)
    (h : body isBlend r = clean e) : e.isBlended = isBlend ∧ ∀ w ∈ e.written, r.Holds w := by
  rw [Reading.eq_clean_iff_yields] at h
  simp only [body, Reading.yields_seq, Reading.yields_map] at h
  obtain ⟨_, hthickness, _, hporosity, _, hefficiency, _, hconductivity, _, hmaterial, rfl⟩ := h
  refine ⟨isBlended_of_materialBody hmaterial rfl, ?_⟩
  simp only [written, List.forall_mem_append, List.forall_mem_cons]
  exact ⟨⟨holds_of_required Rule.faithful_number hr hthickness,
    holds_of_entry Rule.faithful_number hr hporosity,
    holds_of_entry Rule.faithful_number hr hefficiency,
    holds_of_entry Rule.faithful_number hr hconductivity, List.forall_mem_nil _⟩,
    holds_of_materialBody hr hmaterial⟩

theorem faithful_read (model : Model) : Faithful (read model) toJson := by
  intro path j e hfiled h
  obtain ⟨members, rfl, hunknown, hbody⟩ := unknownIssues_of_read h
  let r : Record := ⟨path, members, model⟩
  have hr : r.Filed := hfiled
  obtain ⟨hblended, hholds⟩ := holds_of_body hr hbody
  refine asDoubles_ofWritten hr hunknown (fun f hf => ?_) (writtenKeys_nodup e) hholds
  rwa [fields_written, hblended]

end Electrode

/-! ### The user's own parameters -/

namespace UserParameter

theorem asDoubles_of_value {path : Path} {j : Json} {u : UserParameter} (hfiled : j.Filed)
    (h : UserParameter.value <$> Rule.value path j = clean u) :
    u.toJson.asDoubles = j.asDoubles := by
  rw [Reading.eq_clean_iff_yields, Reading.yields_map] at h
  obtain ⟨v, hv, rfl⟩ := h
  rw [toJson]
  exact Rule.faithful_value path j v hfiled hv

theorem asDoubles_of_leaf {path : Path} {key : String} {j : Json} {u : UserParameter}
    (hfiled : j.Filed) (hj : ∀ members, j ≠ .object members) (h : read path key j = clean u) :
    u.toJson.asDoubles = j.asDoubles := by
  rw [read_leaf hj] at h
  split at h
  · rw [Reading.eq_clean_iff_yields, Reading.yields_map] at h
    obtain ⟨s, hs, rfl⟩ := h
    rw [toJson]
    exact Rule.faithful_text path j s hfiled hs
  · exact asDoubles_of_value hfiled h

mutual

theorem asDoubles_of_read {path : Path} {key : String} {u : UserParameter} :
    ∀ {j : Json}, j.Filed → read path key j = clean u → u.toJson.asDoubles = j.asDoubles
  | .object members, hfiled, h => by
    by_cases hkey : key = descriptionKey
    · simp only [read, if_pos hkey] at h
      exact absurd h Reading.issue_ne_clean
    · cases htable : looksLikeTable members with
      | true =>
        rw [read_table hkey htable] at h
        exact asDoubles_of_value hfiled h
      | false =>
        rw [read_group hkey htable, Reading.eq_clean_iff_yields, Reading.yields_map] at h
        obtain ⟨es, hes, rfl⟩ := h
        rw [toJson, Json.asDoubles, Json.asDoubles,
          asDoubles_of_readGroup (Json.filed_object.mp hfiled).2 hes]
  | .null, hfiled, h | .bool _, hfiled, h | .number _, hfiled, h | .string _, hfiled, h
  | .list _, hfiled, h =>
    asDoubles_of_leaf hfiled (by simp) h

theorem asDoubles_of_readGroup {path : Path} {es : List (String × UserParameter)} :
    ∀ {members : List (String × Json)}, (∀ m ∈ members, m.2.Filed) →
      readGroup path members = clean es →
      Json.membersAsDoubles (membersOf es) = Json.membersAsDoubles members
  | [], _, h => by
    obtain rfl := Reading.clean_inj.mp h
    rfl
  | (key, j) :: rest, hfiled, h => by
    obtain ⟨e, he, es', hrest, rfl⟩ := readGroup_cons.mp h
    obtain ⟨hj, hmore⟩ := List.forall_mem_cons.mp hfiled
    rw [membersOf, Json.membersAsDoubles, Json.membersAsDoubles, asDoubles_of_read hj he,
      asDoubles_of_readGroup hmore hrest]

end

theorem faithful_readAll : Faithful readAll fun u => .object (membersOf u) := by
  intro path j u hfiled h
  cases j with
  | object members =>
    show (Json.object (membersOf u)).asDoubles = _
    rw [Json.asDoubles, Json.asDoubles, asDoubles_of_readGroup (Json.filed_object.mp hfiled).2 h]
  | _ => exact absurd h Reading.issue_ne_clean

end UserParameter

/-! ### Experiments, parameter sets and documents -/

theorem Experiment.faithful_readAll (model : Model) :
    Faithful (readAll model) fun es => .object (es.map fun e => (e.1, e.2.toJson)) := by
  intro path j es hfiled h
  cases j with
  | object members =>
    have heach :
    Reading.each (readMember model path) members = clean (es.map fun e => (e.1, id e.2)) := by
      rw [show (es.map fun e => (e.1, id e.2)) = es from List.map_id' es]
      exact h
    refine Json.asDoubles_of_each (fun m hm name e hread => ?_) heach
    rw [readMember, Reading.eq_clean_iff_yields, Reading.yields_map] at hread
    obtain ⟨e', he', heq⟩ := hread
    obtain ⟨rfl, rfl⟩ := Prod.mk.inj heq
    exact ⟨rfl, faithful_read model _ _ _ ((Json.filed_object.mp hfiled).2 m hm) he'⟩
  | _ => exact absurd h Reading.issue_ne_clean

theorem Parameters.faithful_read (model : Model) : Faithful (read model) toJson := by
  refine Record.faithful_read (fun _ => rfl) ParameterField.keys_nodup fun r p hr hbody => ?_
  rw [Reading.eq_clean_iff_yields] at hbody
  simp only [body, Reading.yields_seq, Reading.yields_map] at hbody
  obtain ⟨_, hcell, _, helectrolyte, _, hnegative, _, hpositive, _, hseparator, _, huser, rfl⟩ :=
    hbody
  simp only [written, List.forall_mem_cons]
  exact ⟨holds_of_required (Cell.faithful_read r.model) hr hcell,
    holds_of_entry (Electrolyte.faithful_read r.model) hr helectrolyte,
    holds_of_required (Electrode.faithful_read r.model) hr hnegative,
    holds_of_required (Electrode.faithful_read r.model) hr hpositive,
    holds_of_entry (Separator.faithful_read r.model) hr hseparator,
    holds_of_entry UserParameter.faithful_readAll hr huser, List.forall_mem_nil _⟩

namespace Document

theorem faithful_read (model : Model) :
    Faithful (Record.read model DocumentField.table body) toJson := by
  refine Record.faithful_read (fun _ => rfl) DocumentField.keys_nodup fun r d hr hbody => ?_
  rw [Reading.eq_clean_iff_yields] at hbody
  simp only [body, Reading.yields_seq, Reading.yields_map] at hbody
  obtain ⟨_, hheader, _, hparameters, _, hvalidation, rfl⟩ := hbody
  simp only [written, List.forall_mem_cons]
  exact ⟨holds_of_required (Header.faithful_read r.model) hr hheader,
    holds_of_required (Parameters.faithful_read r.model) hr hparameters,
    holds_of_entry (Experiment.faithful_readAll r.model) hr hvalidation, List.forall_mem_nil _⟩

theorem asDoubles_toJson_of_read {j : Json} {d : Document} (hfiled : j.Filed)
    (h : read j = clean d) : d.toJson.asDoubles = j.asDoubles := faithful_read _ [] j d hfiled h

/-- The number of electrode pairs that a tree states, however it is spelled. -/
def statedPairs? (j : Json) : Option UInt32 := do
  let parameters ← j.member? DocumentField.parameterisation.key
  let cell ← parameters.member? ParameterField.cell.key
  (← cell.member? CellField.numberOfElectrodePairs.key).toCount?

theorem statedPairs?_of_read {j : Json} {d : Document} (h : read j = clean d) :
    statedPairs? j = some d.parameters.cell.numberOfElectrodePairs := by
  obtain ⟨members, rfl, hbody⟩ := read_eq_clean h
  rw [Reading.eq_clean_iff_yields] at hbody
  simp only [body, Reading.yields_seq, Reading.yields_map] at hbody
  obtain ⟨_, -, p, hparameters, _, -, rfl⟩ := hbody
  obtain ⟨tree, hfind, hread⟩ := required_eq_clean.mp hparameters
  obtain ⟨sections, rfl, hsections⟩ := read_eq_clean hread
  rw [Reading.eq_clean_iff_yields] at hsections
  simp only [Parameters.body, Reading.yields_seq, Reading.yields_map] at hsections
  obtain ⟨c, hcell, _, -, _, -, _, -, _, -, _, -, rfl⟩ := hsections
  obtain ⟨cell, hfindCell, hreadCell⟩ := required_eq_clean.mp hcell
  obtain ⟨entries, rfl, hentries⟩ := read_eq_clean hreadCell
  rw [Reading.eq_clean_iff_yields] at hentries
  simp only [Cell.body, Reading.yields_seq, Reading.yields_map] at hentries
  obtain ⟨_, -, _, -, _, -, n, hpairs, _, -, _, -, _, -, _, -, _, -, _, -, _, -, _, -, _, -, rfl⟩ :=
    hentries
  obtain ⟨pairs, hfindPairs, hcount⟩ := required_eq_clean.mp hpairs
  have hcount : pairs.toCount? = some n := Rule.expect_eq_clean.mp hcount
  simp only [statedPairs?, Json.member?, hfind, hfindCell, hfindPairs, Option.bind_eq_bind,
    Option.bind_some, hcount]

/-- A document is written as the tree that it was accepted from, with the same members at every
level, the same texts and lists, and the same numbers, though these may be spelled otherwise; the
count of electrode pairs is the same integer. -/
theorem toJson_keeps_tree {j : Json} {d : Document} (hfiled : j.Filed) (h : ofJson j = .ok d) :
    d.toJson.asDoubles = j.asDoubles ∧
      statedPairs? j = some d.parameters.cell.numberOfElectrodePairs ∧
      statedPairs? d.toJson = some d.parameters.cell.numberOfElectrodePairs := by
  have hread : read j = clean d := ofJson_eq_ok.mp h
  have hagain : read d.toJson = clean d := read_toJson (readable_of_read hread)
  exact ⟨asDoubles_toJson_of_read hfiled hread, statedPairs?_of_read hread,
    statedPairs?_of_read hagain⟩

/-- A tree in which whole numbers are spelled as integers and the count of electrode pairs as a
double, with these parameters of the user's own. -/
def plainTreeWith (own : Json) : Json :=
  let whole (n : UInt64) : Json := .number (.natural n)
  let potential := Json.ofMembers [("x", .list [whole 0, whole 1]), ("y", .list [whole 4, whole 3])]
  let electrode := Json.ofWritten [(ElectrodeField.thickness, some (whole 1)),
    (ParticleField.minimumStoichiometry, some (whole 0)),
    (ParticleField.maximumStoichiometry, some (whole 1)),
    (ParticleField.maximumConcentration, some (whole 30000)),
    (ParticleField.particleRadius, some (whole 1)),
    (ParticleField.surfaceAreaPerUnitVolume, some (whole 4)),
    (ParticleField.diffusivity, some (whole 1)),
    (ParticleField.ocp, some potential), (ParticleField.reactionRateConstant, some (whole 1))]
  let cell := Json.ofWritten [(CellField.electrodeArea, some (whole 1)),
    (CellField.numberOfElectrodePairs, some (.number (.float 2.0))),
    (CellField.lowerVoltageCutoff, some (whole 3)), (CellField.upperVoltageCutoff, some (whole 4)),
    (CellField.nominalCellCapacity, some (whole 5)),
    (CellField.ambientTemperature, some (whole 298)),
    (CellField.initialTemperature, some (.number (.negative 3)))]
  .ofWritten
    [(DocumentField.header, some (.ofWritten
      [(HeaderField.bpx, some (whole 1)), (HeaderField.model, some (.string "SPM"))])),
    (DocumentField.parameterisation, some (.ofWritten
      [(ParameterField.cell, some cell), (ParameterField.negativeElectrode, some electrode),
        (ParameterField.positiveElectrode, some electrode),
        (ParameterField.userDefined, some own)]))]

/-- The document of `plainTreeWith`. -/
def plainWith (own : UserDefined) : Document :=
  let potential : Table Float := ⟨[0.0, 1.0], [4.0, 3.0], by simp, by simp⟩
  let material : Particle :=
    ⟨0.0, 1.0, 30000.0, 1.0, 4.0, .constant 1.0, none, .table potential, none, 1.0, none⟩
  let electrode : Electrode := ⟨1.0, none, none, none, .single material⟩
  let cell : Cell := ⟨1.0, none, none, 2, 3.0, 4.0, 5.0, 298.0, some (-3.0), none, none, none, none⟩
  ⟨⟨.legacy 1.0, none, none, none, .spm⟩, ⟨cell, none, electrode, electrode, none, some own⟩, none⟩

def plainTree : Json :=
  plainTreeWith (.ofMembers [("Ageing", .ofMembers [("description", .string "By cycles"),
    ("Loss", .number (.natural 2))])])

def plain : Document :=
  plainWith
    [("Ageing", .group [("Loss", .value (.constant 2.0)), ("description", .text "By cycles")])]

theorem plainTree_filed : plainTree.Filed := by decide +kernel

theorem ofJson_plainTree : ofJson plainTree = .ok plain := by decide +kernel

theorem toJson_plain : plain.toJson.asDoubles = plainTree.asDoubles ∧
    statedPairs? plainTree = some 2 ∧
    statedPairs? plain.toJson = some 2 :=
  toJson_keeps_tree plainTree_filed ofJson_plainTree

end Document

end BatteryParams

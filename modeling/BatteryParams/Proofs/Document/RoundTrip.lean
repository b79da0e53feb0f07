import BatteryParams.Proofs.Document.Electrode
import BatteryParams.Proofs.Document.UserDefined

/-!
# Documents are read back

Whatever tree a document is read from, the document meets the conditions of `Document.Readable`, and
was read for the model that its own header names. Conversely, a document that meets them is read
back from the tree that it is written as. So the tree of a document gives the document again exactly
if the document is well formed.
-/

namespace BatteryParams

open Reading (clean)
open Record

/-! ### Parameter sets -/

theorem ParameterField.keys_nodup : (ParameterField.table.map (·.key)).Nodup := by decide

namespace Parameters

theorem accounted_body (r : Record) : (body r).Accounted :=
  accounted_required (accounted_read Cell.accounted_body) (.inl rfl) |>.map Parameters.mk
    |>.seq (accounted_entry (accounted_read Electrolyte.accounted_body) r _)
    |>.seq (accounted_required (Electrode.accounted_read r.model) (.inl rfl))
    |>.seq (accounted_required (Electrode.accounted_read r.model) (.inl rfl))
    |>.seq (accounted_entry (accounted_read Separator.accounted_body) r _)
    |>.seq (accounted_entry UserParameter.accounted_readAll r _)

theorem forall_mem_numbers {p : Parameters} {P : Float → Prop} :
    (∀ x ∈ p.numbers, P x) ↔ (∀ x ∈ p.cell.numbers, P x) ∧
      (∀ e ∈ p.electrolyte, ∀ x ∈ e.numbers, P x) ∧
      (∀ x ∈ p.negativeElectrode.numbers, P x) ∧ (∀ x ∈ p.positiveElectrode.numbers, P x) ∧
      ∀ s ∈ p.separator, ∀ x ∈ s.numbers, P x := by
  simp only [numbers, List.forall_mem_append, forall_mem_elim, and_assoc]

theorem forall_mem_values {p : Parameters} {P : Value → Prop} :
    (∀ v ∈ p.values, P v.2) ↔ (∀ e ∈ p.electrolyte, ∀ v ∈ e.values, P v.2) ∧
      (∀ v ∈ p.negativeElectrode.material.values, P v.2) ∧
        (∀ v ∈ p.positiveElectrode.material.values, P v.2) ∧
      ∀ u ∈ p.userDefined, ∀ v ∈ UserParameter.groupValues u, P v.2 := by
  simp only [values, List.forall_mem_append, forall_mem_elim, forall_mem_below, and_assoc]

theorem readable_of_body {r : Record} {p : Parameters} (h : body r = clean p) :
    p.Readable r.model := by
  rw [Reading.eq_clean_iff_yields] at h
  simp only [body, Reading.yields_seq, Reading.yields_map] at h
  obtain ⟨c, hc, e, he, n, hn, q, hq, s, hs, u, hu, rfl⟩ := h
  have hcell := of_required (fun _ _ _ => Cell.sound_of_read) hc
  have helectrolyte := of_entry (fun _ _ _ => Electrolyte.sound_of_read) he
  have hnegative := of_required (fun _ _ _ => Electrode.sound_of_read) hn
  have hpositive := of_required (fun _ _ _ => Electrode.sound_of_read) hq
  have hseparator := of_entry (fun _ _ _ => Separator.sound_of_read) hs
  have huser := of_entry (fun _ _ _ => UserParameter.sound_of_readAll) hu
  exact {
    numbers := forall_mem_numbers.mpr
      ⟨hcell.1, fun e he => (helectrolyte e he).1, hnegative.1, hpositive.1, hseparator⟩
    values := forall_mem_values.mpr
      ⟨fun e he => (helectrolyte e he).2, hnegative.2.1, hpositive.2.1, fun u hu => (huser u hu).2⟩
    pairs := hcell.2
    complete :=
      ⟨fun hmodel => isSome_of_entry he (decide_eq_true hmodel), hnegative.2.2, hpositive.2.2,
        fun hmodel => isSome_of_entry hs (decide_eq_true hmodel)⟩
    userDefined := fun u hu => (huser u hu).1 }

theorem readable_of_read {model : Model} {path : Path} {j : Json} {p : Parameters}
    (h : read model path j = clean p) : p.Readable model := by
  refine of_read (fun r hmodel hbody => ?_) h
  rw [← hmodel]
  exact readable_of_body hbody

theorem read_toJson {p : Parameters} {model : Model} (h : p.Readable model) (path : Path) :
    read model path p.toJson = clean p := by
  obtain ⟨hcell, helectrolyte, hnegative, hpositive, hseparator⟩ := forall_mem_numbers.mp h.numbers
  obtain ⟨helectrolyteValues, hnegativeValues, hpositiveValues, huserValues⟩ :=
    forall_mem_values.mp h.values
  have hkeys : (p.written.map (·.1.key)).Nodup := ParameterField.keys_nodup
  refine (read_ofWritten (fields_of_map rfl)).trans (Reading.eq_clean_iff_yields.mpr ?_)
  simp only [body, Reading.yields_seq, Reading.yields_map]
  exact ⟨_, required_ofWritten hkeys (by simp [written]) (Cell.read_toJson hcell h.pairs model _),
    _, entry_ofWritten hkeys (by simp [written])
      (fun e he => Electrolyte.read_toJson (helectrolyte e he) (helectrolyteValues e he) model _)
      fun hmodel => h.complete.electrolyte (of_decide_eq_true hmodel),
    _, required_ofWritten hkeys (by simp [written]) (Electrode.read_toJson hnegative hnegativeValues
      h.complete.negativeElectrode _),
    _, required_ofWritten hkeys (by simp [written]) (Electrode.read_toJson hpositive hpositiveValues
      h.complete.positiveElectrode _),
    _, entry_ofWritten hkeys (by simp [written])
      (fun s hs => Separator.read_toJson (hseparator s hs) model _)
      fun hmodel => h.complete.separator (of_decide_eq_true hmodel),
    _, entry_ofWritten hkeys (by simp [written])
      (fun u hu => UserParameter.readAll_membersOf (h.userDefined u hu) (huserValues u hu)) nofun,
    rfl⟩

end Parameters

/-! ### Documents -/

theorem DocumentField.keys_nodup : (DocumentField.table.map (·.key)).Nodup := by decide

namespace Document

theorem accounted_body (r : Record) : (body r).Accounted :=
  accounted_required (accounted_read Header.accounted_body) (.inl rfl) |>.map Document.mk
    |>.seq (accounted_required (accounted_read Parameters.accounted_body) (.inl rfl))
    |>.seq (accounted_entry (Experiment.accounted_readAll r.model) r _)

/-- A document is accepted exactly if it is read without an issue. -/
theorem ofJson_eq_ok {j : Json} {d : Document} : ofJson j = .ok d ↔ read j = clean d := by
  rw [Reading.eq_clean_iff, ofJson]
  split
  · next hissues hvalue => simp [hissues, hvalue]
  · next hnone =>
    constructor
    · intro h
      cases h
    · rintro ⟨hvalue, hissues⟩
      exact absurd hvalue (hnone d hissues)

theorem statedModel_of_member? {j header : Json} {name : String} {m : Model}
    (hheader : j.member? DocumentField.header.key = some header)
    (hmodel : header.member? HeaderField.model.key = some (.string name))
    (hname : Model.ofName? name = some m) : statedModel j = m := by
  simp [statedModel, hheader, hmodel, Json.toText?, hname]

/-- The model that a document is read for is the one that its own header names. -/
theorem statedModel_of_read {j : Json} {d : Document} (h : read j = clean d) :
    statedModel j = d.header.model := by
  obtain ⟨members, rfl, hbody⟩ := read_eq_clean h
  rw [Reading.eq_clean_iff_yields] at hbody
  simp only [body, Reading.yields_seq, Reading.yields_map] at hbody
  obtain ⟨header, hheader, _, -, _, -, rfl⟩ := hbody
  obtain ⟨tree, htree, hread⟩ := required_eq_clean.mp hheader
  obtain ⟨entries, rfl, hentries⟩ := read_eq_clean hread
  obtain ⟨-, hmodel⟩ := Header.sound_of_body hentries
  obtain ⟨entry, hentry, hrule⟩ := required_eq_clean.mp hmodel
  obtain ⟨name, rfl, hname⟩ := Rule.model_eq_clean.mp hrule
  exact statedModel_of_member? htree hentry hname

theorem statedModel_toJson (d : Document) : statedModel d.toJson = d.header.model := by
  have hkeys : (d.written.map (·.1.key)).Nodup := DocumentField.keys_nodup
  have hheaderKeys : (d.header.written.map (·.1.key)).Nodup := HeaderField.keys_nodup
  have hheader : d.toJson.member? DocumentField.header.key = some d.header.toJson :=
    member?_ofWritten hkeys (by simp [written])
  have hmodel :
      d.header.toJson.member? HeaderField.model.key = some (.string d.header.model.name) :=
    member?_ofWritten hheaderKeys (by simp [Header.written])
  exact statedModel_of_member? hheader hmodel (Header.ofName?_name d.header.model)

theorem readable_of_read {j : Json} {d : Document} (h : read j = clean d) : d.Readable := by
  have hstated := statedModel_of_read h
  refine of_read (fun r hmodel hbody => ?_) h
  rw [← hmodel] at hstated
  rw [Reading.eq_clean_iff_yields] at hbody
  simp only [body, Reading.yields_seq, Reading.yields_map] at hbody
  obtain ⟨header, hheader, p, hp, es, hes, rfl⟩ := hbody
  have hversion := of_required (fun _ _ _ => Header.sound_of_read) hheader
  have hparameters := of_required (fun _ _ _ => Parameters.readable_of_read) hp
  have hexperiments := of_entry (fun _ _ _ => Experiment.sound_of_readAll) hes
  rw [hstated] at hparameters
  exact ⟨hversion, hparameters, fun es he e hmem => (hexperiments es he e hmem).1,
    fun es he e hmem => (hexperiments es he e hmem).2⟩

theorem read_toJson {d : Document} (h : d.Readable) : read d.toJson = clean d := by
  have hkeys : (d.written.map (·.1.key)).Nodup := DocumentField.keys_nodup
  rw [read, statedModel_toJson]
  refine (read_ofWritten (fields_of_map rfl)).trans (Reading.eq_clean_iff_yields.mpr ?_)
  simp only [body, Reading.yields_seq, Reading.yields_map]
  exact ⟨_, required_ofWritten hkeys (by simp [written]) (Header.read_toJson h.version _ _),
    _, required_ofWritten hkeys (by simp [written]) (Parameters.read_toJson h.parameters _),
    _, entry_ofWritten hkeys (by simp [written])
      (fun es hes => Experiment.readAll_toJson (h.samples es hes) (h.experiments es hes) _ _) nofun,
    rfl⟩

/-- The tree of a document gives the document again exactly if the document is well formed. -/
theorem ofJson_toJson_eq_ok_iff (d : Document) (htables : d.TablesBuilt) :
    ofJson d.toJson = .ok d ↔ d.WellFormed := by
  rw [ofJson_eq_ok]
  constructor
  · intro h
    exact (readable_iff.mp (readable_of_read h)).1
  · intro h
    exact read_toJson (readable_iff.mpr ⟨h, htables⟩)

/-- A potential over three stoichiometries. -/
def samplePotential : Table Float := ⟨[0.0, 0.5, 1.0], [4.2, 3.7, 3.0], by simp, by simp⟩

/-- An active material with the potential of a table. -/
def sampleMaterial : Particle :=
  ⟨0.05, 0.95, 3.0e4, 5.0e-6, 4.0e5, .constant 3.3e-14, none, .table samplePotential, none, 1.0e-10,
    none⟩

/-- A discharge over two times. -/
def sampleExperiment : Experiment := ⟨[0.0, 1.0], [5.0, 5.0], [4.1, 4.0], none⟩

/-- A document for the model with electrolyte, with a blend, an experiment and a group of the user's
own. -/
def sample : Document :=
  let cell : Cell := ⟨0.01, none, none, 1, 2.7, 4.2, 5.0, 298.15, none, none, none, none, none⟩
  let blend : Blend :=
    ⟨[("Graphite", ⟨0.9, sampleMaterial⟩), ("Silicon", ⟨0.1, sampleMaterial⟩)], by decide⟩
  let negative : Electrode := ⟨5.0e-5, some 0.25, some 0.125, none, .blended blend⟩
  let positive : Electrode := ⟨7.5e-5, some 0.33, some 0.2, none, .single sampleMaterial⟩
  let own : UserDefined :=
    [("Ageing", .group [("description", .text "By cycles"), ("Loss", .value (.constant 0.02))])]
  ⟨⟨.legacy 0.4, none, none, none, .spme⟩,
    ⟨cell, some ⟨1000.0, 0.25, .constant 3.0e-10, none, .constant 1.1, none⟩, negative, positive,
      some ⟨2.5e-5, 0.5, 0.35⟩, some own⟩,
    some [("Discharge", sampleExperiment)]⟩

theorem sample_values_wellFormed : ∀ v ∈ sample.parameters.values, v.2.WellFormed := by
  have hbuilt : samplePotential.Built := Table.built_iff.mpr ⟨by decide, by decide⟩
  have hconstants : ∀ c ∈ [3.0e-10, 1.1, 3.3e-14, 0.02], Float.isFinite c = true := by decide
  simp only [List.forall_mem_cons] at hconstants
  simp [Parameters.values, sample, ActiveMaterial.values, Particle.values, below,
    UserParameter.groupValues,
    UserParameter.values, Electrolyte.values, sampleMaterial, Value.WellFormed, hbuilt, hconstants]

theorem sample_readable : sample.Readable where
  version := by
    show (0.4 : Float).isFinite = true
    decide
  parameters := by
    have hless : ¬Model.dfn ≤ Model.spme := by decide
    have hnegative : sample.parameters.negativeElectrode.Complete .spme :=
      ⟨fun _ => rfl, fun _ => rfl, fun h => absurd h hless⟩
    have hpositive : sample.parameters.positiveElectrode.Complete .spme :=
      ⟨fun _ => rfl, fun _ => rfl, fun h => absurd h hless⟩
    exact {
      numbers := by decide
      values := sample_values_wellFormed
      pairs := by decide
      complete := ⟨fun _ => rfl, hnegative, hpositive, fun _ => rfl⟩
      userDefined := by
        simp [sample, UserParameter.AllWellNamed, UserParameter.WellNamed, descriptionKey] }
  samples := by
    have hfinite : ∀ x ∈ sampleExperiment.numbers, x.isFinite = true := by decide
    simpa [sample] using hfinite
  experiments := by
    have hwell : sampleExperiment.WellFormed :=
      ⟨by decide, by decide, by simp [sampleExperiment], by decide⟩
    simpa [sample] using hwell

theorem ofJson_toJson_sample : sample.TablesBuilt ∧ ofJson sample.toJson = .ok sample := by
  obtain ⟨hwell, htables⟩ := readable_iff.mp sample_readable
  exact ⟨htables, (ofJson_toJson_eq_ok_iff sample htables).mpr hwell⟩

end Document

end BatteryParams

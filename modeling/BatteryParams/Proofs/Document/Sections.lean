import BatteryParams.Document.Reader
import BatteryParams.Proofs.Document.WellFormed
import BatteryParams.Proofs.Document.Written

/-!
# Laws of the flat sections

For each section of a document that is one object with a table of fields, three laws: a reading that
yields nothing has an issue, what is read without an issue meets the conditions on the section, and
a section that meets them is read back from what it is written as.
-/

namespace BatteryParams

open Reading (clean)

/-! ### Fields -/

theorem forall_mem_options {os : List (Option Float)} {P : Float → Prop} :
    (∀ x ∈ os.flatMap Option.toList, P x) ↔ ∀ o ∈ os, ∀ x ∈ o, P x := by
  simp only [List.mem_flatMap, Option.mem_toList, Option.mem_def]
  constructor
  · intro h o ho x hx
    exact h x ⟨o, ho, hx⟩
  · rintro h x ⟨o, ho, hx⟩
    exact h o ho x hx

theorem forall_mem_elim {α β : Type} {o : Option α} {f : α → List β} {P : β → Prop} :
    (∀ b ∈ o.elim [] f, P b) ↔ ∀ a ∈ o, ∀ b ∈ f a, P b := by
  cases o <;> simp

/-- What is optional is asked for by no model. -/
theorem required_of_optional {f : Field} {model : Model} {P : Prop}
    (hf : f.requirement = .optional) (h : f.requirement.isRequired model = true) : P := by
  rw [hf, Requirement.isRequired] at h
  cases h

theorem forall_mem_below {key : String} {values : List Placed} {P : Value → Prop} :
    (∀ v ∈ below key values, P v.2) ↔ ∀ v ∈ values, P v.2 := by
  simp only [below, List.forall_mem_map]

namespace Record

section

variable {r : Record} {f : Field}

theorem isFinite_of_required {x : Float} (h : r.required f Rule.number = clean x) :
    x.isFinite = true :=
  of_required (fun _ _ _ hj => Json.isFinite_of_toFloat? (Rule.expect_eq_clean.mp hj)) h

theorem isFinite_of_entry {o : Option Float} (h : r.entry f Rule.number = clean o) :
    ∀ x ∈ o, x.isFinite = true :=
  of_entry (fun _ _ _ hj => Json.isFinite_of_toFloat? (Rule.expect_eq_clean.mp hj)) h

theorem areFinite_of_required {xs : List Float} (h : r.required f Rule.numberList = clean xs) :
    ∀ x ∈ xs, x.isFinite = true :=
  of_required (fun _ _ _ hj => Json.isFinite_of_toFloats? (Rule.expect_eq_clean.mp hj)) h

theorem areFinite_of_entry {o : Option (List Float)} (h : r.entry f Rule.numberList = clean o) :
    ∀ xs ∈ o, ∀ x ∈ xs, x.isFinite = true :=
  of_entry (fun _ _ _ hj => Json.isFinite_of_toFloats? (Rule.expect_eq_clean.mp hj)) h

theorem wellFormed_of_required {v : Value} (h : r.required f Rule.value = clean v) : v.WellFormed :=
  of_required (fun _ _ _ hj => Value.wellFormed_of_ofJson (Rule.value_eq_clean.mp hj)) h

theorem wellFormed_of_entry {o : Option Value} (h : r.entry f Rule.value = clean o) :
    ∀ v ∈ o, v.WellFormed :=
  of_entry (fun _ _ _ hj => Value.wellFormed_of_ofJson (Rule.value_eq_clean.mp hj)) h

theorem isSome_of_entry {α : Type} {read : Path → Json → Reading α} {o : Option α}
    (h : r.entry f read = clean o)
    (hrequired : f.requirement.isRequired r.model = true) : o.isSome = true := by
  rcases entry_eq_clean.mp h with ⟨j, a, -, -, rfl⟩ | ⟨-, hfree, -⟩
  · rfl
  · rw [hrequired] at hfree
    cases hfree

end

section

variable {path : Path} {entries : List Written} {model : Model} {f : Field}

theorem number_ofWritten {x : Float} (hkeys : (entries.map (·.1.key)).Nodup)
    (hmem : (f, some (.ofFloat x)) ∈ entries)
    (hx : x.isFinite = true) : (ofWritten path entries model).required f Rule.number = clean x :=
  required_ofWritten hkeys hmem (Rule.expect_eq_clean.mpr (Json.toFloat?_ofFloat hx))

theorem numberEntry_ofWritten {o : Option Float} (hkeys : (entries.map (·.1.key)).Nodup)
    (hmem : (f, o.map .ofFloat) ∈ entries) (ho : ∀ x ∈ o, x.isFinite = true)
    (hpresent : f.requirement.isRequired model = true → o.isSome = true) :
    (ofWritten path entries model).entry f Rule.number = clean o :=
  entry_ofWritten hkeys hmem (fun x hx =>
    Rule.expect_eq_clean.mpr (Json.toFloat?_ofFloat (ho x hx))) hpresent

theorem value_ofWritten {v : Value} (hkeys : (entries.map (·.1.key)).Nodup)
    (hmem : (f, some v.toJson) ∈ entries)
    (hv : v.WellFormed) : (ofWritten path entries model).required f Rule.value = clean v :=
  required_ofWritten hkeys hmem (Rule.value_eq_clean.mpr (Value.ofJson_toJson hv))

theorem valueEntry_ofWritten {o : Option Value} (hkeys : (entries.map (·.1.key)).Nodup)
    (hmem : (f, o.map Value.toJson) ∈ entries) (ho : ∀ v ∈ o, v.WellFormed)
    (hpresent : f.requirement.isRequired model = true → o.isSome = true) :
    (ofWritten path entries model).entry f Rule.value = clean o :=
  entry_ofWritten hkeys hmem (fun v hv => Rule.value_eq_clean.mpr (Value.ofJson_toJson (ho v hv)))
    hpresent

end

end Record

open Record

theorem fields_of_map {entries : List Written} {fields : List Field}
    (h : entries.map (·.1) = fields) : ∀ e ∈ entries, e.1 ∈ fields := by
  rintro e he
  rw [← h]
  exact List.mem_map_of_mem he

/-! ### The header -/

theorem HeaderField.keys_nodup : (HeaderField.table.map (·.key)).Nodup := by decide

namespace Header

theorem accounted_body (r : Record) : (body r).Accounted :=
  accounted_required Rule.accounted_version (.inl rfl) |>.map Header.mk
    |>.seq (accounted_entry Rule.accounted_text r _)
    |>.seq (accounted_entry Rule.accounted_text r _)
    |>.seq (accounted_entry Rule.accounted_text r _)
    |>.seq (accounted_required Rule.accounted_model (.inl rfl))

theorem sound_of_body {r : Record} {h : Header} (hbody : body r = clean h) :
    h.version.WellFormed ∧ r.required HeaderField.model Rule.model = clean h.model := by
  rw [Reading.eq_clean_iff_yields] at hbody
  simp only [body, Reading.yields_seq, Reading.yields_map] at hbody
  obtain ⟨_, hversion, _, -, _, -, _, -, _, hmodel, rfl⟩ := hbody
  obtain ⟨j, -, hj⟩ := required_eq_clean.mp hversion
  exact ⟨Version.wellFormed_of_ofJson (Rule.version_eq_clean.mp hj), hmodel⟩

theorem sound_of_read {model : Model} {path : Path} {j : Json} {h : Header}
    (hread : read model path j = clean h) :
    h.version.WellFormed := of_read (fun _ _ hbody => (sound_of_body hbody).1) hread

theorem ofName?_name (m : Model) : Model.ofName? m.name = some m := by
  cases m <;> decide

theorem read_toJson {h : Header} (hversion : h.version.WellFormed) (model : Model) (path : Path) :
    read model path h.toJson = clean h := by
  have hkeys : (h.written.map (·.1.key)).Nodup := HeaderField.keys_nodup
  have htext : ∀ {o : Option String} {path : Path}, ∀ s ∈ o, Rule.text path (.string s) = clean s :=
    fun _ _ => Rule.expect_eq_clean.mpr rfl
  refine (read_ofWritten (fields_of_map rfl)).trans (Reading.eq_clean_iff_yields.mpr ?_)
  simp only [body, Reading.yields_seq, Reading.yields_map]
  exact ⟨_,
      required_ofWritten hkeys (by simp [written]) (Rule.version_eq_clean.mpr (Version.ofJson_toJson
      hversion)),
    _, entry_ofWritten hkeys (by simp [written]) htext (required_of_optional rfl),
    _, entry_ofWritten hkeys (by simp [written]) htext (required_of_optional rfl),
    _, entry_ofWritten hkeys (by simp [written]) htext (required_of_optional rfl),
    _, required_ofWritten hkeys (by simp [written])
      (Rule.model_eq_clean.mpr ⟨_, rfl, ofName?_name h.model⟩),
    rfl⟩

end Header

/-! ### The cell -/

theorem CellField.keys_nodup : (CellField.table.map (·.key)).Nodup := by decide

namespace Cell

theorem accounted_body (r : Record) : (body r).Accounted :=
  accounted_required Rule.accounted_number (.inl rfl) |>.map Cell.mk
    |>.seq (accounted_entry Rule.accounted_number r _)
    |>.seq (accounted_entry Rule.accounted_number r _)
    |>.seq (accounted_required Rule.accounted_count (.inl rfl))
    |>.seq (accounted_required Rule.accounted_number (.inl rfl))
    |>.seq (accounted_required Rule.accounted_number (.inl rfl))
    |>.seq (accounted_required Rule.accounted_number (.inl rfl))
    |>.seq (accounted_required Rule.accounted_number (.inl rfl))
    |>.seq (accounted_entry Rule.accounted_number r _)
    |>.seq (accounted_entry Rule.accounted_number r _)
    |>.seq (accounted_entry Rule.accounted_number r _)
    |>.seq (accounted_entry Rule.accounted_number r _)
    |>.seq (accounted_entry Rule.accounted_number r _)

theorem sound_of_body {r : Record} {c : Cell} (h : body r = clean c) :
    (∀ x ∈ c.numbers, x.isFinite = true) ∧ 1 ≤ c.numberOfElectrodePairs := by
  rw [Reading.eq_clean_iff_yields] at h
  simp only [body, Reading.yields_seq, Reading.yields_map] at h
  obtain ⟨_, harea, _, hsurface, _, hvolume, _, hpairs, _, hlower, _, hupper, _, hcapacity, _,
    hambient, _, hinitial, _, hreference, _, hdensity, _, hheat, _, hconductivity, rfl⟩ := h
  constructor
  · simp only [numbers, List.forall_mem_append, List.forall_mem_cons, forall_mem_options]
    exact ⟨⟨isFinite_of_required harea, isFinite_of_required hlower, isFinite_of_required hupper,
      isFinite_of_required hcapacity, isFinite_of_required hambient, nofun⟩,
        isFinite_of_entry hsurface,
      isFinite_of_entry hvolume, isFinite_of_entry hinitial, isFinite_of_entry hreference,
      isFinite_of_entry hdensity, isFinite_of_entry hheat, isFinite_of_entry hconductivity, nofun⟩
  · obtain ⟨j, -, hj⟩ := required_eq_clean.mp hpairs
    exact Json.pos_of_toCount? (Rule.expect_eq_clean.mp hj)

theorem sound_of_read {model : Model} {path : Path} {j : Json} {c : Cell}
    (h : read model path j = clean c) :
    (∀ x ∈ c.numbers, x.isFinite = true) ∧ 1 ≤ c.numberOfElectrodePairs :=
      of_read (fun _ _ => sound_of_body) h

theorem read_toJson {c : Cell} (hnumbers : ∀ x ∈ c.numbers, x.isFinite = true)
    (hpairs : 1 ≤ c.numberOfElectrodePairs)
    (model : Model) (path : Path) : read model path c.toJson = clean c := by
  simp only [numbers, List.forall_mem_append, List.forall_mem_cons, forall_mem_options] at hnumbers
  obtain ⟨⟨harea, hlower, hupper, hcapacity, hambient, -⟩, hsurface, hvolume, hinitial, hreference,
    hdensity, hheat, hconductivity, -⟩ := hnumbers
  have hkeys : (c.written.map (·.1.key)).Nodup := CellField.keys_nodup
  refine (read_ofWritten (fields_of_map rfl)).trans (Reading.eq_clean_iff_yields.mpr ?_)
  simp only [body, Reading.yields_seq, Reading.yields_map]
  exact ⟨_, number_ofWritten hkeys (by simp [written]) harea,
    _, numberEntry_ofWritten hkeys (by simp [written]) hsurface (required_of_optional rfl),
    _, numberEntry_ofWritten hkeys (by simp [written]) hvolume (required_of_optional rfl),
    _, required_ofWritten hkeys (by simp [written])
      (Rule.expect_eq_clean.mpr (Json.toCount?_natural hpairs)),
    _, number_ofWritten hkeys (by simp [written]) hlower,
    _, number_ofWritten hkeys (by simp [written]) hupper,
    _, number_ofWritten hkeys (by simp [written]) hcapacity,
    _, number_ofWritten hkeys (by simp [written]) hambient,
    _, numberEntry_ofWritten hkeys (by simp [written]) hinitial (required_of_optional rfl),
    _, numberEntry_ofWritten hkeys (by simp [written]) hreference (required_of_optional rfl),
    _, numberEntry_ofWritten hkeys (by simp [written]) hdensity (required_of_optional rfl),
    _, numberEntry_ofWritten hkeys (by simp [written]) hheat (required_of_optional rfl),
    _, numberEntry_ofWritten hkeys (by simp [written]) hconductivity (required_of_optional rfl),
    rfl⟩

end Cell

/-! ### The electrolyte -/

theorem ElectrolyteField.keys_nodup : (ElectrolyteField.table.map (·.key)).Nodup := by decide

namespace Electrolyte

theorem accounted_body (r : Record) : (body r).Accounted :=
  accounted_required Rule.accounted_number (.inl rfl) |>.map Electrolyte.mk
    |>.seq (accounted_required Rule.accounted_number (.inl rfl))
    |>.seq (accounted_required Rule.accounted_value (.inl rfl))
    |>.seq (accounted_entry Rule.accounted_number r _)
    |>.seq (accounted_required Rule.accounted_value (.inl rfl))
    |>.seq (accounted_entry Rule.accounted_number r _)

theorem sound_of_body {r : Record} {e : Electrolyte} (h : body r = clean e) :
    (∀ x ∈ e.numbers, x.isFinite = true) ∧ ∀ v ∈ e.values, v.2.WellFormed := by
  rw [Reading.eq_clean_iff_yields] at h
  simp only [body, Reading.yields_seq, Reading.yields_map] at h
  obtain ⟨_, hconcentration, _, htransference, _, hdiffusivity, _, hdiffusivityEnergy, _,
    hconductivity, _, hconductivityEnergy, rfl⟩ := h
  constructor
  · simp only [numbers, List.forall_mem_append, List.forall_mem_cons, forall_mem_options]
    exact ⟨⟨isFinite_of_required hconcentration, isFinite_of_required htransference, nofun⟩,
      isFinite_of_entry hdiffusivityEnergy, isFinite_of_entry hconductivityEnergy, nofun⟩
  · simp only [values, List.forall_mem_cons]
    exact ⟨wellFormed_of_required hdiffusivity, wellFormed_of_required hconductivity, nofun⟩

theorem sound_of_read {model : Model} {path : Path} {j : Json} {e : Electrolyte}
    (h : read model path j = clean e) :
    (∀ x ∈ e.numbers, x.isFinite = true) ∧ ∀ v ∈ e.values, v.2.WellFormed :=
      of_read (fun _ _ => sound_of_body) h

theorem read_toJson {e : Electrolyte} (hnumbers : ∀ x ∈ e.numbers, x.isFinite = true)
    (hvalues : ∀ v ∈ e.values, v.2.WellFormed) (model : Model)
    (path : Path) : read model path e.toJson = clean e := by
  simp only [numbers, List.forall_mem_append, List.forall_mem_cons, forall_mem_options] at hnumbers
  obtain ⟨⟨hconcentration, htransference, -⟩, hdiffusivityEnergy, hconductivityEnergy, -⟩ :=
    hnumbers
  simp only [values, List.forall_mem_cons] at hvalues
  obtain ⟨hdiffusivity, hconductivity, -⟩ := hvalues
  have hkeys : (e.written.map (·.1.key)).Nodup := ElectrolyteField.keys_nodup
  refine (read_ofWritten (fields_of_map rfl)).trans (Reading.eq_clean_iff_yields.mpr ?_)
  simp only [body, Reading.yields_seq, Reading.yields_map]
  exact ⟨_, number_ofWritten hkeys (by simp [written]) hconcentration,
    _, number_ofWritten hkeys (by simp [written]) htransference,
    _, value_ofWritten hkeys (by simp [written]) hdiffusivity,
    _, numberEntry_ofWritten hkeys (by simp [written]) hdiffusivityEnergy
      (required_of_optional rfl),
    _, value_ofWritten hkeys (by simp [written]) hconductivity,
    _, numberEntry_ofWritten hkeys (by simp [written]) hconductivityEnergy
      (required_of_optional rfl),
    rfl⟩

end Electrolyte

/-! ### An active material -/

namespace Particle

theorem accounted_body (r : Record) : (body r).Accounted :=
  accounted_required Rule.accounted_number (.inl rfl) |>.map Particle.mk
    |>.seq (accounted_required Rule.accounted_number (.inl rfl))
    |>.seq (accounted_required Rule.accounted_number (.inl rfl))
    |>.seq (accounted_required Rule.accounted_number (.inl rfl))
    |>.seq (accounted_required Rule.accounted_number (.inl rfl))
    |>.seq (accounted_required Rule.accounted_value (.inl rfl))
    |>.seq (accounted_entry Rule.accounted_number r _)
    |>.seq (accounted_required Rule.accounted_value (.inl rfl))
    |>.seq (accounted_entry Rule.accounted_value r _)
    |>.seq (accounted_required Rule.accounted_number (.inl rfl))
    |>.seq (accounted_entry Rule.accounted_number r _)

theorem sound_of_body {r : Record} {p : Particle} (h : body r = clean p) :
    (∀ x ∈ p.numbers, x.isFinite = true) ∧ ∀ v ∈ p.values, v.2.WellFormed := by
  rw [Reading.eq_clean_iff_yields] at h
  simp only [body, Reading.yields_seq, Reading.yields_map] at h
  obtain ⟨_, hminimum, _, hmaximum, _, hconcentration, _, hradius, _, hsurface, _, hdiffusivity, _,
    hdiffusivityEnergy, _, hocp, _, hentropic, _, hreaction, _, hreactionEnergy, rfl⟩ := h
  constructor
  · simp only [numbers, List.forall_mem_append, List.forall_mem_cons, forall_mem_options]
    exact ⟨⟨isFinite_of_required hminimum, isFinite_of_required hmaximum,
      isFinite_of_required hconcentration, isFinite_of_required hradius,
      isFinite_of_required hsurface, isFinite_of_required hreaction, List.forall_mem_nil _⟩,
      isFinite_of_entry hdiffusivityEnergy, isFinite_of_entry hreactionEnergy,
      List.forall_mem_nil _⟩
  · simp only [values, List.forall_mem_append, List.forall_mem_cons]
    refine ⟨⟨wellFormed_of_required hdiffusivity, wellFormed_of_required hocp,
      List.forall_mem_nil _⟩, fun v hv => ?_⟩
    obtain ⟨v', hv', rfl⟩ := Option.map_eq_some_iff.mp (Option.mem_toList.mp hv)
    exact wellFormed_of_entry hentropic v' hv'

/-- An active material is read back from any object that has its entries among others. -/
theorem body_ofWritten {p : Particle} (hnumbers : ∀ x ∈ p.numbers, x.isFinite = true)
    (hvalues : ∀ v ∈ p.values, v.2.WellFormed) {entries : List Written}
    (hkeys : (entries.map (·.1.key)).Nodup)
    (hwritten : ∀ e ∈ p.written, e ∈ entries) (model : Model) (path : Path) :
    body (Record.ofWritten path entries model) = clean p := by
  simp only [numbers, List.forall_mem_append, List.forall_mem_cons, forall_mem_options] at hnumbers
  obtain ⟨⟨hminimum, hmaximum, hconcentration, hradius, hsurface, hreaction, -⟩, hdiffusivityEnergy,
    hreactionEnergy, -⟩ := hnumbers
  simp only [values, List.forall_mem_append, List.forall_mem_cons] at hvalues
  obtain ⟨⟨hdiffusivity, hocp, -⟩, hoptional⟩ := hvalues
  have hentropic : ∀ v ∈ p.entropicChange, v.WellFormed := fun v hv =>
    hoptional _ (Option.mem_toList.mpr (Option.map_eq_some_iff.mpr ⟨v, hv, rfl⟩))
  rw [Reading.eq_clean_iff_yields]
  simp only [body, Reading.yields_seq, Reading.yields_map]
  exact ⟨_, number_ofWritten hkeys (hwritten _ (by simp [written])) hminimum,
    _, number_ofWritten hkeys (hwritten _ (by simp [written])) hmaximum,
    _, number_ofWritten hkeys (hwritten _ (by simp [written])) hconcentration,
    _, number_ofWritten hkeys (hwritten _ (by simp [written])) hradius,
    _, number_ofWritten hkeys (hwritten _ (by simp [written])) hsurface,
    _, value_ofWritten hkeys (hwritten _ (by simp [written])) hdiffusivity,
    _, numberEntry_ofWritten hkeys (hwritten _ (by simp [written])) hdiffusivityEnergy
      (required_of_optional rfl),
    _, value_ofWritten hkeys (hwritten _ (by simp [written])) hocp,
    _, valueEntry_ofWritten hkeys (hwritten _ (by simp [written])) hentropic
      (required_of_optional rfl),
    _, number_ofWritten hkeys (hwritten _ (by simp [written])) hreaction,
    _, numberEntry_ofWritten hkeys (hwritten _ (by simp [written])) hreactionEnergy
      (required_of_optional rfl),
    rfl⟩

end Particle

/-! ### The separator -/

theorem SeparatorField.keys_nodup : (SeparatorField.table.map (·.key)).Nodup := by decide

namespace Separator

theorem accounted_body (r : Record) : (body r).Accounted :=
  accounted_required Rule.accounted_number (.inl rfl) |>.map Separator.mk
    |>.seq (accounted_required Rule.accounted_number (.inl rfl))
    |>.seq (accounted_required Rule.accounted_number (.inl rfl))

theorem sound_of_body {r : Record} {s : Separator} (h : body r = clean s) :
    ∀ x ∈ s.numbers, x.isFinite = true := by
  rw [Reading.eq_clean_iff_yields] at h
  simp only [body, Reading.yields_seq, Reading.yields_map] at h
  obtain ⟨_, hthickness, _, hporosity, _, hefficiency, rfl⟩ := h
  simp only [numbers, List.forall_mem_cons]
  exact ⟨isFinite_of_required hthickness, isFinite_of_required hporosity,
    isFinite_of_required hefficiency, nofun⟩

theorem sound_of_read {model : Model} {path : Path} {j : Json} {s : Separator}
    (h : read model path j = clean s) :
    ∀ x ∈ s.numbers, x.isFinite = true := of_read (fun _ _ => sound_of_body) h

theorem read_toJson {s : Separator} (hnumbers : ∀ x ∈ s.numbers, x.isFinite = true) (model : Model)
    (path : Path) : read model path s.toJson = clean s := by
  simp only [numbers, List.forall_mem_cons] at hnumbers
  obtain ⟨hthickness, hporosity, hefficiency, -⟩ := hnumbers
  have hkeys : (s.written.map (·.1.key)).Nodup := SeparatorField.keys_nodup
  refine (read_ofWritten (fields_of_map rfl)).trans (Reading.eq_clean_iff_yields.mpr ?_)
  simp only [body, Reading.yields_seq, Reading.yields_map]
  exact ⟨_, number_ofWritten hkeys (by simp [written]) hthickness,
    _, number_ofWritten hkeys (by simp [written]) hporosity,
    _, number_ofWritten hkeys (by simp [written]) hefficiency,
    rfl⟩

end Separator

/-! ### Experiments -/

theorem ExperimentField.keys_nodup : (ExperimentField.table.map (·.key)).Nodup := by decide

namespace Experiment

theorem find?_length_eq_none_iff {time current voltage : List Float}
    {temperature : Option (List Float)} :
    ([("Current [A]", current), ("Voltage [V]", voltage)] ++
      (temperature.map fun t => ("Temperature [K]", t)).toList).find?
      (fun l => l.2.length != time.length) = none ↔
    current.length = time.length ∧ voltage.length = time.length ∧
      ∀ ts ∈ temperature, ts.length = time.length := by
  cases temperature <;> simp

/-- Samples are an experiment exactly if there are as many of each kind as there are times, and the
times do not stall. -/
theorem ofLists_eq_ok_iff_stall? {time current voltage : List Float}
    {temperature : Option (List Float)} {e : Experiment} :
    ofLists time current voltage temperature = .ok e ↔
      e = ⟨time, current, voltage, temperature⟩ ∧
        (current.length = time.length ∧ voltage.length = time.length ∧ ∀ ts ∈ temperature,
          ts.length = time.length) ∧
        stall? time = none := by
  have hlengths := @find?_length_eq_none_iff time current voltage temperature
  simp only [ofLists]
  generalize List.find? _ _ = found at hlengths ⊢
  constructor
  · intro h
    cases found with
    | some l => cases h
    | none =>
      cases hstall : stall? time with
      | some stall =>
        rw [hstall] at h
        cases h
      | none =>
        rw [hstall] at h
        cases h
        exact ⟨rfl, hlengths.mp rfl, rfl⟩
  · rintro ⟨rfl, haligned, hstall⟩
    obtain rfl := hlengths.mpr haligned
    rw [hstall]
    rfl

/-- Lists of finite samples are an experiment exactly if they are well formed as one. -/
theorem ofLists_eq_ok {time current voltage : List Float} {temperature : Option (List Float)}
    (htime : ∀ x ∈ time, x.isFinite = true) {e : Experiment} :
    ofLists time current voltage temperature = .ok e ↔
      e = ⟨time, current, voltage, temperature⟩ ∧
        (⟨time, current, voltage, temperature⟩ : Experiment).WellFormed := by
  rw [ofLists_eq_ok_iff_stall?,
    Double.stall?_eq_none_iff fun x hx => Double.isNumber_of_isFinite (htime x hx)]
  constructor
  · rintro ⟨rfl, ⟨hcurrent, hvoltage, htemperature⟩, hincreasing⟩
    exact ⟨rfl, hcurrent, hvoltage, htemperature, hincreasing⟩
  · rintro ⟨rfl, hwell⟩
    exact ⟨rfl, ⟨hwell.current, hwell.voltage, hwell.temperature⟩, hwell.time⟩

/-- An experiment is read without an issue exactly if its lists are and make an experiment. -/
theorem body_eq_clean {r : Record} {e : Experiment} :
    body r = clean e ↔ ∃ time current voltage temperature,
      r.required ExperimentField.time Rule.numberList = clean time ∧
      r.required ExperimentField.current Rule.numberList = clean current ∧
      r.required ExperimentField.voltage Rule.numberList = clean voltage ∧
      r.entry ExperimentField.temperature Rule.numberList = clean temperature ∧
      ofLists time current voltage temperature = .ok e := by
  simp only [body]
  generalize r.required ExperimentField.time Rule.numberList = time
  generalize r.required ExperimentField.current Rule.numberList = current
  generalize r.required ExperimentField.voltage Rule.numberList = voltage
  generalize r.entry ExperimentField.temperature Rule.numberList = temperature
  constructor
  · intro h
    obtain ⟨_ | t, timeIssues⟩ := time
    · cases h
    obtain ⟨_ | c, currentIssues⟩ := current
    · cases h
    obtain ⟨_ | v, voltageIssues⟩ := voltage
    · cases h
    obtain ⟨_ | T, temperatureIssues⟩ := temperature
    · cases h
    obtain ⟨hvalue, hissues⟩ := Reading.eq_clean_iff.mp h
    simp only [List.append_eq_nil_iff] at hissues
    obtain ⟨⟨⟨⟨rfl, rfl⟩, rfl⟩, rfl⟩, hjudged⟩ := hissues
    have hlists := Reading.ofExcept_eq_clean.mp (Reading.eq_clean_iff.mpr ⟨hvalue, hjudged⟩)
    exact ⟨t, c, v, T, rfl, rfl, rfl, rfl, Rule.mapError_eq_ok.mp hlists⟩
  · rintro ⟨t, c, v, T, rfl, rfl, rfl, rfl, hlists⟩
    have hjudged : Reading.ofExcept r.path ((ofLists t c v T).mapError .experiment) = clean e :=
      Reading.ofExcept_eq_clean.mpr (Rule.mapError_eq_ok.mpr hlists)
    simp [clean, hjudged]

theorem accounted_body (r : Record) : (body r).Accounted := by
  have hlist : ∀ {f : Field}, f.requirement.isRequired r.model = true →
      (r.required f Rule.numberList).Accounted :=
    fun h => accounted_required Rule.accounted_numberList (.inl h)
  have htime : (r.required ExperimentField.time Rule.numberList).Accounted := hlist rfl
  have hcurrent : (r.required ExperimentField.current Rule.numberList).Accounted := hlist rfl
  have hvoltage : (r.required ExperimentField.voltage Rule.numberList).Accounted := hlist rfl
  have htemperature := accounted_entry Rule.accounted_numberList r ExperimentField.temperature
  have hjudged := fun t c v T =>
    Reading.accounted_ofExcept r.path ((ofLists t c v T).mapError IssueCause.experiment)
  simp only [body]
  generalize r.required ExperimentField.time Rule.numberList = time at *
  generalize r.required ExperimentField.current Rule.numberList = current at *
  generalize r.required ExperimentField.voltage Rule.numberList = voltage at *
  generalize r.entry ExperimentField.temperature Rule.numberList = temperature at *
  obtain ⟨_ | t, timeIssues⟩ := time
  · intro _ h
    simp only [List.append_eq_nil_iff] at h
    exact htime rfl h.1.1.1
  obtain ⟨_ | c, currentIssues⟩ := current
  · intro _ h
    simp only [List.append_eq_nil_iff] at h
    exact hcurrent rfl h.1.1.2
  obtain ⟨_ | v, voltageIssues⟩ := voltage
  · intro _ h
    simp only [List.append_eq_nil_iff] at h
    exact hvoltage rfl h.1.2
  intro hvalue h
  simp only [List.append_eq_nil_iff] at h
  obtain ⟨_ | T, temperatureIssues⟩ := temperature
  · exact htemperature rfl h.1.2
  · exact hjudged t c v T hvalue h.2

theorem sound_of_body {r : Record} {e : Experiment} (h : body r = clean e) :
    (∀ x ∈ e.numbers, x.isFinite = true) ∧ e.WellFormed := by
  obtain ⟨time, current, voltage, temperature, htime, hcurrent, hvoltage, htemperature, hlists⟩ :=
    body_eq_clean.mp h
  have hfinite := areFinite_of_required htime
  obtain ⟨rfl, hwell⟩ := (ofLists_eq_ok hfinite).mp hlists
  refine ⟨?_, hwell⟩
  simp only [numbers, List.forall_mem_append]
  refine ⟨⟨⟨hfinite, areFinite_of_required hcurrent⟩, areFinite_of_required hvoltage⟩, ?_⟩
  cases temperature with
  | none => nofun
  | some ts => exact areFinite_of_entry htemperature ts rfl

theorem read_toJson {e : Experiment} (hnumbers : ∀ x ∈ e.numbers, x.isFinite = true)
    (hwell : e.WellFormed) (model : Model)
    (path : Path) : Record.read model ExperimentField.table body path e.toJson = clean e := by
  simp only [numbers, List.forall_mem_append] at hnumbers
  obtain ⟨⟨⟨htime, hcurrent⟩, hvoltage⟩, htemperature⟩ := hnumbers
  have hkeys : (e.written.map (·.1.key)).Nodup := ExperimentField.keys_nodup
  have hlist : ∀ {xs : List Float} {path : Path}, (∀ x ∈ xs, x.isFinite = true) →
      Rule.numberList path (.ofFloats xs) = clean xs :=
    fun h => Rule.expect_eq_clean.mpr (Json.toFloats?_ofFloats h)
  refine (read_ofWritten (fields_of_map rfl)).trans (body_eq_clean.mpr ?_)
  refine ⟨_, _, _, _, required_ofWritten hkeys (by simp [written]) (hlist htime),
    required_ofWritten hkeys (by simp [written]) (hlist hcurrent),
    required_ofWritten hkeys (by simp [written]) (hlist hvoltage),
    entry_ofWritten hkeys (by simp [written]) (fun ts hts => hlist ?_) (required_of_optional rfl),
      (ofLists_eq_ok htime).mpr ⟨rfl, hwell⟩⟩
  rwa [Option.mem_def.mp hts] at htemperature

theorem accounted_readAll (model : Model) (path : Path) (j : Json) :
    (readAll model path j).Accounted := by
  cases j with
  | object members =>
    exact Reading.accounted_each (fun member =>
      (accounted_read accounted_body _ _).map (member.1, ·)) members
  | _ => exact Reading.accounted_issue _ _

theorem sound_of_readAll {model : Model} {path : Path} {j : Json} {es : Named Experiment}
    (h : readAll model path j = clean es) : ∀ e ∈ es, (∀ x ∈ e.2.numbers, x.isFinite = true) ∧
      e.2.WellFormed := by
  intro e he
  cases j with
  | object members =>
    obtain ⟨member, -, hread⟩ := Reading.exists_of_each h he
    rw [readMember, Reading.eq_clean_iff_yields, Reading.yields_map] at hread
    obtain ⟨e', hbody, rfl⟩ := hread
    obtain ⟨members', -, hbody⟩ := read_eq_clean hbody
    exact sound_of_body hbody
  | _ => exact absurd h Reading.issue_ne_clean

theorem readAll_toJson {es : Named Experiment}
    (hnumbers : ∀ e ∈ es, ∀ x ∈ e.2.numbers, x.isFinite = true)
    (hwell : ∀ e ∈ es, e.2.WellFormed) (model : Model) (path : Path) :
    readAll model path (.object (es.map fun e => (e.1, e.2.toJson))) = clean es := by
  have heach : ∀ e ∈ es, readMember model path (e.1, e.2.toJson) = clean e := by
    intro e he
    rw [readMember, read_toJson (hnumbers e he) (hwell e he)]
    rfl
  exact (Reading.each_map heach).trans (by rw [List.map_id'])

end Experiment

end BatteryParams

import BatteryParams.Proofs.Document.Sections

/-!
# Laws of electrodes

An electrode holds one active material or a blend of several. The materials of a blend are all read
before their fractions are judged, and a material that could not be read leaves a gap. If no
material has an issue there is no gap, and what is judged are the components that were read.
-/

namespace BatteryParams

open Reading (clean)
open Record

/-! ### The materials of a blend -/

namespace BlendMaterial

/-- The parts of a material, both there. -/
def parts (c : BlendMaterial) : Blend.Parts := ⟨some c.volumeFraction, some c.particle⟩

end BlendMaterial

theorem ParticleField.keys_nodup :
    (((ParticleField.volumeFraction :: ParticleField.table)).map (·.key)).Nodup := by decide

namespace Blend

theorem exists_component {model : Model} {path : Path} {member : String × Json}
    (h : (readMaterial model path member).issues = []) :
    ∃ c : BlendMaterial, readMaterial model path member = clean (member.1, c.parts) ∧
      (∀ x ∈ c.numbers, x.isFinite = true) ∧ ∀ v ∈ c.particle.values, v.2.WellFormed := by
  obtain ⟨name, j⟩ := member
  cases j with
  | object members =>
    let r : Record := ⟨path ++ [name], members, model⟩
    have hissues :
        unknownIssues (path ++ [name]) (ParticleField.table ++ ParticleField.blendTable) members ++
        ((r.required ParticleField.volumeFraction Rule.number).issues ++ (Particle.body r).issues) =
          [] := h
    obtain ⟨-, hbody⟩ := List.append_eq_nil_iff.mp hissues
    obtain ⟨hnoFraction, hnoParticle⟩ := List.append_eq_nil_iff.mp hbody
    obtain ⟨fraction, hfraction⟩ :=
      (accounted_required Rule.accounted_number (.inl rfl)).exists_clean hnoFraction
    obtain ⟨particle, hparticle⟩ := (Particle.accounted_body r).exists_clean hnoParticle
    obtain ⟨hnumbers, hvalues⟩ := Particle.sound_of_body hparticle
    refine ⟨⟨fraction, particle⟩, Reading.eq_clean_iff.mpr ⟨?_, h⟩, ?_, hvalues⟩
    · show some (name, Parts.mk (r.required ParticleField.volumeFraction Rule.number).value
        (Particle.body r).value) = _
      rw [hfraction, hparticle]
      rfl
    · exact List.forall_mem_cons.mpr ⟨isFinite_of_required hfraction, hnumbers⟩
  | _ => cases h

theorem exists_components {model : Model} {path : Path} {members : List (String × Json)}
    (h : (Reading.each (readMaterial model path) members).issues = []) :
    ∃ cs : Named BlendMaterial,
      Reading.each (readMaterial model path) members = clean (cs.map fun c => (c.1, c.2.parts)) ∧
      ∀ c ∈ cs, (∀ x ∈ c.2.numbers, x.isFinite = true) ∧
        ∀ v ∈ c.2.particle.values, v.2.WellFormed := by
  induction members with
  | nil => exact ⟨[], rfl, fun c hc => absurd hc List.not_mem_nil⟩
  | cons member rest ih =>
    obtain ⟨hfirst, hrest⟩ := List.append_eq_nil_iff.mp
      (show (readMaterial model path member).issues ++
        (Reading.each (readMaterial model path) rest).issues = [] from h)
    obtain ⟨c, hc, hsound⟩ := exists_component hfirst
    obtain ⟨cs, hcs, hsounds⟩ := ih hrest
    exact ⟨(member.1, c) :: cs, Reading.each_cons.mpr ⟨_, hc, _, hcs, rfl⟩,
      List.forall_mem_cons.mpr ⟨hsound, hsounds⟩⟩

/-! ### Blends -/

theorem ofComponents_eq_ok {cs : Named BlendMaterial} {b : Blend} :
    ofComponents cs = .ok b ↔ b.components = cs := by
  constructor
  · intro h
    unfold ofComponents at h
    split at h
    · cases h
      rfl
    · cases h
  · rintro rfl
    unfold ofComponents
    split
    · rfl
    · next hfault =>
      rw [b.sound] at hfault
      cases hfault

theorem ofComponents_of_fault {cs : Named BlendMaterial} {f : BlendFault}
    (h : blendFault? (fractions cs) = some f) : ofComponents cs = .error f := by
  unfold ofComponents
  split
  · next hsound =>
    rw [h] at hsound
    cases hsound
  · next f' hfault =>
    rw [h] at hfault
    cases hfault
    rfl

theorem mapM_parts {α : Type} (part? : Parts → Option α) (part : BlendMaterial → α)
    (h : ∀ c : BlendMaterial, part? c.parts = some (part c)) (cs : Named BlendMaterial) :
    ((cs.map fun c => (c.1, c.2.parts)).mapM fun m => (part? m.2).map (m.1, ·)) =
      some (cs.map fun c => (c.1, part c.2)) := by
  induction cs with
  | nil => rfl
  | cons c cs ih =>
    rw [List.map_cons, List.mapM_cons, ih, h]
    rfl

/-- Without a gap, the components are judged as a blend. -/
theorem ofParts_parts (path : Path) (cs : Named BlendMaterial) :
    ofParts path (cs.map fun c => (c.1, c.2.parts)) =
      .ofExcept path ((ofComponents cs).mapError .blend) := by
  have hfractions := mapM_parts Parts.volumeFraction BlendMaterial.volumeFraction (fun _ => rfl) cs
  have hcomponents := mapM_parts Parts.component? id (fun _ => rfl) cs
  have hsame : (cs.map fun c => (c.1, id c.2)) = cs := List.map_id' cs
  rw [hsame] at hcomponents
  rw [ofParts, hfractions]
  cases hfault : blendFault? (fractions cs) with
  | some f =>
    rw [ofComponents_of_fault hfault]
    simp only [fractions] at hfault
    simp only [hfault]
    rfl
  | none =>
    simp only [fractions] at hfault
    simp only [hfault, hcomponents]

/-- A blend that is read without an issue is what its materials were read as. -/
theorem read_eq_ofComponents {model : Model} {path : Path} {j : Json}
    (h : (read model path j).issues = []) :
    ∃ cs : Named BlendMaterial, read model path j =
      .ofExcept path ((ofComponents cs).mapError .blend) ∧
      ∀ c ∈ cs, (∀ x ∈ c.2.numbers, x.isFinite = true) ∧
        ∀ v ∈ c.2.particle.values, v.2.WellFormed := by
  cases j with
  | object members =>
    obtain ⟨hmaterials, -⟩ := List.append_eq_nil_iff.mp h
    obtain ⟨cs, hcs, hsound⟩ := exists_components hmaterials
    refine ⟨cs, ?_, hsound⟩
    rw [read, hcs, ← ofParts_parts]
    rfl
  | _ => cases h

theorem accounted_read (model : Model) (path : Path) (j : Json) :
    (read model path j).Accounted := by
  intro hvalue hissues
  obtain ⟨cs, hread, -⟩ := read_eq_ofComponents hissues
  rw [hread] at hvalue hissues
  exact Reading.accounted_ofExcept path _ hvalue hissues

theorem sound_of_read {model : Model} {path : Path} {j : Json} {b : Blend}
    (h : read model path j = clean b) :
    ∀ c ∈ b.components, (∀ x ∈ c.2.numbers, x.isFinite = true) ∧
      ∀ v ∈ c.2.particle.values, v.2.WellFormed := by
  obtain ⟨cs, hread, hsound⟩ := read_eq_ofComponents (Reading.eq_clean_iff.mp h).2
  rw [h, eq_comm, Reading.ofExcept_eq_clean, Rule.mapError_eq_ok, ofComponents_eq_ok] at hread
  rwa [hread]

theorem readMaterial_toJson {c : BlendMaterial} (hnumbers : ∀ x ∈ c.numbers, x.isFinite = true)
    (hvalues : ∀ v ∈ c.particle.values, v.2.WellFormed) (model : Model) (path : Path)
    (name : String) : readMaterial model path (name, c.toJson) = clean (name, c.parts) := by
  obtain ⟨hfraction, hparticle⟩ := List.forall_mem_cons.mp hnumbers
  have hkeys : (c.written.map (·.1.key)).Nodup := ParticleField.keys_nodup
  have hfields : ∀ e ∈ c.written, e.1 ∈ ParticleField.table ++ ParticleField.blendTable := by
    intro e he
    have hmem : e.1 ∈ ParticleField.volumeFraction :: ParticleField.table := fields_of_map rfl e he
    rw [List.mem_append]
    exact (List.mem_cons.mp hmem).symm.imp id List.mem_singleton.mpr
  have hfraction : (ofWritten (path ++ [name]) c.written model).required
      ParticleField.volumeFraction Rule.number =
      clean c.volumeFraction := number_ofWritten hkeys List.mem_cons_self hfraction
  have hparticle : Particle.body (ofWritten (path ++ [name]) c.written model) = clean c.particle :=
    Particle.body_ofWritten hparticle hvalues hkeys (fun _ => List.mem_cons_of_mem _) model
      (path ++ [name])
  simp only [readMaterial, BlendMaterial.toJson, read_ofWritten hfields]
  rw [hfraction, hparticle]
  rfl

theorem read_toJson {b : Blend}
    (hnumbers : ∀ c ∈ b.components, ∀ x ∈ c.2.numbers, x.isFinite = true)
    (hvalues : ∀ c ∈ b.components, ∀ v ∈ c.2.particle.values, v.2.WellFormed) (model : Model)
    (path : Path) : read model path b.toJson = clean b := by
  have heach :
      Reading.each (readMaterial model path) (b.components.map fun c => (c.1, c.2.toJson)) =
      clean (b.components.map fun c => (c.1, c.2.parts)) :=
    Reading.each_map fun c hc => readMaterial_toJson (hnumbers c hc) (hvalues c hc) model path c.1
  have hjudged : ofParts path (b.components.map fun c => (c.1, c.2.parts)) = clean b := by
    rw [ofParts_parts, Reading.ofExcept_eq_clean, Rule.mapError_eq_ok, ofComponents_eq_ok]
  simp only [toJson, read, heach]
  exact Reading.withIssues_eq_clean.mpr ⟨rfl, hjudged⟩

end Blend

/-! ### The material of an electrode -/

namespace ActiveMaterial

theorem forall_mem_numbers {b : Blend} {P : Float → Prop} :
    (∀ x ∈ (blended b).numbers, P x) ↔ ∀ c ∈ b.components, ∀ x ∈ c.2.numbers, P x := by
  simp only [numbers, List.forall_mem_flatMap]

theorem forall_mem_values {b : Blend} {P : Value → Prop} :
    (∀ v ∈ (blended b).values, P v.2) ↔ ∀ c ∈ b.components, ∀ v ∈ c.2.particle.values, P v.2 := by
  simp only [values, forall_mem_below, List.forall_mem_flatMap]

end ActiveMaterial

namespace Electrode

theorem accounted_materialBody {isBlend : Bool} {r : Record}
    (h : isBlend = (Named.find? ElectrodeField.particle.key r.members).isSome) :
    (materialBody isBlend r).Accounted := by
  cases isBlend with
  | true =>
    exact (accounted_required (Blend.accounted_read r.model) (.inr h.symm)).map
      ActiveMaterial.blended
  | false => exact (Particle.accounted_body r).map ActiveMaterial.single

theorem sound_of_materialBody {isBlend : Bool} {r : Record} {m : ActiveMaterial}
    (h : materialBody isBlend r = clean m) :
    (∀ x ∈ m.numbers, x.isFinite = true) ∧ ∀ v ∈ m.values, v.2.WellFormed := by
  rw [Reading.eq_clean_iff_yields] at h
  cases isBlend with
  | true =>
    simp only [materialBody, if_true, Reading.yields_map] at h
    obtain ⟨b, hb, rfl⟩ := h
    have hsound := of_required (fun _ _ _ => Blend.sound_of_read) hb
    rw [ActiveMaterial.forall_mem_numbers, ActiveMaterial.forall_mem_values]
    exact ⟨fun c hc => (hsound c hc).1, fun c hc => (hsound c hc).2⟩
  | false =>
    simp only [materialBody, Bool.false_eq_true, if_false, Reading.yields_map] at h
    obtain ⟨p, hp, rfl⟩ := h
    exact Particle.sound_of_body hp

/-- A material is read back from any object that has its entries among others. -/
theorem materialBody_ofWritten {e : Electrode}
    (hnumbers : ∀ x ∈ e.material.numbers, x.isFinite = true)
    (hvalues : ∀ v ∈ e.material.values, v.2.WellFormed) {entries : List Written}
    (hkeys : (entries.map (·.1.key)).Nodup)
    (hwritten : ∀ w ∈ e.material.written, w ∈ entries) (model : Model) (path : Path) :
    materialBody e.isBlended (ofWritten path entries model) = clean e.material := by
  rw [Reading.eq_clean_iff_yields]
  cases hm : e.material with
  | single p =>
    rw [hm] at hnumbers hvalues hwritten
    have hblended : e.isBlended = false := by simp [isBlended, particle?, hm]
    rw [hblended]
    exact Reading.yields_map.mpr ⟨p,
      Particle.body_ofWritten hnumbers hvalues hkeys hwritten model path, rfl⟩
  | blended b =>
    rw [hm] at hnumbers hvalues hwritten
    rw [ActiveMaterial.forall_mem_numbers] at hnumbers
    rw [ActiveMaterial.forall_mem_values] at hvalues
    have hblended : e.isBlended = true := by simp [isBlended, particle?, hm]
    have hread := Blend.read_toJson hnumbers hvalues model (path ++ [ElectrodeField.particle.key])
    rw [hblended]
    exact Reading.yields_map.mpr ⟨b, required_ofWritten hkeys (hwritten _ List.mem_cons_self) hread,
      rfl⟩

/-! ### Electrodes -/

theorem accounted_body {isBlend : Bool} {r : Record}
    (h : isBlend = (Named.find? ElectrodeField.particle.key r.members).isSome) :
    (body isBlend r).Accounted :=
  accounted_required Rule.accounted_number (.inl rfl) |>.map Electrode.mk
    |>.seq (accounted_entry Rule.accounted_number r _)
    |>.seq (accounted_entry Rule.accounted_number r _)
    |>.seq (accounted_entry Rule.accounted_number r _)
    |>.seq (accounted_materialBody h)

theorem accounted_read (model : Model) (path : Path) (j : Json) :
    (read model path j).Accounted := by
  cases j with
  | object members => exact (accounted_body rfl).withIssues _
  | _ => exact Reading.accounted_issue _ _

theorem sound_of_body {isBlend : Bool} {r : Record} {e : Electrode} (h : body isBlend r = clean e) :
    (∀ x ∈ e.numbers, x.isFinite = true) ∧ (∀ v ∈ e.material.values, v.2.WellFormed) ∧
      e.Complete r.model := by
  rw [Reading.eq_clean_iff_yields] at h
  simp only [body, Reading.yields_seq, Reading.yields_map] at h
  obtain ⟨_, hthickness, _, hporosity, _, hefficiency, _, hconductivity, _, hmaterial, rfl⟩ := h
  obtain ⟨hnumbers, hvalues⟩ := sound_of_materialBody hmaterial
  refine ⟨?_, hvalues, ?_⟩
  · simp only [numbers, List.forall_mem_append, List.forall_mem_cons, forall_mem_options]
    exact ⟨⟨isFinite_of_required hthickness, isFinite_of_entry hporosity,
      isFinite_of_entry hefficiency, isFinite_of_entry hconductivity, nofun⟩, hnumbers⟩
  · exact ⟨fun hmodel => isSome_of_entry hporosity (decide_eq_true hmodel),
      fun hmodel => isSome_of_entry hefficiency (decide_eq_true hmodel),
      fun hmodel => isSome_of_entry hconductivity (decide_eq_true hmodel)⟩

theorem sound_of_read {model : Model} {path : Path} {j : Json} {e : Electrode}
    (h : read model path j = clean e) :
    (∀ x ∈ e.numbers, x.isFinite = true) ∧ (∀ v ∈ e.material.values, v.2.WellFormed) ∧
      e.Complete model := by
  refine of_read (fun r hmodel hbody => ?_) h
  rw [← hmodel]
  exact sound_of_body hbody

/-- The entries of an electrode are those of its fields, in one of the two tables. -/
theorem fields_written (e : Electrode) : e.written.map (·.1) = fields e.isBlended := by
  cases hm :
    e.material <;> simp [written, ActiveMaterial.written, hm, fields, isBlended, particle?] <;> rfl

theorem keys_nodup (isBlend : Bool) : ((fields isBlend).map (·.key)).Nodup := by
  cases isBlend <;> decide

theorem writtenKeys_nodup (e : Electrode) : (e.written.map (·.1.key)).Nodup := by
  have hkeys : e.written.map (·.1.key) = (fields e.isBlended).map (·.key) := by
    rw [← fields_written, List.map_map]
    rfl
  rw [hkeys]
  cases e.isBlended <;> decide

/-- The tree of an electrode has an entry for the materials of a blend exactly if the electrode is
one. -/
theorem isSome_member?_toJson (e : Electrode) :
    (e.toJson.member? ElectrodeField.particle.key).isSome = e.isBlended := by
  cases hm : e.material with
  | single p =>
    have hblended : e.isBlended = false := by simp [isBlended, particle?, hm]
    have hkey : ElectrodeField.particle.key ∉ e.written.map (·.1.key) := by
      simp only [written, hm]
      show ElectrodeField.particle.key ∉ (fields false).map (·.key)
      decide
    rw [toJson, member?_ofWritten_eq_none hkey, hblended]
    rfl
  | blended b =>
    have hblended : e.isBlended = true := by simp [isBlended, particle?, hm]
    have hmem : (ElectrodeField.particle, some b.toJson) ∈ e.written := by
      simp [written, hm, ActiveMaterial.written]
    rw [toJson, member?_ofWritten (writtenKeys_nodup e) hmem, hblended]
    rfl

theorem read_toJson {e : Electrode} {model : Model} (hnumbers : ∀ x ∈ e.numbers, x.isFinite = true)
    (hvalues : ∀ v ∈ e.material.values, v.2.WellFormed) (hcomplete : e.Complete model)
    (path : Path) : read model path e.toJson = clean e := by
  simp only [numbers, List.forall_mem_append, List.forall_mem_cons, forall_mem_options] at hnumbers
  obtain ⟨⟨hthickness, hporosity, hefficiency, hconductivity, -⟩, hmaterial⟩ := hnumbers
  have hkeys := writtenKeys_nodup e
  have hwritten : ∀ w ∈ e.material.written, w ∈ e.written := fun w hw => List.mem_append_right _ hw
  rw [read, isSome_member?_toJson]
  refine (read_ofWritten (fields_of_map (fields_written e))).trans
    (Reading.eq_clean_iff_yields.mpr ?_)
  simp only [body, Reading.yields_seq, Reading.yields_map]
  exact ⟨_, number_ofWritten hkeys (by simp [written]) hthickness,
    _, numberEntry_ofWritten hkeys (by simp [written]) hporosity fun h =>
      hcomplete.porosity (of_decide_eq_true h),
    _, numberEntry_ofWritten hkeys (by simp [written]) hefficiency
      fun h => hcomplete.transportEfficiency (of_decide_eq_true h),
    _, numberEntry_ofWritten hkeys (by simp [written]) hconductivity
      fun h => hcomplete.conductivity (of_decide_eq_true h),
    _, materialBody_ofWritten hmaterial hvalues hkeys hwritten model path,
    rfl⟩

end Electrode

end BatteryParams

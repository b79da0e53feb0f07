import BatteryParams.Proofs.Document.Paths
import BatteryParams.Proofs.Document.RoundTrip
import BatteryParams.Proofs.Json.Place

/-!
# The values of a document and their places

A `Slot` is a place that a document may have a value at, found by the structure of the document: a
property of its electrolyte, a property of the material of an electrode or of one material of its
blend, or a parameter of the user's own under a row of names. A `Leaf` is a slot with the value that
is there. The values of an accepted document are its leaves, each listed once, and the keys of each
lead to the tree of the value in the tree of the document. Joined by slashes they are the path that
is reported of it.
-/

namespace BatteryParams

open Record

/-! ### Slots -/

/-- The sides of a cell that have an electrode. -/
inductive Side where
  | negative
  | positive
deriving DecidableEq

def Side.field : Side → Field
  | .negative => ParameterField.negativeElectrode
  | .positive => ParameterField.positiveElectrode

def Parameters.electrode (p : Parameters) : Side → Electrode
  | .negative => p.negativeElectrode
  | .positive => p.positiveElectrode

/-- What may vary about an electrolyte. -/
inductive ElectrolyteProperty where
  | diffusivity
  | conductivity
deriving DecidableEq

def ElectrolyteProperty.field : ElectrolyteProperty → Field
  | .diffusivity => ElectrolyteField.diffusivity
  | .conductivity => ElectrolyteField.conductivity

def Electrolyte.value (e : Electrolyte) : ElectrolyteProperty → Value
  | .diffusivity => e.diffusivity
  | .conductivity => e.conductivity

/-- What may vary about an active material. -/
inductive MaterialProperty where
  | diffusivity
  | ocp
  | entropicChange
deriving DecidableEq

def MaterialProperty.field : MaterialProperty → Field
  | .diffusivity => ParticleField.diffusivity
  | .ocp => ParticleField.ocp
  | .entropicChange => ParticleField.entropicChange

def Particle.value? (p : Particle) : MaterialProperty → Option Value
  | .diffusivity => some p.diffusivity
  | .ocp => some p.ocp
  | .entropicChange => p.entropicChange

/-- Where the material of an electrode may have a value: in the one material, or in a material of
the blend. -/
inductive MaterialSlot where
  | single (property : MaterialProperty)
  | blended (name : String) (property : MaterialProperty)

def MaterialSlot.path : MaterialSlot → Path
  | .single property => [property.field.key]
  | .blended name property => [ElectrodeField.particle.key, name, property.field.key]

def ActiveMaterial.value? : ActiveMaterial → MaterialSlot → Option Value
  | .single p, .single property => p.value? property
  | .blended b, .blended name property =>
    (Named.find? name b.components).bind (·.particle.value? property)
  | _, _ => none

/-- Where a document may have a value. -/
inductive Slot where
  | electrolyte (property : ElectrolyteProperty)
  | electrode (side : Side) (slot : MaterialSlot)
  | own (names : List String)

def Slot.path : Slot → Path
  | .electrolyte property =>
    [DocumentField.parameterisation.key, ParameterField.electrolyte.key, property.field.key]
  | .electrode side slot => DocumentField.parameterisation.key :: side.field.key :: slot.path
  | .own names => DocumentField.parameterisation.key :: ParameterField.userDefined.key :: names

/-- The value that is filed under a row of names, if that is what stands there. -/
def UserDefined.value? (names : List String) (u : UserDefined) : Option Value :=
  match u.find? names with
  | some (.value v) => some v
  | _ => none

namespace Document

/-- The value of a document at a slot, if it has one. -/
def valueAt? (d : Document) : Slot → Option Value
  | .electrolyte property => d.parameters.electrolyte.map (·.value property)
  | .electrode side slot => (d.parameters.electrode side).material.value? slot
  | .own names => d.parameters.userDefined.bind (UserDefined.value? names)

/-- A value of a document and where it is. -/
structure Leaf (d : Document) where
  slot : Slot
  value : Value
  held : d.valueAt? slot = some value

/-- A leaf as it is listed. -/
def Leaf.placed {d : Document} (leaf : Leaf d) : Placed := (leaf.slot.path, leaf.value)

end Document

/-! ### Slots have paths of their own -/

theorem ElectrolyteProperty.field_inj {a b : ElectrolyteProperty} :
    a.field.key = b.field.key ↔ a = b := by
  cases a <;> cases b <;> decide

theorem MaterialProperty.field_inj {a b : MaterialProperty} :
    a.field.key = b.field.key ↔ a = b := by
  cases a <;> cases b <;> decide

theorem Side.field_inj {a b : Side} : a.field.key = b.field.key ↔ a = b := by
  cases a <;> cases b <;> decide

theorem MaterialSlot.path_inj {a b : MaterialSlot} : a.path = b.path ↔ a = b := by
  cases a <;> cases b <;> simp [path, MaterialProperty.field_inj]

theorem Slot.path_inj {a b : Slot} : a.path = b.path ↔ a = b := by
  have helectrolyte (side : Side) : ParameterField.electrolyte.key ≠ side.field.key := by
    cases side <;> decide
  have hown (side : Side) : ParameterField.userDefined.key ≠ side.field.key := by
    cases side <;> decide
  have happart : ParameterField.electrolyte.key ≠ ParameterField.userDefined.key := by decide
  cases a <;> cases b <;>
    simp [path, ElectrolyteProperty.field_inj, Side.field_inj, MaterialSlot.path_inj, helectrolyte,
      hown, happart, (helectrolyte _).symm, (hown _).symm, happart.symm]

theorem Document.Leaf.placed_inj {d : Document} {a b : Leaf d} : a.placed = b.placed ↔ a = b := by
  obtain ⟨slot, v, hv⟩ := a
  obtain ⟨slot', v', hv'⟩ := b
  simp [placed, Slot.path_inj]

/-! ### The values of a section are those at its slots -/

theorem mem_below {key : String} {values : List Placed} {p : Path} {v : Value} :
    (p, v) ∈ below key values ↔ ∃ rest, key :: rest = p ∧ (rest, v) ∈ values := by
  simp only [below, List.mem_map, Prod.mk.injEq, Prod.exists]
  constructor
  · rintro ⟨rest, _, hmem, rfl, rfl⟩
    exact ⟨rest, rfl, hmem⟩
  · rintro ⟨rest, rfl, hmem⟩
    exact ⟨rest, v, hmem, rfl, rfl⟩

section

variable {p : Path} {v : Value}

theorem Electrolyte.mem_values_iff {e : Electrolyte} :
    (p, v) ∈ e.values ↔ ∃ property : ElectrolyteProperty, [property.field.key] = p ∧
      e.value property = v := by
  simp only [values, List.mem_cons, List.not_mem_nil, or_false, Prod.mk.injEq]
  constructor
  · rintro (⟨rfl, rfl⟩ | ⟨rfl, rfl⟩)
    · exact ⟨.diffusivity, rfl, rfl⟩
    · exact ⟨.conductivity, rfl, rfl⟩
  · rintro ⟨property, rfl, rfl⟩
    cases property with
    | diffusivity => exact .inl ⟨rfl, rfl⟩
    | conductivity => exact .inr ⟨rfl, rfl⟩

theorem Particle.mem_values_iff {q : Particle} :
    (p, v) ∈ q.values ↔ ∃ property : MaterialProperty, [property.field.key] = p ∧
      q.value? property = some v := by
  simp only [values, List.mem_append, List.mem_cons, List.not_mem_nil, or_false, Prod.mk.injEq,
    Option.mem_toList, Option.map_eq_some_iff]
  constructor
  · rintro ((⟨rfl, rfl⟩ | ⟨rfl, rfl⟩) | ⟨w, hw, rfl, rfl⟩)
    · exact ⟨.diffusivity, rfl, rfl⟩
    · exact ⟨.ocp, rfl, rfl⟩
    · exact ⟨.entropicChange, rfl, hw⟩
  · rintro ⟨property, rfl, hv⟩
    cases property with
    | diffusivity => exact .inl (.inl ⟨rfl, (Option.some.inj hv).symm⟩)
    | ocp => exact .inl (.inr ⟨rfl, (Option.some.inj hv).symm⟩)
    | entropicChange => exact .inr ⟨v, hv, rfl, rfl⟩

theorem ActiveMaterial.mem_values_iff {m : ActiveMaterial}
    (hnames : ∀ b ∈ m.blends, (b.components.map (·.1)).Nodup) :
    (p, v) ∈ m.values ↔ ∃ slot : MaterialSlot, slot.path = p ∧ m.value? slot = some v := by
  cases m with
  | single q =>
    rw [values, Particle.mem_values_iff]
    constructor
    · rintro ⟨property, hpath, hvalue⟩
      exact ⟨.single property, hpath, hvalue⟩
    · rintro ⟨slot, hpath, hvalue⟩
      cases slot with
      | single property => exact ⟨property, hpath, hvalue⟩
      | blended name property => cases hvalue
  | blended b =>
    have hfind {name : String} {c : BlendMaterial} :
        Named.find? name b.components = some c ↔ (name, c) ∈ b.components :=
      Named.find?_eq_some_iff (hnames b List.mem_cons_self)
    simp only [values, mem_below, List.mem_flatMap, Particle.mem_values_iff, Prod.exists]
    constructor
    · rintro ⟨_, rfl, name, c, hc, _, rfl, property, rfl, hvalue⟩
      refine ⟨.blended name property, rfl, ?_⟩
      rw [value?, hfind.mpr hc, Option.bind_some, hvalue]
    · rintro ⟨slot, rfl, hvalue⟩
      cases slot with
      | single property => cases hvalue
      | blended name property =>
        obtain ⟨c, hc, hproperty⟩ := Option.bind_eq_some_iff.mp hvalue
        exact ⟨_, rfl, name, c, hfind.mp hc, _, rfl, property, rfl, hproperty⟩

end

namespace UserParameter

/-- The value under a row of names in a parameter of the user's own. -/
def value? : List String → UserParameter → Option Value
  | names, .group entries => UserDefined.value? names entries
  | [], .value v => some v
  | _, _ => none

theorem value?_cons (name : String) (rest : List String) (es : UserDefined) :
    UserDefined.value? (name :: rest) es = (Named.find? name es).bind (value? rest) := by
  cases rest with
  | nil =>
    rw [UserDefined.value?, UserDefined.find?]
    cases Named.find? name es with
    | none => rfl
    | some u => cases u <;> rfl
  | cons next rest =>
    simp only [UserDefined.value?, UserDefined.find?]
    cases Named.find? name es with
    | none => rfl
    | some u => cases u <;> rfl

theorem filed_members {es : List (String × UserParameter)} (h : (group es).toJson.Filed) :
    (es.map (·.1)).Nodup ∧ ∀ e ∈ es, e.2.toJson.Filed := by
  rw [toJson, Json.filed_object] at h
  have hnames := Named.nodup_of_ordered h.1
  rw [names_membersOf] at hnames
  refine ⟨hnames, fun e he => h.2 (e.1, e.2.toJson) ?_⟩
  rw [membersOf_eq_map]
  exact List.mem_map_of_mem he

theorem mem_groupValues_cons {es : List (String × UserParameter)} {name : String} {rest : Path}
    {v : Value} :
    (name :: rest, v) ∈ groupValues es ↔ ∃ u, (name, u) ∈ es ∧ (rest, v) ∈ u.values := by
  simp only [flatMap_eq_groupValues, List.mem_flatMap, mem_below, List.cons.injEq, Prod.exists]
  constructor
  · rintro ⟨_, u, hu, _, ⟨rfl, rfl⟩, hmem⟩
    exact ⟨u, hu, hmem⟩
  · rintro ⟨u, hu, hmem⟩
    exact ⟨name, u, hu, rest, ⟨rfl, rfl⟩, hmem⟩

theorem nil_not_mem_groupValues {es : List (String × UserParameter)} {v : Value} :
    ([], v) ∉ groupValues es := by
  simp [flatMap_eq_groupValues, mem_below]

/-- By recursion on the names: a value is at the end of them, and a group is entered by the
first. -/
theorem mem_values_iff {u : UserParameter} {names : Path} {v : Value} (h : u.toJson.Filed) :
    (names, v) ∈ u.values ↔ u.value? names = some v := by
  induction names generalizing u with
  | nil =>
    cases u with
    | value w => simp [values, value?, eq_comm]
    | text s => simp [values, value?]
    | group es =>
      rw [values, iff_false_intro nil_not_mem_groupValues]
      exact (iff_false_intro nofun).symm
  | cons name rest ih =>
    cases u with
    | value w => simp [values, value?]
    | text s => simp [values, value?]
    | group es =>
      obtain ⟨hnames, hmembers⟩ := filed_members h
      rw [values, mem_groupValues_cons, value?, value?_cons, Option.bind_eq_some_iff]
      refine exists_congr fun u => ?_
      rw [Named.find?_eq_some_iff hnames]
      exact and_congr_right fun hu => ih (hmembers (name, u) hu)

/-- The names of a value lead to its tree. -/
theorem follow?_of_value? {u : UserParameter} {names : Path} {v : Value}
    (h : u.value? names = some v) : u.toJson.follow? names = some v.toJson := by
  induction names generalizing u with
  | nil =>
    cases u with
    | value w =>
      cases h
      rw [toJson, Json.follow?_nil]
    | text s => cases h
    | group es => cases h
  | cons name rest ih =>
    cases u with
    | value w => cases h
    | text s => cases h
    | group es =>
      rw [value?, value?_cons, Option.bind_eq_some_iff] at h
      obtain ⟨u, hu, hrest⟩ := h
      have hmember : (group es).toJson.member? name = some u.toJson := by
        rw [toJson, membersOf_eq_map, Json.member?, Named.find?_map, hu, Option.map_some]
      rw [Json.follow?_of_member? hmember, ih hrest]

end UserParameter

/-! ### The values of a document are its leaves -/

theorem mem_elim {α β : Type} {o : Option α} {f : α → List β} {b : β} :
    b ∈ o.elim [] f ↔ ∃ a, o = some a ∧ b ∈ f a := by
  cases o <;> simp

theorem Parameters.mem_values_iff {p : Parameters} {place : Path} {v : Value} :
    (place, v) ∈ p.values ↔
      (∃ e, p.electrolyte = some e ∧ (place, v) ∈ below ParameterField.electrolyte.key e.values) ∨
      (∃ side : Side, (place, v) ∈ below side.field.key (p.electrode side).material.values) ∨
      ∃ u, p.userDefined = some u ∧
        (place, v) ∈ below ParameterField.userDefined.key (UserParameter.groupValues u) := by
  simp only [values, List.mem_append, mem_elim]
  constructor
  · rintro (((he | hn) | hp) | hu)
    · exact .inl he
    · exact .inr (.inl ⟨.negative, hn⟩)
    · exact .inr (.inl ⟨.positive, hp⟩)
    · exact .inr (.inr hu)
  · rintro (he | ⟨side, hside⟩ | hu)
    · exact .inl (.inl (.inl he))
    · cases side with
      | negative => exact .inl (.inl (.inr hside))
      | positive => exact .inl (.inr hside)
    · exact .inr hu

namespace Document

variable {d : Document} {place : Path} {v : Value}

theorem filed_ownGroup (h : d.toJson.Filed) {u : UserDefined}
    (hu : d.parameters.userDefined = some u) : (UserParameter.group u).toJson.Filed := by
  have hkeys : (d.parameters.written.map (·.1.key)).Nodup := ParameterField.keys_nodup
  have hwritten : (ParameterField.userDefined, some (Json.object (UserParameter.membersOf u))) ∈
      d.parameters.written := by
    simp [Parameters.written, hu]
  rw [UserParameter.toJson]
  exact (filed_parameters h).of_mem_written hkeys hwritten

theorem mem_values_iff (h : d.toJson.Filed) :
    (place, v) ∈ d.values ↔ ∃ slot : Slot, slot.path = place ∧ d.valueAt? slot = some v := by
  have hmaterial (side : Side) (rest : Path) :
      (rest, v) ∈ (d.parameters.electrode side).material.values ↔
      ∃ slot : MaterialSlot, slot.path = rest ∧ (d.parameters.electrode side).material.value? slot =
        some v := by
    refine ActiveMaterial.mem_values_iff fun b hb => nodup_components h b ?_
    cases side <;> simp [blends, Parameters.electrodes, Parameters.electrode] at hb ⊢ <;> simp [hb]
  have hown {u : UserDefined} (hu : d.parameters.userDefined = some u) (names : Path) :
      (names, v) ∈ UserParameter.groupValues u ↔ UserDefined.value? names u = some v :=
    UserParameter.mem_values_iff (filed_ownGroup h hu)
  rw [values, mem_below]
  constructor
  · rintro ⟨rest, rfl, hmem⟩
    rcases Parameters.mem_values_iff.mp hmem with ⟨e, he, hmem⟩ | ⟨side, hmem⟩ | ⟨u, hu, hmem⟩
    · obtain ⟨_, rfl, hvalue⟩ := mem_below.mp hmem
      obtain ⟨property, rfl, rfl⟩ := Electrolyte.mem_values_iff.mp hvalue
      exact ⟨.electrolyte property, rfl, by rw [valueAt?, he, Option.map_some]⟩
    · obtain ⟨_, rfl, hvalue⟩ := mem_below.mp hmem
      obtain ⟨slot, rfl, hslot⟩ := (hmaterial side _).mp hvalue
      exact ⟨.electrode side slot, rfl, hslot⟩
    · obtain ⟨names, rfl, hvalue⟩ := mem_below.mp hmem
      exact ⟨.own names, rfl, by rw [valueAt?, hu, Option.bind_some, (hown hu names).mp hvalue]⟩
  · rintro ⟨slot, rfl, hvalue⟩
    cases slot with
    | electrolyte property =>
      obtain ⟨e, he, rfl⟩ := Option.map_eq_some_iff.mp hvalue
      have hmem : ([property.field.key], e.value property) ∈ e.values :=
        Electrolyte.mem_values_iff.mpr ⟨property, rfl, rfl⟩
      exact ⟨_, rfl, Parameters.mem_values_iff.mpr (.inl ⟨e, he, mem_below.mpr ⟨_, rfl, hmem⟩⟩)⟩
    | electrode side slot =>
      have hmem := (hmaterial side slot.path).mpr ⟨slot, rfl, hvalue⟩
      exact ⟨_, rfl,
        Parameters.mem_values_iff.mpr (.inr (.inl ⟨side, mem_below.mpr ⟨_, rfl, hmem⟩⟩))⟩
    | own names =>
      obtain ⟨u, hu, hnames⟩ := Option.bind_eq_some_iff.mp hvalue
      have hmem := (hown hu names).mpr hnames
      exact ⟨_, rfl,
        Parameters.mem_values_iff.mpr (.inr (.inr ⟨u, hu, mem_below.mpr ⟨_, rfl, hmem⟩⟩))⟩

end Document

/-! ### The keys of a leaf lead to its tree -/

theorem Electrolyte.member?_value (e : Electrolyte) (property : ElectrolyteProperty) :
    e.toJson.member? property.field.key = some (e.value property).toJson := by
  have hkeys : (e.written.map (·.1.key)).Nodup := ElectrolyteField.keys_nodup
  refine member?_ofWritten hkeys ?_
  cases property <;> simp [written, ElectrolyteProperty.field, value]

theorem Particle.mem_written (p : Particle) (property : MaterialProperty) :
    (property.field, (p.value? property).map Value.toJson) ∈ p.written := by
  cases property <;> simp [written, MaterialProperty.field, value?]

theorem Electrode.follow?_of_value? {e : Electrode} {slot : MaterialSlot} {v : Value}
    (h : e.material.value? slot = some v) : e.toJson.follow? slot.path = some v.toJson := by
  cases hm : e.material with
  | single p =>
    rw [hm] at h
    cases slot with
    | blended name property => cases h
    | single property =>
      have hproperty : p.value? property = some v := h
      have hwritten : (property.field, (p.value? property).map Value.toJson) ∈ e.written := by
        rw [written, hm]
        exact List.mem_append_right _ (p.mem_written property)
      rw [MaterialSlot.path, Json.follow?_single, toJson,
        member?_ofWritten (writtenKeys_nodup e) hwritten, hproperty, Option.map_some]
  | blended b =>
    rw [hm] at h
    cases slot with
    | single property => cases h
    | blended name property =>
      obtain ⟨c, hc, hproperty⟩ := Option.bind_eq_some_iff.mp h
      have hwritten : (ElectrodeField.particle, some b.toJson) ∈ e.written := by
        simp [written, hm, ActiveMaterial.written]
      have hblend : e.toJson.member? ElectrodeField.particle.key = some b.toJson :=
        member?_ofWritten (writtenKeys_nodup e) hwritten
      have hmaterial : b.toJson.member? name = some c.toJson := by
        rw [Blend.toJson, Json.member?, Named.find?_map, hc, Option.map_some]
      have hkeys : (c.written.map (·.1.key)).Nodup := ParticleField.keys_nodup
      have hvalue :
          c.toJson.member? property.field.key = (c.particle.value? property).map Value.toJson :=
        member?_ofWritten hkeys (List.mem_cons_of_mem _ (c.particle.mem_written property))
      rw [MaterialSlot.path, Json.follow?_of_member? hblend, Json.follow?_of_member? hmaterial,
        Json.follow?_single, hvalue, hproperty, Option.map_some]

theorem Parameters.member?_electrode (p : Parameters) (side : Side) :
    p.toJson.member? side.field.key = some (p.electrode side).toJson := by
  have hkeys : (p.written.map (·.1.key)).Nodup := ParameterField.keys_nodup
  refine member?_ofWritten hkeys ?_
  cases side <;> simp [written, Side.field, electrode]

namespace Document

variable {d : Document}

theorem member?_parameters (d : Document) :
    d.toJson.member? DocumentField.parameterisation.key = some d.parameters.toJson := by
  have hkeys : (d.written.map (·.1.key)).Nodup := DocumentField.keys_nodup
  exact member?_ofWritten hkeys (by simp [written])

theorem follow?_of_valueAt? {slot : Slot} {v : Value} (h : d.valueAt? slot = some v) :
    d.toJson.follow? slot.path = some v.toJson := by
  have hkeys : (d.parameters.written.map (·.1.key)).Nodup := ParameterField.keys_nodup
  cases slot with
  | electrolyte property =>
    obtain ⟨e, he, rfl⟩ := Option.map_eq_some_iff.mp h
    have hsection : d.parameters.toJson.member? ParameterField.electrolyte.key = some e.toJson :=
      member?_ofWritten hkeys (by simp [Parameters.written, he])
    rw [Slot.path, Json.follow?_of_member? d.member?_parameters, Json.follow?_of_member? hsection,
      Json.follow?_single, e.member?_value]
  | electrode side slot =>
    rw [Slot.path, Json.follow?_of_member? d.member?_parameters,
      Json.follow?_of_member? (d.parameters.member?_electrode side), Electrode.follow?_of_value? h]
  | own names =>
    obtain ⟨u, hu, hnames⟩ := Option.bind_eq_some_iff.mp h
    have hsection : d.parameters.toJson.member? ParameterField.userDefined.key =
        some (UserParameter.group u).toJson := by
      rw [UserParameter.toJson]
      exact member?_ofWritten hkeys (by simp [Parameters.written, hu])
    have hvalue : (UserParameter.group u).value? names = some v := by
      rw [UserParameter.value?, hnames]
    rw [Slot.path, Json.follow?_of_member? d.member?_parameters, Json.follow?_of_member? hsection,
      UserParameter.follow?_of_value? hvalue]

/-- The values of an accepted document are listed with the texts of their keys, which lead to the
tree of the value in the tree of the document; each is there once and is a leaf, at the place that
the structure of the document gives it. -/
theorem values_are_leaves {j : Json} (hfiled : j.Filed) (h : ofJson j = .ok d) :
    d.listing = d.values.map (fun e => ("/".intercalate e.1, e.2)) ∧
      d.values.Nodup ∧ (∀ leaf : Leaf d, leaf.placed ∈ d.values) ∧
      (∀ e ∈ d.values, ∃! leaf : Leaf d, leaf.placed = e) ∧
      ∀ e ∈ d.values, d.toJson.follow? e.1 = some e.2.toJson := by
  have hwritten : d.toJson.Filed := filed_toJson_of_read hfiled (ofJson_eq_ok.mp h)
  have hdistinct : Distinct id d.values :=
    (distinct_values_iff Path.separates_id (nodup_components hwritten)).mpr
      (distinct_ownValues hwritten)
  refine ⟨d.listing_eq, List.Nodup.of_map _ hdistinct, fun leaf => ?_, fun e he => ?_,
    fun e he => ?_⟩
  · exact (mem_values_iff hwritten).mpr ⟨leaf.slot, rfl, leaf.held⟩
  · obtain ⟨slot, hpath, hvalue⟩ := (mem_values_iff hwritten).mp he
    have hplaced : Leaf.placed ⟨slot, e.2, hvalue⟩ = e := Prod.ext hpath rfl
    exact ⟨_, hplaced, fun leaf hleaf => Leaf.placed_inj.mp (hleaf.trans hplaced.symm)⟩
  · obtain ⟨slot, hpath, hvalue⟩ := (mem_values_iff hwritten).mp he
    rw [← hpath, follow?_of_valueAt? hvalue]

/-- `sample` with the group of the user's own in order. -/
def blended : Document :=
  let group : UserParameter :=
    .group [("Loss", .value (.constant 0.02)), ("description", .text "By cycles")]
  let sample := sample
  { sample with parameters.userDefined := some [("Ageing", group)] }

/-- The texts under which the values of `blended` are listed. -/
def blendedTexts : List String :=
  ["Parameterisation/Electrolyte/Diffusivity [m2.s-1]",
    "Parameterisation/Electrolyte/Conductivity [S.m-1]",
    "Parameterisation/Negative electrode/Particle/Graphite/Diffusivity [m2.s-1]",
    "Parameterisation/Negative electrode/Particle/Graphite/OCP [V]",
    "Parameterisation/Negative electrode/Particle/Silicon/Diffusivity [m2.s-1]",
    "Parameterisation/Negative electrode/Particle/Silicon/OCP [V]",
    "Parameterisation/Positive electrode/Diffusivity [m2.s-1]",
    "Parameterisation/Positive electrode/OCP [V]",
    "Parameterisation/User-defined/Ageing/Loss"]

theorem values_are_leaves_blended :
    blended.listing.map (·.1) = blendedTexts ∧
      blended.listing = blended.values.map (fun e => ("/".intercalate e.1, e.2)) ∧
      blended.values.Nodup ∧
      blended.toJson.follow?
          ["Parameterisation", "Negative electrode", "Particle", "Graphite", "OCP [V]"] =
        some (Value.table samplePotential).toJson := by
  have hfiled : blended.toJson.Filed := by decide +kernel
  have hread : ofJson blended.toJson = .ok blended := by decide +kernel
  let potential : Leaf blended :=
    ⟨.electrode .negative (.blended "Graphite" .ocp), .table samplePotential, by decide⟩
  obtain ⟨htexts, hnodup, hleaves, -, hkeys⟩ := values_are_leaves hfiled hread
  exact ⟨by decide +kernel, htexts, hnodup, hkeys _ (hleaves potential)⟩

end Document

end BatteryParams

import BatteryParams.Proofs.Document.Acceptance
import BatteryParams.Proofs.Document.Lossless
import BatteryParams.Service.Router

/-!
# Paths and the values they name

A value is listed with the keys that lead to it and looked up by their text, in which they are
joined by slashes. The keys always tell the values of an accepted document apart. Their texts do so
for the standard fields, whatever the materials of a blend are called, but not for parameters of the
user's own: two groups with slashes in their names may lead to the same text, and then the first
value hides the others.
-/

namespace BatteryParams

open Reading (clean)
open Record

/-! ### Keys joined by slashes -/

/-- A key without the character that joins keys. -/
def SlashFree (key : String) : Prop := '/' ∉ key.toList

instance : DecidablePred SlashFree := fun key => inferInstanceAs (Decidable ('/' ∉ key.toList))

namespace Path

variable {key other name name' : String} {p q : Path}

/-- A path with a slash in front of every key. An empty key leaves its slash, so nothing is lost at
the ends. -/
def slashed (p : Path) : List Char := p.flatMap fun key => '/' :: key.toList

theorem slashed_cons (key : String) (p : Path) :
    slashed (key :: p) = '/' :: (key.toList ++ slashed p) := by
  rw [slashed, List.flatMap_cons]
  rfl

theorem slashed_eq_text (h : p ≠ []) : slashed p = '/' :: (text p).toList := by
  induction p with
  | nil => exact absurd rfl h
  | cons key rest ih =>
    rw [slashed_cons]
    cases rest with
    | nil => simp [slashed, text]
    | cons next rest =>
      rw [ih (by simp), text, text, String.intercalate_cons_cons]
      simp

theorem text_eq_iff (hp : p ≠ []) (hq : q ≠ []) : text p = text q ↔ slashed p = slashed q := by
  rw [slashed_eq_text hp, slashed_eq_text hq, List.cons.injEq, String.toList_inj]
  simp

theorem takeWhile_slashed (hkey : SlashFree key) (p : Path) :
    (key.toList ++ slashed p).takeWhile (· != '/') = key.toList := by
  have hend : (slashed p).takeWhile (· != '/') = [] := by
    cases p with
    | nil => rfl
    | cons next rest => simp [slashed_cons]
  rw [List.takeWhile_append_of_pos, hend, List.append_nil]
  intro c hc
  have hne : c ≠ '/' := fun heq => hkey (heq ▸ hc)
  simpa using hne

/-- The first key of a path ends at the first slash behind it, if it has none itself. -/
theorem front_of_slashed (hkey : SlashFree key) (hother : SlashFree other)
    (h : slashed (key :: p) = slashed (other :: q)) : key = other := by
  rw [slashed_cons, slashed_cons, List.cons.injEq] at h
  apply String.toList_inj.mp
  rw [← takeWhile_slashed hkey p, h.2, takeWhile_slashed hother q]

/-- The last key of a path begins at the last slash, if it has none itself; the key before it may
have slashes. -/
theorem back_of_slashed (hkey : SlashFree key) (hother : SlashFree other)
    (h : slashed [name, key] = slashed [name', other]) : name = name' := by
  have hjoined : name.toList ++ '/' :: key.toList = name'.toList ++ '/' :: other.toList := by
    simpa [slashed] using h
  apply String.toList_inj.mp
  rcases List.append_eq_append_iff.mp hjoined with ⟨between, hname, hlast⟩ | ⟨between, hname, hlast⟩
  · cases between with
    | nil => rw [hname, List.append_nil]
    | cons c between =>
      have hmem : '/' ∈ key.toList := by simp [(List.cons.inj hlast).2]
      exact absurd hmem hkey
  · cases between with
    | nil => rw [hname, List.append_nil]
    | cons c between =>
      have hmem : '/' ∈ other.toList := by simp [(List.cons.inj hlast).2]
      exact absurd hmem hother

theorem slashed_inj (hp : ∀ k ∈ p, SlashFree k) (hq : ∀ k ∈ q, SlashFree k)
    (h : slashed p = slashed q) : p = q := by
  induction p generalizing q with
  | nil =>
    cases q with
    | nil => rfl
    | cons other q => simp [slashed] at h
  | cons key p ih =>
    cases q with
    | nil => simp [slashed] at h
    | cons other q =>
      obtain ⟨hkey, hrest⟩ := List.forall_mem_cons.mp hp
      obtain ⟨hother, hmore⟩ := List.forall_mem_cons.mp hq
      obtain rfl : key = other := front_of_slashed hkey hother h
      rw [slashed_cons, slashed_cons, List.cons.injEq, List.append_cancel_left_eq] at h
      rw [ih hrest hmore h.2]

/-- A way to spell paths in which a key without slashes is told from others, at the front or behind
one other key. -/
structure Separates {β : Type} (spell : Path → β) : Prop where
  cons : ∀ {key p q}, spell (key :: p) = spell (key :: q) ↔ spell p = spell q
  front : ∀ {key other p q}, SlashFree key → SlashFree other →
    spell (key :: p) = spell (other :: q) → key = other
  back : ∀ {key other name name'}, SlashFree key → SlashFree other →
    spell [name, key] = spell [name', other] →
    name = name'

theorem separates_id : Separates id where
  cons := by simp
  front := fun _ _ h => (List.cons.inj h).1
  back := fun _ _ h => (List.cons.inj h).1

theorem separates_slashed : Separates slashed where
  cons := by simp [slashed_cons]
  front := front_of_slashed
  back := back_of_slashed

end Path

/-! ### Values told apart -/

/-- No two values of a list are placed at paths with the same spelling. -/
def Distinct {β : Type} (spell : Path → β) (values : List Placed) : Prop :=
  (values.map fun v => spell v.1).Nodup

section

variable {β γ : Type} {spell : Path → β} {spell' : Path → γ} {values : List Placed}

/-- A spelling tells values apart that another one does, if it is at least as fine on their
paths. -/
theorem Distinct.of_spelling (h : Distinct spell values)
    (hspell : ∀ v ∈ values, ∀ w ∈ values, spell' v.1 = spell' w.1 → spell v.1 = spell w.1) :
    Distinct spell' values := by
  rw [Distinct, List.Nodup, List.pairwise_map] at h ⊢
  refine h.imp_of_mem fun {v w} hv hw hne heq => ?_
  exact hne (hspell v hv w hw heq)

theorem distinct_text_iff (h : ∀ v ∈ values, v.1 ≠ []) :
    Distinct Path.text values ↔ Distinct Path.slashed values := by
  have hspell : ∀ v ∈ values, ∀ w ∈ values, Path.text v.1 = Path.text w.1 ↔
      Path.slashed v.1 = Path.slashed w.1 :=
    fun v hv w hw => Path.text_eq_iff (h v hv) (h w hw)
  constructor
  · intro htext
    exact htext.of_spelling fun v hv w hw => (hspell v hv w hw).mpr
  · intro hslashed
    exact hslashed.of_spelling fun v hv w hw => (hspell v hv w hw).mp

theorem distinct_slashed_of_free (hfree : ∀ v ∈ values, ∀ key ∈ v.1, SlashFree key)
    (h : Distinct id values) : Distinct Path.slashed values := by
  apply h.of_spelling
  intro v hv w hw heq
  exact Path.slashed_inj (hfree v hv) (hfree w hw) heq

theorem distinct_under (hspell : Path.Separates spell) (key : String) :
    (values.map fun v => spell (key :: v.1)).Nodup ↔ Distinct spell values := by
  simp only [Distinct, List.Nodup, List.pairwise_map, ne_eq, hspell.cons]

theorem distinct_below (hspell : Path.Separates spell) (key : String) :
    Distinct spell (below key values) ↔ Distinct spell values := by
  rw [Distinct, below, List.map_map]
  exact distinct_under hspell key

/-- Lists under different keys are told apart as a whole if each is, where the spelling shows the
key. -/
theorem distinct_groups (hspell : Path.Separates spell) {groups : List γ} {key : γ → String}
    {inner : γ → List Placed} (hkeys : (groups.map key).Nodup)
    (hshown : ∀ g ∈ groups, ∀ g' ∈ groups, ∀ v ∈ inner g, ∀ v' ∈ inner g',
      spell (key g :: v.1) = spell (key g' :: v'.1) → key g = key g') :
    Distinct spell (groups.flatMap fun g => below (key g) (inner g)) ↔
      ∀ g ∈ groups, Distinct spell (inner g) := by
  have hspelled : ((groups.flatMap fun g => below (key g) (inner g)).map fun v => spell v.1) =
      groups.flatMap fun g => (inner g).map fun v => spell (key g :: v.1) := by
    simp only [below, List.map_flatMap, List.map_map]
    rfl
  have hdisjoint : groups.Pairwise
      (Function.onFun List.Disjoint fun g => (inner g).map fun v => spell (key g :: v.1)) := by
    rw [List.Nodup, List.pairwise_map] at hkeys
    refine hkeys.imp_of_mem fun {g g'} hg hg' hne s hs hs' => ?_
    obtain ⟨v, hv, rfl⟩ := List.mem_map.mp hs
    obtain ⟨v', hv', heq⟩ := List.mem_map.mp hs'
    exact hne (hshown g hg g' hg' v hv v' hv' heq.symm)
  rw [Distinct, hspelled, List.nodup_flatMap]
  simp only [distinct_under hspell, hdisjoint, and_true]

/-- Values that stand directly under keys without slashes. -/
theorem distinct_fields (hspell : Path.Separates spell)
    (hsingle : ∀ v ∈ values, ∃ key, v.1 = [key] ∧ SlashFree key)
    (h : Distinct id values) : Distinct spell values := by
  apply h.of_spelling
  intro v hv w hw heq
  obtain ⟨key, hkey, hfree⟩ := hsingle v hv
  obtain ⟨other, hother, hotherFree⟩ := hsingle w hw
  rw [hkey, hother] at heq
  show v.1 = w.1
  rw [hkey, hother, hspell.front hfree hotherFree heq]

/-! ### The standard fields -/

theorem Electrolyte.distinct_values (hspell : Path.Separates spell) (e : Electrolyte) :
    Distinct spell e.values := by
  apply distinct_fields hspell
  · simp only [values, List.forall_mem_cons]
    exact ⟨⟨_, rfl, by decide⟩, ⟨_, rfl, by decide⟩, List.forall_mem_nil _⟩
  · show [[ElectrolyteField.diffusivity.key], [ElectrolyteField.conductivity.key]].Nodup
    decide

theorem Particle.single_of_mem_values {p : Particle} :
    ∀ v ∈ p.values, ∃ key, v.1 = [key] ∧ SlashFree key := by
  simp only [values, List.forall_mem_append, List.forall_mem_cons]
  refine ⟨⟨⟨_, rfl, by decide⟩, ⟨_, rfl, by decide⟩, List.forall_mem_nil _⟩, fun v hv => ?_⟩
  obtain ⟨_, -, rfl⟩ := Option.map_eq_some_iff.mp (Option.mem_toList.mp hv)
  exact ⟨_, rfl, by decide⟩

theorem Particle.distinct_values (hspell : Path.Separates spell) (p : Particle) :
    Distinct spell p.values := by
  apply distinct_fields hspell single_of_mem_values
  cases hentropic : p.entropicChange with
  | none =>
    rw [Distinct, values, hentropic]
    show [[ParticleField.diffusivity.key], [ParticleField.ocp.key]].Nodup
    decide
  | some v =>
    rw [Distinct, values, hentropic]
    show [[ParticleField.diffusivity.key], [ParticleField.ocp.key],
      [ParticleField.entropicChange.key]].Nodup
    decide

/-- The field behind the name of a material has no slash, so materials may have any names. -/
theorem ActiveMaterial.distinct_values (hspell : Path.Separates spell) {m : ActiveMaterial}
    (hnames : ∀ b ∈ m.blends, (b.components.map (·.1)).Nodup) : Distinct spell m.values := by
  cases m with
  | single p => exact p.distinct_values hspell
  | blended b =>
    rw [values, distinct_below hspell, distinct_groups hspell (hnames b List.mem_cons_self)]
    · exact fun c _ => c.2.particle.distinct_values hspell
    · intro c _ c' _ v hv v' hv' heq
      obtain ⟨key, hkey, hfree⟩ := Particle.single_of_mem_values v hv
      obtain ⟨other, hother, hotherFree⟩ := Particle.single_of_mem_values v' hv'
      rw [hkey, hother] at heq
      exact hspell.back hfree hotherFree heq

/-! ### Documents -/

/-- The parameters of the user's own that are values, placed from the section for them on. -/
def Document.ownValues (d : Document) : List Placed :=
  d.parameters.userDefined.elim [] UserParameter.groupValues

/-- The sections of a parameter set that have values. -/
def Parameters.valueSections (p : Parameters) : List (String × List Placed) :=
  (p.electrolyte.elim [] fun e => [(ParameterField.electrolyte.key, e.values)]) ++
    [(ParameterField.negativeElectrode.key, p.negativeElectrode.material.values),
      (ParameterField.positiveElectrode.key, p.positiveElectrode.material.values)] ++
    p.userDefined.elim [] fun u => [(ParameterField.userDefined.key, UserParameter.groupValues u)]

theorem Parameters.values_eq_flatMap (p : Parameters) :
    p.values = p.valueSections.flatMap fun s => below s.1 s.2 := by
  cases he : p.electrolyte <;> cases hu : p.userDefined <;> simp [values, valueSections, he, hu]

theorem Parameters.keys_valueSections (p : Parameters) :
    (p.valueSections.map (·.1)).Nodup ∧ ∀ s ∈ p.valueSections, SlashFree s.1 := by
  have hkeys : (p.valueSections.map (·.1)).Sublist [ParameterField.electrolyte.key,
      ParameterField.negativeElectrode.key, ParameterField.positiveElectrode.key,
      ParameterField.userDefined.key] := by
    have helectrolyte :
        ((p.electrolyte.elim [] fun e => [(ParameterField.electrolyte.key, e.values)]).map
        (·.1)).Sublist [ParameterField.electrolyte.key] := by
      cases p.electrolyte <;> simp
    have huser : ((p.userDefined.elim [] fun u => [(ParameterField.userDefined.key,
        UserParameter.groupValues u)]).map (·.1)).Sublist [ParameterField.userDefined.key] := by
      cases p.userDefined <;> simp
    rw [valueSections, List.map_append, List.map_append]
    exact (helectrolyte.append (List.Sublist.refl _)).append huser
  refine ⟨hkeys.nodup (by decide), fun s hs => ?_⟩
  have hall : ∀ key ∈ [ParameterField.electrolyte.key, ParameterField.negativeElectrode.key,
      ParameterField.positiveElectrode.key, ParameterField.userDefined.key],
        SlashFree key := by decide
  exact hall s.1 (hkeys.subset (List.mem_map_of_mem hs))

/-- The values of a document are told apart exactly if the user's own are. -/
theorem Document.distinct_values_iff (hspell : Path.Separates spell) {d : Document}
    (hnames : ∀ b ∈ d.blends, (b.components.map (·.1)).Nodup) :
    Distinct spell d.values ↔ Distinct spell d.ownValues := by
  have hnegative : Distinct spell d.parameters.negativeElectrode.material.values :=
    ActiveMaterial.distinct_values hspell fun b hb =>
      hnames b (by simp [blends, Parameters.electrodes, hb])
  have hpositive : Distinct spell d.parameters.positiveElectrode.material.values :=
    ActiveMaterial.distinct_values hspell fun b hb =>
      hnames b (by simp [blends, Parameters.electrodes, hb])
  have hown : Distinct spell d.ownValues ↔
      ∀ u ∈ d.parameters.userDefined, Distinct spell (UserParameter.groupValues u) := by
    rw [ownValues]
    cases d.parameters.userDefined <;> simp [Distinct]
  obtain ⟨hkeys, hfree⟩ := d.parameters.keys_valueSections
  rw [values, distinct_below hspell, Parameters.values_eq_flatMap, distinct_groups hspell hkeys]
  · simp only [Parameters.valueSections, List.forall_mem_append, List.forall_mem_cons,
      forall_mem_elim]
    constructor
    · rintro ⟨-, huser⟩
      exact hown.mpr fun u hu => (huser u hu).1
    · intro h
      exact ⟨⟨fun e _ => ⟨e.distinct_values hspell, List.forall_mem_nil _⟩, hnegative, hpositive,
        List.forall_mem_nil _⟩,
        fun u hu => ⟨hown.mp h u hu, List.forall_mem_nil _⟩⟩
  · intro s hs s' hs' v _ v' _ heq
    exact hspell.front (hfree s hs) (hfree s' hs') heq

end

/-! ### Names are filed once -/

theorem Json.Filed.of_mem_written {entries : List Written} (h : (ofWritten entries).Filed)
    (hkeys : (entries.map (·.1.key)).Nodup) {f : Field} {j : Json} (hmem : (f, some j) ∈ entries) :
    j.Filed :=
  Json.Filed.of_find? (filed_object.mp h).2 (member?_ofWritten hkeys hmem)

namespace UserParameter

theorem flatMap_eq_groupValues (es : List (String × UserParameter)) :
    groupValues es = es.flatMap fun e => below e.1 e.2.values := by
  induction es with
  | nil => rfl
  | cons e rest ih =>
    obtain ⟨name, u⟩ := e
    rw [groupValues, List.flatMap_cons, ih]

theorem distinct_group {es : List (String × UserParameter)} (hnames : (es.map (·.1)).Nodup)
    (h : ∀ e ∈ es, Distinct id e.2.values) : Distinct id (groupValues es) := by
  rw [flatMap_eq_groupValues, distinct_groups Path.separates_id hnames]
  · exact h
  · exact fun _ _ _ _ _ _ _ _ heq => (List.cons.inj heq).1

mutual

theorem distinct_values : ∀ {u : UserParameter}, u.toJson.Filed → Distinct id u.values
  | .value v, _ => List.nodup_singleton _
  | .text _, _ => List.nodup_nil
  | .group es, h => by
    rw [toJson, Json.filed_object] at h
    rw [values]
    have hnames := Named.nodup_of_ordered h.1
    rw [names_membersOf] at hnames
    exact distinct_group hnames (distinct_members h.2)

theorem distinct_members :
    ∀ {es : List (String × UserParameter)}, (∀ m ∈ membersOf es, m.2.Filed) →
      ∀ e ∈ es, Distinct id e.2.values
  | [], _ => List.forall_mem_nil _
  | (name, u) :: rest, h => by
    rw [membersOf, List.forall_mem_cons] at h
    exact List.forall_mem_cons.mpr ⟨distinct_values h.1, distinct_members h.2⟩

end

end UserParameter

theorem Electrode.nodup_components {e : Electrode} (h : e.toJson.Filed) :
    ∀ b ∈ e.material.blends, (b.components.map (·.1)).Nodup := by
  intro b hb
  cases hm : e.material with
  | single p => simp [hm, ActiveMaterial.blends] at hb
  | blended b' =>
    rw [hm, ActiveMaterial.blends, List.mem_singleton] at hb
    subst hb
    have hwritten : (ElectrodeField.particle, some b.toJson) ∈ e.written := by
      simp [written, ActiveMaterial.written, hm]
    have hblend : b.toJson.Filed := h.of_mem_written (writtenKeys_nodup e) hwritten
    rw [Blend.toJson, Json.filed_object, Named.ordered_map] at hblend
    exact Named.nodup_of_ordered hblend.1

namespace Document

variable {j : Json} {d : Document}

theorem filed_toJson_of_read (hfiled : j.Filed) (h : read j = clean d) : d.toJson.Filed := by
  rw [← Json.filed_asDoubles_iff, asDoubles_toJson_of_read hfiled h, Json.filed_asDoubles_iff]
  exact hfiled

theorem filed_parameters (h : d.toJson.Filed) : d.parameters.toJson.Filed := by
  have hkeys : (d.written.map (·.1.key)).Nodup := DocumentField.keys_nodup
  have hwritten : (DocumentField.parameterisation, some d.parameters.toJson) ∈ d.written := by
    simp [written]
  exact h.of_mem_written hkeys hwritten

/-- The materials of a blend have different names. -/
theorem nodup_components (h : d.toJson.Filed) : ∀ b ∈ d.blends, (b.components.map (·.1)).Nodup := by
  have hkeys : (d.parameters.written.map (·.1.key)).Nodup := ParameterField.keys_nodup
  have hnegative : (ParameterField.negativeElectrode, some d.parameters.negativeElectrode.toJson) ∈
      d.parameters.written := by simp [Parameters.written]
  have hpositive : (ParameterField.positiveElectrode, some d.parameters.positiveElectrode.toJson) ∈
      d.parameters.written := by simp [Parameters.written]
  simp only [blends, Parameters.electrodes, List.forall_mem_flatMap, List.forall_mem_cons]
  exact ⟨Electrode.nodup_components ((filed_parameters h).of_mem_written hkeys hnegative),
    Electrode.nodup_components ((filed_parameters h).of_mem_written hkeys hpositive),
    List.forall_mem_nil _⟩

theorem distinct_ownValues (h : d.toJson.Filed) : Distinct id d.ownValues := by
  have hkeys : (d.parameters.written.map (·.1.key)).Nodup := ParameterField.keys_nodup
  rw [ownValues]
  cases hu : d.parameters.userDefined with
  | none => exact List.nodup_nil
  | some u =>
    have hwritten : (ParameterField.userDefined, some (Json.object (UserParameter.membersOf u))) ∈
        d.parameters.written := by
      simp [Parameters.written, hu]
    have hown : (UserParameter.group u).toJson.Filed := by
      rw [UserParameter.toJson]
      exact (filed_parameters h).of_mem_written hkeys hwritten
    exact UserParameter.distinct_values hown

theorem ne_nil_of_mem_below {key : String} {values : List Placed} :
    ∀ v ∈ below key values, v.1 ≠ [] := by
  rw [below, List.forall_mem_map]
  exact fun v _ => List.cons_ne_nil key v.1

theorem ne_nil_of_mem_ownValues : ∀ v ∈ d.ownValues, v.1 ≠ [] := by
  rw [ownValues, forall_mem_elim]
  intro u _
  rw [UserParameter.flatMap_eq_groupValues, List.forall_mem_flatMap]
  exact fun e _ => ne_nil_of_mem_below

theorem value?_of_distinct (h : Distinct Path.text d.values) :
    ∀ v ∈ d.values, d.value? v.1.text = some v.2 := by
  intro v hv
  have hfind : d.values.find? (·.1.text == v.1.text) = some v := by
    cases hfound : d.values.find? (·.1.text == v.1.text) with
    | none => simpa using List.find?_eq_none.mp hfound v hv
    | some w =>
      have htext : w.1.text = v.1.text := by simpa using List.find?_some hfound
      rw [List.inj_on_of_nodup_map h (List.mem_of_find?_eq_some hfound) hv htext]
  rw [value?_eq, hfind, Option.map_some]

end Document

namespace Service

theorem ofJson_of_accepted {o : Options} {j : Json} {a : Accepted}
    (h : Accepted.ofJson o j = .ok a) : Document.ofJson j = .ok a.document := by
  obtain ⟨_, -, hjudge⟩ := ok_of_bind h
  obtain ⟨d, hd, hjudge⟩ := ok_of_bind hjudge
  have hread : Document.ofJson j = .ok d := Rule.mapError_eq_ok.mp hd
  dsimp only at hjudge
  split at hjudge
  · cases hjudge
  · cases hjudge
    exact hread

/-- A request for values is answered with those of the parameter that its path is looked up as. -/
theorem respond_evaluate {defaults : Options} {r : ValueRequest} {a : Accepted} {v : Value}
    (codec : Codec) (haccepted : Accepted.ofJson defaults r.document = .ok a)
    (hvalue : a.document.value? r.path = some v) :
    respond codec defaults (.evaluate r) =
      valuesResponse codec (v.evaluateEach r.x r.temperature) := by
  simp only [respond, evaluateResponse, haccepted, hvalue]

end Service

namespace Document

/-- The keys that lead to a value always tell it from the others. Their joined text does so exactly
if it does among the user's own parameters, as it does if none of their names has a slash, and then
every value is looked up and evaluated by the text of its path. -/
theorem text_identifies_value_iff {j : Json} {d : Document} (hfiled : j.Filed)
    (h : ofJson j = .ok d) :
    Distinct id d.values ∧
      (Distinct Path.text d.values ↔ Distinct Path.text d.ownValues) ∧
      ((∀ v ∈ d.ownValues, ∀ key ∈ v.1, SlashFree key) → Distinct Path.text d.values) ∧
      (Distinct Path.text d.values → ∀ v ∈ d.values, d.value? v.1.text = some v.2 ∧
        ∀ codec defaults a xs T, Accepted.ofJson defaults j = .ok a →
          Service.respond codec defaults (.evaluate ⟨j, v.1.text, xs, T⟩) =
            Service.valuesResponse codec (v.2.evaluateEach xs T)) := by
  have hwritten : d.toJson.Filed := filed_toJson_of_read hfiled (ofJson_eq_ok.mp h)
  have hnames := nodup_components hwritten
  have hown : Distinct id d.ownValues := distinct_ownValues hwritten
  have htext : Distinct Path.text d.values ↔ Distinct Path.text d.ownValues := by
    have hvalues : ∀ v ∈ d.values, v.1 ≠ [] := ne_nil_of_mem_below
    rw [distinct_text_iff hvalues, distinct_text_iff ne_nil_of_mem_ownValues]
    exact distinct_values_iff Path.separates_slashed hnames
  refine ⟨(distinct_values_iff Path.separates_id hnames).mpr hown, htext, fun hfree => ?_,
    fun hdistinct v hv => ?_⟩
  · rw [htext, distinct_text_iff ne_nil_of_mem_ownValues]
    exact distinct_slashed_of_free hfree hown
  · have hvalue : d.value? v.1.text = some v.2 := value?_of_distinct hdistinct v hv
    refine ⟨hvalue, fun codec defaults a xs T haccepted => ?_⟩
    have hsame : a.document = d := by
      have hread := Service.ofJson_of_accepted haccepted
      rw [h] at hread
      exact (Except.ok.inj hread).symm
    rw [← hsame] at hvalue
    exact Service.respond_evaluate codec (r := ⟨j, v.1.text, xs, T⟩) haccepted hvalue

theorem text_identifies_value_plain : Distinct Path.text plain.values ∧
    plain.value? "Parameterisation/User-defined/Ageing/Loss" = some (.constant 2.0) := by
  obtain ⟨-, -, hfree, hlookup⟩ := text_identifies_value_iff plainTree_filed ofJson_plainTree
  have hdistinct : Distinct Path.text plain.values := hfree (by decide +kernel)
  let loss : Placed := (["Parameterisation", "User-defined", "Ageing", "Loss"], .constant 2.0)
  have hloss : loss ∈ plain.values := by decide +kernel
  exact ⟨hdistinct, (hlookup hdistinct loss hloss).1⟩

/-- A group `a` with a value `b`, beside a value `a/b`. -/
def clashTree : Json :=
  plainTreeWith
    (.ofMembers [("a", .ofMembers [("b", .number (.natural 2))]), ("a/b", .number (.natural 1))])

def clash : Document :=
  plainWith [("a", .group [("b", .value (.constant 2.0))]), ("a/b", .value (.constant 1.0))]

/-- Both values have one text, and by it the first is looked up. -/
theorem clash_text : clashTree.Filed ∧ ofJson clashTree = .ok clash ∧
    ¬Distinct Path.text clash.values ∧
    ∃ v ∈ clash.values, clash.value? v.1.text ≠ some v.2 := by
  refine ⟨by decide +kernel, by decide +kernel, ?_, ?_⟩
  · rw [Distinct]
    decide +kernel
  · let hidden : Placed := (["Parameterisation", "User-defined", "a/b"], .constant 1.0)
    have hmem : hidden ∈ clash.values := by decide +kernel
    exact ⟨hidden, hmem, by decide +kernel⟩

end Document

end BatteryParams

import BatteryParams.Proofs.Document.RoundTrip
import BatteryParams.Proofs.Json.Doubles

/-!
# Nothing is lost, nothing invented

A tree that is read as a document without an issue is the tree that the document is written as, but
for the spelling of its numbers. This holds for every reader together with the writer of what it
reads (`Faithful`): for the rules of single entries, for a section if the record that it was read
from has, for each entry to be written, what is written there (`Record.Holds`), and for whole
documents.
-/

namespace BatteryParams

open Reading (clean)
open Record

/-! ### Readers and writers -/

/-- What is read from a tree is written as this tree, but for the spelling of numbers. -/
def Faithful {α : Type} (read : Path → Json → Reading α) (write : α → Json) : Prop :=
  ∀ path j a, j.Filed → read path j = clean a → (write a).asDoubles = j.asDoubles

namespace Record

/-- The entries of a record are filed, throughout. -/
def Filed (r : Record) : Prop := (Json.object r.members).Filed

/-- A record has under the key of a field what is to be written there. -/
def Holds (r : Record) (e : Written) : Prop :=
  (Named.find? e.1.key r.members).map Json.asDoubles = e.2.map Json.asDoubles

variable {α : Type} {r : Record} {f : Field} {read : Path → Json → Reading α} {write : α → Json}

theorem holds_of_required (hread : Faithful read write) (hr : r.Filed) {a : α}
    (h : r.required f read = clean a) : r.Holds (f, some (write a)) := by
  obtain ⟨j, hfind, hj⟩ := required_eq_clean.mp h
  have hfiled : j.Filed := Json.Filed.of_find? (Json.filed_object.mp hr).2 hfind
  have hwrite : (write a).asDoubles = j.asDoubles := hread _ j a hfiled hj
  rw [Holds, hfind, Option.map_some, Option.map_some, hwrite]

theorem holds_of_entry (hread : Faithful read write) (hr : r.Filed) {o : Option α}
    (h : r.entry f read = clean o) : r.Holds (f, o.map write) := by
  rcases entry_eq_clean.mp h with ⟨j, a, hfind, hj, rfl⟩ | ⟨hfind, -, rfl⟩
  · exact holds_of_required hread hr (required_eq_clean.mpr ⟨j, hfind, hj⟩)
  · rw [Holds, hfind]
    rfl

theorem exists_field_of_unknownIssues {path : Path} {fields : List Field}
    {members : List (String × Json)}
    (h : unknownIssues path fields members = []) : ∀ m ∈ members, ∃ f ∈ fields, f.key = m.1 := by
  intro m hm
  rw [unknownIssues, List.map_eq_nil_iff, List.filter_eq_nil_iff] at h
  simpa using h m hm

/-- A record whose keys all stand in a table is written as its object, if it holds all that is
written for the table. -/
theorem asDoubles_ofWritten {fields : List Field} {entries : List Written} (hr : r.Filed)
    (hunknown : unknownIssues r.path fields r.members = [])
    (hfields : ∀ f ∈ fields, f ∈ entries.map (·.1))
    (hkeys : (entries.map (·.1.key)).Nodup) (hholds : ∀ e ∈ entries, r.Holds e) :
    (Json.ofWritten entries).asDoubles = (Json.object r.members).asDoubles := by
  have hwritten : ∀ m ∈ (ofWritten [] entries .spm).members, m.1 ∈ entries.map (·.1.key) := by
    intro m hm
    exact (keys_sublist entries).subset (List.mem_map_of_mem (Named.mem_of_mem_ofList hm))
  have hread : ∀ m ∈ r.members, m.1 ∈ entries.map (·.1.key) := by
    intro m hm
    obtain ⟨f, hf, hkey⟩ := exists_field_of_unknownIssues hunknown m hm
    obtain ⟨e, he, rfl⟩ := List.mem_map.mp (hfields f hf)
    exact List.mem_map.mpr ⟨e, he, hkey⟩
  apply Json.asDoubles_object_eq (Named.ordered_ofList _) (Json.filed_object.mp hr).1 hwritten hread
  rw [List.forall_mem_map]
  intro e he
  have hfind : Named.find? e.1.key (ofWritten [] entries .spm).members = e.2 :=
    find?_ofWritten hkeys he
  exact (congrArg (Option.map Json.asDoubles) hfind).trans (hholds e he).symm

theorem unknownIssues_of_read {model : Model} {fields : List Field} {body : Record → Reading α}
    {path : Path} {j : Json} {a : α} (h : Record.read model fields body path j = clean a) :
    ∃ members, j = .object members ∧ unknownIssues path fields members = [] ∧
      body ⟨path, members, model⟩ = clean a := by
  cases j with
  | object members =>
    obtain ⟨hunknown, hbody⟩ := Reading.withIssues_eq_clean.mp h
    exact ⟨members, rfl, hunknown, hbody⟩
  | _ => exact absurd h Reading.issue_ne_clean

/-- A section with one table of fields. -/
theorem faithful_read {model : Model} {fields : List Field} {body : Record → Reading α}
    {written : α → List Written}
    (hfields : ∀ a, (written a).map (·.1) = fields) (hkeys : (fields.map (·.key)).Nodup)
    (hholds : ∀ r a, r.Filed → body r = clean a → ∀ e ∈ written a, r.Holds e) :
    Faithful (Record.read model fields body) fun a => Json.ofWritten (written a) := by
  intro path j a hfiled h
  obtain ⟨members, rfl, hunknown, hbody⟩ := unknownIssues_of_read h
  have hwrittenKeys : ((written a).map (·.1.key)).Nodup := by
    rw [← hfields a, List.map_map] at hkeys
    exact hkeys
  exact asDoubles_ofWritten (r := ⟨path, members, model⟩) hfiled hunknown
    (fun f hf => by rwa [hfields a]) hwrittenKeys (hholds ⟨path, members, model⟩ a hfiled hbody)

end Record

/-! ### Rules -/

namespace Rule

theorem faithful_number : Faithful number .ofFloat :=
  fun _ _ _ _ h => Json.asDoubles_of_toFloat? (expect_eq_clean.mp h)

theorem faithful_count : Faithful count fun n => .number (.natural n.toUInt64) :=
  fun _ _ _ _ h => Json.asDoubles_of_toCount? (expect_eq_clean.mp h)

theorem faithful_numberList : Faithful numberList .ofFloats :=
  fun _ _ _ _ h => Json.asDoubles_of_toFloats? (expect_eq_clean.mp h)

theorem faithful_text : Faithful text .string := by
  intro path j s _ h
  have htext : j.toText? = some s := expect_eq_clean.mp h
  cases j with
  | string s' =>
    cases htext
    rfl
  | _ => cases htext

theorem faithful_model : Faithful model fun m => .string m.name := by
  intro path j m _ h
  obtain ⟨name, rfl, hname⟩ := model_eq_clean.mp h
  have heq : m.name = name := by simpa using List.find?_some hname
  show (Json.string m.name).asDoubles = _
  rw [heq]

end Rule

theorem Version.asDoubles_toJson {j : Json} {v : Version} (h : ofJson j = .ok v) :
    v.toJson.asDoubles = j.asDoubles := by
  unfold ofJson at h
  split at h
  · split at h
    · cases h
      rfl
    · cases h
  · split at h
    · next hfinite =>
      cases h
      rw [toJson, Json.asDoubles_ofFloat hfinite, Json.asDoubles]
    · cases h
  · cases h

theorem Rule.faithful_version : Faithful version Version.toJson :=
  fun _ _ _ _ h => Version.asDoubles_toJson (version_eq_clean.mp h)

namespace Value

theorem source_of_parse {source : String} {f : Formula} (h : Formula.parse source = .ok f) :
    f.source = source := by
  unfold Formula.parse at h
  split at h
  · cases h
    rfl
  · cases h

theorem list_of_tableList {members : List (String × Json)} {key : String} {xs : List Float}
    (h : tableList members key = .ok xs) :
    ∃ items, Named.find? key members = some (.list items) ∧
      (Json.ofFloats xs).asDoubles = (Json.list items).asDoubles := by
  unfold tableList at h
  split at h
  · next items hfind =>
    split at h
    · next ys hys =>
      cases h
      exact ⟨items, hfind, Json.asDoubles_of_mapM hys⟩
    · cases h
  · cases h

theorem asDoubles_toJson {j : Json} {v : Value} (hj : j.Filed) (h : ofJson j = .ok v) :
    v.toJson.asDoubles = j.asDoubles := by
  unfold ofJson at h
  split at h
  · split at h
    · next hfinite =>
      cases h
      rw [toJson, Json.asDoubles_ofFloat hfinite, Json.asDoubles]
    · cases h
  · next source =>
    split at h
    · next f hf =>
      cases h
      rw [toJson, source_of_parse hf]
    · cases h
  · next members =>
    unfold ofMembers at h
    split at h
    · cases h
    · next hkeys =>
      obtain ⟨x, hx, h⟩ := ok_of_bind h
      obtain ⟨y, hy, h⟩ := ok_of_bind h
      split at h
      · next t ht =>
        cases h
        obtain ⟨rfl, rfl, -⟩ := Table.ofLists_eq_ok.mp ht
        obtain ⟨xs, hxs, hxsDoubles⟩ := list_of_tableList hx
        obtain ⟨ys, hys, hysDoubles⟩ := list_of_tableList hy
        have hordered : Named.Ordered [("x", Json.ofFloats t.x), ("y", Json.ofFloats t.y)] := by
          show ["x", "y"].Pairwise (· < ·)
          decide
        have hmembers : ∀ m ∈ members, m.1 ∈ ["x", "y"] := by
          intro m hm
          have hknown := List.find?_eq_none.mp hkeys m hm
          simpa [or_iff_not_imp_left] using hknown
        apply Json.asDoubles_object_eq hordered (Json.filed_object.mp hj).1 (by simp) hmembers
        simp only [List.forall_mem_cons]
        rw [hxs, hys, Option.map_some, Option.map_some, ← hxsDoubles, ← hysDoubles]
        exact ⟨rfl, rfl, List.forall_mem_nil _⟩
      · cases h
  · cases h

end Value

theorem Rule.faithful_value : Faithful value Value.toJson :=
  fun _ _ _ hj h => Value.asDoubles_toJson hj (value_eq_clean.mp h)

/-! ### Sections with one table of fields -/

theorem Header.faithful_read (model : Model) : Faithful (read model) toJson := by
  refine Record.faithful_read (fun _ => rfl) HeaderField.keys_nodup fun r h hr hbody => ?_
  rw [Reading.eq_clean_iff_yields] at hbody
  simp only [body, Reading.yields_seq, Reading.yields_map] at hbody
  obtain ⟨_, hversion, _, htitle, _, hdescription, _, hreferences, _, hmodel, rfl⟩ := hbody
  simp only [written, List.forall_mem_cons]
  exact ⟨holds_of_required Rule.faithful_version hr hversion,
    holds_of_entry Rule.faithful_text hr htitle,
    holds_of_entry Rule.faithful_text hr hdescription,
    holds_of_entry Rule.faithful_text hr hreferences,
    holds_of_required Rule.faithful_model hr hmodel, List.forall_mem_nil _⟩

theorem Cell.faithful_read (model : Model) : Faithful (read model) toJson := by
  refine Record.faithful_read (fun _ => rfl) CellField.keys_nodup fun r c hr hbody => ?_
  rw [Reading.eq_clean_iff_yields] at hbody
  simp only [body, Reading.yields_seq, Reading.yields_map] at hbody
  obtain ⟨_, harea, _, hsurface, _, hvolume, _, hpairs, _, hlower, _, hupper, _, hcapacity, _,
    hambient, _, hinitial, _, hreference, _, hdensity, _, hheat, _, hconductivity, rfl⟩ := hbody
  simp only [written, List.forall_mem_cons]
  exact ⟨holds_of_required Rule.faithful_number hr harea,
    holds_of_entry Rule.faithful_number hr hsurface,
    holds_of_entry Rule.faithful_number hr hvolume, holds_of_required Rule.faithful_count hr hpairs,
    holds_of_required Rule.faithful_number hr hlower,
    holds_of_required Rule.faithful_number hr hupper,
    holds_of_required Rule.faithful_number hr hcapacity,
    holds_of_required Rule.faithful_number hr hambient,
    holds_of_entry Rule.faithful_number hr hinitial,
    holds_of_entry Rule.faithful_number hr hreference,
    holds_of_entry Rule.faithful_number hr hdensity, holds_of_entry Rule.faithful_number hr hheat,
    holds_of_entry Rule.faithful_number hr hconductivity, List.forall_mem_nil _⟩

theorem Electrolyte.faithful_read (model : Model) : Faithful (read model) toJson := by
  refine Record.faithful_read (fun _ => rfl) ElectrolyteField.keys_nodup fun r e hr hbody => ?_
  rw [Reading.eq_clean_iff_yields] at hbody
  simp only [body, Reading.yields_seq, Reading.yields_map] at hbody
  obtain ⟨_, hconcentration, _, htransference, _, hdiffusivity, _, hdiffusivityEnergy, _,
    hconductivity, _, hconductivityEnergy, rfl⟩ := hbody
  simp only [written, List.forall_mem_cons]
  exact ⟨holds_of_required Rule.faithful_number hr hconcentration,
    holds_of_required Rule.faithful_number hr htransference,
    holds_of_required Rule.faithful_value hr hdiffusivity,
    holds_of_entry Rule.faithful_number hr hdiffusivityEnergy,
    holds_of_required Rule.faithful_value hr hconductivity,
    holds_of_entry Rule.faithful_number hr hconductivityEnergy, List.forall_mem_nil _⟩

/-- The entries of an active material stand in a record among others. -/
theorem Particle.holds_of_body {r : Record} {p : Particle} (hr : r.Filed) (h : body r = clean p) :
    ∀ e ∈ p.written, r.Holds e := by
  rw [Reading.eq_clean_iff_yields] at h
  simp only [body, Reading.yields_seq, Reading.yields_map] at h
  obtain ⟨_, hminimum, _, hmaximum, _, hconcentration, _, hradius, _, hsurface, _, hdiffusivity, _,
    hdiffusivityEnergy, _, hocp, _, hentropic, _, hreaction, _, hreactionEnergy, rfl⟩ := h
  simp only [written, List.forall_mem_cons]
  exact ⟨holds_of_required Rule.faithful_number hr hminimum,
    holds_of_required Rule.faithful_number hr hmaximum,
    holds_of_required Rule.faithful_number hr hconcentration,
    holds_of_required Rule.faithful_number hr hradius,
    holds_of_required Rule.faithful_number hr hsurface,
    holds_of_required Rule.faithful_value hr hdiffusivity,
    holds_of_entry Rule.faithful_number hr hdiffusivityEnergy,
    holds_of_required Rule.faithful_value hr hocp,
    holds_of_entry Rule.faithful_value hr hentropic,
    holds_of_required Rule.faithful_number hr hreaction,
    holds_of_entry Rule.faithful_number hr hreactionEnergy, List.forall_mem_nil _⟩

theorem Separator.faithful_read (model : Model) : Faithful (read model) toJson := by
  refine Record.faithful_read (fun _ => rfl) SeparatorField.keys_nodup fun r s hr hbody => ?_
  rw [Reading.eq_clean_iff_yields] at hbody
  simp only [body, Reading.yields_seq, Reading.yields_map] at hbody
  obtain ⟨_, hthickness, _, hporosity, _, hefficiency, rfl⟩ := hbody
  simp only [written, List.forall_mem_cons]
  exact ⟨holds_of_required Rule.faithful_number hr hthickness,
    holds_of_required Rule.faithful_number hr hporosity,
    holds_of_required Rule.faithful_number hr hefficiency, List.forall_mem_nil _⟩

theorem Experiment.faithful_read (model : Model) :
    Faithful (Record.read model ExperimentField.table body) toJson := by
  refine Record.faithful_read (fun _ => rfl) ExperimentField.keys_nodup fun r e hr hbody => ?_
  obtain ⟨time, current, voltage, temperature, htime, hcurrent, hvoltage, htemperature, hlists⟩ :=
    body_eq_clean.mp hbody
  obtain ⟨rfl, -⟩ := (ofLists_eq_ok (areFinite_of_required htime)).mp hlists
  simp only [written, List.forall_mem_cons]
  exact ⟨holds_of_required Rule.faithful_numberList hr htime,
    holds_of_required Rule.faithful_numberList hr hcurrent,
    holds_of_required Rule.faithful_numberList hr hvoltage,
    holds_of_entry Rule.faithful_numberList hr htemperature, List.forall_mem_nil _⟩

end BatteryParams

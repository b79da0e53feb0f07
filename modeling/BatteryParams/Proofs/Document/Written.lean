import BatteryParams.Document.Writer
import BatteryParams.Proofs.Named
import BatteryParams.Proofs.Value

/-!
# Reading what was written

`Record.ofWritten` is the record that a reader is given for an object of written entries. If the
entries have distinct keys that stand in the reader's tables, no key is unknown and the entry of
every field is found again.
-/

namespace BatteryParams

open Reading (clean)

namespace Record

/-- The record of written entries. -/
def ofWritten (path : Path) (entries : List Written) (model : Model) : Record :=
  ⟨path, Named.ofList (entries.filterMap fun e => e.2.map (e.1.key, ·)), model⟩

variable {α : Type} {path : Path} {entries : List Written} {model : Model} {f : Field}

theorem unknownIssues_ofWritten {fields : List Field} (hfields : ∀ e ∈ entries, e.1 ∈ fields) :
    unknownIssues path fields (ofWritten path entries model).members = [] := by
  simp only [unknownIssues, List.map_eq_nil_iff, List.filter_eq_nil_iff, Bool.not_eq_true',
    Bool.not_eq_false]
  intro m hm
  obtain ⟨e, he, hm⟩ := List.mem_filterMap.mp (Named.mem_of_mem_ofList hm)
  obtain ⟨j, -, rfl⟩ := Option.map_eq_some_iff.mp hm
  simpa using ⟨e.1, hfields e he, rfl⟩

theorem read_ofWritten {fields : List Field} {body : Record → Reading α}
    (hfields : ∀ e ∈ entries, e.1 ∈ fields) :
    Record.read model fields body path (Json.ofWritten entries) =
      body (ofWritten path entries model) := by
  show (body (ofWritten path entries model)).withIssues
    (unknownIssues path fields (ofWritten path entries model).members) = _
  rw [unknownIssues_ofWritten hfields]
  rfl

theorem keys_sublist (entries : List Written) :
    ((entries.filterMap fun e => e.2.map (e.1.key, ·)).map (·.1)).Sublist
      (entries.map (·.1.key)) := by
  induction entries with
  | nil => exact .slnil
  | cons e rest ih =>
    obtain ⟨f, o⟩ := e
    cases o with
    | none => exact ih.cons _
    | some j => exact ih.cons_cons _

theorem find?_ofWritten (hkeys : (entries.map (·.1.key)).Nodup) {o : Option Json}
    (hmem : (f, o) ∈ entries) : Named.find? f.key (ofWritten path entries model).members = o := by
  show Named.find? f.key (Named.ofList _) = o
  rw [Named.find?_ofList ((keys_sublist entries).nodup hkeys)]
  induction entries with
  | nil => cases hmem
  | cons e rest ih =>
    rw [List.map_cons, List.nodup_cons] at hkeys
    rcases List.mem_cons.mp hmem with rfl | hrest
    · cases o with
      | none => exact Named.find?_eq_none fun h => hkeys.1 ((keys_sublist rest).subset h)
      | some j => simp [Named.find?_cons]
    · have hne : e.1.key ≠ f.key := by
        intro heq
        exact hkeys.1 (List.mem_map.mpr ⟨_, hrest, heq.symm⟩)
      obtain ⟨f', o'⟩ := e
      cases o' with
      | none => exact ih hkeys.2 hrest
      | some j => exact (if_neg hne).trans (ih hkeys.2 hrest)

theorem member?_ofWritten_eq_none {key : String} (hkey : key ∉ entries.map (·.1.key)) :
    (Json.ofWritten entries).member? key = none := by
  refine Named.find?_eq_none fun h => hkey ?_
  obtain ⟨m, hm, rfl⟩ := List.mem_map.mp h
  exact (keys_sublist entries).subset (List.mem_map.mpr ⟨m, Named.mem_of_mem_ofList hm, rfl⟩)

theorem member?_ofWritten (hkeys : (entries.map (·.1.key)).Nodup) {o : Option Json}
    (hmem : (f, o) ∈ entries) : (Json.ofWritten entries).member? f.key = o := by
  show Named.find? f.key (ofWritten [] entries .spm).members = o
  exact find?_ofWritten hkeys hmem

theorem required_ofWritten {read : Path → Json → Reading α} {j : Json} {a : α}
    (hkeys : (entries.map (·.1.key)).Nodup)
    (hmem : (f, some j) ∈ entries) (hread : read (path ++ [f.key]) j = clean a) :
    (ofWritten path entries model).required f read = clean a :=
  required_eq_clean.mpr ⟨j, find?_ofWritten hkeys hmem, hread⟩

theorem entry_ofWritten {read : Path → Json → Reading α} {write : α → Json} {o : Option α}
    (hkeys : (entries.map (·.1.key)).Nodup) (hmem : (f, o.map write) ∈ entries)
    (hread : ∀ a ∈ o, read (path ++ [f.key]) (write a) = clean a)
    (hpresent : f.requirement.isRequired model = true → o.isSome = true) :
    (ofWritten path entries model).entry f read = clean o := by
  have hfind : Named.find? f.key (ofWritten path entries model).members = o.map write :=
    find?_ofWritten hkeys hmem
  cases o with
  | some a => exact entry_eq_clean.mpr (.inl ⟨_, a, hfind, hread a rfl, rfl⟩)
  | none =>
    refine entry_eq_clean.mpr (.inr ⟨hfind, ?_, rfl⟩)
    cases hrequired : f.requirement.isRequired model with
    | false => exact hrequired
    | true => exact absurd (hpresent hrequired) (by simp)

end Record

end BatteryParams

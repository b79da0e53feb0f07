import BatteryParams.Named

/-!
# Laws of named entries

Filing entries one after the other keeps each name's last value, so entries under distinct names are
all found again. The names stay in order, and in order the entries are decided by what is found
under each name.
-/

namespace BatteryParams.Named

variable {α : Type} {name other : String} {value : α} {entries : List (String × α)}

theorem find?_cons : find? name ((other, value) :: entries) = if other = name then some value
    else find? name entries :=
  rfl

theorem mem_of_find? (h : find? name entries = some value) : (name, value) ∈ entries := by
  induction entries with
  | nil => cases h
  | cons e rest ih =>
    obtain ⟨other, kept⟩ := e
    rw [find?_cons] at h
    split at h
    · next heq =>
      cases h
      simp [heq]
    · exact List.mem_cons_of_mem _ (ih h)

theorem find?_eq_none (h : name ∉ entries.map (·.1)) : find? name entries = none := by
  cases hfind : find? name entries with
  | none => rfl
  | some value => exact absurd (List.mem_map.mpr ⟨_, mem_of_find? hfind, rfl⟩) h

theorem find?_of_mem (hnodup : (entries.map (·.1)).Nodup) (h : (name, value) ∈ entries) :
    find? name entries = some value := by
  induction entries with
  | nil => cases h
  | cons e rest ih =>
    rw [List.map_cons, List.nodup_cons] at hnodup
    rcases List.mem_cons.mp h with rfl | hrest
    · exact if_pos rfl
    · have hne : e.1 ≠ name := fun heq => hnodup.1 (heq ▸ List.mem_map_of_mem hrest)
      exact (if_neg hne).trans (ih hnodup.2 hrest)

theorem find?_eq_some_iff (hnodup : (entries.map (·.1)).Nodup) :
    find? name entries = some value ↔ (name, value) ∈ entries := ⟨mem_of_find?, find?_of_mem hnodup⟩

theorem find?_eq_none_iff : find? name entries = none ↔ name ∉ entries.map (·.1) := by
  refine ⟨fun h hmem => ?_, find?_eq_none⟩
  induction entries with
  | nil => cases hmem
  | cons e rest ih =>
    obtain ⟨other, kept⟩ := e
    rw [find?_cons] at h
    split at h
    · cases h
    · next hne => exact ih h ((List.mem_cons.mp hmem).resolve_left fun heq => hne heq.symm)

/-- All entries but those under one name. -/
def without (name : String) (entries : List (String × α)) : List (String × α) :=
  entries.filter fun e => e.1 ≠ name

theorem find?_without (h : name ≠ other) :
    find? name (without other entries) = find? name entries := by
  induction entries with
  | nil => rfl
  | cons e rest ih =>
    obtain ⟨kept, keptValue⟩ := e
    rw [without] at ih ⊢
    rw [List.filter_cons, find?_cons]
    by_cases hkept : kept = name
    · subst hkept
      simp [h, find?_cons]
    · rw [if_neg hkept, ← ih]
      split
      · exact if_neg hkept
      · rfl

theorem find?_eq_of_without {entries' : List (String × α)}
    (hothers : without other entries' = without other entries)
    (h : name ≠ other) : find? name entries' = find? name entries := by
  rw [← find?_without h, hothers, find?_without h]

theorem find?_insert (filed : Named α) :
    find? name (insert other value filed) = if other = name then some value
      else find? name filed := by
  induction filed with
  | nil => rfl
  | cons e rest ih =>
    obtain ⟨kept, keptValue⟩ := e
    rw [insert]
    split
    · rfl
    · split
      · next heq =>
        subst heq
        simp only [find?_cons]
        split <;> rfl
      · next hne =>
        simp only [find?_cons, ih]
        split
        · next hkept =>
          subst hkept
          rw [if_neg hne]
        · rfl

theorem without_cons : without name ((other, value) :: entries) =
    if other = name then without name entries else (other, value) :: without name entries := by
  simp only [without, List.filter_cons]
  by_cases h : other = name <;> simp [h]

theorem without_insert (filed : Named α) :
    without name (insert name value filed) = without name filed := by
  induction filed with
  | nil => simp [insert, without]
  | cons e rest ih =>
    obtain ⟨other, kept⟩ := e
    rw [insert]
    split
    · rw [without_cons, if_pos rfl]
    · split
      · next heq => rw [without_cons, if_pos rfl, without_cons, if_pos heq.symm]
      · rw [without_cons, without_cons, ih]

theorem mem_insert {filed : Named α} {e : String × α} (h : e ∈ insert name value filed) :
    e = (name, value) ∨ e ∈ filed := by
  induction filed with
  | nil => exact .inl (List.mem_singleton.mp h)
  | cons kept rest ih =>
    obtain ⟨other, keptValue⟩ := kept
    rw [insert] at h
    split at h
    · exact List.mem_cons.mp h
    · split at h
      · rcases List.mem_cons.mp h with h | h
        · exact .inl h
        · exact .inr (List.mem_cons_of_mem _ h)
      · rcases List.mem_cons.mp h with h | h
        · exact .inr (h ▸ List.mem_cons_self)
        · exact (ih h).imp id (List.mem_cons_of_mem _)

theorem find?_foldl (hnodup : (entries.map (·.1)).Nodup) (filed : Named α) :
    find? name (entries.foldl (fun filed e => insert e.1 e.2 filed) filed) =
      (find? name entries).or (find? name filed) := by
  induction entries generalizing filed with
  | nil => rfl
  | cons e rest ih =>
    obtain ⟨other, value⟩ := e
    rw [List.map_cons, List.nodup_cons] at hnodup
    rw [List.foldl_cons, ih hnodup.2, find?_insert, find?_cons]
    split
    · next heq =>
      subst heq
      rw [find?_eq_none hnodup.1]
      rfl
    · rfl

theorem find?_ofList (hnodup : (entries.map (·.1)).Nodup) :
    find? name (ofList entries) = find? name entries := by
  show find? name (entries.foldl (fun filed e => insert e.1 e.2 filed) []) = _
  rw [find?_foldl hnodup]
  exact Option.or_none

theorem mem_foldl {filed : Named α} {e : String × α}
    (h : e ∈ entries.foldl (fun filed e => insert e.1 e.2 filed) filed) :
    e ∈ entries ∨ e ∈ filed := by
  induction entries generalizing filed with
  | nil => exact .inr h
  | cons first rest ih =>
    rcases ih h with h | h
    · exact .inl (List.mem_cons_of_mem _ h)
    · rcases mem_insert h with rfl | h
      · exact .inl List.mem_cons_self
      · exact .inr h

theorem mem_of_mem_ofList {e : String × α} (h : e ∈ ofList entries) : e ∈ entries := by
  have hfiled : e ∈ entries ∨ e ∈ ([] : Named α) := mem_foldl h
  simpa using hfiled

/-! ### Names in order -/

theorem ordered_cons {filed : Named α} :
    Ordered ((name, value) :: filed) ↔ (∀ e ∈ filed, name < e.1) ∧ Ordered filed := by
  rw [Ordered, names, List.map_cons, List.pairwise_cons, List.forall_mem_map]
  rfl

theorem nodup_of_ordered {filed : Named α} (h : Ordered filed) : (filed.map (·.1)).Nodup := by
  have hnames : (filed.map (·.1)).Pairwise (· < ·) := h
  refine hnames.imp fun {name other} hlt heq => ?_
  rw [heq] at hlt
  exact String.lt_irrefl other hlt

theorem ordered_insert {filed : Named α} (h : Ordered filed) :
    Ordered (insert name value filed) := by
  induction filed with
  | nil => exact ordered_cons.mpr ⟨nofun, h⟩
  | cons e rest ih =>
    obtain ⟨other, kept⟩ := e
    obtain ⟨hbefore, hrest⟩ := ordered_cons.mp h
    rw [insert]
    by_cases hlt : name < other
    · rw [if_pos hlt]
      refine ordered_cons.mpr ⟨?_, h⟩
      exact List.forall_mem_cons.mpr ⟨hlt, fun e he => String.lt_trans hlt (hbefore e he)⟩
    · rw [if_neg hlt]
      by_cases heq : name = other
      · subst heq
        rw [if_pos rfl]
        exact ordered_cons.mpr ⟨hbefore, hrest⟩
      · rw [if_neg heq]
        refine ordered_cons.mpr ⟨fun e he => ?_, ih hrest⟩
        rcases mem_insert he with rfl | he
        · exact Std.lt_of_le_of_ne (String.not_lt.mp hlt) (Ne.symm heq)
        · exact hbefore e he

theorem ordered_foldl {filed : Named α} (h : Ordered filed) :
    Ordered (entries.foldl (fun filed e => insert e.1 e.2 filed) filed) := by
  induction entries generalizing filed with
  | nil => exact h
  | cons e rest ih => exact ih (ordered_insert h)

theorem ordered_ofList (entries : List (String × α)) : Ordered (ofList entries) :=
  ordered_foldl List.Pairwise.nil

theorem find?_map {β : Type} (f : α → β) (entries : List (String × α)) :
    find? name (entries.map fun e => (e.1, f e.2)) = (find? name entries).map f := by
  induction entries with
  | nil => rfl
  | cons e rest ih =>
    obtain ⟨other, value⟩ := e
    rw [List.map_cons, find?_cons, find?_cons, ih]
    split <;> rfl

theorem ordered_map {β : Type} (f : α → β) {filed : Named α} :
    Ordered (filed.map fun e => (e.1, f e.2)) ↔ Ordered filed := by
  rw [Ordered, Ordered, names, names, List.map_map]
  rfl

theorem find?_eq_none_of_lt {filed : Named α} (h : ∀ e ∈ filed, name < e.1) :
    find? name filed = none := by
  refine find?_eq_none fun hmem => ?_
  obtain ⟨e, he, heq⟩ := List.mem_map.mp hmem
  have hlt : name < e.1 := h e he
  rw [heq] at hlt
  exact String.lt_irrefl name hlt

theorem find?_head (name : String) (value : α) (rest : List (String × α)) :
    find? name ((name, value) :: rest) = some value := if_pos rfl

/-- Nothing is filed under a name that comes before the first one. -/
theorem not_lt_of_find? {filed : Named α} {kept : α} (h : Ordered ((other, kept) :: filed))
    (hfind : find? name ((other, kept) :: filed) = some value) : ¬name < other := by
  intro hlt
  obtain ⟨hbefore, -⟩ := ordered_cons.mp h
  have hnone : find? name ((other, kept) :: filed) = none :=
    find?_eq_none_of_lt
      (List.forall_mem_cons.mpr ⟨hlt, fun e he => String.lt_trans hlt (hbefore e he)⟩)
  rw [hfind] at hnone
  cases hnone

/-- In order, what is filed under each name decides the entries. -/
theorem eq_of_find?_eq {filed others : Named α} (hfiled : Ordered filed) (hothers : Ordered others)
    (h : ∀ name, find? name filed = find? name others) : filed = others := by
  induction filed generalizing others with
  | nil =>
    cases others with
    | nil => rfl
    | cons e rest =>
      have hhead := h e.1
      rw [find?_head] at hhead
      cases hhead
  | cons e rest ih =>
    cases others with
    | nil =>
      have hhead := h e.1
      rw [find?_head] at hhead
      cases hhead
    | cons e' rest' =>
      obtain ⟨name, value⟩ := e
      obtain ⟨name', value'⟩ := e'
      obtain ⟨hbefore, hrest⟩ := ordered_cons.mp hfiled
      obtain ⟨hbefore', hrest'⟩ := ordered_cons.mp hothers
      have hhead := h name
      have hhead' := h name'
      rw [find?_head] at hhead hhead'
      -- neither first name comes before the other one
      have hname : name = name' := by
        have hle := String.not_lt.mp (not_lt_of_find? hothers hhead.symm)
        have hle' := String.not_lt.mp (not_lt_of_find? hfiled hhead')
        exact String.le_antisymm hle' hle
      subst hname
      rw [find?_head] at hhead
      have htail : ∀ other, find? other rest = find? other rest' := by
        intro other
        by_cases hother : name = other
        · subst hother
          rw [find?_eq_none_of_lt hbefore, find?_eq_none_of_lt hbefore']
        · have hfind := h other
          rwa [find?_cons, find?_cons, if_neg hother, if_neg hother] at hfind
      rw [Option.some.inj hhead, ih hrest hrest' htail]

end BatteryParams.Named

import BatteryParams.Json.Parser
import BatteryParams.Proofs.Named

/-!
# Filed trees

The members of an object are filed by name: each name once, in order. A `Json` can be put together
otherwise, but whatever is read from a text is filed throughout, since members are filed as they are
read.
-/

namespace BatteryParams.Json

/-- In every object of a tree the members stand in the order of their names, each name once. -/
inductive Filed : Json → Prop
  | null : Filed .null
  | bool (b : Bool) : Filed (.bool b)
  | number (n : Number) : Filed (.number n)
  | string (s : String) : Filed (.string s)
  | list {items : List Json} (h : ∀ j ∈ items, Filed j) : Filed (.list items)
  | object {members : List (String × Json)} (hordered : Named.Ordered members) (h : ∀ m ∈ members,
      Filed m.2) : Filed (.object members)

theorem filed_list {items : List Json} : (list items).Filed ↔ ∀ j ∈ items, j.Filed := by
  constructor
  · intro hfiled
    cases hfiled with
    | list h => exact h
  · exact .list

theorem filed_object {members : List (String × Json)} :
    (object members).Filed ↔ Named.Ordered members ∧ ∀ m ∈ members, m.2.Filed := by
  constructor
  · intro hfiled
    cases hfiled with
    | object hordered h => exact ⟨hordered, h⟩
  · rintro ⟨hordered, h⟩
    exact .object hordered h

theorem Filed.of_find? {members : List (String × Json)} {key : String} {j : Json}
    (h : ∀ m ∈ members, m.2.Filed)
    (hfind : Named.find? key members = some j) : j.Filed := h _ (Named.mem_of_find? hfind)

theorem filed_ofMembers {members : List (String × Json)} (h : ∀ m ∈ members, m.2.Filed) :
    (ofMembers members).Filed :=
  .object (Named.ordered_ofList members) fun m hm => h m (Named.mem_of_mem_ofList hm)

mutual

def decidableFiled : (j : Json) → Decidable j.Filed
  | .null => isTrue .null
  | .bool b => isTrue (.bool b)
  | .number n => isTrue (.number n)
  | .string s => isTrue (.string s)
  | .list items =>
    have := decidableItems items
    decidable_of_iff _ filed_list.symm
  | .object members =>
    have := decidableMembers members
    have : Decidable (Named.Ordered members) := inferInstanceAs (Decidable (List.Pairwise _ _))
    decidable_of_iff _ filed_object.symm

def decidableItems : (items : List Json) → Decidable (∀ j ∈ items, j.Filed)
  | [] => isTrue nofun
  | j :: rest =>
    have := decidableFiled j
    have := decidableItems rest
    decidable_of_iff _ List.forall_mem_cons.symm

def decidableMembers : (members : List (String × Json)) → Decidable (∀ m ∈ members, m.2.Filed)
  | [] => isTrue nofun
  | (_, j) :: rest =>
    have := decidableFiled j
    have := decidableMembers rest
    decidable_of_iff _ List.forall_mem_cons.symm

end

instance : DecidablePred Filed := decidableFiled

/-! ### Reading -/

/-- A reader of filed trees. -/
def ReadsFiled (value : Reader Json) : Prop :=
  ∀ text j after, value text = some (j, after) → j.Filed

theorem readsFiled_scalar? : ReadsFiled scalar? := by
  intro text j after h
  unfold scalar? at h
  split at h
  · cases h
    exact .null
  · cases h
    exact .bool true
  · cases h
    exact .bool false
  · obtain ⟨s, -, h⟩ := Option.map_eq_some_iff.mp h
    cases h
    exact .string _
  · obtain ⟨n, -, h⟩ := Option.map_eq_some_iff.mp h
    cases h
    exact .number _

theorem filed_of_items? {value : Reader Json} (hvalue : ReadsFiled value)
    {ahead text after : List Char}
    {items : List Json} (h : items? value ahead text = some (items, after)) :
    ∀ j ∈ items, j.Filed := by
  induction ahead generalizing text items with
  | nil => cases h
  | cons c ahead ih =>
    rw [items?] at h
    obtain ⟨⟨item, rest⟩, hitem, h⟩ := Option.bind_eq_some_iff.mp h
    have hfirst : item.Filed := hvalue text item rest hitem
    dsimp only at h
    split at h
    · obtain ⟨⟨more, after'⟩, hmore, h⟩ := Option.map_eq_some_iff.mp h
      cases h
      exact List.forall_mem_cons.mpr ⟨hfirst, ih hmore⟩
    · cases h
      exact List.forall_mem_singleton.mpr hfirst
    · cases h

theorem filed_of_members? {value : Reader Json} (hvalue : ReadsFiled value)
    {ahead text after : List Char}
    {members : List (String × Json)} (h : members? value ahead text = some (members, after)) :
    ∀ m ∈ members, m.2.Filed := by
  induction ahead generalizing text members with
  | nil => cases h
  | cons c ahead ih =>
    rw [members?] at h
    obtain ⟨⟨key, text'⟩, -, h⟩ := Option.bind_eq_some_iff.mp h
    obtain ⟨⟨member, rest⟩, hmember, h⟩ := Option.bind_eq_some_iff.mp h
    have hfirst : member.Filed := hvalue text' member rest hmember
    dsimp only at h
    split at h
    · obtain ⟨⟨more, after'⟩, hmore, h⟩ := Option.map_eq_some_iff.mp h
      cases h
      exact List.forall_mem_cons.mpr ⟨hfirst, ih hmore⟩
    · cases h
      exact List.forall_mem_singleton.mpr hfirst
    · cases h

theorem readsFiled_value? (depth : Nat) : ReadsFiled (value? depth) := by
  induction depth with
  | zero => exact fun text => readsFiled_scalar? (skipBlanks text)
  | succ depth ih =>
    intro text j after h
    rw [value?] at h
    split at h
    · split at h
      · cases h
        exact .list nofun
      · obtain ⟨⟨items, after'⟩, hitems, h⟩ := Option.map_eq_some_iff.mp h
        cases h
        exact .list (filed_of_items? ih hitems)
    · split at h
      · cases h
        exact .object .nil nofun
      · obtain ⟨⟨members, after'⟩, hmembers, h⟩ := Option.map_eq_some_iff.mp h
        cases h
        exact filed_ofMembers (filed_of_members? ih hmembers)
    · exact readsFiled_scalar? _ j after h

/-- Whatever is read from a text is filed throughout. -/
theorem filed_of_parse? {text : String} {j : Json} (h : parse? text = some j) : j.Filed := by
  unfold parse? parseWithin? at h
  split at h
  · next j' rest hvalue =>
    split at h
    · cases h
      exact readsFiled_value? nestingLimit _ _ _ hvalue
    · cases h
  · cases h

end BatteryParams.Json

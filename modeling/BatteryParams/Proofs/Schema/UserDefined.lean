import BatteryParams.Proofs.Json.Place
import BatteryParams.Proofs.Schema.Sections

/-!
# The description of the user's own parameters

The description of the user's own parameters refers to itself, as groups stand in groups. Whatever
the reader takes for a table, a group or a text is described as one; but an object that has an `x`
or a `y` and is no table is still described as a group, and the reader refuses it for its shape.
This is the only gap, and it is found by recursion over the tree.
-/

namespace BatteryParams

open Reading (check)
open Json (TypeName)

/-- Somewhere at or below a node there is an object with an `x` or a `y` that is no list. -/
def Json.HasStrayAxis (j : Json) : Prop :=
  ∃ names, ∃ key ∈ ["x", "y"], ∃ inner, j.follow? (names ++ [key]) = some inner ∧
    ∀ items, inner ≠ .list items

namespace Json

variable {j : Json} {members : List (String × Json)}

theorem not_hasStrayAxis_of_leaf (h : ∀ members, j ≠ .object members) : ¬j.HasStrayAxis := by
  rintro ⟨names, key, -, inner, hfollow, -⟩
  cases names with
  | nil =>
    obtain ⟨members, -, hj, -⟩ := follow?_cons_eq_some.mp hfollow
    exact h members hj
  | cons name rest =>
    obtain ⟨members, -, hj, -⟩ := follow?_cons_eq_some.mp hfollow
    exact h members hj

/-- An object has a stray axis itself, or a member of it does. -/
theorem hasStrayAxis_object (hordered : Named.Ordered members) :
    (object members).HasStrayAxis ↔
      (∃ key ∈ ["x", "y"], ∃ inner, Named.find? key members = some inner ∧ ∀ items,
        inner ≠ .list items) ∨
        ∃ m ∈ members, m.2.HasStrayAxis := by
  constructor
  · rintro ⟨names, key, hkey, inner, hfollow, hlist⟩
    cases names with
    | nil =>
      rw [List.nil_append, follow?_single] at hfollow
      exact .inl ⟨key, hkey, inner, hfollow, hlist⟩
    | cons name rest =>
      obtain ⟨_, node, hobject, hfind, hrest⟩ := follow?_cons_eq_some.mp hfollow
      cases hobject
      exact .inr ⟨_, Named.mem_of_find? hfind, rest, key, hkey, inner, hrest, hlist⟩
  · rintro (⟨key, hkey, inner, hfind, hlist⟩ | ⟨⟨name, node⟩, hm, names, key, hkey, inner, hfollow,
      hlist⟩)
    · exact ⟨[], key, hkey, inner, (follow?_single key _).trans hfind, hlist⟩
    · have hfind := Named.find?_of_mem (Named.nodup_of_ordered hordered) hm
      exact ⟨name :: names, key, hkey, inner, (follow?_object hfind).trans hfollow, hlist⟩

end Json

namespace UserParameter

variable {hops : Nat} {key : String} {path : Path} {j : Json} {members : List (String × Json)}

/-- What the description asks of an entry under a name. -/
def Described (key : String) (j : Json) : Prop :=
  if key = descriptionKey then ∃ s, j = .string s
  else (Schema.ref "Value").Describes Schema.reach j ∨
    (Schema.ref "UserDefined").Describes Schema.reach j

theorem describes_iff :
    Schema.userDefined.Describes hops j ↔ ∃ members, j = .object members ∧
      ∀ m ∈ members, Described m.1 m.2 := by
  have hmember (name : String) (inner : Json) :
      Schema.AdmitsMember documentSchema.toJson [("description", .string)]
        (some (.anyOf [.ref "Value", .ref "UserDefined"])) name inner ↔ Described name inner := by
    have hother : (Schema.anyOf [.ref "Value", .ref "UserDefined"]).Describes Schema.reach inner ↔
        (Schema.ref "Value").Describes Schema.reach inner ∨
          (Schema.ref "UserDefined").Describes Schema.reach inner := by
      refine Schema.admits_anyOf.trans ?_
      simp only [List.mem_cons, List.not_mem_nil, or_false, exists_eq_or_imp, exists_eq_left]
      exact Iff.rfl
    have htext : Schema.string.Describes Schema.reach inner ↔ ∃ s, inner = .string s := by
      refine Schema.admits_string.trans ?_
      cases inner <;> simp [TypeName.Has]
    rw [Schema.AdmitsMember, Described, Named.find?_cons]
    by_cases hname : "description" = name
    · have hkey : name = descriptionKey := hname.symm
      rw [if_pos hname, if_pos hkey]
      exact htext
    · have hkey : name ≠ descriptionKey := Ne.symm hname
      rw [if_neg hname, if_neg hkey]
      simp only [Named.find?, Option.mem_def, Option.some_inj, exists_eq_left']
      exact hother
  refine (Schema.admits_object (by decide)).trans ?_
  simp [hmember]

theorem describes_ref_iff :
    (Schema.ref "UserDefined").Describes (hops + 1) j ↔
      ∃ members, j = .object members ∧ ∀ m ∈ members, Described m.1 m.2 :=
  (Schema.describes_ref rfl (by decide)).trans describes_iff

/-- A described entry is a scalar, a table or a group. -/
theorem described_cases (h : Described key j) :
    ((∀ members, j ≠ .object members) ∧ ∀ items, j ≠ .list items) ∨ Schema.IsTable j ∨
      ∃ members, j = .object members ∧ ∀ m ∈ members, Described m.1 m.2 := by
  rw [Described] at h
  split at h
  · obtain ⟨s, rfl⟩ := h
    exact .inl ⟨by simp, by simp⟩
  · rcases h with hvalue | hown
    · rcases Schema.describes_value.mp hvalue with hnumber | ⟨s, rfl⟩ | htable
      · refine .inl ⟨?_, ?_⟩
        · rintro members rfl
          exact hnumber
        · rintro items rfl
          exact hnumber
      · exact .inl ⟨by simp, by simp⟩
      · exact .inr (.inl htable)
    · exact .inr (.inr (describes_ref_iff.mp hown))

/-! ### Reading one entry -/

theorem described_of_leaf (hj : ∀ members, j ≠ .object members) (hfiled : j.Filed)
    (h : (read path key j).issues = []) : Described key j := by
  rw [read_leaf hj] at h
  rw [Described]
  split at h
  · next hkey =>
    have htext : j.toText?.isSome = true := Schema.check_expect_eq_nil.mp h
    rw [if_pos hkey]
    cases j with
    | string s => exact ⟨s, rfl⟩
    | _ => cases htext
  · next hkey =>
    rw [if_neg hkey]
    exact .inl (Schema.fits_ref_value.describes path j hfiled h)

/-- What is read without an issue is described, by recursion over the tree. -/
theorem described_of_read (hfiled : j.Filed) (h : (read path key j).issues = []) :
    Described key j := by
  induction hfiled generalizing path key with
  | null => exact described_of_leaf (by simp) .null h
  | bool b => exact described_of_leaf (by simp) (.bool b) h
  | number n => exact described_of_leaf (by simp) (.number n) h
  | string s => exact described_of_leaf (by simp) (.string s) h
  | list hitems => exact described_of_leaf (by simp) (.list hitems) h
  | @object members hordered hmembers ih =>
    by_cases hkey : key = descriptionKey
    · simp only [read, if_pos hkey] at h
      cases h
    · rw [Described, if_neg hkey]
      by_cases htable : looksLikeTable members = true
      · rw [read_table hkey htable] at h
        exact .inl (Schema.fits_ref_value.describes path _ (.object hordered hmembers) h)
      · rw [read_group hkey (Bool.not_eq_true _ ▸ htable), Reading.issues_map, issues_readGroup,
          List.flatMap_eq_nil_iff] at h
        exact .inr (describes_ref_iff.mpr ⟨members, rfl, fun m hm => ih m hm (h m hm)⟩)

theorem left_of_leaf (hleaf : ∀ members, j ≠ .object members) (hfiled : j.Filed)
    (hj : Described key j) : ∀ i ∈ (read path key j).issues, i.cause.LeftToReader := by
  rw [Described] at hj
  rw [read_leaf hleaf]
  split at hj
  · next hkey =>
    obtain ⟨s, rfl⟩ := hj
    rw [if_pos hkey]
    exact List.forall_mem_nil _
  · next hkey =>
    rw [if_neg hkey]
    rcases hj with hvalue | hown
    · exact (Schema.fits_ref_value.left_iff path j hfiled hvalue).mpr id
    · obtain ⟨members, hobject, -⟩ := describes_ref_iff.mp hown
      exact absurd hobject (hleaf members)

theorem looksLikeTable_of_isTable (h : Schema.IsTable (.object members)) :
    looksLikeTable members = true := by
  obtain ⟨_, hobject, -, hkeys⟩ := h
  cases hobject
  obtain ⟨inner, hfind⟩ := Option.isSome_iff_exists.mp (hkeys "x" (by simp))
  exact List.any_eq_true.mpr ⟨_, Named.mem_of_find? hfind, rfl⟩

theorem left_of_table (htable : Schema.IsTable (.object members)) :
    ∀ i ∈ check Rule.value path (.object members), i.cause.LeftToReader :=
  Schema.left_value_iff.mpr (Value.ofJson_ne_shape (.inr (.inr htable)))

theorem not_stray_of_table (hordered : Named.Ordered members)
    (htable : Schema.IsTable (.object members)) : ¬(Json.object members).HasStrayAxis := by
  obtain ⟨_, hobject, hlists, -⟩ := htable
  cases hobject
  rw [Json.hasStrayAxis_object hordered]
  rintro (⟨key, -, inner, hfind, hlist⟩ | ⟨m, hm, hstray⟩)
  · obtain ⟨-, items, hitems, -⟩ := hlists _ (Named.mem_of_find? hfind)
    exact hlist items hitems
  · obtain ⟨-, items, hitems, -⟩ := hlists m hm
    exact Json.not_hasStrayAxis_of_leaf (by simp [hitems]) hstray

theorem not_list_of_described (h : Described key j) (items : List Json) : j ≠ .list items := by
  rintro rfl
  rcases described_cases h with ⟨-, hlist⟩ | ⟨members, hobject, -⟩ | ⟨members, hobject, -⟩
  · exact hlist items rfl
  · cases hobject
  · cases hobject

/-- What is described as a group but taken for a table has a stray axis, and is refused for its
shape. -/
theorem stray_of_group (hordered : Named.Ordered members)
    (hmembers : ∀ m ∈ members, Described m.1 m.2) (htable : looksLikeTable members = true) :
    (∃ i ∈ check Rule.value path (.object members), ¬i.cause.LeftToReader) ∧
      (Json.object members).HasStrayAxis := by
  obtain ⟨⟨name, inner⟩, hm, hname⟩ := List.any_eq_true.mp htable
  have haxis : name ∈ ["x", "y"] := by simpa using hname
  have hfind : Named.find? name members = some inner :=
    Named.find?_of_mem (Named.nodup_of_ordered hordered) hm
  have hlist : ∀ items, inner ≠ .list items := not_list_of_described (hmembers _ hm)
  constructor
  · by_contra hall
    push Not at hall
    obtain ⟨items, hitems⟩ := Value.lists_of_ne_shape (Schema.left_value_iff.mp hall) name haxis
    exact hlist items (Option.some.inj (hfind.symm.trans hitems))
  · exact (Json.hasStrayAxis_object hordered).mpr (.inl ⟨name, haxis, inner, hfind, hlist⟩)

theorem left_readGroup_iff
    (h : ∀ m ∈ members, (∀ i ∈ (read (path ++ [m.1]) m.1 m.2).issues, i.cause.LeftToReader) ↔
      ¬m.2.HasStrayAxis) :
    (∀ i ∈ (readGroup path members).issues, i.cause.LeftToReader) ↔
      ¬∃ m ∈ members, m.2.HasStrayAxis := by
  rw [issues_readGroup, List.forall_mem_flatMap, forall₂_congr h]
  push Not
  exact Iff.rfl

theorem hasStrayAxis_of_group (hordered : Named.Ordered members)
    (htable : looksLikeTable members = false) :
    (Json.object members).HasStrayAxis ↔ ∃ m ∈ members, m.2.HasStrayAxis := by
  rw [Json.hasStrayAxis_object hordered, or_iff_right]
  rintro ⟨key, hkey, inner, hfind, -⟩
  have hname :=
    looksLikeTable_eq_false_iff.mp htable key (List.mem_map_of_mem (Named.mem_of_find? hfind))
  simp [hname.1, hname.2] at hkey

/-- Of a described entry only issues left to the reader are reported, unless it has a stray axis. By
recursion over the tree: an object is a table, or a group whose entries are judged one by one, or
has a stray axis of its own. -/
theorem left_read_iff (hfiled : j.Filed) (hj : Described key j) :
    (∀ i ∈ (read path key j).issues, i.cause.LeftToReader) ↔ ¬j.HasStrayAxis := by
  induction hfiled generalizing path key with
  | null =>
    exact iff_of_true (left_of_leaf (by simp) .null hj) (Json.not_hasStrayAxis_of_leaf (by simp))
  | bool b =>
    exact iff_of_true (left_of_leaf (by simp) (.bool b) hj)
      (Json.not_hasStrayAxis_of_leaf (by simp))
  | number n =>
    exact iff_of_true (left_of_leaf (by simp) (.number n) hj)
      (Json.not_hasStrayAxis_of_leaf (by simp))
  | string s =>
    exact iff_of_true (left_of_leaf (by simp) (.string s) hj)
      (Json.not_hasStrayAxis_of_leaf (by simp))
  | list hitems =>
    exact iff_of_true (left_of_leaf (by simp) (.list hitems) hj)
      (Json.not_hasStrayAxis_of_leaf (by simp))
  | @object members hordered hmembers ih =>
    by_cases hkey : key = descriptionKey
    · rw [Described, if_pos hkey] at hj
      obtain ⟨s, hs⟩ := hj
      cases hs
    · rcases described_cases hj with ⟨hleaf, -⟩ | htable | ⟨_, hobject, hentries⟩
      · exact absurd rfl (hleaf members)
      · rw [read_table hkey (looksLikeTable_of_isTable htable)]
        exact iff_of_true (left_of_table htable) (not_stray_of_table hordered htable)
      · cases hobject
        by_cases htable : looksLikeTable members = true
        · obtain ⟨⟨i, hi, hleft⟩, hstray⟩ := stray_of_group hordered hentries htable
          rw [read_table hkey htable]
          exact iff_of_false (fun hall => hleft (hall i hi)) fun hnot => hnot hstray
        · rw [Bool.not_eq_true] at htable
          rw [read_group hkey htable, Reading.issues_map, hasStrayAxis_of_group hordered htable]
          exact left_readGroup_iff fun m hm => ih m hm (hentries m hm)

/-- An entry of the user's own parameters, at any depth, that has a stray axis. -/
def StrayEntry (j : Json) : Prop := ∃ name inner, j.member? name = some inner ∧ inner.HasStrayAxis

theorem fits_readAll : Schema.Fits hops Schema.userDefined (check readAll) StrayEntry where
  describes := by
    intro path j hfiled hcheck
    cases j with
    | object members =>
      have hmembers := (Json.filed_object.mp hfiled).2
      have hissues : (readGroup path members).issues = [] := hcheck
      rw [issues_readGroup, List.flatMap_eq_nil_iff] at hissues
      exact describes_iff.mpr ⟨members, rfl,
        fun m hm => described_of_read (hmembers m hm) (hissues m hm)⟩
    | _ => cases hcheck
  left_iff := by
    intro path j hfiled hj
    obtain ⟨members, rfl, hentries⟩ := describes_iff.mp hj
    obtain ⟨hordered, hmembers⟩ := Json.filed_object.mp hfiled
    have hgap : StrayEntry (.object members) ↔ ∃ m ∈ members, m.2.HasStrayAxis := by
      constructor
      · rintro ⟨name, inner, hfind, hstray⟩
        exact ⟨_, Named.mem_of_find? hfind, hstray⟩
      · rintro ⟨⟨name, inner⟩, hm, hstray⟩
        exact ⟨name, inner, Named.find?_of_mem (Named.nodup_of_ordered hordered) hm, hstray⟩
    rw [hgap]
    exact left_readGroup_iff fun m hm => left_read_iff (hmembers m hm) (hentries m hm)

/-! ### Groups within groups -/

theorem follow?_ne_object (hleaf : ∀ members, j ≠ .object members) {names : List String} :
    j.follow? names ≠ some (.object members) := by
  intro hfollow
  cases names with
  | nil => exact hleaf members (Option.some.inj hfollow)
  | cons name rest =>
    obtain ⟨outer, -, hj, -⟩ := Json.follow?_cons_eq_some.mp hfollow
    exact hleaf outer hj

/-- Every object below described parameters is described, as a group or as a table. -/
theorem describes_below {names : List String}
    (hj : (Schema.ref "UserDefined").Describes Schema.reach j ∨ Schema.IsTable j)
    (hfollow : j.follow? names = some (.object members)) :
    (Schema.ref "UserDefined").Describes Schema.reach (.object members) ∨
      Schema.IsTable (.object members) := by
  induction names generalizing j with
  | nil =>
    cases hfollow
    exact hj
  | cons name rest ih =>
    obtain ⟨outer, inner, rfl, hfind, hrest⟩ := Json.follow?_cons_eq_some.mp hfollow
    have hmem := Named.mem_of_find? hfind
    rcases hj with hown | ⟨_, hobject, hlists, -⟩
    · obtain ⟨_, hobject, hentries⟩ := describes_ref_iff.mp hown
      cases hobject
      rcases described_cases (hentries _ hmem) with ⟨hleaf, -⟩ | htable | hgroup
      · exact absurd hrest (follow?_ne_object hleaf)
      · exact ih (.inr htable) hrest
      · exact ih (.inl (describes_ref_iff.mpr hgroup)) hrest
    · cases hobject
      obtain ⟨-, items, hitems, -⟩ := hlists _ hmem
      cases hitems
      exact absurd hrest (follow?_ne_object (by simp))

end UserParameter

end BatteryParams

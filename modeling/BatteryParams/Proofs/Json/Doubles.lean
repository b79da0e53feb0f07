import BatteryParams.Proofs.Json.Filed
import BatteryParams.Proofs.Value
import Mathlib

/-!
# The doubles of a tree

A number may be spelled as a natural number, as a negative integer or as a double. `Json.asDoubles`
spells every number of a tree as the double that it is, so two trees with the same `asDoubles`
differ in the spelling of numbers only: they have the same keys at every level, the same strings,
lists of the same items in the same order, and the same doubles.
-/

namespace BatteryParams

open Reading (clean)

namespace Json

mutual

/-- The tree with every number spelled as the double that it is. -/
def asDoubles : Json → Json
  | .number n => .number (.float n.toFloat)
  | .list items => .list (itemsAsDoubles items)
  | .object members => .object (membersAsDoubles members)
  | .null => .null
  | .bool b => .bool b
  | .string s => .string s

def itemsAsDoubles : List Json → List Json
  | [] => []
  | j :: rest => j.asDoubles :: itemsAsDoubles rest

def membersAsDoubles : List (String × Json) → List (String × Json)
  | [] => []
  | (key, j) :: rest => (key, j.asDoubles) :: membersAsDoubles rest

end

theorem itemsAsDoubles_eq_map (items : List Json) : itemsAsDoubles items = items.map asDoubles := by
  induction items with
  | nil => rfl
  | cons j rest ih => rw [itemsAsDoubles, List.map_cons, ih]

theorem membersAsDoubles_eq_map (members : List (String × Json)) :
    membersAsDoubles members = members.map fun m => (m.1, m.2.asDoubles) := by
  induction members with
  | nil => rfl
  | cons m rest ih =>
    obtain ⟨key, j⟩ := m
    rw [membersAsDoubles, List.map_cons, ih]

theorem asDoubles_list (items : List Json) :
    (list items).asDoubles = .list (items.map asDoubles) := by
  rw [asDoubles, itemsAsDoubles_eq_map]

theorem asDoubles_object (members : List (String × Json)) :
    (object members).asDoubles = .object (members.map fun m => (m.1, m.2.asDoubles)) := by
  rw [asDoubles, membersAsDoubles_eq_map]

/-- Objects whose members stand in order are compared key by key, along a list of all their keys. -/
theorem asDoubles_object_eq {members others : List (String × Json)} {keys : List String}
    (hmembers : Named.Ordered members) (hothers : Named.Ordered others)
    (hkeys : ∀ m ∈ members, m.1 ∈ keys) (hotherKeys : ∀ m ∈ others, m.1 ∈ keys) (h : ∀ key ∈ keys,
      (Named.find? key members).map asDoubles = (Named.find? key others).map asDoubles) :
    (object members).asDoubles = (object others).asDoubles := by
  have habsent : ∀ {key : String} {entries : List (String × Json)}, key ∉ keys →
      (∀ m ∈ entries, m.1 ∈ keys) →
      Named.find? key entries = none := by
    intro key entries hkey hentries
    apply Named.find?_eq_none
    intro hmem
    obtain ⟨m, hm, heq⟩ := List.mem_map.mp hmem
    exact hkey (heq ▸ hentries m hm)
  rw [asDoubles_object, asDoubles_object, Json.object.injEq]
  apply Named.eq_of_find?_eq ((Named.ordered_map asDoubles).mpr hmembers)
    ((Named.ordered_map asDoubles).mpr hothers)
  intro key
  rw [Named.find?_map, Named.find?_map]
  by_cases hkey : key ∈ keys
  · exact h key hkey
  · rw [habsent hkey hkeys, habsent hkey hotherKeys]

mutual

/-- Filing goes by names alone. -/
theorem filed_asDoubles_iff : ∀ j : Json, j.asDoubles.Filed ↔ j.Filed
  | .null | .bool _ | .string _ => Iff.rfl
  | .number n => iff_of_true (.number (.float n.toFloat)) (.number n)
  | .list items => by
    rw [asDoubles_list, filed_list, filed_list, List.forall_mem_map]
    exact filed_itemsAsDoubles_iff items
  | .object members => by
    rw [asDoubles_object, filed_object, filed_object, Named.ordered_map, List.forall_mem_map]
    exact and_congr_right fun _ => filed_membersAsDoubles_iff members

theorem filed_itemsAsDoubles_iff : ∀ items : List Json, (∀ j ∈ items, j.asDoubles.Filed) ↔
    ∀ j ∈ items, j.Filed
  | [] => by simp
  | j :: rest => by
    rw [List.forall_mem_cons, List.forall_mem_cons, filed_asDoubles_iff j,
      filed_itemsAsDoubles_iff rest]

theorem filed_membersAsDoubles_iff :
    ∀ members : List (String × Json), (∀ m ∈ members, m.2.asDoubles.Filed) ↔
      ∀ m ∈ members, m.2.Filed
  | [] => by simp
  | (key, j) :: rest => by
    rw [List.forall_mem_cons, List.forall_mem_cons, filed_asDoubles_iff j,
      filed_membersAsDoubles_iff rest]

end

/-! ### Single entries -/

theorem asDoubles_ofFloat {x : Float} (h : x.isFinite = true) :
    (ofFloat x).asDoubles = .number (.float x) := by
  rw [ofFloat, if_pos h, asDoubles]
  rfl

theorem asDoubles_of_toFloat? {j : Json} {x : Float} (h : j.toFloat? = some x) :
    (ofFloat x).asDoubles = j.asDoubles := by
  rw [asDoubles_ofFloat (isFinite_of_toFloat? h)]
  unfold toFloat? at h
  split at h
  · split at h
    · cases h
      rw [asDoubles]
    · cases h
  · cases h

theorem asDoubles_of_mapM {items : List Json} {xs : List Float}
    (h : items.mapM toFloat? = some xs) : (ofFloats xs).asDoubles = (list items).asDoubles := by
  rw [ofFloats, asDoubles_list, asDoubles_list, Json.list.injEq]
  induction items generalizing xs with
  | nil =>
    cases h
    rfl
  | cons j rest ih =>
    rw [List.mapM_cons] at h
    obtain ⟨x, hx, h⟩ := Option.bind_eq_some_iff.mp h
    obtain ⟨more, hmore, h⟩ := Option.bind_eq_some_iff.mp h
    cases h
    rw [List.map_cons, List.map_cons, List.map_cons, asDoubles_of_toFloat? hx, ih hmore]

theorem asDoubles_of_toFloats? {j : Json} {xs : List Float} (h : j.toFloats? = some xs) :
    (ofFloats xs).asDoubles = j.asDoubles := by
  cases j with
  | list items => exact asDoubles_of_mapM h
  | _ => cases h

/-! ### Counts -/

theorem toUInt64_toUInt32 {n : UInt64} (h : n ≤ 4294967295) : n.toUInt32.toUInt64 = n := by
  have hle : n.toNat ≤ 4294967295 := UInt64.le_iff_toNat_le.mp h
  apply UInt64.toNat_inj.mp
  rw [UInt32.toNat_toUInt64, UInt64.toNat_toUInt32, Nat.mod_eq_of_lt (by omega)]

/-- A double that is a positive integer is the double of that integer: no zero is left, whose two
signs are equal without being the same. -/
theorem toFloat_toUInt64 {x : Float} (heq : (x.toUInt64.toFloat == x) = true)
    (hpos : 0 < x.toUInt64) : x.toUInt64.toFloat = x := by
  have hzero : x ≠ 0 := by
    rintro rfl
    exact absurd hpos (by decide)
  have hnegativeZero : x ≠ -0 := by
    rintro rfl
    exact absurd hpos (by decide)
  obtain ⟨-, -, h | ⟨-, h⟩ | ⟨-, h⟩⟩ := Float.beq_iff_ne_nan_and_eq.mp heq
  · exact h
  · exact absurd h hnegativeZero
  · exact absurd h hzero

theorem asDoubles_of_toCount? {j : Json} {n : UInt32} (h : j.toCount? = some n) :
    (number (.natural n.toUInt64)).asDoubles = j.asDoubles := by
  cases j with
  | number m =>
    rw [asDoubles, asDoubles, Json.number.injEq, Number.float.injEq]
    cases m with
    | natural m =>
      simp only [toCount?, Number.toCount?] at h
      split at h
      · next hm =>
        cases h
        rw [toUInt64_toUInt32 hm.2]
      · cases h
    | negative m => cases h
    | float x =>
      simp only [toCount?, Number.toCount?] at h
      split at h
      · next hm =>
        obtain ⟨heq, hpos, hle⟩ := hm
        cases h
        rw [toUInt64_toUInt32 hle]
        exact toFloat_toUInt64 heq hpos
      · cases h
  | _ => cases h

end Json

end BatteryParams

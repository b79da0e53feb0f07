import BatteryParams.Json.Basic
import BatteryParams.Proofs.Named

/-!
# Places in a tree

A row of keys leads from a tree through objects to a node, if every object on the way has the next
key. Two trees may differ in what stands at one place, if anything does; then the same stands in
both at every place that is neither above it nor below.
-/

namespace BatteryParams.Json

variable {key : String} {place rest : List String} {j : Json}

/-- The node that a row of keys leads to. -/
def follow? : List String → Json → Option Json
  | [], j => some j
  | key :: rest, j => (j.member? key).bind (follow? rest)

theorem follow?_nil (j : Json) : j.follow? [] = some j := rfl

theorem follow?_cons (key : String) (rest : List String) (j : Json) :
    j.follow? (key :: rest) = (j.member? key).bind (follow? rest) := rfl

theorem follow?_of_member? {inner : Json} (h : j.member? key = some inner) :
    j.follow? (key :: rest) = inner.follow? rest := by
  rw [follow?_cons, h, Option.bind_some]

theorem follow?_object {members : List (String × Json)} {inner : Json}
    (h : Named.find? key members = some inner) :
    (object members).follow? (key :: rest) = inner.follow? rest := follow?_of_member? h

theorem follow?_single (key : String) (j : Json) : j.follow? [key] = j.member? key := by
  rw [follow?_cons]
  cases j.member? key <;> rfl

theorem follow?_concat (place : List String) (key : String) (j : Json) :
    j.follow? (place ++ [key]) = (j.follow? place).bind (member? key) := by
  induction place generalizing j with
  | nil => exact follow?_single key j
  | cons first rest ih =>
    rw [List.cons_append, follow?_cons, follow?_cons, Option.bind_assoc]
    exact congrArg _ (funext ih)

/-- The way to a node below the root goes through an object that has the first key. -/
theorem follow?_cons_eq_some {node : Json} :
    j.follow? (key :: rest) = some node ↔
      ∃ members inner, j = .object members ∧ Named.find? key members = some inner ∧
        inner.follow? rest = some node := by
  rw [follow?_cons, Option.bind_eq_some_iff]
  constructor
  · rintro ⟨inner, hmember, hrest⟩
    cases j with
    | object members => exact ⟨members, inner, rfl, hmember, hrest⟩
    | _ => cases hmember
  · rintro ⟨members, inner, rfl, hmember, hrest⟩
    exact ⟨inner, hmember, hrest⟩

/-! ### Trees that differ at one place -/

/-- The same but for what stands at a place: there the trees may have anything, or nothing. -/
inductive EqualBut : List String → Json → Json → Prop
  | here {key : String} {members members' : List (String × Json)}
      (others : Named.without key members' = Named.without key members) :
      EqualBut [key] (.object members) (.object members')
  | under {key next : String} {rest : List String} {members members' : List (String × Json)}
      {inner inner' : Json} (others : Named.without key members' = Named.without key members)
      (h : Named.find? key members = some inner) (h' : Named.find? key members' = some inner')
      (below : EqualBut (next :: rest) inner inner') :
      EqualBut (key :: next :: rest) (.object members) (.object members')

namespace EqualBut

variable {j' : Json} {other : List String}

/-- The objects on the way to the place differ under the next key only. -/
theorem others (h : EqualBut (place ++ key :: rest) j j') :
    ∃ members members', j.follow? place = some (.object members) ∧
      j'.follow? place = some (.object members') ∧
      Named.without key members' = Named.without key members := by
  induction place generalizing j j' with
  | nil =>
    cases h with
    | here hothers => exact ⟨_, _, rfl, rfl, hothers⟩
    | under hothers _ _ _ => exact ⟨_, _, rfl, rfl, hothers⟩
  | cons first place ih =>
    obtain ⟨next, more, hnext⟩ : ∃ next more, place ++ key :: rest = next :: more :=
      List.exists_cons_of_ne_nil (by simp)
    rw [List.cons_append, hnext] at h
    cases h with
    | under _ hinner hinner' hbelow =>
      obtain ⟨members, members', hm, hm', hothers⟩ := ih (hnext ▸ hbelow)
      exact ⟨members, members', (follow?_object hinner).trans hm,
        (follow?_object hinner').trans hm', hothers⟩

/-- What stands at a place neither above nor below stays. -/
theorem follow?_eq (h : EqualBut place j j') (habove : ¬other <+: place)
    (hbelow : ¬place <+: other) : j'.follow? other = j.follow? other := by
  induction h generalizing other with
  | @here key members members' hothers =>
    cases other with
    | nil => exact absurd List.nil_prefix habove
    | cons first rest =>
      have hne : first ≠ key := fun heq => hbelow (by simp [heq])
      rw [follow?_cons, follow?_cons, member?, member?, Named.find?_eq_of_without hothers hne]
  | @under key next more members members' inner inner' hothers hinner hinner' hrest ih =>
    cases other with
    | nil => exact absurd List.nil_prefix habove
    | cons first rest =>
      by_cases heq : first = key
      · subst heq
        rw [follow?_object hinner', follow?_object hinner]
        rw [List.cons_prefix_cons] at habove hbelow
        exact ih (fun h => habove ⟨rfl, h⟩) fun h => hbelow ⟨rfl, h⟩
      · rw [follow?_cons, follow?_cons, member?, member?, Named.find?_eq_of_without hothers heq]

end EqualBut

end BatteryParams.Json

import BatteryParams.Proofs.Except
import BatteryParams.Proofs.Float.Order
import BatteryParams.Proofs.Reading

/-!
# Laws of single entries

Each kind of entry that a document may hold is read back from what it is written as, under the
condition that the kind asks for: doubles have to be finite, a count positive, a table one that
`Table.ofLists` gives. What is read from any tree meets the same condition.
-/

namespace BatteryParams

/-! ### Numbers, counts and lists -/

namespace Json

theorem toFloat?_ofFloat {x : Float} (h : x.isFinite = true) : (ofFloat x).toFloat? = some x := by
  simp [ofFloat, h, toFloat?, Number.toFloat]

theorem isFinite_of_toFloat? {j : Json} {x : Float} (h : j.toFloat? = some x) :
    x.isFinite = true := by
  unfold toFloat? at h
  split at h
  · split at h
    · next hfinite =>
      cases h
      exact hfinite
    · cases h
  · cases h

theorem mapM_ofFloat {xs : List Float} (h : ∀ x ∈ xs, x.isFinite = true) :
    (xs.map ofFloat).mapM toFloat? = some xs := by
  induction xs with
  | nil => rfl
  | cons x xs ih =>
    rw [List.map_cons, List.mapM_cons, toFloat?_ofFloat (h x (by simp)),
      ih fun y hy => h y (by simp [hy])]
    rfl

theorem toFloats?_ofFloats {xs : List Float} (h : ∀ x ∈ xs, x.isFinite = true) :
    (ofFloats xs).toFloats? = some xs := mapM_ofFloat h

theorem isFinite_of_mapM {items : List Json} {xs : List Float} (h : items.mapM toFloat? = some xs) :
    ∀ x ∈ xs, x.isFinite = true := by
  induction items generalizing xs with
  | nil =>
    cases h
    simp
  | cons j items ih =>
    rw [List.mapM_cons] at h
    obtain ⟨x, hx, h⟩ := Option.bind_eq_some_iff.mp h
    obtain ⟨rest, hrest, h⟩ := Option.bind_eq_some_iff.mp h
    cases h
    simpa using ⟨isFinite_of_toFloat? hx, ih hrest⟩

theorem isFinite_of_toFloats? {j : Json} {xs : List Float} (h : j.toFloats? = some xs) :
    ∀ x ∈ xs, x.isFinite = true := by
  cases j with
  | list items => exact isFinite_of_mapM h
  | _ => cases h

theorem toCount?_natural {n : UInt32} (h : 0 < n) :
    (number (.natural n.toUInt64)).toCount? = some n := by
  have hpos : 0 < n.toUInt64 := by
    rw [UInt64.lt_iff_toNat_lt]
    simpa [UInt32.lt_iff_toNat_lt] using h
  have hle : n.toUInt64 ≤ 4294967295 := by
    rw [UInt64.le_iff_toNat_le]
    have hlt := n.toNat_lt
    simp only [UInt32.toNat_toUInt64, UInt64.reduceToNat]
    omega
  simp [toCount?, Number.toCount?, hpos, hle]

theorem pos_toUInt32 {n : UInt64} (h : 0 < n ∧ n ≤ 4294967295) : 0 < n.toUInt32 := by
  simp only [UInt64.lt_iff_toNat_lt, UInt64.le_iff_toNat_le, UInt64.reduceToNat] at h
  rw [UInt32.lt_iff_toNat_lt, UInt64.toNat_toUInt32, Nat.mod_eq_of_lt (by omega)]
  exact h.1

theorem pos_of_toCount? {j : Json} {n : UInt32} (h : j.toCount? = some n) : 0 < n := by
  cases j with
  | number m =>
    cases m with
    | natural m =>
      simp only [toCount?, Number.toCount?] at h
      split at h
      · next hm =>
        cases h
        exact pos_toUInt32 hm
      · cases h
    | negative m => cases h
    | float x =>
      simp only [toCount?, Number.toCount?] at h
      split at h
      · next hm =>
        cases h
        exact pos_toUInt32 hm.2
      · cases h
  | _ => cases h

end Json

/-! ### Tables -/

namespace Table

theorem ofLists_eq_ok {x y : List Float} {t : Table Float} :
    ofLists x y = .ok t ↔ t.x = x ∧ t.y = y ∧ (∀ v ∈ x ++ y, v.isFinite = true) ∧
      stall? x = none := by
  constructor
  · intro h
    unfold ofLists at h
    split at h
    · split at h
      · split at h
        · cases h
        · cases h
        · next hfind hstall =>
          cases h
          exact ⟨rfl, rfl, by simpa [or_imp, forall_and] using hfind, hstall⟩
      · cases h
    · cases h
  · rintro ⟨rfl, rfl, hfinite, hstall⟩
    have hfind : (t.x ++ t.y).find? (!·.isFinite) = none := by
      simpa [or_imp, forall_and] using hfinite
    unfold ofLists
    rw [dif_pos t.length_eq, dif_pos t.two_le]
    simp only [hfind, hstall]

/-- A table that `Table.ofLists` gives for its own lists. -/
def Built (t : Table Float) : Prop := ofLists t.x t.y = .ok t

theorem built_of_ofLists {x y : List Float} {t : Table Float} (h : ofLists x y = .ok t) :
    t.Built := by
  obtain ⟨rfl, rfl, -⟩ := ofLists_eq_ok.mp h
  exact h

theorem built_iff {t : Table Float} :
    t.Built ↔ (∀ v ∈ t.x ++ t.y, v.isFinite = true) ∧ t.x.Pairwise (· < ·) := by
  rw [Built, ofLists_eq_ok]
  constructor
  · rintro ⟨-, -, hfinite, hstall⟩
    have hnumber : ∀ v ∈ t.x, Double.IsNumber v :=
      fun v hv => Double.isNumber_of_isFinite (hfinite v (List.mem_append_left _ hv))
    exact ⟨hfinite, (Double.stall?_eq_none_iff hnumber).mp hstall⟩
  · rintro ⟨hfinite, hincreasing⟩
    have hnumber : ∀ v ∈ t.x, Double.IsNumber v :=
      fun v hv => Double.isNumber_of_isFinite (hfinite v (List.mem_append_left _ hv))
    exact ⟨rfl, rfl, hfinite, (Double.stall?_eq_none_iff hnumber).mpr hincreasing⟩

end Table

/-! ### Values -/

namespace Value

/-- A finite constant, a formula, or a table that the constructor of tables gives. -/
def WellFormed : Value → Prop
  | .constant c => c.isFinite = true
  | .formula _ => True
  | .table t => t.Built

theorem parse_source (f : Formula) : Formula.parse f.source = .ok f := by
  obtain ⟨source, tree, parsed⟩ := f
  unfold Formula.parse
  split
  · next tree' h =>
    rw [parsed] at h
    cases h
    rfl
  · next e h =>
    rw [parsed] at h
    cases h

theorem tableList_ofFloats {members : List (String × Json)} {key : String} {xs : List Float}
    (hfind : Named.find? key members = some (.ofFloats xs)) (h : ∀ x ∈ xs, x.isFinite = true) :
    tableList members key = .ok xs := by
  simp only [tableList, hfind, Json.ofFloats, Json.mapM_ofFloat h]

theorem ofJson_toJson {v : Value} (h : v.WellFormed) : ofJson v.toJson = .ok v := by
  cases v with
  | constant c =>
    have hc : c.isFinite = true := h
    simp [toJson, Json.ofFloat, hc, ofJson, Json.Number.toFloat]
  | formula f => simp only [toJson, ofJson, parse_source]
  | table t =>
    have hbuilt : t.Built := h
    obtain ⟨hfinite, -⟩ := Table.built_iff.mp hbuilt
    have hx : tableList [("x", Json.ofFloats t.x), ("y", Json.ofFloats t.y)] "x" = .ok t.x :=
      tableList_ofFloats rfl fun v hv => hfinite v (by simp [hv])
    have hy : tableList [("x", Json.ofFloats t.x), ("y", Json.ofFloats t.y)] "y" = .ok t.y :=
      tableList_ofFloats rfl fun v hv => hfinite v (by simp [hv])
    have hofLists : Table.ofLists t.x t.y = .ok t := h
    have hkeys : ([("x", Json.ofFloats t.x), ("y", Json.ofFloats t.y)].find? fun m =>
        m.1 != "x" && m.1 != "y") = none := by
      simp
    simp only [toJson, ofJson, ofMembers, hkeys, hx, hy, ok_bind, hofLists]

theorem wellFormed_of_ofJson {j : Json} {v : Value} (h : ofJson j = .ok v) : v.WellFormed := by
  unfold ofJson at h
  split at h
  · split at h
    · next hfinite =>
      cases h
      exact hfinite
    · cases h
  · split at h
    · cases h
      exact trivial
    · cases h
  · unfold ofMembers at h
    split at h
    · cases h
    · obtain ⟨x, hx, h⟩ := ok_of_bind h
      obtain ⟨y, hy, h⟩ := ok_of_bind h
      split at h
      · next t ht =>
        cases h
        exact Table.built_of_ofLists ht
      · cases h
  · cases h

end Value

/-! ### Versions -/

/-- Three runs of digits, none empty, joined by dots. -/
def IsVersionText (text : String) : Prop :=
  ∃ major minor patch : List Char, text.toList = major ++ '.' :: minor ++ '.' :: patch ∧
    ∀ part ∈ [major, minor, patch], part ≠ [] ∧ ∀ c ∈ part, c.isDigit = true

theorem isSemantic_iff (text : String) : Version.isSemantic text = true ↔ IsVersionText text := by
  unfold Version.isSemantic
  simp only [Bool.and_eq_true, beq_iff_eq, List.all_eq_true, Bool.not_eq_true',
    List.isEmpty_eq_false_iff]
  constructor
  · rintro ⟨hlength, hparts⟩
    have hjoin : ['.'].intercalate (text.toList.splitOn '.') = text.toList :=
      List.intercalate_splitOn '.'
    generalize text.toList.splitOn '.' = parts at *
    rcases parts with _ | ⟨major, _ | ⟨minor, _ | ⟨patch, _ | ⟨more, rest⟩⟩⟩⟩
    · cases hlength
    · cases hlength
    · cases hlength
    · exact ⟨major, minor, patch, by simpa [List.intercalate] using hjoin.symm, hparts⟩
    · simp at hlength
  · rintro ⟨major, minor, patch, htext, hparts⟩
    have hdot : ∀ part ∈ [major, minor, patch], '.' ∉ part := by
      intro part hpart hmem
      exact absurd ((hparts part hpart).2 '.' hmem) (by decide)
    have hsplit : text.toList.splitOn '.' = [major, minor, patch] := by
      rw [htext, ← List.splitOn_intercalate '.' hdot (by simp)]
      simp [List.intercalate]
    rw [hsplit]
    exact ⟨rfl, hparts⟩

namespace Version

/-- Three runs of digits, or a finite number. -/
def WellFormed : Version → Prop
  | .semantic text => IsVersionText text
  | .legacy number => number.isFinite = true

theorem ofJson_toJson {v : Version} (h : v.WellFormed) : ofJson v.toJson = .ok v := by
  cases v with
  | semantic text =>
    have htext : isSemantic text = true := (isSemantic_iff text).mpr h
    simp [toJson, ofJson, htext]
  | legacy number =>
    have hnumber : number.isFinite = true := h
    simp [toJson, Json.ofFloat, ofJson, hnumber, Json.Number.toFloat]

theorem wellFormed_of_ofJson {j : Json} {v : Version} (h : ofJson j = .ok v) : v.WellFormed := by
  unfold ofJson at h
  split at h
  · split at h
    · next htext =>
      cases h
      exact (isSemantic_iff _).mp htext
    · cases h
  · split at h
    · next hnumber =>
      cases h
      exact hnumber
    · cases h
  · cases h

end Version

/-! ### Rules -/

namespace Rule

open Reading (clean)

theorem expect_eq_clean {α : Type} {expected : Expected} {decode : Json → Option α} {path : Path}
    {j : Json} {a : α} : expect expected decode path j = clean a ↔ decode j = some a := by
  unfold expect
  split
  · next b hb => simp [Reading.clean_inj, hb]
  · next hb => simp [Reading.issue_ne_clean, hb]

theorem mapError_eq_ok {ε ε' α : Type} {e : Except ε α} {f : ε → ε'} {a : α} :
    e.mapError f = .ok a ↔ e = .ok a := by
  cases e with
  | ok b =>
    constructor
    · intro h
      cases h
      rfl
    · intro h
      cases h
      rfl
  | error error =>
    constructor
    · intro h
      cases h
    · intro h
      cases h

theorem value_eq_clean {path : Path} {j : Json} {v : Value} :
    value path j = clean v ↔ Value.ofJson j = .ok v := by
  rw [value, Reading.ofExcept_eq_clean, mapError_eq_ok]

theorem version_eq_clean {path : Path} {j : Json} {v : Version} :
    version path j = clean v ↔ Version.ofJson j = .ok v := by
  rw [version, Reading.ofExcept_eq_clean, mapError_eq_ok]

theorem model_eq_clean {path : Path} {j : Json} {m : Model} :
    model path j = clean m ↔ ∃ name, j = .string name ∧ Model.ofName? name = some m := by
  unfold model
  split
  · next name =>
    split
    · next m' hm => simp [Reading.clean_inj, hm]
    · next hm => simp [Reading.issue_ne_clean, hm]
  · next hkind =>
    constructor
    · intro h
      exact absurd h Reading.issue_ne_clean
    · rintro ⟨name, rfl, -⟩
      exact absurd rfl (hkind name)

theorem accounted_expect {α : Type} (expected : Expected) (decode : Json → Option α) (path : Path)
    (j : Json) : (expect expected decode path j).Accounted := by
  unfold expect
  split
  · exact Reading.accounted_clean _
  · exact Reading.accounted_issue _ _

theorem accounted_number (path : Path) (j : Json) : (number path j).Accounted :=
  accounted_expect _ _ path j

theorem accounted_count (path : Path) (j : Json) : (count path j).Accounted :=
  accounted_expect _ _ path j

theorem accounted_text (path : Path) (j : Json) : (text path j).Accounted :=
  accounted_expect _ _ path j

theorem accounted_numberList (path : Path) (j : Json) : (numberList path j).Accounted :=
  accounted_expect _ _ path j

theorem accounted_value (path : Path) (j : Json) : (value path j).Accounted :=
  Reading.accounted_ofExcept path _

theorem accounted_version (path : Path) (j : Json) : (version path j).Accounted :=
  Reading.accounted_ofExcept path _

theorem accounted_model (path : Path) (j : Json) : (model path j).Accounted := by
  unfold model
  split
  · split
    · exact Reading.accounted_clean _
    · exact Reading.accounted_issue _ _
  · exact Reading.accounted_issue _ _

end Rule

end BatteryParams

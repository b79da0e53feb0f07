import BatteryParams.Proofs.Document.Faithful
import BatteryParams.Proofs.Document.Parts
import BatteryParams.Proofs.Json.Spelling
import BatteryParams.Proofs.Schema.Meaning

/-!
# Descriptions of single entries

What a field holds is described by a schema and checked by a rule. A description fits a check if
whatever passes the check is described, and if the check reports of what is described only issues
that the description leaves to the reader: a formula that cannot be read, values that do not go
together, and a field that only some models ask for. Where a description admits more than that, the
gap is named.
-/

namespace BatteryParams

open Json (TypeName)

/-- The issues that a description of the shape of documents leaves to the reader. -/
def IssueCause.LeftToReader : IssueCause → Prop
  | .missing (.since _) => True
  | cause => cause.issueClass = .malformed ∨ cause.issueClass = .validation

namespace Schema

/-- How many references may follow each other in one place of a document: one to each
description. -/
abbrev reach : Nat := documentSchema.definitions.length

theorem refLimit_documentSchema : documentSchema.toJson.refLimit = reach := rfl

/-- Whether a description among those of documents admits a tree. -/
def Describes (hops : Nat) (s : Schema) (j : Json) : Prop := s.Admits documentSchema.toJson hops j

theorem describes_ref {name : String} {s : Schema} {hops : Nat} {j : Json}
    (h : Named.find? name documentSchema.definitions = some s)
    (hplain : '/' ∉ name.toList ∧ '~' ∉ name.toList) :
    (ref name).Describes (hops + 1) j ↔ s.Describes hops j := by
  have hresolve : documentSchema.toJson.resolve? ("#/$defs/" ++ name) = some s.toJson :=
    SchemaDocument.resolve?_toJson (by decide) (by decide) hplain h
  exact admits_ref hresolve

/-- What passes the check is described, and what is described passes but for issues left to the
reader, unless it lies in the gap. -/
structure Fits (hops : Nat) (s : Schema) (check : Check) (gap : Json → Prop) : Prop where
  describes : ∀ path j, j.Filed → check path j = [] → s.Describes hops j
  left_iff : ∀ path j, j.Filed → s.Describes hops j →
    ((∀ i ∈ check path j, i.cause.LeftToReader) ↔ ¬gap j)

/-- Where a description and a check agree. -/
def NoGap (_ : Json) : Prop := False

theorem Fits.congr {hops : Nat} {s : Schema} {check : Check} {gap gap' : Json → Prop}
    (h : Fits hops s check gap) (hgap : ∀ j, gap j ↔ gap' j) : Fits hops s check gap' :=
  ⟨h.describes, fun path j hfiled hj => (h.left_iff path j hfiled hj).trans (not_congr (hgap j))⟩

theorem fits_of_iff {hops : Nat} {s : Schema} {check : Check}
    (h : ∀ path j, check path j = [] ↔ s.Describes hops j) : Fits hops s check NoGap where
  describes := fun path j _ => (h path j).mp
  left_iff := by
    intro path j _ hj
    rw [(h path j).mpr hj]
    simp [NoGap]

end Schema

/-! ### Numbers -/

namespace Json

theorem isSome_toFloat?_iff {j : Json} : j.toFloat?.isSome = true ↔ TypeName.number.Has j := by
  cases j with
  | number n =>
    have hfinite : n.toFloat.isFinite = true ↔ n.value?.isSome = true := by
      cases n with
      | natural n => simp [Number.toFloat, Number.value?, Double.isFinite_toFloat]
      | negative m =>
        simp [Number.toFloat, Number.value?, Double.isFinite_neg (Double.isFinite_toFloat m)]
      | float x => exact Double.isSome_value?_iff.symm
    rw [toFloat?, TypeName.Has, ← hfinite]
    split <;> simp [*]
  | _ => simp [toFloat?, TypeName.Has]

theorem isSome_mapM_iff {items : List Json} :
    (items.mapM toFloat?).isSome = true ↔ ∀ item ∈ items, TypeName.number.Has item := by
  induction items with
  | nil => simp
  | cons item rest ih =>
    rw [List.forall_mem_cons, ← isSome_toFloat?_iff, ← ih, List.mapM_cons]
    cases item.toFloat? <;> cases rest.mapM toFloat? <;> simp

/-- A count is an integer from 1 to 4294967295, however it is written. -/
theorem isSome_toCount?_iff {n : Number} :
    n.toCount?.isSome = true ↔ ∃ k : Nat, n.value? = some (k : ℚ) ∧ 1 ≤ k ∧ k ≤ 4294967295 := by
  cases n with
  | natural n =>
    have hcount : (Number.natural n).toCount?.isSome = true ↔ 0 < n ∧ n ≤ 4294967295 := by
      rw [Number.toCount?]
      split <;> simp_all
    rw [hcount, UInt64.lt_iff_toNat_lt, UInt64.le_iff_toNat_le]
    simp [Number.value?, Nat.one_le_iff_ne_zero, Nat.pos_iff_ne_zero]
  | negative m =>
    refine iff_of_false (by simp [Number.toCount?]) ?_
    rintro ⟨k, hk, hpos, -⟩
    have hnegative : (-m.toNat : ℚ) = k := Option.some.inj hk
    have hm : (0 : ℚ) ≤ m.toNat := Nat.cast_nonneg _
    have hk : (1 : ℚ) ≤ k := Nat.one_le_cast.mpr hpos
    linarith
  | float x => exact Number.isSome_toCount?_iff_double

/-- A number above every count. -/
def TooMany (j : Json) : Prop := ∃ n q, j = .number n ∧ n.value? = some q ∧ 4294967295 < q

/-- A list of at least so many numbers. -/
def IsNumberList (least : Nat) (j : Json) : Prop :=
  ∃ items, j = .list items ∧ (∀ item ∈ items, TypeName.number.Has item) ∧ least ≤ items.length

end Json

/-! ### Rules -/

namespace Schema

open Reading (check)

variable {hops : Nat} {f : Field} {j : Json} {gap : Json → Prop}

theorem describes_ofField : (ofField f).Describes hops j ↔ (ofFieldKind f).Describes hops j := by
  have hnotes : ∀ name ∈ ["title", "description", "x-requirement"], Json.Keyword.ofName? name =
    none := by decide
  refine admits_noted (by simpa using hnotes) ?_
  unfold ofFieldKind
  split <;> simp [keywords]

theorem Fits.ofField {check : Check} (h : Fits hops (ofFieldKind f) check gap) :
    Fits hops (ofField f) check gap where
  describes := fun path j hfiled hcheck => describes_ofField.mpr (h.describes path j hfiled hcheck)
  left_iff := fun path j hfiled hj => h.left_iff path j hfiled (describes_ofField.mp hj)

theorem check_eq_nil_iff {α : Type} {rule : Path → Json → Reading α} {path : Path}
    (h : (rule path j).Accounted) :
    check rule path j = [] ↔ ∃ a, rule path j = Reading.clean a := by
  constructor
  · exact h.exists_clean
  · rintro ⟨a, ha⟩
    rw [check, ha]
    rfl

theorem check_expect_eq_nil {α : Type} {path : Path} {expected : Expected}
    {decode : Json → Option α} :
    check (Rule.expect expected decode) path j = [] ↔ (decode j).isSome = true := by
  rw [check_eq_nil_iff (Rule.accounted_expect expected decode path j), Option.isSome_iff_exists]
  exact exists_congr fun a => Rule.expect_eq_clean

theorem fits_number (hf : f.kind = .number) : Fits hops (ofField f) (check Rule.number) NoGap := by
  refine Fits.ofField (fits_of_iff fun path j => ?_)
  rw [ofFieldKind, hf]
  exact check_expect_eq_nil.trans (Json.isSome_toFloat?_iff.trans admits_number.symm)

theorem fits_text (hf : f.kind = .text) : Fits hops (ofField f) (check Rule.text) NoGap := by
  refine Fits.ofField (fits_of_iff fun path j => ?_)
  rw [ofFieldKind, hf]
  refine check_expect_eq_nil.trans (Iff.trans ?_ admits_string.symm)
  cases j <;> simp [Json.toText?, TypeName.Has]

theorem fits_numberList (hf : f.kind = .numberList) : Fits hops (ofField f)
    (check Rule.numberList) NoGap := by
  refine Fits.ofField (fits_of_iff fun path j => ?_)
  rw [ofFieldKind, hf]
  refine check_expect_eq_nil.trans (Iff.trans ?_ admits_list.symm)
  cases j with
  | list items => simp [Json.toFloats?, Json.isSome_mapM_iff, admits_number]
  | _ => simp [Json.toFloats?]

theorem exists_version_iff :
    (∃ v, Version.ofJson j = .ok v) ↔ (∃ s, j = .string s ∧ IsVersionText s) ∨
      TypeName.number.Has j := by
  cases j with
  | string s =>
    cases hs : Version.isSemantic s <;> simp [Version.ofJson, ← isSemantic_iff, hs, TypeName.Has]
  | number n =>
    rw [← Json.isSome_toFloat?_iff]
    cases hn : n.toFloat.isFinite <;> simp [Version.ofJson, Json.toFloat?, hn]
  | _ => simp [Version.ofJson, TypeName.Has]

theorem fits_version (hf : f.kind = .version) : Fits hops (ofField f)
    (check Rule.version) NoGap := by
  refine Fits.ofField (fits_of_iff fun path j => ?_)
  have hlegacy : (noted .number [("deprecated", .bool true)]).Describes hops j ↔
      TypeName.number.Has j :=
    (admits_noted (by decide) (by simp [keywords])).trans admits_number
  rw [ofFieldKind, hf, check_eq_nil_iff (Rule.accounted_version path j)]
  refine (exists_congr fun v => Rule.version_eq_clean).trans
    (exists_version_iff.trans (Iff.trans ?_ admits_anyOf.symm))
  simp only [List.mem_cons, List.not_mem_nil, or_false, exists_eq_or_imp, exists_eq_left]
  exact or_congr admits_versionString.symm hlegacy.symm

theorem fits_model (hf : f.kind = .model) : Fits hops (ofField f) (check Rule.model) NoGap := by
  refine Fits.ofField (fits_of_iff fun path j => ?_)
  have hname (name : String) : name ∈ Model.all.map Model.name ↔
      ∃ m, Model.ofName? name = some m := by
    rw [← Option.isSome_iff_exists, Model.ofName?, List.find?_isSome, List.mem_map]
    simp
  rw [ofFieldKind, hf, check_eq_nil_iff (Rule.accounted_model path j)]
  refine (exists_congr fun m => Rule.model_eq_clean).trans (Iff.trans ?_ admits_choice.symm)
  simp only [hname]
  constructor
  · rintro ⟨m, name, rfl, hm⟩
    exact ⟨name, ⟨m, hm⟩, rfl⟩
  · rintro ⟨name, ⟨m, hm⟩, rfl⟩
    exact ⟨m, name, rfl, hm⟩

theorem left_expect_iff {α : Type} {path : Path} {expected : Expected} {decode : Json → Option α} :
    (∀ i ∈ check (Rule.expect expected decode) path j, i.cause.LeftToReader) ↔
      (decode j).isSome = true := by
  unfold check Rule.expect
  split <;> simp [*, Reading.clean, Reading.issue, IssueCause.LeftToReader, IssueCause.issueClass]

/-- Of the integers from 1 on, those above every count are no counts. -/
theorem fits_count (hf : f.kind = .count) : Fits hops (ofField f)
    (check Rule.count) Json.TooMany := by
  refine Fits.ofField ?_
  rw [ofFieldKind, hf]
  have hone : (Nat.toUInt64 1).toNat = 1 := by decide
  constructor
  · intro path j _ hcheck
    have hcount : j.toCount?.isSome = true := check_expect_eq_nil.mp hcheck
    cases j with
    | number n =>
      obtain ⟨k, hvalue, hpos, -⟩ := Json.isSome_toCount?_iff.mp hcount
      refine admits_integer.mpr ⟨n, k, rfl, by rw [hvalue, Int.cast_natCast], ?_⟩
      rw [hone]
      exact_mod_cast hpos
    | _ => cases hcount
  · intro path j _ hj
    obtain ⟨n, k, rfl, hvalue, hpos⟩ := admits_integer.mp hj
    rw [hone] at hpos
    lift k to Nat using by omega
    have hcount : (Json.number n).toCount?.isSome = true ↔ k ≤ 4294967295 := by
      refine Json.isSome_toCount?_iff.trans ?_
      rw [hvalue]
      constructor
      · rintro ⟨k', hk', -, hle⟩
        have heq : k = k' := by exact_mod_cast Option.some.inj hk'
        exact heq ▸ hle
      · intro hle
        exact ⟨k, by rw [Int.cast_natCast], by exact_mod_cast hpos, hle⟩
    have htooMany : (Json.number n).TooMany ↔ 4294967295 < k := by
      constructor
      · rintro ⟨_, q, hn, hq, hlt⟩
        cases hn
        rw [hvalue, Option.some_inj] at hq
        rw [← hq] at hlt
        exact_mod_cast hlt
      · intro hlt
        exact ⟨n, _, rfl, hvalue, by exact_mod_cast hlt⟩
    rw [htooMany, not_lt, ← hcount]
    exact left_expect_iff

/-! ### Values -/

/-- The two lists of a table, and nothing else. -/
def IsTable (j : Json) : Prop :=
  ∃ members, j = .object members ∧ (∀ m ∈ members, m.1 ∈ ["x", "y"] ∧ Json.IsNumberList 2 m.2) ∧
    ∀ key ∈ ["x", "y"], (Named.find? key members).isSome = true

theorem describes_coordinates : (list number (some 2)).Describes hops j ↔
    Json.IsNumberList 2 j := by
  refine admits_list.trans ?_
  simp [Json.IsNumberList, admits_number]

theorem admitsMember_table {name : String} {inner : Json} :
    AdmitsMember documentSchema.toJson [("x", list number (some 2)),
      ("y", list number (some 2))] none name inner ↔
      name ∈ ["x", "y"] ∧ Json.IsNumberList 2 inner := by
  have hlist :
      Admits documentSchema.toJson documentSchema.toJson.refLimit (list number (some 2)) inner ↔
      Json.IsNumberList 2 inner := describes_coordinates
  rw [AdmitsMember, Named.find?_cons]
  by_cases hx : "x" = name
  · simp [hx, hlist]
  · rw [if_neg hx, Named.find?_cons]
    by_cases hy : "y" = name
    · simp [hy, hlist]
    · rw [if_neg hy]
      simp [Named.find?, Ne.symm hx, Ne.symm hy]

theorem describes_table : interpolatedTable.Describes hops j ↔ IsTable j := by
  refine (admits_object (by decide)).trans ?_
  simp only [Option.getD_some, admitsMember_table, Option.mem_def, reduceCtorEq, false_implies,
    implies_true, and_true]
  exact Iff.rfl

/-- A value is a number, a string or a table. -/
theorem describes_value :
    (ref "Value").Describes (hops + 2) j ↔ TypeName.number.Has j ∨ (∃ s, j = .string s) ∨
      IsTable j := by
  have hformula : (noted .string
      [("description", .string "Expression in x (and optionally T)"),
        ("x-functions", texts (Registry.standard.sorted.map Builtin.name))]).Describes (hops + 1)
          j ↔
      ∃ s, j = .string s := by
    refine (admits_noted (by simp; decide) (by simp [keywords])).trans (admits_string.trans ?_)
    cases j <;> simp [TypeName.Has]
  have htable : (ref "InterpolatedTable").Describes (hops + 1) j ↔ IsTable j :=
    (describes_ref (by rfl) (by decide)).trans describes_table
  refine (describes_ref (by rfl) (by decide)).trans (admits_anyOf.trans ?_)
  simp only [List.mem_cons, List.not_mem_nil, or_false, exists_eq_or_imp, exists_eq_left]
  exact or_congr admits_number (or_congr hformula htable)

end Schema

/-! ### Reading values -/

namespace Value

variable {j : Json}

theorem tableList_eq_ok {members : List (String × Json)} {key : String} {xs : List Float} :
    tableList members key = .ok xs ↔
      ∃ items, Named.find? key members = some (.list items) ∧
        items.mapM Json.toFloat? = some xs := by
  unfold tableList
  split
  · next items hfind =>
    cases hxs : items.mapM Json.toFloat? <;> simp [hfind, hxs]
  · next hfind => simpa using fun items h => absurd h (hfind items)

theorem length_of_mapM {items : List Json} {xs : List Float}
    (h : items.mapM Json.toFloat? = some xs) : xs.length = items.length := by
  induction items generalizing xs with
  | nil =>
    cases h
    rfl
  | cons item rest ih =>
    rw [List.mapM_cons] at h
    obtain ⟨x, -, h⟩ := Option.bind_eq_some_iff.mp h
    obtain ⟨more, hmore, h⟩ := Option.bind_eq_some_iff.mp h
    cases h
    rw [List.length_cons, List.length_cons, ih hmore]

/-- What is read as a value has the shape of one. -/
theorem shape_of_ofJson {v : Value} (hfiled : j.Filed) (h : ofJson j = .ok v) :
    TypeName.number.Has j ∨ (∃ s, j = .string s) ∨ Schema.IsTable j := by
  cases j with
  | number n =>
    rw [← Json.isSome_toFloat?_iff]
    cases hn : n.toFloat.isFinite <;> simp_all [ofJson, Json.toFloat?]
  | string s => exact .inr (.inl ⟨s, rfl⟩)
  | object members =>
    refine .inr (.inr ⟨members, rfl, ?_⟩)
    rw [ofJson, ofMembers] at h
    split at h
    · cases h
    · next hkeys =>
      obtain ⟨xs, hx, h⟩ := ok_of_bind h
      obtain ⟨ys, hy, h⟩ := ok_of_bind h
      split at h
      · next t ht =>
        obtain ⟨rfl, rfl, -⟩ := Table.ofLists_eq_ok.mp ht
        have hlong : ∀ xs ∈ [t.x, t.y], 2 ≤ xs.length := by simp [t.length_eq, t.two_le]
        have hlist {key : String} {xs : List Float} (hxs : xs ∈ [t.x, t.y])
            (hread : tableList members key = .ok xs) :
            ∃ inner, Named.find? key members = some inner ∧ Json.IsNumberList 2 inner := by
          obtain ⟨items, hfind, hitems⟩ := tableList_eq_ok.mp hread
          have hnumbers := Json.isSome_mapM_iff.mp (Option.isSome_of_mem hitems)
          exact ⟨_, hfind, items, rfl, hnumbers, length_of_mapM hitems ▸ hlong xs hxs⟩
        have hlists : ∀ key ∈ ["x", "y"],
            ∃ inner, Named.find? key members = some inner ∧ Json.IsNumberList 2 inner := by
          rw [List.forall_mem_cons, List.forall_mem_singleton]
          exact ⟨hlist (by simp) hx, hlist (by simp) hy⟩
        constructor
        · intro m hm
          have hkey : m.1 ∈ ["x", "y"] := by
            have hknown := List.find?_eq_none.mp hkeys m hm
            simpa [or_iff_not_imp_left] using hknown
          have hnodup := Named.nodup_of_ordered (Json.filed_object.mp hfiled).1
          obtain ⟨inner, hfind, hnumbers⟩ := hlists m.1 hkey
          rw [Named.find?_of_mem hnodup hm] at hfind
          cases hfind
          exact ⟨hkey, hnumbers⟩
        · intro key hkey
          obtain ⟨inner, hfind, -⟩ := hlists key hkey
          rw [hfind]
          rfl
      · cases h
  | _ => cases h

/-- What has the shape of a value is not refused for its shape. -/
theorem ofJson_ne_shape (h : TypeName.number.Has j ∨ (∃ s, j = .string s) ∨ Schema.IsTable j)
    (fault : ShapeFault) : ofJson j ≠ .error (.shape fault) := by
  rcases h with hnumber | ⟨s, rfl⟩ | ⟨members, rfl, hmembers, hkeys⟩
  · rw [← Json.isSome_toFloat?_iff] at hnumber
    cases j with
    | number n => cases hn : n.toFloat.isFinite <;> simp_all [ofJson, Json.toFloat?]
    | _ => cases hnumber
  · rw [ofJson]
    split <;> simp
  · have hforeign : (members.find? fun m => m.1 != "x" && m.1 != "y") = none := by
      refine List.find?_eq_none.mpr fun m hm => ?_
      have hkey := (hmembers m hm).1
      simpa [or_iff_not_imp_left] using hkey
    have hlist (key : String) (hkey : key ∈ ["x", "y"]) : ∃ xs, tableList members key = .ok xs := by
      obtain ⟨inner, hfind⟩ := Option.isSome_iff_exists.mp (hkeys key hkey)
      obtain ⟨-, items, hitems, hnumbers, -⟩ := hmembers _ (Named.mem_of_find? hfind)
      obtain ⟨xs, hxs⟩ := Option.isSome_iff_exists.mp (Json.isSome_mapM_iff.mpr hnumbers)
      exact ⟨xs, tableList_eq_ok.mpr ⟨items, hitems ▸ hfind, hxs⟩⟩
    obtain ⟨x, hx⟩ := hlist "x" (by simp)
    obtain ⟨y, hy⟩ := hlist "y" (by simp)
    simp only [ofJson, ofMembers, hforeign, hx, hy, ok_bind]
    split <;> simp

theorem exists_tableList {members : List (String × Json)} {key : String}
    (h : ∀ fault, tableList members key ≠ .error (.shape fault)) :
    ∃ xs, tableList members key = .ok xs := by
  unfold tableList at h ⊢
  split
  · split
    · exact ⟨_, rfl⟩
    · simp_all
  · simp_all

/-- What is not refused for its shape has a list for each axis. -/
theorem lists_of_ne_shape {members : List (String × Json)}
    (h : ∀ fault, ofJson (.object members) ≠ .error (.shape fault)) :
    ∀ key ∈ ["x", "y"], ∃ items, Named.find? key members = some (.list items) := by
  rw [ofJson, ofMembers] at h
  split at h
  · exact absurd rfl (h _)
  · obtain ⟨xs, hx⟩ := exists_tableList fun fault hx => h fault (by rw [hx, error_bind])
    rw [hx, ok_bind] at h
    obtain ⟨ys, hy⟩ := exists_tableList fun fault hy => h fault (by rw [hy, error_bind])
    obtain ⟨items, hitems, -⟩ := tableList_eq_ok.mp hx
    obtain ⟨items', hitems', -⟩ := tableList_eq_ok.mp hy
    rw [List.forall_mem_cons, List.forall_mem_singleton]
    exact ⟨⟨items, hitems⟩, ⟨items', hitems'⟩⟩

end Value

namespace Schema

open Reading (check)

theorem left_value_iff {path : Path} {j : Json} :
    (∀ i ∈ check Rule.value path j, i.cause.LeftToReader) ↔
      ∀ fault, Value.ofJson j ≠ .error (.shape fault) := by
  rw [check, Rule.value]
  cases hj : Value.ofJson j with
  | ok v => simp [Except.mapError, Reading.ofExcept, Reading.clean]
  | error e =>
    cases e <;> simp [Except.mapError, Reading.ofExcept, Reading.issue, IssueCause.LeftToReader,
      IssueCause.issueClass]

theorem fits_ref_value {hops : Nat} : Fits (hops + 2) (ref "Value") (check Rule.value) NoGap where
  describes := by
    intro path j hfiled hcheck
    obtain ⟨v, hv⟩ := (check_eq_nil_iff (Rule.accounted_value path j)).mp hcheck
    exact describes_value.mpr (Value.shape_of_ofJson hfiled (Rule.value_eq_clean.mp hv))
  left_iff := by
    intro path j _ hj
    rw [left_value_iff, NoGap, not_false_eq_true, iff_true]
    exact Value.ofJson_ne_shape (describes_value.mp hj)

theorem fits_value {hops : Nat} {f : Field} (hf : f.kind = .value) :
    Fits (hops + 2) (ofField f) (check Rule.value) NoGap := by
  refine Fits.ofField ?_
  rw [ofFieldKind, hf]
  exact fits_ref_value

end Schema

end BatteryParams

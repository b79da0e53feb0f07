import BatteryParams.Proofs.Document.Sections

/-!
# Laws of the user's own parameters

The user's parameters form a tree of groups, and what an entry is read as hangs on its name and
shape: a text if it is the description, a group if it is an object that does not look like a table,
and a value otherwise. Every law goes by recursion over the tree, together with the same law for the
entries of a group.
-/

namespace BatteryParams.UserParameter

open Reading (clean)

variable {path : Path} {key : String}

theorem looksLikeTable_eq_false_iff {members : List (String × Json)} :
    looksLikeTable members = false ↔ ∀ name ∈ members.map (·.1), name ≠ "x" ∧ name ≠ "y" := by
  simp [looksLikeTable]

/-! ### Reading one entry -/

theorem read_leaf {j : Json} (h : ∀ members, j ≠ .object members) :
    read path key j = if key = descriptionKey then .text <$> Rule.text path j
      else .value <$> Rule.value path j := by
  cases j with
  | object members => exact absurd rfl (h members)
  | _ => simp only [read]

theorem read_table {members : List (String × Json)} (hkey : key ≠ descriptionKey)
    (htable : looksLikeTable members = true) :
    read path key (.object members) = .value <$> Rule.value path (.object members) := by
  simp only [read, if_neg hkey, htable, if_true]

theorem read_group {members : List (String × Json)} (hkey : key ≠ descriptionKey)
    (htable : looksLikeTable members = false) :
    read path key (.object members) = .group <$> readGroup path members := by
  simp only [read, if_neg hkey, htable, Bool.false_eq_true, if_false]

/-! ### Readings that yield nothing -/

mutual

theorem accounted_read (path : Path) (key : String) : ∀ j, (read path key j).Accounted
  | .object members => by
    by_cases hkey : key = descriptionKey
    · simp only [read, if_pos hkey]
      exact Reading.accounted_issue _ _
    · cases htable : looksLikeTable members with
      | true =>
        rw [read_table hkey htable]
        exact (Rule.accounted_value _ _).map UserParameter.value
      | false =>
        rw [read_group hkey htable]
        exact (accounted_readGroup path members).map UserParameter.group
  | .null | .bool _ | .number _ | .string _ | .list _ => by
    rw [read_leaf (by simp)]
    split
    · exact (Rule.accounted_text _ _).map UserParameter.text
    · exact (Rule.accounted_value _ _).map UserParameter.value

theorem accounted_readGroup (path : Path) : ∀ members, (readGroup path members).Accounted
  | [] => Reading.accounted_clean []
  | (key, j) :: rest =>
    ((accounted_read (path ++ [key]) key j).map _).seq (accounted_readGroup path rest)

end

theorem accounted_readAll (path : Path) (j : Json) : (readAll path j).Accounted := by
  cases j with
  | object members => exact accounted_readGroup path members
  | _ => exact Reading.accounted_issue _ _

/-! ### What is read is well named -/

theorem readGroup_cons {j : Json} {rest : List (String × Json)}
    {es : List (String × UserParameter)} : readGroup path ((key, j) :: rest) = clean es ↔
      ∃ e, read (path ++ [key]) key j = clean e ∧ ∃ es', readGroup path rest = clean es' ∧
        (key, e) :: es' = es := by
  rw [readGroup, Reading.eq_clean_iff_yields, Reading.yields_seq, Reading.yields_map]
  rfl

theorem names_of_readGroup {members : List (String × Json)} {es : List (String × UserParameter)}
    (h : readGroup path members = clean es) : es.map (·.1) = members.map (·.1) := by
  induction members generalizing es with
  | nil =>
    obtain rfl := Reading.clean_inj.mp h
    rfl
  | cons member rest ih =>
    obtain ⟨e, -, es', hrest, rfl⟩ := readGroup_cons.mp h
    rw [List.map_cons, List.map_cons, ih hrest]

theorem sound_of_value {j : Json} {u : UserParameter} (hkey : key ≠ descriptionKey)
    (h : UserParameter.value <$> Rule.value path j = clean u) :
    u.WellNamed key ∧ ∀ v ∈ u.values, v.2.WellFormed := by
  rw [Reading.eq_clean_iff_yields, Reading.yields_map] at h
  obtain ⟨v, hv, rfl⟩ := h
  have hwell : v.WellFormed := Value.wellFormed_of_ofJson (Rule.value_eq_clean.mp hv)
  exact ⟨hkey, by simpa [values] using hwell⟩

theorem sound_of_leaf {j : Json} {u : UserParameter} (hj : ∀ members, j ≠ .object members)
    (h : read path key j = clean u) : u.WellNamed key ∧ ∀ v ∈ u.values, v.2.WellFormed := by
  rw [read_leaf hj] at h
  split at h
  · next hkey =>
    rw [Reading.eq_clean_iff_yields, Reading.yields_map] at h
    obtain ⟨s, -, rfl⟩ := h
    exact ⟨hkey, by simp [values]⟩
  · next hkey => exact sound_of_value hkey h

mutual

theorem sound_of_read {path : Path} {key : String} {u : UserParameter} :
    ∀ {j}, read path key j = clean u → u.WellNamed key ∧ ∀ v ∈ u.values, v.2.WellFormed
  | .object members, h => by
    by_cases hkey : key = descriptionKey
    · simp only [read, if_pos hkey] at h
      exact absurd h Reading.issue_ne_clean
    · cases htable : looksLikeTable members with
      | true =>
        rw [read_table hkey htable] at h
        exact sound_of_value hkey h
      | false =>
        rw [read_group hkey htable, Reading.eq_clean_iff_yields, Reading.yields_map] at h
        obtain ⟨es, hes, rfl⟩ := h
        obtain ⟨hnamed, hvalues⟩ := sound_of_readGroup hes
        have hnames := looksLikeTable_eq_false_iff.mp htable
        rw [← names_of_readGroup hes] at hnames
        exact ⟨⟨hkey, List.forall_mem_map.mp hnames, hnamed⟩, hvalues⟩
  | .null, h | .bool _, h | .number _, h | .string _, h | .list _, h => sound_of_leaf (by simp) h

theorem sound_of_readGroup {path : Path} {es : List (String × UserParameter)} :
    ∀ {members}, readGroup path members = clean es → AllWellNamed es ∧
      ∀ v ∈ groupValues es, v.2.WellFormed
  | [], h => by
    obtain rfl := Reading.clean_inj.mp h
    exact ⟨trivial, by simp [groupValues]⟩
  | (key, j) :: rest, h => by
    obtain ⟨e, he, es', hrest, rfl⟩ := readGroup_cons.mp h
    obtain ⟨hnamed, hvalues⟩ := sound_of_read he
    obtain ⟨hnamedRest, hvaluesRest⟩ := sound_of_readGroup hrest
    refine ⟨⟨hnamed, hnamedRest⟩, ?_⟩
    rw [groupValues, List.forall_mem_append, forall_mem_below]
    exact ⟨hvalues, hvaluesRest⟩

end

theorem sound_of_readAll {j : Json} {u : UserDefined} (h : readAll path j = clean u) :
    AllWellNamed u ∧ ∀ v ∈ groupValues u, v.2.WellFormed := by
  cases j with
  | object members => exact sound_of_readGroup h
  | _ => exact absurd h Reading.issue_ne_clean

/-! ### What is well named is read back -/

theorem membersOf_eq_map (es : List (String × UserParameter)) :
    membersOf es = es.map fun e => (e.1, e.2.toJson) := by
  induction es with
  | nil => rfl
  | cons e rest ih =>
    obtain ⟨name, u⟩ := e
    rw [membersOf, List.map_cons, ih]

theorem names_membersOf (es : List (String × UserParameter)) :
    (membersOf es).map (·.1) = es.map (·.1) := by
  rw [membersOf_eq_map, List.map_map]
  rfl

/-- Away from the description's name, a value is read as one: it is written as a table or as no
object at all. -/
theorem read_value {v : Value} (hkey : key ≠ descriptionKey) (hv : v.WellFormed) :
    read path key v.toJson = clean (.value v) := by
  have hread : UserParameter.value <$> Rule.value path v.toJson = clean (.value v) := by
    rw [Reading.eq_clean_iff_yields, Reading.yields_map]
    exact ⟨v, Rule.value_eq_clean.mpr (Value.ofJson_toJson hv), rfl⟩
  cases v with
  | table t => exact (read_table hkey rfl).trans hread
  | formula f => exact (read_leaf (by simp [Value.toJson])).trans ((if_neg hkey).trans hread)
  | constant c =>
    refine (read_leaf ?_).trans ((if_neg hkey).trans hread)
    intro members
    simp only [Value.toJson, Json.ofFloat]
    split <;> simp

mutual

theorem read_toJson {path : Path} {key : String} :
    ∀ {u : UserParameter}, u.WellNamed key → (∀ v ∈ u.values, v.2.WellFormed) →
      read path key u.toJson = clean u
  | .value v, hnamed, hvalues => read_value hnamed (hvalues ([], v) (by simp [values]))
  | .text s, hnamed, _ => by
    have hkey : key = descriptionKey := hnamed
    simp only [toJson]
    rw [read_leaf (by simp), if_pos hkey, Reading.eq_clean_iff_yields, Reading.yields_map]
    exact ⟨s, Rule.expect_eq_clean.mpr rfl, rfl⟩
  | .group entries, hnamed, hvalues => by
    obtain ⟨hkey, hnames, hentries⟩ := hnamed
    have htable : looksLikeTable (membersOf entries) = false := by
      rw [looksLikeTable_eq_false_iff, names_membersOf, List.forall_mem_map]
      exact hnames
    simp only [toJson]
    rw [read_group hkey htable, Reading.eq_clean_iff_yields, Reading.yields_map]
    exact ⟨entries, readGroup_membersOf hentries hvalues, rfl⟩

theorem readGroup_membersOf {path : Path} :
    ∀ {es : List (String × UserParameter)}, AllWellNamed es →
      (∀ v ∈ groupValues es, v.2.WellFormed) →
      readGroup path (membersOf es) = clean es
  | [], _, _ => rfl
  | (name, u) :: rest, hnamed, hvalues => by
    rw [groupValues, List.forall_mem_append, forall_mem_below] at hvalues
    exact readGroup_cons.mpr
      ⟨u, read_toJson hnamed.1 hvalues.1, rest, readGroup_membersOf hnamed.2 hvalues.2, rfl⟩

end

theorem readAll_membersOf {u : UserDefined} (hnamed : AllWellNamed u)
    (hvalues : ∀ v ∈ groupValues u, v.2.WellFormed) :
    readAll path (.object (membersOf u)) = clean u := readGroup_membersOf hnamed hvalues

end BatteryParams.UserParameter

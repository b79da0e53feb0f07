import BatteryParams.Reading

/-!
# Laws of readings

A reading is `clean a` when it yields `a` and no issue was met. Readings are taken apart along the
way in which they are built: a combination is clean exactly if its parts are. That nothing is lost
without a word is the other law: a reading that yields nothing has an issue (`Reading.Accounted`),
and this too passes from the parts to the whole.
-/

namespace BatteryParams

namespace Reading

variable {α β : Type}

/-! ### Clean readings -/

theorem eq_clean_iff {r : Reading α} {a : α} : r = clean a ↔ r.value = some a ∧ r.issues = [] := by
  cases r
  simp [clean]

theorem clean_inj {a b : α} : (clean a : Reading α) = clean b ↔ a = b := by
  simp [clean]

/-- A reading is clean and yields something of this kind. -/
def Yields (r : Reading α) (P : α → Prop) : Prop := ∃ a, r = clean a ∧ P a

theorem eq_clean_iff_yields {r : Reading α} {a : α} : r = clean a ↔ r.Yields (· = a) := by
  constructor
  · intro h
    exact ⟨a, h, rfl⟩
  · rintro ⟨a', h, rfl⟩
    exact h

theorem yields_map {f : α → β} {r : Reading α} {P : β → Prop} :
    (f <$> r).Yields P ↔ r.Yields fun a => P (f a) := by
  constructor
  · rintro ⟨b, h, hb⟩
    obtain ⟨hvalue, hissues⟩ := eq_clean_iff.mp h
    obtain ⟨a, ha, rfl⟩ := Option.map_eq_some_iff.mp hvalue
    exact ⟨a, eq_clean_iff.mpr ⟨ha, hissues⟩, hb⟩
  · rintro ⟨a, rfl, ha⟩
    exact ⟨f a, rfl, ha⟩

theorem yields_seq {f : Reading (α → β)} {r : Reading α} {P : β → Prop} :
    (f <*> r).Yields P ↔ f.Yields fun g => r.Yields fun a => P (g a) := by
  constructor
  · rintro ⟨b, h, hb⟩
    obtain ⟨hvalue, hissues⟩ := eq_clean_iff.mp h
    obtain ⟨g, hg, hmap⟩ := Option.bind_eq_some_iff.mp hvalue
    obtain ⟨a, ha, rfl⟩ := Option.map_eq_some_iff.mp hmap
    obtain ⟨hf, hr⟩ := List.append_eq_nil_iff.mp hissues
    exact ⟨g, eq_clean_iff.mpr ⟨hg, hf⟩, a, eq_clean_iff.mpr ⟨ha, hr⟩, hb⟩
  · rintro ⟨g, rfl, a, rfl, hb⟩
    exact ⟨g a, rfl, hb⟩

theorem withIssues_eq_clean {issues : List Issue} {r : Reading α} {a : α} :
    r.withIssues issues = clean a ↔ issues = [] ∧ r = clean a := by
  simp only [eq_clean_iff]
  show r.value = some a ∧ issues ++ r.issues = [] ↔ _
  rw [List.append_eq_nil_iff]
  constructor
  · rintro ⟨hvalue, hissues, hrest⟩
    exact ⟨hissues, hvalue, hrest⟩
  · rintro ⟨hissues, hvalue, hrest⟩
    exact ⟨hvalue, hissues, hrest⟩

theorem issue_ne_clean {path : Path} {cause : IssueCause} {a : α} :
    (issue path cause : Reading α) ≠ clean a := by
  simp [issue, clean]

theorem ofExcept_eq_clean {path : Path} {e : Except IssueCause α} {a : α} :
    ofExcept path e = clean a ↔ e = .ok a := by
  cases e with
  | ok b => simp [ofExcept, clean_inj]
  | error cause => simp [ofExcept, issue_ne_clean]

theorem each_cons {read : α → Reading β} {a : α} {as : List α} {bs : List β} :
    each read (a :: as) = clean bs ↔ ∃ b, read a = clean b ∧ ∃ bs', each read as = clean bs' ∧
      b :: bs' = bs := by
  rw [each, eq_clean_iff_yields, yields_seq, yields_map]
  rfl

/-- What is read from every member of a list was read from some member. -/
theorem exists_of_each {read : α → Reading β} {as : List α} {bs : List β}
    (h : each read as = clean bs) {b : β} (hb : b ∈ bs) : ∃ a ∈ as, read a = clean b := by
  induction as generalizing bs with
  | nil =>
    obtain rfl := clean_inj.mp h
    cases hb
  | cons a as ih =>
    obtain ⟨b', hread, bs', hrest, rfl⟩ := each_cons.mp h
    rcases List.mem_cons.mp hb with rfl | hb
    · exact ⟨a, by simp, hread⟩
    · obtain ⟨a', ha', hread'⟩ := ih hrest hb
      exact ⟨a', by simp [ha'], hread'⟩

/-- Members that are each read back, as what they were written from or as some form of it. -/
theorem each_map {γ : Type} {write : γ → α} {form : γ → β} {read : α → Reading β} {cs : List γ}
    (h : ∀ c ∈ cs, read (write c) = clean (form c)) :
    each read (cs.map write) = clean (cs.map form) := by
  induction cs with
  | nil => rfl
  | cons c cs ih =>
    rw [List.map_cons, each_cons]
    exact ⟨form c, h c (by simp), cs.map form, ih fun c' hc' => h c' (by simp [hc']), rfl⟩

/-! ### Readings that yield nothing -/

/-- If nothing could be read, an issue says why. -/
def Accounted (r : Reading α) : Prop := r.value = none → r.issues ≠ []

theorem Accounted.exists_clean {r : Reading α} (h : r.Accounted) (hissues : r.issues = []) :
    ∃ a, r = clean a := by
  cases hvalue : r.value with
  | none => exact absurd hissues (h hvalue)
  | some a => exact ⟨a, eq_clean_iff.mpr ⟨hvalue, hissues⟩⟩

theorem accounted_clean (a : α) : (clean a).Accounted := by
  intro h
  cases h

theorem accounted_issue (path : Path) (cause : IssueCause) :
    (issue path cause : Reading α).Accounted := by
  intro _ h
  cases h

theorem accounted_ofExcept (path : Path) (e : Except IssueCause α) :
    (ofExcept path e).Accounted := by
  cases e with
  | ok a => exact accounted_clean a
  | error cause => exact accounted_issue path cause

theorem Accounted.map {r : Reading α} (h : r.Accounted) (f : α → β) : (f <$> r).Accounted := by
  intro hvalue
  exact h (Option.map_eq_none_iff.mp hvalue)

theorem Accounted.seq {f : Reading (α → β)} {r : Reading α} (hf : f.Accounted) (hr : r.Accounted) :
    (f <*> r).Accounted := by
  intro hvalue hissues
  obtain ⟨hnof, hnor⟩ := List.append_eq_nil_iff.mp (show f.issues ++ r.issues = [] from hissues)
  cases hg : f.value with
  | none => exact hf hg hnof
  | some g =>
    have hmap : (f.value.bind fun g => r.value.map g) = none := hvalue
    rw [hg, Option.bind_some, Option.map_eq_none_iff] at hmap
    exact hr hmap hnor

theorem Accounted.withIssues {r : Reading α} (h : r.Accounted) (issues : List Issue) :
    (r.withIssues issues).Accounted := by
  intro hvalue hissues
  exact h hvalue (List.append_eq_nil_iff.mp hissues).2

theorem accounted_each {read : α → Reading β} (h : ∀ a, (read a).Accounted) (as : List α) :
    (each read as).Accounted := by
  induction as with
  | nil => exact accounted_clean []
  | cons a as ih => exact ((h a).map List.cons).seq ih

end Reading

open Reading (clean)

namespace Record

variable {α : Type} {r : Record} {f : Field} {read : Path → Json → Reading α}

theorem read_eq_clean {model : Model} {fields : List Field} {body : Record → Reading α}
    {path : Path} {j : Json} {a : α} (h : Record.read model fields body path j = clean a) :
    ∃ members, j = .object members ∧ body ⟨path, members, model⟩ = clean a := by
  cases j with
  | object members => exact ⟨members, rfl, (Reading.withIssues_eq_clean.mp h).2⟩
  | _ => exact absurd h Reading.issue_ne_clean

theorem of_read {P : Prop} {model : Model} {fields : List Field} {body : Record → Reading α}
    {path : Path} {j : Json} {a : α} (hbody : ∀ r : Record, r.model = model → body r = clean a → P)
    (h : Record.read model fields body path j = clean a) : P := by
  obtain ⟨members, -, hmembers⟩ := read_eq_clean h
  exact hbody _ rfl hmembers

theorem entry_eq_clean {o : Option α} :
    r.entry f read = clean o ↔
      (∃ j a, Named.find? f.key r.members = some j ∧ read (r.path ++ [f.key]) j = clean a ∧
        o = some a) ∨
      Named.find? f.key r.members = none ∧ f.requirement.isRequired r.model = false ∧ o = none := by
  unfold entry
  cases hfind : Named.find? f.key r.members with
  | some j =>
    rw [Reading.eq_clean_iff_yields, Reading.yields_map]
    constructor
    · rintro ⟨a, ha, rfl⟩
      exact .inl ⟨j, a, rfl, ha, rfl⟩
    · rintro (⟨j', a, hj, ha, rfl⟩ | ⟨hj, -⟩)
      · cases hj
        exact ⟨a, ha, rfl⟩
      · cases hj
  | none =>
    cases hrequired : f.requirement.isRequired r.model with
    | true => simp [Reading.issue_ne_clean]
    | false => simp [Reading.clean_inj, eq_comm]

theorem required_eq_clean {a : α} :
    r.required f read = clean a ↔
      ∃ j, Named.find? f.key r.members = some j ∧ read (r.path ++ [f.key]) j = clean a := by
  have hjoin : r.required f read = clean a ↔ r.entry f read = clean (some a) := by
    simp only [required, Reading.eq_clean_iff, Option.join_eq_some_iff]
  rw [hjoin, entry_eq_clean]
  constructor
  · rintro (⟨j, a', hj, ha, ho⟩ | ⟨-, -, ho⟩)
    · cases ho
      exact ⟨j, hj, ha⟩
    · cases ho
  · rintro ⟨j, hj, ha⟩
    exact .inl ⟨j, a, hj, ha, rfl⟩

theorem of_required {P : α → Prop} (hread : ∀ path j a, read path j = clean a → P a) {a : α}
    (h : r.required f read = clean a) : P a := by
  obtain ⟨j, -, hj⟩ := required_eq_clean.mp h
  exact hread _ _ _ hj

theorem of_entry {P : α → Prop} (hread : ∀ path j a, read path j = clean a → P a) {o : Option α}
    (h : r.entry f read = clean o) : ∀ a ∈ o, P a := by
  rintro a rfl
  rcases entry_eq_clean.mp h with ⟨j, a', -, hj, ho⟩ | ⟨-, -, ho⟩
  · cases ho
    exact hread _ _ _ hj
  · cases ho

theorem accounted_read {model : Model} {fields : List Field} {body : Record → Reading α}
    (h : ∀ r, (body r).Accounted) (path : Path)
    (j : Json) : (Record.read model fields body path j).Accounted := by
  cases j with
  | object members => exact (h _).withIssues _
  | _ => exact Reading.accounted_issue _ _

theorem accounted_entry (h : ∀ path j, (read path j).Accounted) (r : Record) (f : Field) :
    (r.entry f read).Accounted := by
  unfold entry
  split
  · exact (h _ _).map some
  · split
    · exact Reading.accounted_issue _ _
    · exact Reading.accounted_clean _

theorem accounted_required (h : ∀ path j, (read path j).Accounted) {r : Record} {f : Field}
    (hf : f.requirement.isRequired r.model = true ∨ (Named.find? f.key r.members).isSome = true) :
    (r.required f read).Accounted := by
  intro hvalue hissues
  cases hfind : Named.find? f.key r.members with
  | some j =>
    have hentry : r.entry f read = some <$> read (r.path ++ [f.key]) j := by
      simp only [entry, hfind]
    have hjoin : ((read (r.path ++ [f.key]) j).value.map some).join = none := by
      have hvalue' : (r.entry f read).value.join = none := hvalue
      rwa [hentry] at hvalue'
    have hno : (read (r.path ++ [f.key]) j).issues = [] := by
      have hissues' : (r.entry f read).issues = [] := hissues
      rwa [hentry] at hissues'
    refine h _ _ ?_ hno
    cases hread : (read (r.path ++ [f.key]) j).value with
    | none => rfl
    | some a => simp [hread] at hjoin
  | none =>
    have hrequired : f.requirement.isRequired r.model = true := by
      rcases hf with hf | hf
      · exact hf
      · simp [hfind] at hf
    have hissues' : (r.entry f read).issues = [] := hissues
    simp [entry, hfind, hrequired, Reading.issue] at hissues'

end Record

end BatteryParams

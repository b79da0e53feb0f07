import BatteryParams.Proofs.Document.RoundTrip

/-!
# What an accepted document is known to be

A reader goes on after a fault, with a gap in the place of what could not be read. No gap gets into
a document: an accepted document has every entry that its own model asks for, and everything in it
passed the checks of its kind. A refused document, on the other hand, comes with an issue.
-/

namespace BatteryParams

open Reading (clean)

/-! ### Blends and tables -/

namespace Blend

/-- The sum of the fractions of a blend. -/
def total (b : Blend) : Float := b.components.foldl (fun sum c => sum + c.2.volumeFraction) (-0.0)

/-- There are materials, each takes up a part of the volume, and together they take up all of it. -/
structure Proper (b : Blend) : Prop where
  nonempty : b.components ≠ []
  fractions : ∀ c ∈ b.components, 0.0 ≤ c.2.volumeFraction ∧ c.2.volumeFraction ≤ 1.0
  total : (b.total - 1.0).abs ≤ blendTolerance

theorem isNumber_total {b : Blend}
    (hfinite : ∀ c ∈ b.components, c.2.volumeFraction.isFinite = true) :
    Double.IsNumber b.total := by
  have hfold :
      ∀ (cs : Named BlendMaterial) (sum : Float), (∀ c ∈ cs, c.2.volumeFraction.isFinite = true) →
      Double.IsNumber sum →
        Double.IsNumber (cs.foldl (fun sum c => sum + c.2.volumeFraction) sum) := by
    intro cs
    induction cs with
    | nil => exact fun _ _ hsum => hsum
    | cons c cs ih =>
      intro sum hcs hsum
      obtain ⟨hc, hcs⟩ := List.forall_mem_cons.mp hcs
      exact ih _ hcs (Double.isNumber_add hsum hc)
  exact hfold b.components _ hfinite (Double.isNumber_of_isFinite (by decide))

theorem proper {b : Blend} (hfinite : ∀ c ∈ b.components, c.2.volumeFraction.isFinite = true) :
    b.Proper := by
  have hsound := b.sound
  have htotal : (fractions b.components).foldl (fun sum f => sum + f.2) (-0.0) = b.total := by
    rw [fractions, List.foldl_map]
    rfl
  by_cases hempty : (fractions b.components).isEmpty
  · rw [blendFault?, if_pos hempty] at hsound
    cases hsound
  rw [blendFault?, if_neg hempty] at hsound
  split at hsound
  · cases hsound
  next hrange =>
  simp only [htotal] at hsound
  by_cases hfar : (b.total - 1.0).abs > blendTolerance
  · rw [if_pos hfar] at hsound
    cases hsound
  have hnumber : Double.IsNumber (b.total - 1.0).abs :=
    Double.isNumber_abs (Double.isNumber_sub (isNumber_total hfinite) Double.isFinite_one)
  have htolerance : Double.IsNumber blendTolerance := Double.isNumber_of_isFinite (by decide)
  refine ⟨?_, ?_, (Double.not_lt_iff htolerance hnumber).mp hfar⟩
  · intro hnil
    exact hempty (by rw [fractions, hnil]; rfl)
  · intro c hc
    have hmem : (c.1, c.2.volumeFraction) ∈ fractions b.components := List.mem_map.mpr ⟨c, hc, rfl⟩
    simpa using List.find?_eq_none.mp hrange _ hmem

end Blend

/-- At least two breakpoints, a finite value at each, and finite, strictly increasing arguments. -/
structure Table.Proper (t : Table Float) : Prop where
  points : 2 ≤ t.x.length
  lengths : t.y.length = t.x.length
  finite : ∀ v ∈ t.x ++ t.y, v.isFinite = true
  increasing : t.x.Pairwise (· < ·)

theorem Table.Built.proper {t : Table Float} (h : t.Built) : t.Proper := by
  obtain ⟨hfinite, hincreasing⟩ := built_iff.mp h
  exact ⟨t.two_le, t.length_eq, hfinite, hincreasing⟩

/-! ### Entries

The entries of a document are those of its tree, section by section, under the fields of the
section's table. -/

/-- An entry is there if the model asks for its field. -/
def Written.Present (model : Model) (w : Written) : Prop :=
  w.1.requirement.isRequired model = true → w.2.isSome = true

/-- The entries below an electrode. -/
def ActiveMaterial.entries : ActiveMaterial → List Written
  | .single _ => []
  | .blended b => b.components.flatMap fun c => c.2.written

def ActiveMaterial.blends : ActiveMaterial → List Blend
  | .single _ => []
  | .blended b => [b]

def Parameters.electrodes (p : Parameters) : List Electrode :=
  [p.negativeElectrode, p.positiveElectrode]

/-- The entries of all sections of a document. -/
def Document.entries (d : Document) : List Written :=
  d.written ++ d.header.written ++ d.parameters.written ++ d.parameters.cell.written ++
    d.parameters.electrolyte.elim [] Electrolyte.written ++
    (d.parameters.electrodes.flatMap fun e => e.written ++ e.material.entries) ++
    d.parameters.separator.elim [] Separator.written ++ (d.validation.getD []).flatMap fun e =>
      e.2.written

def Document.blends (d : Document) : List Blend :=
  d.parameters.electrodes.flatMap fun e => e.material.blends

theorem present_of_always {f : Field} {j : Json} {model : Model} :
    Written.Present model (f, some j) := fun _ => rfl

theorem present_of_optional {f : Field} {o : Option Json} {model : Model}
    (h : f.requirement = .optional) : Written.Present model (f, o) := by
  intro hrequired
  rw [h] at hrequired
  cases hrequired

theorem present_of_since {α : Type} {f : Field} {o : Option α} {write : α → Json}
    {least model : Model}
    (h : f.requirement = .since least) (ho : least ≤ model → o.isSome = true) :
    Written.Present model (f, o.map write) := by
  intro hrequired
  rw [h] at hrequired
  rw [Option.isSome_map]
  exact ho (of_decide_eq_true hrequired)

section

variable (model : Model)

theorem Header.present (h : Header) : ∀ w ∈ h.written, Written.Present model w := by
  simp only [written, List.forall_mem_cons]
  exact ⟨present_of_always, present_of_optional rfl, present_of_optional rfl,
    present_of_optional rfl, present_of_always, List.forall_mem_nil _⟩

theorem Cell.present (c : Cell) : ∀ w ∈ c.written, Written.Present model w := by
  simp only [written, List.forall_mem_cons]
  exact ⟨present_of_always, present_of_optional rfl, present_of_optional rfl, present_of_always,
    present_of_always, present_of_always, present_of_always, present_of_always,
    present_of_optional rfl,
    present_of_optional rfl, present_of_optional rfl, present_of_optional rfl,
    present_of_optional rfl, List.forall_mem_nil _⟩

theorem Electrolyte.present (e : Electrolyte) : ∀ w ∈ e.written, Written.Present model w := by
  simp only [written, List.forall_mem_cons]
  exact ⟨present_of_always, present_of_always, present_of_always, present_of_optional rfl,
    present_of_always, present_of_optional rfl, List.forall_mem_nil _⟩

theorem Particle.present (p : Particle) : ∀ w ∈ p.written, Written.Present model w := by
  simp only [written, List.forall_mem_cons]
  exact ⟨present_of_always, present_of_always, present_of_always, present_of_always,
    present_of_always,
    present_of_always, present_of_optional rfl, present_of_always, present_of_optional rfl,
    present_of_always, present_of_optional rfl, List.forall_mem_nil _⟩

theorem Separator.present (s : Separator) : ∀ w ∈ s.written, Written.Present model w := by
  simp only [written, List.forall_mem_cons]
  exact ⟨present_of_always, present_of_always, present_of_always, List.forall_mem_nil _⟩

theorem Experiment.present (e : Experiment) : ∀ w ∈ e.written, Written.Present model w := by
  simp only [written, List.forall_mem_cons]
  exact ⟨present_of_always, present_of_always, present_of_always, present_of_optional rfl,
    List.forall_mem_nil _⟩

theorem ActiveMaterial.present (m : ActiveMaterial) :
    ∀ w ∈ m.written ++ m.entries, Written.Present model w := by
  rw [List.forall_mem_append]
  cases m with
  | single p => exact ⟨p.present model, List.forall_mem_nil _⟩
  | blended b =>
    refine ⟨List.forall_mem_cons.mpr ⟨present_of_always, List.forall_mem_nil _⟩,
      List.forall_mem_flatMap.mpr fun c _ => ?_⟩
    exact List.forall_mem_cons.mpr ⟨present_of_always, c.2.particle.present model⟩

variable {model}

theorem Electrode.present {e : Electrode} (h : e.Complete model) :
    ∀ w ∈ e.written ++ e.material.entries, Written.Present model w := by
  rw [written, List.append_assoc, List.forall_mem_append]
  refine ⟨?_, e.material.present model⟩
  simp only [List.forall_mem_cons]
  exact ⟨present_of_always, present_of_since rfl h.porosity,
    present_of_since rfl h.transportEfficiency,
    present_of_since rfl h.conductivity, List.forall_mem_nil _⟩

theorem Parameters.present {p : Parameters} (h : p.Complete model) :
    ∀ w ∈ p.written, Written.Present model w := by
  simp only [written, List.forall_mem_cons]
  exact ⟨present_of_always, present_of_since rfl h.electrolyte, present_of_always,
    present_of_always,
    present_of_since rfl h.separator, present_of_optional rfl, List.forall_mem_nil _⟩

/-- If a document has all that its model asks for, every entry that the tables mark as required is
there. -/
theorem Document.present {d : Document} (h : d.parameters.Complete model) :
    ∀ w ∈ d.entries, Written.Present model w := by
  have hdocument : ∀ w ∈ d.written, Written.Present model w := by
    simp only [written, List.forall_mem_cons]
    exact ⟨present_of_always, present_of_always, present_of_optional rfl, List.forall_mem_nil _⟩
  have helectrodes : ∀ e ∈ d.parameters.electrodes, ∀ w ∈ e.written ++ e.material.entries,
      Written.Present model w := by
    simp only [Parameters.electrodes, List.forall_mem_cons]
    exact ⟨Electrode.present h.negativeElectrode, Electrode.present h.positiveElectrode,
      List.forall_mem_nil _⟩
  have hexperiments : ∀ e ∈ d.validation.getD [], ∀ w ∈ e.2.written, Written.Present model w :=
    fun e _ => e.2.present model
  rw [← List.forall_mem_flatMap] at helectrodes hexperiments
  simp only [entries, List.forall_mem_append, forall_mem_elim]
  exact ⟨⟨⟨⟨⟨⟨⟨hdocument, d.header.present model⟩, Parameters.present h⟩,
    d.parameters.cell.present model⟩,
    fun e _ => e.present model⟩, helectrodes⟩, fun s _ => s.present model⟩, hexperiments⟩

end

/-! ### Documents -/

namespace Document

/-- Nothing in a document stands in for something that could not be read. -/
structure Accepted (d : Document) : Prop where
  version : d.header.version.WellFormed
  numbers : ∀ x ∈ d.numbers, x.isFinite = true
  pairs : 1 ≤ d.parameters.cell.numberOfElectrodePairs
  complete : d.parameters.Complete d.header.model
  entries : ∀ w ∈ d.entries, Written.Present d.header.model w
  constants : ∀ v ∈ d.values, ∀ c, v.2 = .constant c → c.isFinite = true
  formulas : ∀ v ∈ d.values, ∀ f, v.2 = .formula f → Expr.parse f.source = .ok f.tree
  tables : ∀ v ∈ d.values, ∀ t, v.2 = .table t → t.Proper
  blends : ∀ b ∈ d.blends, b.Proper
  experiments : ∀ es ∈ d.validation, ∀ e ∈ es, e.2.WellFormed

theorem proper_of_mem_blends {d : Document} (hnumbers : ∀ x ∈ d.numbers, x.isFinite = true) :
    ∀ b ∈ d.blends, b.Proper := by
  have hparameters := (Parameters.forall_mem_numbers.mp (forall_mem_numbers.mp hnumbers).1).2.2
  have helectrode : ∀ e : Electrode, (∀ x ∈ e.numbers, x.isFinite = true) →
      ∀ b ∈ e.material.blends, b.Proper := by
    intro e he b hb
    have hmaterial := (List.forall_mem_append.mp he).2
    cases hm : e.material with
    | single p => simp [hm, ActiveMaterial.blends] at hb
    | blended b' =>
      rw [hm, ActiveMaterial.forall_mem_numbers] at hmaterial
      obtain rfl : b = b' := by simpa [hm, ActiveMaterial.blends] using hb
      exact Blend.proper fun c hc => hmaterial c hc _ List.mem_cons_self
  simp only [blends, Parameters.electrodes, List.forall_mem_flatMap, List.forall_mem_cons]
  exact ⟨helectrode _ hparameters.1, helectrode _ hparameters.2.1, List.forall_mem_nil _⟩

theorem accepted_of_readable {d : Document} (h : d.Readable) : d.Accepted := by
  obtain ⟨hwell, htables⟩ := readable_iff.mp h
  exact {
    version := hwell.version
    numbers := hwell.numbers
    pairs := hwell.pairs
    complete := hwell.complete
    entries := present hwell.complete
    constants := hwell.constants
    formulas := fun _ _ f _ => f.parsed
    tables := fun v hv t ht => (htables v hv t ht).proper
    blends := proper_of_mem_blends hwell.numbers
    experiments := hwell.experiments }

theorem issues_of_ofJson {j : Json} {r : Rejection} (h : ofJson j = .error r) :
    r.issues = (read j).issues := by
  rw [ofJson] at h
  split at h
  · cases h
  · cases h
    rfl

theorem issues_ne_nil_of_ofJson {j : Json} {r : Rejection} (h : ofJson j = .error r) :
    r.issues ≠ [] := by
  intro hnil
  rw [issues_of_ofJson h] at hnil
  have haccounted : (read j).Accounted := Record.accounted_read accounted_body [] j
  obtain ⟨d, hd⟩ := haccounted.exists_clean hnil
  rw [ofJson_eq_ok.mpr hd] at h
  cases h

/-- A document that is accepted was read for the model that its own header names and holds nothing
unchecked, and a tree that is refused is refused for some issue. -/
theorem accepted_or_explained (j : Json) :
    (∀ d, ofJson j = .ok d → d.Accepted ∧ statedModel j = d.header.model) ∧
      ∀ r, ofJson j = .error r → r.issues ≠ [] := by
  refine ⟨fun d h => ?_, fun r h => issues_ne_nil_of_ofJson h⟩
  have hread := ofJson_eq_ok.mp h
  exact ⟨accepted_of_readable (readable_of_read hread), statedModel_of_read hread⟩

theorem accepted_sample : ofJson sample.toJson = .ok sample ∧ sample.Accepted := by
  have hread : ofJson sample.toJson = .ok sample := ofJson_eq_ok.mpr (read_toJson sample_readable)
  exact ⟨hread, ((accepted_or_explained sample.toJson).1 sample hread).1⟩

end Document

end BatteryParams

import BatteryParams.Proofs.Schema.Records

/-!
# Descriptions of sections

Every section of a document fits its description, with two gaps here. A count may be above every
count. And an electrode without any field of its material counts as a blend for the description,
since a blend need not have its materials, and as a single material for the reader, which then
misses all that every material has.
-/

namespace BatteryParams

open Reading (check)

section

open Schema (NoGap Fits ofTable fits_number fits_count fits_text fits_version fits_model fits_value
  fits_numberList)

variable {hops : Nat} (model : Model)

/-! ### Flat sections -/

theorem Header.fits_read : Fits hops (ofTable HeaderField.table) (check (read model)) NoGap := by
  refine fits_flat (leavesRest_of_eq fun r _ => issues_body r) HeaderField.keys_nodup
    (List.Perm.refl _) ?_
  simp only [parts, List.forall_mem_cons]
  exact ⟨fits_version rfl, fits_text rfl, fits_text rfl, fits_text rfl, fits_model rfl,
    List.forall_mem_nil _⟩

/-- A cell whose number of electrode pairs is above every count. -/
def Cell.TooMany (j : Json) : Prop :=
  ∃ inner, j.member? CellField.numberOfElectrodePairs.key = some inner ∧ inner.TooMany

/-- The gap of an entry that a rule decides. -/
def Field.leafGap (f : Field) : Json → Prop :=
  match f.kind with
  | .count => Json.TooMany
  | _ => NoGap

theorem Field.kind_of_leafGap {f : Field} {j : Json} (h : f.leafGap j) :
    f.kind = .count ∧ j.TooMany := by
  cases hkind : f.kind <;> simp_all [leafGap, NoGap]

theorem Cell.fits_read : Fits hops (ofTable CellField.table) (check (read model)) Cell.TooMany := by
  have hparts : ∀ p ∈ parts, p.Fits p.field.leafGap := by
    simp only [parts, List.forall_mem_cons]
    exact ⟨fits_number rfl, fits_number rfl, fits_number rfl, fits_count rfl, fits_number rfl,
      fits_number rfl, fits_number rfl, fits_number rfl, fits_number rfl, fits_number rfl,
      fits_number rfl, fits_number rfl, fits_number rfl, List.forall_mem_nil _⟩
  refine (fits_record (leavesRest_of_eq fun r _ => issues_body r) CellField.keys_nodup
    (List.Perm.refl _) hparts).congr fun j => ?_
  have hcounts : ∀ f ∈ CellField.table, f.kind = .count → f = CellField.numberOfElectrodePairs := by
    decide
  constructor
  · rintro ⟨f, hf, inner, hfind, hgap⟩
    obtain ⟨hkind, hmany⟩ := Field.kind_of_leafGap hgap
    obtain rfl := hcounts f hf hkind
    exact ⟨inner, hfind, hmany⟩
  · rintro ⟨inner, hfind, hmany⟩
    exact ⟨CellField.numberOfElectrodePairs, by decide, inner, hfind, hmany⟩

theorem Electrolyte.fits_read : Fits hops (ofTable ElectrolyteField.table)
    (check (read model)) NoGap := by
  refine fits_flat (leavesRest_of_eq fun r _ => issues_body r) ElectrolyteField.keys_nodup
    (List.Perm.refl _) ?_
  simp only [parts, List.forall_mem_cons]
  exact ⟨fits_number rfl, fits_number rfl, fits_value rfl, fits_number rfl, fits_value rfl,
    fits_number rfl, List.forall_mem_nil _⟩

theorem Particle.fits_parts : ∀ p ∈ parts, p.Fits NoGap := by
  simp only [parts, List.forall_mem_cons]
  exact ⟨fits_number rfl, fits_number rfl, fits_number rfl, fits_number rfl, fits_number rfl,
    fits_value rfl, fits_number rfl, fits_value rfl, fits_value rfl, fits_number rfl,
    fits_number rfl, List.forall_mem_nil _⟩

theorem Separator.fits_read : Fits hops (ofTable SeparatorField.table)
    (check (read model)) NoGap := by
  refine fits_flat (leavesRest_of_eq fun r _ => issues_body r) SeparatorField.keys_nodup
    (List.Perm.refl _) ?_
  simp only [parts, List.forall_mem_cons]
  exact ⟨fits_number rfl, fits_number rfl, fits_number rfl, List.forall_mem_nil _⟩

/-! ### Mappings -/

theorem JudgedAt.left {ε : Type} {path : Path} {cause : ε → IssueCause} {issues : List Issue}
    (hissues : JudgedAt path cause issues) (h : ∀ e, (cause e).LeftToReader) :
    ∀ i ∈ issues, i.cause.LeftToReader := by
  rcases hissues with rfl | ⟨e, rfl⟩
  · exact List.forall_mem_nil _
  · exact List.forall_mem_singleton.mpr (h e)

namespace Blend

theorem fits_material :
    Fits hops (ofTable materialFields) (check (Record.read model materialFields materialBody))
      NoGap := by
  refine fits_flat (leavesRest_of_eq fun r _ => issues_materialBody r) ?_ ?_ ?_
  · exact (List.perm_append_singleton _ _).map _ |>.nodup_iff.mpr ParticleField.keys_nodup
  · exact (List.perm_append_singleton _ _).symm
  · exact List.forall_mem_cons.mpr ⟨fits_number rfl, Particle.fits_parts⟩

/-- Without materials there is no blend, for the reader as for the description. -/
theorem fits_read :
    Fits hops (Schema.mapping (ofTable materialFields) (some 1)) (check (read model)) NoGap := by
  refine fits_mapping (fits_material model) ?_ ?_ ?_
  · intro path members
    exact ⟨_, (judgedAt_ofParts path _).left fun f => .inr rfl, issues_read model path members⟩
  · intro path j hcheck
    cases j with
    | object members => exact ⟨members, rfl⟩
    | _ => cases hcheck
  · intro path members hcheck n hn
    cases hn
    cases members with
    | nil => cases hcheck
    | cons m rest => simp

end Blend

namespace Experiment

theorem fits_member :
    Fits hops (ofTable ExperimentField.table) (check (Record.read model ExperimentField.table body))
      NoGap := by
  have hbody : LeavesRest model parts body := by
    intro r _
    obtain ⟨judged, hjudged, hissues⟩ := issues_body r
    exact ⟨judged, hjudged.left fun f => .inr rfl, hissues⟩
  refine fits_flat hbody ExperimentField.keys_nodup (List.Perm.refl _) ?_
  simp only [parts, List.forall_mem_cons]
  exact ⟨fits_numberList rfl, fits_numberList rfl, fits_numberList rfl, fits_numberList rfl,
    List.forall_mem_nil _⟩

theorem fits_readAll : Fits hops (Schema.mapping (.ref "Experiment") none)
    (check (readAll model)) NoGap := by
  have hmember : Fits Schema.reach (.ref "Experiment")
      (check (Record.read model ExperimentField.table body)) NoGap :=
    (fits_member model).ref rfl (by decide)
  refine fits_mapping hmember ?_ ?_ nofun
  · intro path members
    refine ⟨[], List.forall_mem_nil _, ?_⟩
    rw [List.append_nil, issues_readAll]
  · intro path j hcheck
    cases j with
    | object members => exact ⟨members, rfl⟩
    | _ => cases hcheck

end Experiment

/-! ### Electrodes -/

namespace Electrode

/-- An electrode, or what should be one, without any field of its material. -/
def Bare (j : Json) : Prop :=
  ∀ f ∈ ElectrodeField.blendTable ++ ParticleField.table, j.member? f.key = none

theorem fits_variant (isBlend : Bool) :
    Fits hops (ofTable (fields isBlend)) (check (Record.read model (fields isBlend) (body isBlend)))
      NoGap := by
  have hbody : LeavesRest model (parts model isBlend) (body isBlend) :=
    leavesRest_of_eq fun r hr => hr ▸ issues_body isBlend r
  refine fits_flat hbody (keys_nodup isBlend) (List.Perm.of_eq (fields_parts model isBlend)) ?_
  rw [parts, List.forall_mem_append]
  constructor
  · simp only [ownParts, List.forall_mem_cons]
    exact ⟨fits_number rfl, fits_number rfl, fits_number rfl, fits_number rfl,
      List.forall_mem_nil _⟩
  · cases isBlend with
    | true =>
      rw [materialParts, if_pos rfl, List.forall_mem_singleton]
      exact Part.fits_section (.inr rfl) rfl (by decide) (Blend.fits_read model)
    | false => exact Particle.fits_parts

theorem member?_of_single {j : Json} (h : (ofTable (fields false)).Describes hops j) :
    j.member? ElectrodeField.particle.key = none ∧
      (j.member? ParticleField.minimumStoichiometry.key).isSome = true := by
  obtain ⟨hclosed, hpresent⟩ := Schema.members_of_ofTable (keys_nodup false) h
  exact ⟨hclosed _ (by decide), hpresent _ (by decide) rfl⟩

theorem member?_of_blend {j : Json} (h : (ofTable (fields true)).Describes hops j) :
    ∀ f ∈ ParticleField.table, j.member? f.key = none := by
  have hforeign : ∀ f ∈ ParticleField.table, f.key ∉ (fields true).map (·.key) := by decide
  intro f hf
  exact (Schema.members_of_ofTable (keys_nodup true) h).1 f.key (hforeign f hf)

/-- What has a stoichiometry is no blend for the description. -/
theorem not_both {j : Json} (hsingle : (ofTable (fields false)).Describes hops j) :
    ¬(ofTable (fields true)).Describes hops j := by
  intro hblend
  have hpresent := (member?_of_single hsingle).2
  rw [member?_of_blend hblend _ (by decide)] at hpresent
  cases hpresent

theorem check_read_of_single {path : Path} {j : Json}
    (h : j.member? ElectrodeField.particle.key = none) :
    check (read model) path j = check (Record.read model (fields false) (body false)) path j := by
  rw [check, check, read, h]
  rfl

theorem check_read_of_blend {path : Path} {j : Json}
    (h : (j.member? ElectrodeField.particle.key).isSome = true) :
    check (read model) path j = check (Record.read model (fields true) (body true)) path j := by
  rw [check, check, read, h]

/-- The reader takes an electrode without any material for a single one and misses its fields. -/
theorem exists_not_left_of_bare {path : Path} {members : List (String × Json)}
    (h : Bare (.object members)) :
    ∃ i ∈ check (read model) path (.object members), ¬i.cause.LeftToReader := by
  have hparticle : (Json.object members).member? ElectrodeField.particle.key = none :=
    h _ (by decide)
  let first : Part := .leaf ParticleField.minimumStoichiometry Rule.number
  let issue : Issue := ⟨path ++ [first.field.key], .missing .always⟩
  have hfirst : first ∈ parts model false := List.mem_append_right _ List.mem_cons_self
  have hissue : issue ∈ first.issues ⟨path, members, model⟩ := by
    have hmissing : Named.find? first.field.key members = none := h first.field (by decide)
    show issue ∈ first.report model path (Named.find? first.field.key members)
    rw [hmissing]
    exact List.mem_singleton_self issue
  refine ⟨issue, ?_, by simp [issue, IssueCause.LeftToReader, IssueCause.issueClass]⟩
  rw [check_read_of_single model hparticle, check, Record.issues_read, issues_body]
  exact List.mem_append_right _ (List.mem_flatMap.mpr ⟨first, hfirst, hissue⟩)

/-- An electrode fits its description unless it has no material at all. -/
theorem fits_read : Fits hops (.oneOf [ofTable (fields false), ofTable (fields true)])
    (check (read model)) Bare where
  describes := by
    intro path j hfiled hcheck
    refine Schema.admits_oneOf.mpr ?_
    by_cases hblend : (j.member? ElectrodeField.particle.key).isSome = true
    · rw [check_read_of_blend model hblend] at hcheck
      refine .inr ⟨fun hsingle => ?_, (fits_variant model true).describes path j hfiled hcheck⟩
      rw [(member?_of_single hsingle).1] at hblend
      cases hblend
    · rw [Bool.not_eq_true, Option.isSome_eq_false_iff, Option.isNone_iff_eq_none] at hblend
      rw [check_read_of_single model hblend] at hcheck
      have hsingle : (ofTable (fields false)).Describes hops j :=
        (fits_variant model false).describes path j hfiled hcheck
      exact .inl ⟨hsingle, not_both hsingle⟩
  left_iff := by
    intro path j hfiled hj
    rcases Schema.admits_oneOf.mp hj with ⟨hsingle, -⟩ | ⟨-, hvariant⟩
    · obtain ⟨hparticle, hpresent⟩ := member?_of_single hsingle
      rw [check_read_of_single model hparticle,
        (fits_variant model false).left_iff path j hfiled hsingle]
      refine not_congr (iff_of_false id fun hbare => ?_)
      rw [hbare _ (by decide)] at hpresent
      cases hpresent
    · by_cases hblend : (j.member? ElectrodeField.particle.key).isSome = true
      · rw [check_read_of_blend model hblend,
          (fits_variant model true).left_iff path j hfiled hvariant]
        refine not_congr (iff_of_false id fun hbare => ?_)
        rw [hbare _ (by decide)] at hblend
        cases hblend
      · rw [Bool.not_eq_true, Option.isSome_eq_false_iff, Option.isNone_iff_eq_none] at hblend
        have hbare : Bare j := by
          rw [Bare, List.forall_mem_append]
          exact ⟨List.forall_mem_singleton.mpr hblend, member?_of_blend hvariant⟩
        obtain ⟨members, rfl, -⟩ := (Schema.describes_ofTable (keys_nodup true)).mp hvariant
        obtain ⟨i, hi, hleft⟩ := exists_not_left_of_bare model hbare
        exact iff_of_false (fun hall => hleft (hall i hi)) fun hnot => hnot hbare

end Electrode

end

end BatteryParams

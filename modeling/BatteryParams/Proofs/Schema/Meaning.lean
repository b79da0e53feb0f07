import BatteryParams.Proofs.Named
import BatteryParams.Proofs.Value
import BatteryParams.Proofs.Schema.Validity
import BatteryParams.Schema.Document

/-!
# What descriptions admit

A description is written down with its keywords, and the trees that are valid under what is written
are told by one law for each kind of description. Notes ask nothing, and a reference admits what the
description of that name does.
-/

namespace BatteryParams

theorem Named.mem_names_ofList {α : Type} {name : String} {entries : List (String × α)}
    (hnodup : (entries.map (·.1)).Nodup) : name ∈ (ofList entries).map (·.1) ↔
      name ∈ entries.map (·.1) := by
  rw [← not_iff_not, ← find?_eq_none_iff, ← find?_eq_none_iff, find?_ofList hnodup]

namespace Json

variable {root j : Json} {hops : Nat} {described : List String} {name : String} {argument : Json}
  {entries : List (String × Json)}

/-! ### Keywords -/

theorem asks_assertion (a : Assertion) : Asks root hops described a.name argument j ↔
    a.Holds argument j := by
  have hname : Keyword.ofName? a.name = some (.assertion a) := by cases a <;> decide
  rw [Asks, hname]

theorem asks_applicator (a : Applicator) :
    Asks root hops described a.name argument j ↔ Applies root hops described a argument j := by
  have hname : Keyword.ofName? a.name = some (.applicator a) := by cases a <;> decide
  rw [Asks, hname]

theorem asks_note (h : Keyword.ofName? name = none) : Asks root hops described name argument j := by
  rw [Asks, h]
  exact trivial

theorem valid_ofMembers (hnodup : (entries.map (·.1)).Nodup) :
    Valid root hops (ofMembers entries) j ↔
      ∀ e ∈ entries, Asks root hops (describedNames entries) e.1 e.2 j := by
  have hdescribed : describedNames (Named.ofList entries) = describedNames entries := by
    rw [describedNames, describedNames, Named.find?_ofList hnodup]
  rw [ofMembers, Valid, hdescribed]
  constructor
  · rintro h ⟨name, argument⟩ hmem
    exact h name argument
      (Named.mem_of_find? ((Named.find?_ofList hnodup).trans (Named.find?_of_mem hnodup hmem)))
  · intro h name argument hmem
    exact h _ (Named.mem_of_mem_ofList hmem)

theorem valid_false : ¬Valid root hops (.bool false) j := by
  rw [Valid]
  decide

theorem holds_type (t : TypeName) : Assertion.type.Holds (.string t.name) j ↔ t.Has j := by
  have hname : TypeName.ofName? t.name = some t := by cases t <;> decide
  simp [Assertion.Holds, hname]

end Json

namespace Schema

open Json (Valid Asks TypeName asks_assertion asks_applicator holds_type)

variable {root j : Json} {hops : Nat}

/-- Whether a tree is valid under a description as it is written in a root. -/
def Admits (root : Json) (hops : Nat) (s : Schema) (j : Json) : Prop := Valid root hops s.toJson j

theorem admits_iff {s : Schema} (hnodup : (s.keywords.map (·.1)).Nodup) :
    s.Admits root hops j ↔
      ∀ e ∈ s.keywords, Asks root hops (Json.describedNames s.keywords) e.1 e.2 j :=
  Json.valid_ofMembers hnodup

theorem admits_number : Admits root hops .number j ↔ TypeName.number.Has j := by
  rw [admits_iff (by simp [keywords]), keywords, List.forall_mem_singleton]
  exact (asks_assertion .type).trans (holds_type .number)

theorem admits_string : Admits root hops .string j ↔ TypeName.string.Has j := by
  rw [admits_iff (by simp [keywords]), keywords, List.forall_mem_singleton]
  exact (asks_assertion .type).trans (holds_type .string)

theorem admits_choice {names : List String} :
    Admits root hops (.choice names) j ↔ ∃ name ∈ names, j = .string name := by
  rw [admits_iff (by simp [keywords]), keywords, List.forall_mem_singleton]
  refine (asks_assertion .enum).trans ?_
  simp [Json.Assertion.Holds, texts, eq_comm]

theorem admits_integer {minimum : Nat} :
    Admits root hops (.integer minimum) j ↔
      ∃ n, ∃ k : Int, j = .number n ∧ n.value? = some (k : ℚ) ∧
        (minimum.toUInt64.toNat : Int) ≤ k := by
  rw [admits_iff (by simp [keywords]), keywords, List.forall_mem_cons, List.forall_mem_singleton]
  refine (and_congr ((asks_assertion .type).trans (holds_type .integer))
    (asks_assertion .minimum)).trans ?_
  cases j with
  | number n =>
    simp only [TypeName.Has, Json.Assertion.Holds, bound, Json.Number.value?, Json.number.injEq]
    constructor
    · rintro ⟨⟨k, hk⟩, hbound⟩
      exact ⟨n, k, rfl, hk, by exact_mod_cast hbound _ _ rfl hk⟩
    · rintro ⟨_, k, rfl, hk, hbound⟩
      refine ⟨⟨k, hk⟩, fun b q hb hq => ?_⟩
      cases hb
      obtain rfl : (k : ℚ) = q := Option.some.inj (hk.symm.trans hq)
      exact_mod_cast hbound
  | _ => simp [TypeName.Has]

/-- The pattern of versions is found in three runs of digits joined by dots and nowhere else. -/
theorem finds_version {text : List Char} :
    Json.Finds [.start, .digits, .literal '.', .digits, .literal '.', .digits, .stop] text ↔
      ∃ major minor patch : List Char, text = major ++ '.' :: minor ++ '.' :: patch ∧
        ∀ part ∈ [major, minor, patch], part ≠ [] ∧ ∀ c ∈ part, c.isDigit = true := by
  simp only [Json.Finds, Json.MatchesAt, List.forall_mem_cons]
  constructor
  · rintro ⟨_, _, rfl, rfl, major, _, rfl, hmajor, hmajorDigits, _, rfl, minor, _, rfl, hminor,
      hminorDigits, _, rfl, patch, _, rfl, hpatch, hpatchDigits, rfl, -⟩
    exact ⟨major, minor,
      patch, by simp, ⟨hmajor, hmajorDigits⟩, ⟨hminor, hminorDigits⟩, ⟨hpatch, hpatchDigits⟩,
      List.forall_mem_nil _⟩
  · rintro ⟨major, minor, patch, rfl, ⟨hmajor, hmajorDigits⟩, ⟨hminor, hminorDigits⟩,
      ⟨hpatch, hpatchDigits⟩, -⟩
    exact ⟨[], _, rfl, rfl, major,
      '.' :: minor ++ '.' :: patch, by simp, hmajor, hmajorDigits, _, rfl, minor,
      '.' :: patch, rfl, hminor, hminorDigits, _, rfl, patch,
      [], by simp, hpatch, hpatchDigits, rfl, trivial⟩

theorem admits_versionString : Admits root hops .versionString j ↔ ∃ s, j = .string s ∧
    IsVersionText s := by
  rw [admits_iff (by simp [keywords]), keywords, List.forall_mem_cons, List.forall_mem_singleton]
  refine (and_congr ((asks_assertion .type).trans (holds_type .string))
    (asks_assertion .pattern)).trans ?_
  have hpieces : Json.patternPieces? versionPattern.toList =
      some [.start, .digits, .literal '.', .digits, .literal '.', .digits, .stop] := by decide
  cases j with
  | string s => simp [TypeName.Has, Json.Assertion.Holds, hpieces, finds_version, IsVersionText]
  | _ => simp [TypeName.Has]

theorem forall_mem_optional {α β : Type} {o : Option α} {f : α → β} {P : β → Prop} :
    (∀ b ∈ (o.map f).toList, P b) ↔ ∀ a ∈ o, P (f a) := by
  cases o <;> simp

theorem admits_list {items : Schema} {minItems : Option Nat} :
    Admits root hops (.list items minItems) j ↔
      ∃ inner, j = .list inner ∧ (∀ item ∈ inner, items.Admits root root.refLimit item) ∧
        ∀ n ∈ minItems, n.toUInt64.toNat ≤ inner.length := by
  have hkeys : (((Schema.list items minItems).keywords).map (·.1)).Nodup := by
    cases minItems <;> simp [keywords]
  rw [admits_iff hkeys, keywords, List.forall_mem_append, List.forall_mem_cons,
    List.forall_mem_singleton, forall_mem_optional]
  refine Iff.trans (and_congr
    (and_congr (Iff.trans (asks_assertion .type) (holds_type .array)) (asks_applicator .items))
    (forall₂_congr fun n _ => asks_assertion .minItems)) ?_
  cases j with
  | list inner =>
    simp [TypeName.Has, Json.Applies, Json.Assertion.Holds, bound, Admits, toJson, Json.ofMembers]
  | _ => simp [TypeName.Has]

theorem optionTrees_eq_map (options : List Schema) : optionTrees options = options.map toJson := by
  induction options with
  | nil => rfl
  | cons s rest ih =>
    rw [optionTrees, ih]
    rfl

theorem admits_anyOf {options : List Schema} :
    Admits root hops (.anyOf options) j ↔ ∃ s ∈ options, s.Admits root hops j := by
  rw [admits_iff (by simp [keywords]), keywords, List.forall_mem_singleton]
  refine (asks_applicator .anyOf).trans ?_
  rw [Json.Applies, optionTrees_eq_map]
  simp [Admits]

theorem admits_oneOf {s t : Schema} :
    Admits root hops (.oneOf [s, t]) j ↔
      s.Admits root hops j ∧ ¬t.Admits root hops j ∨ ¬s.Admits root hops j ∧
        t.Admits root hops j := by
  rw [admits_iff (by simp [keywords]), keywords, List.forall_mem_singleton]
  refine (asks_applicator .oneOf).trans ?_
  rw [Json.Applies, optionTrees_eq_map]
  constructor
  · rintro ⟨i, hi, hvalid, hother⟩
    have hcases : i = 0 ∨ i = 1 := by
      have hlt : i < 2 := hi
      omega
    rcases hcases with rfl | rfl
    · exact .inl ⟨hvalid, fun ht => absurd (hother 1 (by simp) ht) (by decide)⟩
    · exact .inr ⟨fun hs => absurd (hother 0 (by simp) hs) (by decide), hvalid⟩
  · rintro (⟨hs, ht⟩ | ⟨hs, ht⟩)
    · refine ⟨0, by simp, hs, fun k hk hvalid => ?_⟩
      by_contra hne
      obtain rfl : k = 1 := by
        have hlt : k < 2 := hk
        omega
      exact ht hvalid
    · refine ⟨1, by simp, ht, fun k hk hvalid => ?_⟩
      by_contra hne
      obtain rfl : k = 0 := by
        have hlt : k < 2 := hk
        omega
      exact hs hvalid

theorem propertyTrees_eq_map (properties : List (String × Schema)) :
    propertyTrees properties = properties.map fun p => (p.1, p.2.toJson) := by
  induction properties with
  | nil => rfl
  | cons p rest ih =>
    obtain ⟨key, s⟩ := p
    rw [propertyTrees, ih]
    rfl

/-- What an object may have under a name: a known member what its description admits, and any other
one what is admitted for all others, if anything is. -/
def AdmitsMember (root : Json) (properties : List (String × Schema)) (additional : Option Schema)
    (name : String) (inner : Json) : Prop :=
  match Named.find? name properties with
  | some s => s.Admits root root.refLimit inner
  | none => ∃ s ∈ additional, s.Admits root root.refLimit inner

section

variable {properties : Option (List (String × Schema))} {required : Option (List String)}
    {additional : Option Schema}
  {minProperties : Option Nat} {members : List (String × Json)} {name : String}

theorem nodup_propertyTrees {properties : List (String × Schema)}
    (hnames : (properties.map (·.1)).Nodup) : ((propertyTrees properties).map (·.1)).Nodup := by
  rwa [propertyTrees_eq_map, List.map_map]

theorem mem_describedNames (hnames : ((properties.getD []).map (·.1)).Nodup) :
    name ∈ Json.describedNames (object properties required additional minProperties).keywords ↔
      name ∈ (properties.getD []).map (·.1) := by
  cases properties with
  | none => cases required <;> cases minProperties <;> simp [Json.describedNames, keywords,
      propertiesKeyword, Named.find?]
  | some properties =>
    have hmem : name ∈ (Named.ofList (propertyTrees properties)).map (·.1) ↔
        name ∈ (propertyTrees properties).map (·.1) :=
      Named.mem_names_ofList (nodup_propertyTrees hnames)
    rw [propertyTrees_eq_map, List.map_map] at hmem
    simpa [Json.describedNames, keywords, propertiesKeyword, Named.find?, Json.ofMembers,
      propertyTrees_eq_map] using hmem

theorem asks_properties {described : List String}
    (hnames : ((properties.getD []).map (·.1)).Nodup) :
    (∀ e ∈ propertiesKeyword properties, Asks root hops described e.1 e.2 (.object members)) ↔
      ∀ m ∈ members, ∀ s, Named.find? m.1 (properties.getD []) = some s →
        s.Admits root root.refLimit m.2 := by
  cases properties with
  | none => simp [propertiesKeyword, Named.find?]
  | some properties =>
    have hfind (name : String) : Named.find? name (Named.ofList (propertyTrees properties)) =
        (Named.find? name properties).map toJson := by
      have hnodup : (properties.map (·.1)).Nodup := hnames
      rw [Named.find?_ofList (nodup_propertyTrees hnodup), propertyTrees_eq_map, Named.find?_map]
    rw [propertiesKeyword, List.forall_mem_singleton]
    refine Iff.trans (asks_applicator .properties) ?_
    simp [Json.ofMembers, Json.Applies, hfind, Admits]

theorem asks_additional {described : List String}
    (hdescribed : ∀ name, name ∈ described ↔ name ∈ (properties.getD []).map (·.1)) :
    Asks root hops described "additionalProperties" (additionalKeyword additional)
      (.object members) ↔
      ∀ m ∈ members, Named.find? m.1 (properties.getD []) = none →
        ∃ s ∈ additional, s.Admits root root.refLimit m.2 := by
  have hvalid (inner : Json) : Valid root root.refLimit (additionalKeyword additional) inner ↔
      ∃ s ∈ additional, s.Admits root root.refLimit inner := by
    cases additional with
    | none => simp [additionalKeyword, Json.valid_false]
    | some s => simp [additionalKeyword, Admits, toJson, Json.ofMembers]
  refine Iff.trans (asks_applicator .additionalProperties) ?_
  rw [Json.Applies]
  simp only [hvalid, hdescribed, ← Named.find?_eq_none_iff, Prod.forall]

theorem admits_object (hnames : ((properties.getD []).map (·.1)).Nodup) :
    Admits root hops (.object properties required additional minProperties) j ↔
      ∃ members, j = .object members ∧
        (∀ m ∈ members, AdmitsMember root (properties.getD []) additional m.1 m.2) ∧
        (∀ name ∈ required.getD [], (Named.find? name members).isSome = true) ∧
        ∀ n ∈ minProperties, n.toUInt64.toNat ≤ members.length := by
  have hkeys : (((Schema.object properties required additional minProperties).keywords).map
      (·.1)).Nodup := by
    cases properties <;> cases required <;> cases minProperties <;>
      simp [keywords, propertiesKeyword]
  rw [admits_iff hkeys]
  have hdescribed (name : String) :
      name ∈ Json.describedNames (object properties required additional minProperties).keywords ↔
        name ∈ (properties.getD []).map (·.1) := mem_describedNames hnames
  generalize Json.describedNames _ = described at hdescribed ⊢
  rw [keywords, List.forall_mem_append, List.forall_mem_append, List.forall_mem_append,
    List.forall_mem_cons, List.forall_mem_singleton, forall_mem_optional, forall_mem_optional]
  have htype : Asks root hops described "type" (.string "object") j ↔ TypeName.object.Has j :=
    Iff.trans (asks_assertion .type) (holds_type .object)
  cases j with
  | object members =>
    have hrequired (names : List String) :
        Asks root hops described "required" (texts names) (.object members) ↔
        ∀ name ∈ names, (Named.find? name members).isSome = true :=
      Iff.trans (asks_assertion .required) (by simp [Json.Assertion.Holds, texts])
    have hleast (n : Nat) : Asks root hops described "minProperties" (bound n) (.object members) ↔
        n.toUInt64.toNat ≤ members.length := asks_assertion .minProperties
    have hmembers : (∀ m ∈ members, AdmitsMember root (properties.getD []) additional m.1 m.2) ↔
        (∀ m ∈ members, Named.find? m.1 (properties.getD []) = none →
          ∃ s ∈ additional, s.Admits root root.refLimit m.2) ∧
        ∀ m ∈ members, ∀ s, Named.find? m.1 (properties.getD []) = some s →
          s.Admits root root.refLimit m.2 := by
      rw [← forall₂_and]
      refine forall₂_congr fun m _ => ?_
      rw [AdmitsMember]
      cases Named.find? m.1 (properties.getD []) <;> simp
    have hgetD : (∀ names ∈ required, ∀ name ∈ names, (Named.find? name members).isSome = true) ↔
        ∀ name ∈ required.getD [], (Named.find? name members).isSome = true := by
      cases required <;> simp
    simp only [htype, asks_additional hdescribed, asks_properties hnames, hrequired, hleast, hgetD,
      TypeName.Has, true_and, Json.object.injEq, exists_eq_left', hmembers, and_assoc]
  | _ => simp [htype, TypeName.Has]

end

/-! ### Notes and references -/

theorem describedNames_append {kept notes : List (String × Json)}
    (h : "properties" ∉ notes.map (·.1)) :
    Json.describedNames (kept ++ notes) = Json.describedNames kept := by
  have hfind : Named.find? "properties" (kept ++ notes) = Named.find? "properties" kept := by
    induction kept with
    | nil => exact Named.find?_eq_none h
    | cons e rest ih =>
      obtain ⟨name, argument⟩ := e
      rw [List.cons_append, Named.find?_cons, Named.find?_cons, ih]
  rw [Json.describedNames, Json.describedNames, hfind]

theorem admits_noted {s : Schema} {notes : List (String × Json)}
    (hnotes : ∀ e ∈ notes, Json.Keyword.ofName? e.1 = none)
    (hkeys : ((s.keywords ++ notes).map (·.1)).Nodup) :
    Admits root hops (.noted s notes) j ↔ s.Admits root hops j := by
  have hproperties : "properties" ∉ notes.map (·.1) := by
    intro hmem
    obtain ⟨e, he, heq⟩ := List.mem_map.mp hmem
    have hnone := hnotes e he
    rw [heq] at hnone
    exact absurd hnone (by decide)
  have hkept : (s.keywords.map (·.1)).Nodup := by
    rw [List.map_append] at hkeys
    exact hkeys.of_append_left
  rw [admits_iff (by rwa [keywords]), admits_iff hkept, keywords, List.forall_mem_append,
    describedNames_append hproperties]
  exact and_iff_left fun e he => Json.asks_note (hnotes e he)

theorem admits_ref {name : String} {s : Schema}
    (h : root.resolve? ("#/$defs/" ++ name) = some s.toJson) :
    Admits root (hops + 1) (.ref name) j ↔ s.Admits root hops j := by
  rw [admits_iff (by simp [keywords]), keywords, List.forall_mem_singleton]
  refine Iff.trans (asks_applicator .ref) ?_
  simp [Json.Applies, h, Admits]

end Schema

namespace SchemaDocument

open Schema

theorem unescapeStep_of_plain {step : List Char} (h : '~' ∉ step) :
    Json.unescapeStep step = step := by
  fun_induction Json.unescapeStep step with
  | case1 rest ih => exact absurd List.mem_cons_self h
  | case2 rest ih => exact absurd List.mem_cons_self h
  | case3 c rest _ _ ih => rw [ih fun hmem => h (List.mem_cons_of_mem _ hmem)]
  | case4 => rfl

/-- What a written description says beside its root: which dialect it is in, and the descriptions
that it refers to. -/
def heading (d : SchemaDocument) : List (String × Json) :=
  [("$schema", .string "https://json-schema.org/draft/2020-12/schema"),
    ("$defs", Json.ofMembers (d.definitions.map fun e => (e.1, e.2.toJson)))]

theorem toJson_eq (d : SchemaDocument) : d.toJson = Json.ofMembers (d.root.keywords ++ d.heading) :=
  rfl

/-- A reference into the definitions leads to the description of that name. -/
theorem resolve?_toJson {d : SchemaDocument} {name : String} {s : Schema}
    (hroot : ((d.root.keywords.map (·.1)) ++ ["$schema", "$defs"]).Nodup)
    (hnames : (d.definitions.map (·.1)).Nodup)
    (hplain : '/' ∉ name.toList ∧ '~' ∉ name.toList) (h : Named.find? name d.definitions = some s) :
    d.toJson.resolve? ("#/$defs/" ++ name) = some s.toJson := by
  have hsteps : ("$defs/".toList ++ name.toList).splitOn '/' = ["$defs".toList, name.toList] := by
    have hdefs : "$defs/".toList = "$defs".toList ++ ['/'] := by decide
    have hfree : ∀ step ∈ ["$defs".toList, name.toList], '/' ∉ step := by simp [hplain.1]
    have hsplit := List.splitOn_intercalate '/' hfree (by simp)
    rw [hdefs]
    simpa [List.intercalate] using hsplit
  have htext : ("#/$defs/" ++ name).toList = '#' :: '/' :: ("$defs/".toList ++ name.toList) := by
    rw [String.toList_append]
    rfl
  have hkeys : ((d.root.keywords ++ d.heading).map (·.1)).Nodup := by rwa [List.map_append]
  have hdefs : Named.find? "$defs" (Named.ofList (d.root.keywords ++ d.heading)) =
      some (Json.ofMembers (d.definitions.map fun e => (e.1, e.2.toJson))) := by
    rw [Named.find?_ofList hkeys]
    exact Named.find?_of_mem hkeys (by simp [heading])
  have hdefinition : Named.find? name
      (Named.ofList (d.definitions.map fun e => (e.1, e.2.toJson))) = some s.toJson := by
    rw [Named.find?_ofList (by rwa [List.map_map]), Named.find?_map, h]
    rfl
  rw [Json.resolve?, htext]
  simp only [Json.pointer?, String.toList_ofList, hsteps, List.map_cons, List.map_nil,
    unescapeStep_of_plain hplain.2]
  rw [unescapeStep_of_plain (by decide), toJson_eq, Json.ofMembers, Json.descend?,
    String.ofList_toList,
    hdefs, Option.bind_some, Json.ofMembers, Json.descend?, String.ofList_toList, hdefinition,
    Option.bind_some, Json.descend?]

end SchemaDocument

end BatteryParams

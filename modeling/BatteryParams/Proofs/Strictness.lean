import BatteryParams.Intake
import BatteryParams.Json.Parser
import BatteryParams.Proofs.Document.Lossless

/-!
# Strict judgement only escalates

Whatever arrives is taken in by steps: the settings are checked, the tree is decoded, the document
is read, and its findings are judged. Only the last step asks whether the judgement is strict. So a
strict and a lenient run differ only in what becomes of a document with a finding that strictness
refuses, and the refusal then carries the document and all of its findings.
-/

namespace BatteryParams

/-! ### Settings -/

theorem Tolerances.check_of_usable {t : Tolerances}
    (h : ¬(t.voltage < 0 ∨ t.voltage.isFinite = false)) : t.check = .ok () := by
  obtain ⟨hnegative, hfinite⟩ := not_or.mp h
  rw [Bool.not_eq_false] at hfinite
  have hsign : ¬t.voltage < 0.0 := hnegative
  simp [check, checkValue, hfinite, hsign]

theorem Tolerances.exists_fault {t : Tolerances} (h : t.voltage < 0 ∨ t.voltage.isFinite = false) :
    ∃ e, t.check = .error e := by
  cases hfinite : t.voltage.isFinite with
  | false => exact ⟨.nonFinite voltageCheck t.voltage, by simp [check, checkValue, hfinite]⟩
  | true =>
    have hsign : t.voltage < 0.0 := h.resolve_right (by simp [hfinite])
    exact ⟨.negative voltageCheck t.voltage, by simp [check, checkValue, hfinite, hsign]⟩

/-! ### Inputs -/

/-- What arrives: a tree, a text, or the content of a file, its bytes or why it cannot be read. -/
inductive Input where
  | tree (j : Json)
  | text (s : String)
  | file (content : Except String ByteArray)

namespace Input

section

variable (decode : Json.Decoder)

/-- Take in what arrives, each in its own way. -/
def take (o : Options) : Input → Except Refusal Accepted
  | .tree j => Accepted.ofJson o j
  | .text s => Accepted.ofText decode o s
  | .file content => Accepted.ofFile decode o content

/-- The tree that a text spells. -/
def decodeText (s : String) : Except Refusal Json := (decode s).mapError .malformed

/-- The tree that arrives. -/
def arrived : Input → Except Refusal Json
  | .tree j => .ok j
  | .text s => decodeText decode s
  | .file content => do decodeText decode (← (Accepted.fileText content).mapError .unreadable)

/-- The document that arrives, or the first reason why there is none. -/
def document (i : Input) : Except Refusal Document := do
  let j ← i.arrived decode
  (Document.ofJson j).mapError .schema

end

/-- What becomes of a document under valid settings. -/
def verdict (o : Options) (d : Document) : Except Refusal Accepted :=
  if o.strict && (d.findings o.tolerances).any Finding.isConsistency then
    .error (.consistency (d.findings o.tolerances) d)
  else .ok ⟨d, d.findings o.tolerances⟩

theorem judge_eq (o : Options) (j : Json) :
    Accepted.judge o j = (Document.ofJson j).mapError .schema >>= verdict o := rfl

/-- However it arrives, the settings are checked first, then it is read, then it is judged. -/
theorem take_eq (decode : Json.Decoder) (o : Options) (i : Input) :
    i.take decode o = o.check.mapError .config >>= fun _ => i.document decode >>= verdict o := by
  have hdocument : i.document decode >>= verdict o = i.arrived decode >>= Accepted.judge o := by
    rw [document]
    cases i.arrived decode <;> rfl
  rw [hdocument]
  cases i with
  | tree j => rfl
  | text s => rfl
  | file content =>
    rw [take, Accepted.ofFile, arrived]
    cases Accepted.fileText content <;> rfl

variable {decode : Json.Decoder} {o : Options} {i : Input}

theorem take_of_fault {e : ToleranceFault} (h : o.check = .error e) :
    i.take decode o = .error (.config e) := by
  rw [take_eq, h]
  rfl

theorem take_of_usable (h : o.check = .ok ()) :
    i.take decode o = i.document decode >>= verdict o := by
  rw [take_eq, h]
  rfl

/-- Reading alone refuses no document for its findings. -/
theorem document_ne_consistency (ws : List Finding) (d : Document) :
    i.document decode ≠ .error (.consistency ws d) := by
  have htext (s : String) : decodeText decode s ≠ .error (.consistency ws d) := by
    rw [decodeText]
    cases decode s <;> exact nofun
  have harrived : i.arrived decode ≠ .error (.consistency ws d) := by
    cases i with
    | tree j => exact nofun
    | text s => exact htext s
    | file content =>
      rw [arrived]
      cases Accepted.fileText content with
      | error e => exact nofun
      | ok s => exact htext s
  intro h
  rw [document] at h
  cases hj : i.arrived decode with
  | error r =>
    rw [hj, error_bind] at h
    obtain rfl := Except.error.inj h
    exact harrived hj
  | ok j =>
    rw [hj, ok_bind] at h
    cases hread : Document.ofJson j <;> rw [hread] at h <;> cases h

/-! ### Two runs -/

theorem verdict_lenient (t : Tolerances) (d : Document) :
    verdict ⟨t, false⟩ d = .ok ⟨d, d.findings t⟩ := rfl

theorem verdict_strict_eq_ok_iff {t : Tolerances} {d : Document} {p : Accepted} :
    verdict ⟨t, true⟩ d = .ok p ↔ verdict ⟨t, false⟩ d = .ok p ∧
      ∀ w ∈ p.findings, w.isConsistency = false := by
  rw [verdict_lenient]
  cases hany : (d.findings t).any Finding.isConsistency with
  | true =>
    have hstrict : verdict ⟨t, true⟩ d = .error (.consistency (d.findings t) d) := by
      simp [verdict, hany]
    rw [hstrict]
    refine iff_of_false nofun ?_
    rintro ⟨hlenient, hclean⟩
    cases hlenient
    obtain ⟨w, hw, hconsistency⟩ := List.any_eq_true.mp hany
    exact absurd hconsistency (by simp [hclean w hw])
  | false =>
    have hstrict : verdict ⟨t, true⟩ d = .ok ⟨d, d.findings t⟩ := by simp [verdict, hany]
    rw [hstrict]
    refine (and_iff_left_of_imp fun hlenient => ?_).symm
    cases hlenient
    simpa using hany

theorem verdict_strict_eq_consistency_iff {t : Tolerances} {d d' : Document} {ws : List Finding} :
    verdict ⟨t, true⟩ d = .error (.consistency ws d') ↔
      verdict ⟨t, false⟩ d = .ok ⟨d', ws⟩ ∧ ∃ w ∈ ws, w.isConsistency = true := by
  rw [verdict_lenient]
  cases hany : (d.findings t).any Finding.isConsistency with
  | true =>
    have hstrict : verdict ⟨t, true⟩ d = .error (.consistency (d.findings t) d) := by
      simp [verdict, hany]
    rw [hstrict]
    constructor
    · intro h
      cases h
      exact ⟨rfl, List.any_eq_true.mp hany⟩
    · rintro ⟨hlenient, -⟩
      cases hlenient
      rfl
  | false =>
    have hstrict : verdict ⟨t, true⟩ d = .ok ⟨d, d.findings t⟩ := by simp [verdict, hany]
    rw [hstrict]
    refine iff_of_false nofun ?_
    rintro ⟨hlenient, hsome⟩
    cases hlenient
    rw [List.any_eq_true.mpr hsome] at hany
    cases hany

/-- Unusable settings refuse every input alike. Under usable ones a strict and a lenient run refuse
alike what is no document, whatever decodes it; the lenient run accepts every document with its
findings, and the strict run accepts it just the same unless one of these is about consistency, and
then refuses it with all of them. A text is taken in as the tree that it spells. -/
theorem strict_only_escalates :
    (∀ t : Tolerances, t.voltage < 0 ∨ t.voltage.isFinite = false →
      ∃ e, ∀ (decode : Json.Decoder) (strict : Bool) (i : Input),
        i.take decode ⟨t, strict⟩ = .error (.config e)) ∧
    ∀ decode : Json.Decoder,
      (∀ t : Tolerances, ¬(t.voltage < 0 ∨ t.voltage.isFinite = false) → ∀ i : Input,
        (∀ r, i.document decode = .error r → ∀ strict, i.take decode ⟨t, strict⟩ = .error r) ∧
        (∀ d, i.document decode = .ok d → i.take decode ⟨t, false⟩ = .ok ⟨d, d.findings t⟩) ∧
        (∀ p, i.take decode ⟨t, true⟩ = .ok p ↔
          i.take decode ⟨t, false⟩ = .ok p ∧ ∀ w ∈ p.findings, w.isConsistency = false) ∧
        ∀ ws d, i.take decode ⟨t, true⟩ = .error (.consistency ws d) ↔
          i.take decode ⟨t, false⟩ = .ok ⟨d, ws⟩ ∧ ∃ w ∈ ws, w.isConsistency = true) ∧
      ∀ (o : Options) (s : String) (j : Json), decode s = .ok j →
        (text s).take decode o = (tree j).take decode o := by
  refine ⟨fun t ht => ?_, fun decode => ⟨fun t ht i => ?_, fun o s j hj => ?_⟩⟩
  · obtain ⟨e, he⟩ := t.exists_fault ht
    have hcheck (strict : Bool) : Options.check ⟨t, strict⟩ = .error e := he
    exact ⟨e, fun _ strict _ => take_of_fault (hcheck strict)⟩
  · have hcheck (strict : Bool) : Options.check ⟨t, strict⟩ = .ok () :=
      Tolerances.check_of_usable ht
    have hstrict : i.take decode ⟨t, true⟩ = i.document decode >>= verdict ⟨t, true⟩ :=
      take_of_usable (hcheck true)
    have hlenient : i.take decode ⟨t, false⟩ = i.document decode >>= verdict ⟨t, false⟩ :=
      take_of_usable (hcheck false)
    rw [hstrict, hlenient]
    cases hi : i.document decode with
    | error r =>
      have hne (ws : List Finding) (d : Document) :
          i.document decode ≠ .error (.consistency ws d) :=
        document_ne_consistency ws d
      rw [hi] at hne
      simp only [error_bind]
      refine ⟨fun r' hr strict => ?_, by simp, by simp, fun ws d => ?_⟩
      · rw [take_of_usable (hcheck strict), hi, hr, error_bind]
      · have hother : r ≠ .consistency ws d := by simpa using hne ws d
        simp [hother]
    | ok d =>
      simp only [ok_bind]
      refine ⟨by simp, fun d' hd => ?_, fun p => verdict_strict_eq_ok_iff,
        fun ws d' => verdict_strict_eq_consistency_iff⟩
      rw [verdict_lenient, Except.ok.inj hd]
  · rw [take_eq, take_eq, document, document, arrived, arrived, decodeText, hj]
    rfl

/-- `Document.plain` with a porosity, which its model does not use. -/
def porous : Document :=
  let plain := Document.plain
  { plain with parameters.negativeElectrode.porosity := some 0.25 }

/-- The findings about `porous`: its version is deprecated, and its porosity idle. -/
def porousFindings : List Finding :=
  [.deprecatedVersion (.legacy 1.0), .unusedFields .spm [["Negative electrode", "Porosity"]]]

/-- The words of a decoder about a text that ends too soon. -/
def endOfText : String := "EOF while parsing a value at line 1 column 0"

/-- A decoder that says of every text that is no JSON what is so of the empty one. -/
def strictDecoder : Json.Decoder := fun s => (Json.parse? s).elim (.error endOfText) .ok

theorem strictDecoder_of_parse? {s : String} {j : Json} (h : Json.parse? s = some j) :
    strictDecoder s = .ok j := by
  simp [strictDecoder, h]

/-- A document with a finding of either kind is refused strictly and accepted otherwise, a negative
tolerance refuses even a file that is not there, and an empty object is no document, however it
arrives. -/
theorem strict_only_escalates_porous :
    (tree porous.toJson).take strictDecoder ⟨⟨0.001⟩, false⟩ = .ok ⟨porous, porousFindings⟩ ∧
      (tree porous.toJson).take strictDecoder ⟨⟨0.001⟩, true⟩ =
        .error (.consistency porousFindings porous) ∧
      (∃ e, (file (.error "No such file or directory (os error 2)")).take strictDecoder
        ⟨⟨-0.001⟩, true⟩ = .error (.config e)) ∧
      (text "").take strictDecoder ⟨⟨0.001⟩, true⟩ = .error (.malformed endOfText) ∧
      (text r#"{}"#).take strictDecoder ⟨⟨0.001⟩, true⟩ =
        (tree (.object [])).take strictDecoder ⟨⟨0.001⟩, true⟩ := by
  obtain ⟨hunusable, hdecoder⟩ := strict_only_escalates
  obtain ⟨husable, htext⟩ := hdecoder strictDecoder
  have hfine : ¬((0.001 : Float) < 0 ∨ (0.001 : Float).isFinite = false) := by decide
  have hdocument : (tree porous.toJson).document strictDecoder = .ok porous := by
    have hread : Document.ofJson porous.toJson = .ok porous := by decide +kernel
    rw [document, arrived, ok_bind, hread]
    rfl
  have hfindings : porous.findings ⟨0.001⟩ = porousFindings := by decide +kernel
  obtain ⟨-, hlenient, -, hstrict⟩ := husable ⟨0.001⟩ hfine (tree porous.toJson)
  have haccepted : (tree porous.toJson).take strictDecoder ⟨⟨0.001⟩, false⟩ =
      .ok ⟨porous, porousFindings⟩ := by
    rw [hlenient porous hdocument, hfindings]
  obtain ⟨e, he⟩ := hunusable ⟨-0.001⟩ (.inl (by decide))
  refine ⟨haccepted, (hstrict _ _).mpr ⟨haccepted, ?_⟩, ⟨e, he _ true _⟩,
    (husable ⟨0.001⟩ hfine (text "")).1 _ rfl true, htext _ _ _ (strictDecoder_of_parse? rfl)⟩
  exact ⟨_, List.mem_cons_of_mem _ List.mem_cons_self, rfl⟩

end Input

end BatteryParams

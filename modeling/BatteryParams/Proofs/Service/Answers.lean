import BatteryParams.Json.Printer
import BatteryParams.Proofs.Document.Paths
import BatteryParams.Proofs.Expr.Samples
import BatteryParams.Proofs.Strictness
import BatteryParams.Service.Router

/-!
# The service answers what the library says

A request is answered by what becomes of its document. The options under which a body is taken in
are the default ones with what the query asks for in their place; a tolerance that cannot be used is
answered before the body is looked at. Every answer is one of a few statuses, each told apart by
what the library says: that a document is accepted, that it is refused, or that it has no such
value. Nothing is asked of the codec: whatever it decodes and however it writes trees, these are the
trees that are written.
-/

namespace BatteryParams.Service

variable {env : Option String} {defaults : Options} {codec : Codec} {body : String}

/-! ### Options -/

/-- The tolerance and the strictness that a query asks for, or else the default ones. -/
def Overrides.applied (q : Overrides) (defaults : Options) : Options :=
  ⟨⟨q.voltageTolerance.getD defaults.tolerances.voltage⟩, q.strict.getD defaults.strict⟩

/-- The default options can be used, and are not strict. -/
theorem usable_of_environmentOptions (h : environmentOptions env = .ok defaults) :
    defaults.check = .ok () ∧ defaults.strict = false := by
  cases env with
  | none =>
    cases h
    exact ⟨by decide +kernel, rfl⟩
  | some text =>
    rw [environmentOptions] at h
    split at h
    · cases h
    · next value _ =>
      obtain ⟨t, ht, h⟩ := ok_of_bind (Rule.mapError_eq_ok.mp h)
      obtain ⟨_, hcheck, ht⟩ := ok_of_bind ht
      cases ht
      cases h
      exact ⟨hcheck, rfl⟩

/-- The options of a query are checked as any others are. -/
theorem options_eq (q : Overrides) (h : defaults.check = .ok ()) :
    q.options defaults = (do (q.applied defaults).check; .ok (q.applied defaults)) := by
  obtain ⟨tolerance, strict⟩ := q
  cases tolerance with
  | none =>
    have hcheck : (Overrides.applied ⟨none, strict⟩ defaults).check = .ok () := h
    rw [hcheck]
    rfl
  | some value =>
    have hcheck : (Overrides.applied ⟨some value, strict⟩ defaults).check =
        Tolerances.checkValue Tolerances.voltageCheck value := rfl
    have hwith : Overrides.options ⟨some value, strict⟩ defaults =
        (defaults.withVoltageTolerance value >>= fun o =>
          .ok { o with strict := strict.getD o.strict }) := rfl
    rw [hcheck, hwith, Options.withVoltageTolerance, Tolerances.withVoltage]
    cases Tolerances.checkValue Tolerances.voltageCheck value <;> rfl

/-! ### Taking a document in -/

/-- The answer to what became of a document. -/
def answer (codec : Codec) : Except Refusal Accepted → Response
  | .ok p => .json codec 200 p.toJson
  | .error e => refusalResponse codec e

theorem respond_parse (h : defaults.check = .ok ()) (q : Overrides) (body : String) :
    respond codec defaults (.parse q body) =
      answer codec (Accepted.ofText codec.decode (q.applied defaults) body) := by
  rw [respond, parseResponse, options_eq q h, Accepted.ofText]
  cases hcheck : (q.applied defaults).check with
  | error e => rfl
  | ok _ =>
    rw [ok_bind]
    show (match Accepted.ofText codec.decode (q.applied defaults) body with
      | .ok accepted => Response.json codec 200 accepted.toJson
      | .error r => refusalResponse codec r) = _
    rw [Accepted.ofText, hcheck]
    cases Accepted.judgeText codec.decode (q.applied defaults) body <;> rfl

theorem ofText_of_malformed {o : Options} {words : String} (hcheck : o.check = .ok ())
    (hbody : codec.decode body = .error words) :
    Accepted.ofText codec.decode o body = .error (.malformed words) := by
  rw [Accepted.ofText, hcheck]
  show Accepted.judgeText codec.decode o body = _
  rw [Accepted.judgeText, hbody]
  rfl

theorem ofText_of_tree {o : Options} {j : Json} (hcheck : o.check = .ok ())
    (hbody : codec.decode body = .ok j) :
    Accepted.ofText codec.decode o body = Accepted.judge o j := by
  rw [Accepted.ofText, hcheck]
  show Accepted.judgeText codec.decode o body = _
  rw [Accepted.judgeText, hbody]
  rfl

/-- A tree that is no document is refused for its shape, and a document only by a strict
judgement. -/
theorem judge_cases (o : Options) (j : Json) :
    (∃ e, Document.ofJson j = .error e ∧ Accepted.judge o j = .error (.schema e)) ∨
    (∃ d, Document.ofJson j = .ok d ∧ o.strict = true ∧
      Accepted.judge o j = .error (.consistency (d.findings o.tolerances) d)) ∨
    ∃ d, Document.ofJson j = .ok d ∧ Accepted.judge o j = .ok ⟨d, d.findings o.tolerances⟩ := by
  rw [Input.judge_eq]
  cases Document.ofJson j with
  | error e => exact .inl ⟨e, rfl, rfl⟩
  | ok d =>
    refine .inr ?_
    show (∃ d', _ ∧ _ ∧ Input.verdict o d = _) ∨ ∃ d', _ ∧ Input.verdict o d = _
    cases hrefuse : o.strict && (d.findings o.tolerances).any Finding.isConsistency with
    | false =>
      have hverdict : Input.verdict o d = .ok ⟨d, d.findings o.tolerances⟩ := by
        simp [Input.verdict, hrefuse]
      exact .inr ⟨d, rfl, hverdict⟩
    | true =>
      have hverdict : Input.verdict o d = .error (.consistency (d.findings o.tolerances) d) := by
        simp [Input.verdict, hrefuse]
      exact .inl ⟨d, rfl, (Bool.and_eq_true_iff.mp hrefuse).1, hverdict⟩

/-! ### Evaluating a value -/

theorem length_of_evaluateEach {v : Value} {xs ys : List Float} {T : Option Float}
    (h : v.evaluateEach xs T = .ok ys) : ys.length = xs.length := by
  by_cases hne : xs = []
  · subst hne
    rw [Value.eq_nil_of_evaluateEach_nil h]
  · exact (((v.pointwise_evaluateEach hne T).eq_ok_iff ys).mp h).length_eq.symm

/-- A value is found among those that are listed with the path. -/
theorem mem_of_value? {d : Document} {path : String} {v : Value} (h : d.value? path = some v) :
    (path, v) ∈ d.listing := by
  obtain ⟨⟨text, w⟩, hfind, rfl⟩ := Option.map_eq_some_iff.mp h
  obtain rfl : text = path := by simpa using List.find?_some hfind
  exact List.mem_of_find?_eq_some hfind

theorem value?_eq_none_iff {d : Document} {path : String} :
    d.value? path = none ↔ ∀ v ∈ d.listing, v.1 ≠ path := by
  rw [Document.value?, Option.map_eq_none_iff, List.find?_eq_none]
  simp

/-- The default options take a tree in exactly if it is a document. -/
theorem ofJson_of_lenient (hcheck : defaults.check = .ok ()) (hstrict : defaults.strict = false)
    (j : Json) :
    (∃ e, Document.ofJson j = .error e ∧ Accepted.ofJson defaults j = .error (.schema e)) ∨
      ∃ d, Document.ofJson j = .ok d ∧
        Accepted.ofJson defaults j = .ok ⟨d, d.findings defaults.tolerances⟩ := by
  have hjudge : Accepted.ofJson defaults j = Accepted.judge defaults j := by
    rw [Accepted.ofJson, hcheck]
    rfl
  rw [hjudge]
  rcases judge_cases defaults j with hrefused | ⟨d, -, htrue, -⟩ | haccepted
  · exact .inl hrefused
  · rw [hstrict] at htrue
    cases htrue
  · exact .inr haccepted

/-! ### Every answer -/

/-- How a body that is to be taken in under the options `o` is answered: by 400 for an unusable
tolerance, whatever the body, and for a body that is no JSON, by 422 with all the issues of a tree
that is no document, or else with all the findings for which a document is refused, and by 200 with
the document and its findings. -/
structure ParseAnswer (codec : Codec) (o : Options) (body : String) (given : Response) : Prop where
  unusable : ∀ e, o.check = .error e →
    given = ⟨400, codec.encode (Json.ofMembers [("error", .string e.message)])⟩
  malformed : ∀ words, o.check = .ok () → codec.decode body = .error words →
    given = ⟨400, codec.encode (Json.ofMembers [("error", .string s!"Invalid JSON: {words}")])⟩
  schema : ∀ e, Accepted.ofText codec.decode o body = .error (.schema e) →
    given = ⟨422, codec.encode (Json.ofMembers
      [("error", .string e.message), ("issues", .list (e.issues.map fun i => Json.ofMembers
        [("path", .string i.reportedPath), ("kind", .string i.cause.issueClass.name),
          ("message", .string i.cause.message)]))])⟩
  consistency : ∀ ws d, Accepted.ofText codec.decode o body = .error (.consistency ws d) →
    o.strict = true ∧
      given = ⟨422, codec.encode (Json.ofMembers
        [("error", .string (Refusal.consistency ws d).message),
          ("warnings", .list (ws.map fun w => Json.ofMembers w.members))])⟩
  accepted : ∀ p, Accepted.ofText codec.decode o body = .ok p →
    given = ⟨200, codec.encode (.object [("document", p.document.toJson),
      ("warnings", .list (p.findings.map fun w => .object w.members))])⟩
  status_400 : given.status = 400 ↔
    (∃ e, o.check = .error e) ∨ ∃ words, codec.decode body = .error words
  status_422 : given.status = 422 ↔
    (∃ e, Accepted.ofText codec.decode o body = .error (.schema e)) ∨
      ∃ ws d, Accepted.ofText codec.decode o body = .error (.consistency ws d)
  status_200 : given.status = 200 ↔ ∃ p, Accepted.ofText codec.decode o body = .ok p
  status : given.status = 400 ∨ given.status = 422 ∨ given.status = 200

theorem parseAnswer (codec : Codec) (o : Options) (body : String) :
    ParseAnswer codec o body (answer codec (Accepted.ofText codec.decode o body)) := by
  cases hcheck : o.check with
  | error e =>
    have htext : Accepted.ofText codec.decode o body = .error (.config e) := by
      rw [Accepted.ofText, hcheck]
      rfl
    have hgiven : answer codec (.error (.config e)) =
        ⟨400, codec.encode (Json.ofMembers [("error", .string e.message)])⟩ := rfl
    constructor <;> simp [htext, hcheck, hgiven]
  | ok _ =>
    cases hj : codec.decode body with
    | error words =>
      have htext := ofText_of_malformed hcheck hj
      have hgiven : answer codec (.error (.malformed words)) =
          ⟨400, codec.encode (Json.ofMembers [("error", .string s!"Invalid JSON: {words}")])⟩ := rfl
      constructor <;> simp [htext, hcheck, hj, hgiven]
    | ok j =>
      have htext := ofText_of_tree hcheck hj
      rcases judge_cases o j with ⟨e, -, hjudge⟩ | ⟨d, -, hstrict, hjudge⟩ | ⟨d, -, hjudge⟩ <;>
        rw [hjudge] at htext
      · have hgiven : answer codec (.error (.schema e)) =
            ⟨422, codec.encode (Json.ofMembers
              [("error", .string e.message), ("issues", .list (e.issues.map fun i => Json.ofMembers
                [("path", .string i.reportedPath), ("kind", .string i.cause.issueClass.name),
                  ("message", .string i.cause.message)]))])⟩ := rfl
        constructor <;> simp [htext, hcheck, hj, hgiven]
      · constructor <;>
          simp [htext, hcheck, hj, hstrict, answer, refusalResponse, Response.json, errorBody]
      · constructor <;> simp [htext, hcheck, hj, answer, Response.json, Accepted.toJson]

/-- How a request for values is answered: by 422 if its document is refused or the value has no
values at the arguments, by 404 if no value is listed with the path, and otherwise by 200 with one
value for each argument, null where it is not finite. -/
structure EvaluateAnswer (codec : Codec) (defaults : Options) (r : ValueRequest)
    (given : Response) : Prop where
  refused : ∀ refusal, Accepted.ofJson defaults r.document = .error refusal →
    ∃ e, refusal = .schema e ∧ given = ⟨422, codec.encode (Json.ofMembers
      [("error", .string e.message), ("issues", .list (e.issues.map fun i => Json.ofMembers
        [("path", .string i.reportedPath), ("kind", .string i.cause.issueClass.name),
          ("message", .string i.cause.message)]))])⟩
  missing : ∀ a, Accepted.ofJson defaults r.document = .ok a →
    (∀ v ∈ a.document.listing, v.1 ≠ r.path) →
    given = ⟨404, codec.encode (Json.ofMembers [("error", .string s!"no value at '{r.path}'")])⟩
  found : ∀ a, Accepted.ofJson defaults r.document = .ok a →
    ∀ v ∈ a.document.listing, v.1 = r.path →
    ∃ value, a.document.value? r.path = some value ∧
      (∀ e, value.evaluateEach r.x r.temperature = .error e →
        given = ⟨422, codec.encode (Json.ofMembers [("error", .string e.message)])⟩) ∧
      ∀ ys, value.evaluateEach r.x r.temperature = .ok ys → ys.length = r.x.length ∧
        given = ⟨200, codec.encode (Json.ofMembers
          [("y", .list (ys.map fun y => if y.isFinite then .number (.float y) else .null))])⟩
  status_404 : given.status = 404 ↔ ∃ a, Accepted.ofJson defaults r.document = .ok a ∧
    ∀ v ∈ a.document.listing, v.1 ≠ r.path
  status_200 : given.status = 200 ↔ ∃ a value ys, Accepted.ofJson defaults r.document = .ok a ∧
    a.document.value? r.path = some value ∧ value.evaluateEach r.x r.temperature = .ok ys
  status : given.status = 422 ∨ given.status = 404 ∨ given.status = 200

theorem evaluateAnswer (codec : Codec) (hcheck : defaults.check = .ok ())
    (hstrict : defaults.strict = false) (r : ValueRequest) :
    EvaluateAnswer codec defaults r (respond codec defaults (.evaluate r)) := by
  rcases ofJson_of_lenient hcheck hstrict r.document with ⟨e, -, haccept⟩ | ⟨d, -, haccept⟩
  · have hgiven : respond codec defaults (.evaluate r) = ⟨422, codec.encode (Json.ofMembers
        [("error", .string e.message), ("issues", .list (e.issues.map fun i => Json.ofMembers
          [("path", .string i.reportedPath), ("kind", .string i.cause.issueClass.name),
            ("message", .string i.cause.message)]))])⟩ := by
      rw [respond, evaluateResponse, haccept]
      rfl
    constructor <;> simp [hgiven, haccept]
  have hrefused (refusal : Refusal) : Accepted.ofJson defaults r.document ≠ .error refusal := by
    simp [haccept]
  have hdocument {a : Accepted} (h : Accepted.ofJson defaults r.document = .ok a) :
      a.document = d := by
    rw [haccept] at h
    rw [← Except.ok.inj h]
  cases hvalue : d.value? r.path with
  | none =>
    have hmissing := value?_eq_none_iff.mp hvalue
    have hgiven : respond codec defaults (.evaluate r) =
        ⟨404, codec.encode (Json.ofMembers [("error", .string s!"no value at '{r.path}'")])⟩ := by
      simp only [respond, evaluateResponse, haccept, hvalue]
      rfl
    exact {
      refused := fun refusal h => absurd h (hrefused refusal)
      missing := fun _ _ _ => hgiven
      found := fun a h v hmem hpath => absurd hpath (hmissing v (hdocument h ▸ hmem))
      status_404 := iff_of_true (by rw [hgiven]) ⟨_, haccept, hmissing⟩
      status_200 := by
        refine iff_of_false (by simp [hgiven]) ?_
        rintro ⟨a, value, ys, h, hfound, -⟩
        rw [hdocument h, hvalue] at hfound
        cases hfound
      status := .inr (.inl (by rw [hgiven])) }
  | some value =>
    have hmem := mem_of_value? hvalue
    have hpresent : ¬∀ v ∈ d.listing, v.1 ≠ r.path := fun hmissing => hmissing _ hmem rfl
    have hgiven : respond codec defaults (.evaluate r) =
        valuesResponse codec (value.evaluateEach r.x r.temperature) :=
      respond_evaluate codec haccept hvalue
    have hstatus : (valuesResponse codec (value.evaluateEach r.x r.temperature)).status ≠ 404 := by
      cases value.evaluateEach r.x r.temperature <;> simp [valuesResponse, Response.json]
    exact {
      refused := fun refusal h => absurd h (hrefused refusal)
      missing := fun a h hmissing => absurd (hdocument h ▸ hmissing) hpresent
      found := fun a h _ _ _ => by
        refine ⟨value, hdocument h ▸ hvalue, fun e he => ?_,
          fun ys hys => ⟨length_of_evaluateEach hys, ?_⟩⟩
        · rw [hgiven, he]
          rfl
        · rw [hgiven, hys]
          rfl
      status_404 := by
        rw [hgiven]
        refine iff_of_false hstatus ?_
        rintro ⟨a, h, hmissing⟩
        exact hpresent (hdocument h ▸ hmissing)
      status_200 := by
        rw [hgiven]
        constructor
        · intro h
          cases heach : value.evaluateEach r.x r.temperature with
          | error e =>
            rw [heach] at h
            cases h
          | ok ys => exact ⟨_, value, ys, haccept, hvalue, heach⟩
        · rintro ⟨a, value', ys, h, hfound, hys⟩
          rw [hdocument h, hvalue] at hfound
          cases hfound
          rw [hys]
          rfl
      status := by
        rw [hgiven]
        cases value.evaluateEach r.x r.temperature with
        | error e => exact .inl rfl
        | ok ys => exact .inr (.inr rfl) }

/-- Under the default options that the environment gives, each option of a body that is taken in is
the one that its query asks for, or else the default one, and every request for a document or for
values is answered by what the library says. -/
theorem respond_answers (henv : environmentOptions env = .ok defaults) (codec : Codec) :
    (∀ (q : Overrides) (body : String),
      ParseAnswer codec
        ⟨⟨q.voltageTolerance.getD defaults.tolerances.voltage⟩, q.strict.getD defaults.strict⟩ body
        (respond codec defaults (.parse q body))) ∧
    ∀ r : ValueRequest, EvaluateAnswer codec defaults r (respond codec defaults (.evaluate r)) := by
  obtain ⟨hcheck, hlenient⟩ := usable_of_environmentOptions henv
  refine ⟨fun q body => ?_, fun r => evaluateAnswer codec hcheck hlenient r⟩
  rw [respond_parse hcheck]
  exact parseAnswer codec (q.applied defaults) body

/-- A codec whose decoder is right about the empty text, the one text below that is no JSON. -/
def plainCodec : Codec := ⟨Input.strictDecoder, Json.render⟩

/-- The refusal of an empty object. -/
def lacking : Rejection :=
  ⟨[⟨["Header"], .missing .always⟩, ⟨["Parameterisation"], .missing .always⟩]⟩

/-- The answer to an empty object that is to be a document. -/
def lackingText : String :=
  Json.braced <| r#""error":"Schema error (2 issue(s)): Header: field required; "# ++
    r#"Parameterisation: field required","issues":["# ++
    r#"{"kind":"missing","message":"field required","path":"Header"},"# ++
    r#"{"kind":"missing","message":"field required","path":"Parameterisation"}]"#

def inBraces (lines : List String) : List String := "".push '{' :: (lines ++ ["".push '}'])

def cellLines : List String :=
  inBraces
    [r#""Electrode area [m2]":1,"Initial temperature [K]":-3,"Lower voltage cut-off [V]":3,"#,
      r#""Number of electrode pairs connected in parallel to make a cell":2,"#,
      r#""Upper voltage cut-off [V]":4,"Nominal cell capacity [A.h]":5,"#,
      r#""Ambient temperature [K]":298"#]

def electrodeLines : List String :=
  inBraces
    [r#""Thickness [m]":1,"Minimum stoichiometry":0,"Maximum stoichiometry":1,"#,
      r#""Maximum concentration [mol.m-3]":30000,"Particle radius [m]":1,"#,
      r#""Surface area per unit volume [m-1]":4,"Diffusivity [m2.s-1]":1,"#,
      r#""OCP [V]":{"x":[0,1],"y":[4,3]},"Reaction rate constant [mol.m-2.s-1]":1"#]

/-- The lines of a text that spells `Document.plain`. -/
def plainLines : List String :=
  inBraces ([r#""Header":{"BPX":1,"Model":"SPM"},"Parameterisation":"#] ++
    inBraces ([r#""Cell":"#] ++ cellLines ++ [r#","Negative electrode":"#] ++ electrodeLines ++
      [r#","Positive electrode":"#] ++ electrodeLines ++
      [r#","User-defined":{"Ageing":{"Loss":2,"description":"By cycles"}}"#]))

def plainText : String := String.ofList (plainLines.flatMap String.toList)

/-- A request for the value of `Document.plain` at a path and at one half. -/
def plainRequest (path : String) : ValueRequest := ⟨Document.plain.toJson, path, [0.5], none⟩

theorem ofJson_plain : Accepted.ofJson ⟨⟨0.25⟩, false⟩ Document.plain.toJson =
    .ok ⟨Document.plain, Document.plain.findings ⟨0.25⟩⟩ := by
  have hread : Document.ofJson Document.plain.toJson = .ok Document.plain := by decide +kernel
  have husable : Options.check ⟨⟨0.25⟩, false⟩ = .ok () := by decide +kernel
  rcases ofJson_of_lenient husable rfl Document.plain.toJson with ⟨e, he, -⟩ | ⟨d, hd, h⟩
  · rw [hread] at he
    cases he
  · rw [hread] at hd
    rw [h, Except.ok.inj hd]

/-- Sent to be taken in: an unusable tolerance and no JSON, no JSON, no document, and a document.
Asked for: a value that is there, one that is not, and one of no document. -/
theorem respond_answers_plain :
    respond plainCodec ⟨⟨0.25⟩, false⟩ (.parse ⟨some (-1.0), none⟩ "") =
        ⟨400, r#"{"error":"Voltage [V] tolerance should not be negative, got -1"}"#⟩ ∧
      respond plainCodec ⟨⟨0.25⟩, false⟩ (.parse ⟨none, none⟩ "") =
        ⟨400, r#"{"error":"Invalid JSON: EOF while parsing a value at line 1 column 0"}"#⟩ ∧
      respond plainCodec ⟨⟨0.25⟩, false⟩ (.parse ⟨none, some true⟩ r#"{}"#) = ⟨422, lackingText⟩ ∧
      respond plainCodec ⟨⟨0.25⟩, false⟩ (.parse ⟨none, some true⟩ plainText) =
        ⟨200, Json.braced (r#""document":"# ++ Document.plain.toJson.render ++
          r#","warnings":[{"kind":"deprecated_version","version":"1"}]"#)⟩ ∧
      respond plainCodec ⟨⟨0.25⟩, false⟩
          (.evaluate (plainRequest "Parameterisation/Negative electrode/OCP [V]")) =
        ⟨200, r#"{"y":[3.5]}"#⟩ ∧
      respond plainCodec ⟨⟨0.25⟩, false⟩
          (.evaluate (plainRequest "Parameterisation/Cell/Volume [m3]")) =
        ⟨404, Json.braced r#""error":"no value at 'Parameterisation/Cell/Volume [m3]'""#⟩ ∧
      (respond plainCodec ⟨⟨0.25⟩, false⟩ (.evaluate ⟨.object [], "", [], none⟩)).status = 422 := by
  have henv : environmentOptions (some "0.25") = .ok ⟨⟨0.25⟩, false⟩ := by decide +kernel
  obtain ⟨hparse, hevaluate⟩ := respond_answers henv plainCodec
  have hlacking : Document.ofJson (.object []) = .error lacking := by decide +kernel
  have husable : Options.check ⟨⟨0.25⟩, false⟩ = .ok () := by decide +kernel
  refine ⟨?_, ?_, ?_, ?_, ?_, ?_, ?_⟩
  · have hunusable : Options.check ⟨⟨-1.0⟩, false⟩ =
        .error (.negative Tolerances.voltageCheck (-1.0)) := by decide +kernel
    rw [(hparse ⟨some (-1.0), none⟩ "").unusable _ hunusable]
    decide +kernel
  · rw [(hparse ⟨none, none⟩ "").malformed Input.endOfText husable rfl]
    decide +kernel
  · have hrefused : Accepted.ofText plainCodec.decode ⟨⟨0.25⟩, true⟩ r#"{}"# =
        .error (.schema lacking) := by
      have htext : plainCodec.decode r#"{}"# = .ok (.object []) := rfl
      rw [ofText_of_tree (by decide +kernel) htext, Input.judge_eq, hlacking]
      rfl
    rw [(hparse ⟨none, some true⟩ r#"{}"#).schema lacking hrefused]
    decide +kernel
  · have hany : ((Json.parse? plainText).any fun j =>
        Document.ofJson j = .ok Document.plain) = true := by
      rw [Json.parse?, Json.parseWithin?, plainText, String.toList_ofList]
      decide +kernel
    obtain ⟨j, hj, hread⟩ := (Option.any_eq_true _ _).mp hany
    have hdecode : plainCodec.decode = Input.strictDecoder := rfl
    have htext : plainCodec.decode plainText = .ok j := by
      rw [hdecode, Input.strictDecoder_of_parse? hj]
    have hfindings : Document.plain.findings ⟨0.25⟩ = [.deprecatedVersion (.legacy 1.0)] := by
      decide +kernel
    have haccepted : Accepted.ofText plainCodec.decode ⟨⟨0.25⟩, true⟩ plainText =
        .ok ⟨Document.plain, [.deprecatedVersion (.legacy 1.0)]⟩ := by
      rw [ofText_of_tree (by decide +kernel) htext, Input.judge_eq, of_decide_eq_true hread]
      show Input.verdict ⟨⟨0.25⟩, true⟩ Document.plain = _
      rw [Input.verdict, hfindings]
      rfl
    have hdocument : r#""document":"# = Json.quote "document" ++ ":" := by decide +kernel
    have hwarnings : r#","warnings":[{"kind":"deprecated_version","version":"1"}]"# =
        "," ++ (Json.quote "warnings" ++ ":" ++ Json.render (.list [.object
          (Finding.deprecatedVersion (.legacy 1.0)).members])) := by decide +kernel
    rw [(hparse ⟨none, some true⟩ plainText).accepted _ haccepted, hdocument, hwarnings]
    show (⟨200, Json.braced (",".intercalate [_, _])⟩ : Response) = _
    rw [String.intercalate_cons_cons, String.intercalate_singleton, String.append_assoc]
    rfl
  · have hany : ((Document.plain.value? "Parameterisation/Negative electrode/OCP [V]").any
        fun v => v.evaluateEach [0.5] none = .ok [3.5]) = true := by decide +kernel
    obtain ⟨v, hvalue, hv⟩ := (Option.any_eq_true _ _).mp hany
    obtain ⟨w, hfound, -, hvalues⟩ :=
      (hevaluate (plainRequest _)).found _ ofJson_plain _ (mem_of_value? hvalue) rfl
    obtain rfl : v = w := Option.some.inj (hvalue.symm.trans hfound)
    rw [(hvalues [3.5] (of_decide_eq_true hv)).2]
    decide +kernel
  · have hmissing : ∀ v ∈ Document.plain.listing, v.1 ≠ "Parameterisation/Cell/Volume [m3]" := by
      decide +kernel
    rw [(hevaluate (plainRequest "Parameterisation/Cell/Volume [m3]")).missing _ ofJson_plain
      hmissing]
    decide +kernel
  · have hrefused : Accepted.ofJson ⟨⟨0.25⟩, false⟩ (.object []) = .error (.schema lacking) := by
      rcases ofJson_of_lenient husable rfl (.object []) with ⟨e, he, h⟩ | ⟨d, hd, -⟩
      · rw [hlacking] at he
        rw [h, Except.error.inj he]
      · rw [hlacking] at hd
        cases hd
    obtain ⟨_, -, hgiven⟩ := (hevaluate ⟨.object [], "", [], none⟩).refused _ hrefused
    rw [hgiven]

end BatteryParams.Service

import BatteryParams.Decimal.Text
import BatteryParams.Document.Values
import BatteryParams.Intake
import BatteryParams.Schema.Document
import BatteryParams.Settings

/-!
# The parameter service

The service answers requests about documents: its banner, the schema of documents, taking a document
in, and evaluating a value of a document. `respond` is a function of the default options and the
request alone, and of the codec by which texts are decoded and trees are written.

A request has been told apart from others and decoded when it gets here; one that is of no such kind
never does. Every answer but the banner is a JSON body, whose members are sorted except where a
document that was taken in is returned.
-/

namespace BatteryParams.Service

/-- How texts are decoded as trees, and trees written as texts. -/
structure Codec where
  decode : Json.Decoder
  encode : Json → String

structure Response where
  status : Nat
  body : String
deriving DecidableEq, Repr

/-- A response with a tree as its body. -/
def Response.json (codec : Codec) (status : Nat) (body : Json) : Response :=
  ⟨status, codec.encode body⟩

/-! ### Options -/

/-- Why the default options cannot be set up. -/
inductive EnvironmentFault where
  | notANumber
  | config (e : ToleranceFault)
deriving DecidableEq, Repr

/-- The default options, with the voltage tolerance that the environment gives as text, blanks
around it being ignored. -/
def environmentOptions : Option String → Except EnvironmentFault Options
  | none => .ok .default
  | some text =>
    match Decimal.ofText? (Text.trim text.toList) with
    | none => .error .notANumber
    | some value => (Options.default.withVoltageTolerance value).mapError .config

/-- What a query asks for in place of the defaults. -/
structure Overrides where
  voltageTolerance : Option Float
  strict : Option Bool
deriving DecidableEq, Repr

/-- The defaults with what a query asks for in their place. -/
def Overrides.options (q : Overrides) (defaults : Options) : Except ToleranceFault Options := do
  let o ← q.voltageTolerance.elim (.ok defaults) defaults.withVoltageTolerance
  .ok { o with strict := q.strict.getD o.strict }

/-! ### Requests -/

/-- A request for the values of a parameter of a document. -/
structure ValueRequest where
  document : Json
  path : String
  x : List Float
  temperature : Option Float

/-- What is asked of the service. -/
inductive Request where
  | banner
  | schema
  | parse (q : Overrides) (body : String)
  | evaluate (r : ValueRequest)

def banner : String := "BPX parameter service"

def issueJson (i : Issue) : Json :=
  Json.ofMembers
    [("path", .string i.reportedPath), ("kind", .string i.cause.issueClass.name),
      ("message", .string i.cause.message)]

def errorBody (message : String) (details : List (String × Json)) : Json :=
  Json.ofMembers (("error", .string message) :: details)

section

variable (codec : Codec)

def refusalResponse (r : Refusal) : Response :=
  match r with
  | .config _ => .json codec 400 (errorBody r.message [])
  | .malformed _ => .json codec 400 (errorBody r.message [])
  | .unreadable _ => .json codec 500 (errorBody r.message [])
  | .schema e => .json codec 422 (errorBody r.message [("issues", .list (e.issues.map issueJson))])
  | .consistency findings _ =>
    let warnings := findings.map fun w => Json.ofMembers w.members
    .json codec 422 (errorBody r.message [("warnings", .list warnings)])

def parseResponse (defaults : Options) (q : Overrides) (body : String) : Response :=
  match q.options defaults with
  | .error e => refusalResponse codec (.config e)
  | .ok options =>
    match Accepted.ofText codec.decode options body with
    | .ok accepted => .json codec 200 accepted.toJson
    | .error r => refusalResponse codec r

/-- The response to a request for the values of a parameter. -/
def valuesResponse : Except EvalFault (List Float) → Response
  | .ok y => .json codec 200 (Json.ofMembers [("y", .ofFloats y)])
  | .error e => .json codec 422 (errorBody e.message [])

def evaluateResponse (defaults : Options) (r : ValueRequest) : Response :=
  match Accepted.ofJson defaults r.document with
  | .error refusal => refusalResponse codec refusal
  | .ok accepted =>
    match accepted.document.value? r.path with
    | none => .json codec 404 (errorBody s!"no value at '{r.path}'" [])
    | some value => valuesResponse codec (value.evaluateEach r.x r.temperature)

def respond (defaults : Options) : Request → Response
  | .banner => ⟨200, banner⟩
  | .schema => .json codec 200 documentSchema.toJson
  | .parse q body => parseResponse codec defaults q body
  | .evaluate r => evaluateResponse codec defaults r

end

end BatteryParams.Service

import BatteryParams.Consistency
import BatteryParams.Document.Reader
import BatteryParams.Document.Writer

/-!
# Taking documents in

A document arrives as a tree, as a text or as the bytes of a file. Whatever the way, the settings
are checked first, then the bytes, the text and the tree are decoded, and the findings are collected
last. Judged strictly, a document with a finding other than a deprecation is refused.

How texts are decoded is left open: a `Json.Decoder` gives the tree that a text spells, or says in
its own words why there is none.
-/

namespace BatteryParams

/-- A way to decode texts. -/
abbrev Json.Decoder := String → Except String Json

/-- A document that was taken in, with the findings about it. -/
structure Accepted where
  document : Document
  findings : List Finding
deriving DecidableEq

inductive Refusal where
  | config (e : ToleranceFault)
  /-- There are no bytes, or they are no text. -/
  | unreadable (error : String)
  /-- The text is no JSON. -/
  | malformed (error : String)
  | schema (e : Rejection)
  | consistency (findings : List Finding) (document : Document)

def Refusal.message : Refusal → String
  | .config e => e.message
  | .unreadable error => s!"I/O error: {error}"
  | .malformed error => s!"Invalid JSON: {error}"
  | .schema e => e.message
  | .consistency findings _ =>
    let count := findings.length
    s!"{count} consistency check(s) failed: " ++ "; ".intercalate (findings.map Finding.message)

namespace Accepted

def isClean (p : Accepted) : Bool := p.findings.isEmpty

def toJson (p : Accepted) : Json :=
  .object [("document", p.document.toJson),
    ("warnings", .list (p.findings.map fun w => .object w.members))]

/-- Judge a tree under valid settings. -/
def judge (o : Options) (j : Json) : Except Refusal Accepted := do
  let document ← (Document.ofJson j).mapError .schema
  let findings := document.findings o.tolerances
  if o.strict && findings.any Finding.isConsistency then .error (.consistency findings document)
  else .ok ⟨document, findings⟩

def ofJson (o : Options) (j : Json) : Except Refusal Accepted := do
  o.check.mapError .config
  judge o j

/-- Decode a text and judge it. -/
def judgeText (decode : Json.Decoder) (o : Options) (text : String) : Except Refusal Accepted := do
  judge o (← (decode text).mapError .malformed)

def ofText (decode : Json.Decoder) (o : Options) (text : String) : Except Refusal Accepted := do
  o.check.mapError .config
  judgeText decode o text

/-- The text of a file, given its bytes or why it cannot be read. -/
def fileText (content : Except String ByteArray) : Except String String := do
  match String.fromUTF8? (← content) with
  | some text => .ok text
  | none => .error "stream did not contain valid UTF-8"

def ofFile (decode : Json.Decoder) (o : Options) (content : Except String ByteArray) :
    Except Refusal Accepted := do
  o.check.mapError .config
  judgeText decode o (← (fileText content).mapError .unreadable)

end Accepted

end BatteryParams

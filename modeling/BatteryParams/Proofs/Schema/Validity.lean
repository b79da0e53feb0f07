import BatteryParams.Json.Pointer
import BatteryParams.Proofs.Float.Integers

/-!
# Validity under a written schema

A schema is itself a JSON tree, and what it asks of another tree is told here keyword by keyword, as
JSON Schema (draft 2020-12) has it. An assertion looks at the tree alone. An applicator hands the
tree or its parts on to further schemas: to those in its argument, or to one that stands elsewhere
in the root schema. A keyword that is neither asks nothing, and an argument of the wrong shape makes
a keyword that nothing meets.

References in one place may only follow each other as often as there are definitions in the root:
after that they run in a circle.
-/

namespace BatteryParams.Json

/-! ### Numbers -/

/-- The number that is written down; an infinite double is none. -/
def Number.value? : Number → Option ℚ
  | .natural n => some n.toNat
  | .negative magnitude => some (-magnitude.toNat)
  | .float x => Double.value? x

/-! ### Patterns -/

/-- What a piece of a pattern matches: the start or the end of the text, a run of digits, or one
character. -/
inductive PatternPiece where
  | start
  | stop
  | digits
  | literal (c : Char)
deriving DecidableEq

/-- The pieces of a pattern that is made of `^`, `$`, runs of digits `\d+` and escaped
characters. -/
def patternPieces? : List Char → Option (List PatternPiece)
  | [] => some []
  | '^' :: rest => (patternPieces? rest).map (.start :: ·)
  | '$' :: rest => (patternPieces? rest).map (.stop :: ·)
  | '\\' :: 'd' :: '+' :: rest => (patternPieces? rest).map (.digits :: ·)
  | '\\' :: c :: rest => if c.isAlphanum then none else (patternPieces? rest).map (.literal c :: ·)
  | _ => none

/-- Whether pieces match what comes next in a text, after what came before. -/
def MatchesAt : List PatternPiece → (before rest : List Char) → Prop
  | [], _, _ => True
  | .start :: pieces, before, rest => before = [] ∧ MatchesAt pieces before rest
  | .stop :: pieces, before, rest => rest = [] ∧ MatchesAt pieces before rest
  | .digits :: pieces, before, rest =>
    ∃ run tail, rest = run ++ tail ∧ run ≠ [] ∧ (∀ c ∈ run, c.isDigit = true) ∧
      MatchesAt pieces (before ++ run) tail
  | .literal c :: pieces, before, rest => ∃ tail, rest = c :: tail ∧
      MatchesAt pieces (before ++ [c]) tail

/-- Whether a pattern matches somewhere in a text. -/
def Finds (pieces : List PatternPiece) (text : List Char) : Prop :=
  ∃ before rest, text = before ++ rest ∧ MatchesAt pieces before rest

/-! ### Assertions -/

/-- The names of the types of trees. -/
inductive TypeName where
  | null
  | boolean
  | number
  | integer
  | string
  | array
  | object
deriving DecidableEq

namespace TypeName

def all : List TypeName := [.null, .boolean, .number, .integer, .string, .array, .object]

def name : TypeName → String
  | .null => "null"
  | .boolean => "boolean"
  | .number => "number"
  | .integer => "integer"
  | .string => "string"
  | .array => "array"
  | .object => "object"

def ofName? (name : String) : Option TypeName := all.find? (·.name == name)

/-- A number without a fraction is an integer, however it is written. -/
def Has : TypeName → Json → Prop
  | .null, .null | .boolean, .bool _ | .string, .string _ | .array, .list _
  | .object, .object _ => True
  | .number, .number n => n.value?.isSome = true
  | .integer, .number n => ∃ k : Int, n.value? = some (k : ℚ)
  | _, _ => False

end TypeName

/-- A keyword that looks at a tree alone. -/
inductive Assertion where
  | type
  | enum
  | minimum
  | pattern
  | minItems
  | required
  | minProperties
deriving DecidableEq

namespace Assertion

def all : List Assertion := [.type, .enum, .minimum, .pattern, .minItems, .required, .minProperties]

def name : Assertion → String
  | .type => "type"
  | .enum => "enum"
  | .minimum => "minimum"
  | .pattern => "pattern"
  | .minItems => "minItems"
  | .required => "required"
  | .minProperties => "minProperties"

/-- What a keyword with an argument asserts of a tree; it says nothing of trees of another type. -/
def Holds : Assertion → (argument j : Json) → Prop
  | .type, .string name, j => ∃ t, TypeName.ofName? name = some t ∧ t.Has j
  | .enum, .list choices, j => j ∈ choices
  | .minimum, .number bound, .number n => ∀ b q, bound.value? = some b → n.value? = some q → b ≤ q
  | .minimum, .number _, _ => True
  | .pattern, .string p, .string s => ∃ pieces, patternPieces? p.toList = some pieces ∧
      Finds pieces s.toList
  | .pattern, .string _, _ => True
  | .minItems, .number (.natural n), .list items => n.toNat ≤ items.length
  | .minItems, .number (.natural _), _ => True
  | .required, .list names, .object members =>
    ∀ name ∈ names, ∃ s, name = .string s ∧ (Named.find? s members).isSome = true
  | .required, .list _, _ => True
  | .minProperties, .number (.natural n), .object members => n.toNat ≤ members.length
  | .minProperties, .number (.natural _), _ => True
  | _, _, _ => False

end Assertion

/-! ### Applicators -/

/-- A keyword that hands a tree or its parts on to further schemas. -/
inductive Applicator where
  | items
  | properties
  | additionalProperties
  | anyOf
  | oneOf
  | ref
deriving DecidableEq

namespace Applicator

def all : List Applicator := [.items, .properties, .additionalProperties, .anyOf, .oneOf, .ref]

def name : Applicator → String
  | .items => "items"
  | .properties => "properties"
  | .additionalProperties => "additionalProperties"
  | .anyOf => "anyOf"
  | .oneOf => "oneOf"
  | .ref => "$ref"

end Applicator

inductive Keyword where
  | assertion (a : Assertion)
  | applicator (a : Applicator)
deriving DecidableEq

namespace Keyword

def all : List Keyword := Assertion.all.map .assertion ++ Applicator.all.map .applicator

def name : Keyword → String
  | .assertion a => a.name
  | .applicator a => a.name

def ofName? (name : String) : Option Keyword := all.find? (·.name == name)

end Keyword

/-- The members of an object that a schema describes by name. -/
def describedNames (keywords : List (String × Json)) : List String :=
  match Named.find? "properties" keywords with
  | some (.object described) => described.map (·.1)
  | _ => []

/-- The schema in a root that a reference leads to, written as a pointer after `#`. -/
def resolve? (root : Json) (reference : String) : Option Json :=
  match reference.toList with
  | '#' :: pointer => root.pointer? (String.ofList pointer)
  | _ => none

/-- How many references in one place may follow each other. -/
def refLimit (root : Json) : Nat :=
  match root.member? "$defs" with
  | some (.object definitions) => definitions.length
  | _ => 0

theorem sizeOf_lt_of_mem {name : String} {j : Json} {members : List (String × Json)}
    (h : (name, j) ∈ members) : sizeOf j < sizeOf members := by
  have hpair := List.sizeOf_lt_of_mem h
  simp only [Prod.mk.sizeOf_spec] at hpair
  omega

mutual

/-- Whether a tree is valid under a schema of a root, with so many references left to follow in this
place. -/
def Valid (root : Json) (hops : Nat) (schema j : Json) : Prop :=
  match schema with
  | .bool b => b = true
  | .object keywords =>
    ∀ name argument, (name, argument) ∈ keywords →
      Asks root hops (describedNames keywords) name argument j
  | _ => False
termination_by (sizeOf j, hops, sizeOf schema, 0)
decreasing_by
  have hargument := sizeOf_lt_of_mem ‹_›
  decreasing_tactic

/-- Whether a tree is what a keyword with an argument asks for, beside descriptions of members under
these names. -/
def Asks (root : Json) (hops : Nat) (described : List String) (name : String) (argument j : Json) :
    Prop :=
  match Keyword.ofName? name with
  | none => True
  | some (.assertion a) => a.Holds argument j
  | some (.applicator a) => Applies root hops described a argument j
termination_by (sizeOf j, hops, sizeOf argument, 2)

def Applies (root : Json) (hops : Nat) (described : List String) (a : Applicator)
    (argument j : Json) : Prop :=
  match a, argument, j with
  | .items, argument, .list items => ∀ item, item ∈ items → Valid root root.refLimit argument item
  | .items, _, _ => True
  | .properties, .object schemas, .object members =>
    ∀ name inner, (name, inner) ∈ members → ∀ s, Named.find? name schemas = some s →
      Valid root root.refLimit s inner
  | .properties, .object _, _ => True
  | .additionalProperties, argument, .object members =>
    ∀ name inner, (name, inner) ∈ members → name ∉ described →
      Valid root root.refLimit argument inner
  | .additionalProperties, _, _ => True
  | .anyOf, .list options, j => ∃ s, ∃ _ : s ∈ options, Valid root hops s j
  | .oneOf, .list options, j =>
    ∃ i, ∃ _ : i < options.length, Valid root hops options[i] j ∧
      ∀ k, (_ : k < options.length) → Valid root hops options[k] j → k = i
  | .ref, .string reference, j =>
    match hops with
    | 0 => False
    | hops + 1 => ∃ s, root.resolve? reference = some s ∧ Valid root hops s j
  | _, _, _ => False
termination_by (sizeOf j, hops, sizeOf argument, 1)
decreasing_by
  all_goals first
  | decreasing_tactic
  | have hinner := sizeOf_lt_of_mem ‹_›
    decreasing_tactic
  | have hoption := List.sizeOf_lt_of_mem (List.getElem_mem ‹_ < List.length _›)
    decreasing_tactic

end

end BatteryParams.Json

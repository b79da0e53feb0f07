import BatteryParams.Json.Basic

/-!
# Schemas

A `Schema` describes a set of JSON trees by the keywords of JSON Schema that documents need.
`Schema.toJson` writes it down with those keywords; notes are keywords that describe and do not
restrict.
-/

namespace BatteryParams

/-- A description of JSON trees. -/
inductive Schema where
  | number
  /-- An integer not below a bound. -/
  | integer (minimum : Nat)
  | string
  /-- A string of three runs of digits joined by dots. -/
  | versionString
  | choice (names : List String)
  /-- A list whose items are described, of a least length if one is given. -/
  | list (items : Schema) (minItems : Option Nat)
  /-- An object: its known members, if any are, those it must have, and what other members it may
  have; no others if there is no description of them. -/
  | object (properties : Option (List (String × Schema))) (required : Option (List String))
    (additional : Option Schema) (minProperties : Option Nat)
  | anyOf (options : List Schema)
  | oneOf (options : List Schema)
  /-- A description that stands elsewhere under a name. -/
  | ref (name : String)
  | noted (s : Schema) (notes : List (String × Json))

namespace Schema

def texts (names : List String) : Json := .list (names.map .string)

def bound (n : Nat) : Json := .number (.natural n.toUInt64)

/-- The pattern of three runs of digits joined by dots. -/
def versionPattern : String := "^\\d+\\.\\d+\\.\\d+$"

mutual

def keywords : Schema → List (String × Json)
  | .number => [("type", .string "number")]
  | .integer minimum => [("type", .string "integer"), ("minimum", bound minimum)]
  | .string => [("type", .string "string")]
  | .versionString => [("type", .string "string"), ("pattern", .string versionPattern)]
  | .choice names => [("enum", texts names)]
  | .list items minItems =>
    [("type", .string "array"), ("items", .object (Named.ofList items.keywords))] ++
      (minItems.map fun n => ("minItems", bound n)).toList
  | .object properties required additional minProperties =>
    [("type", .string "object"), ("additionalProperties", additionalKeyword additional)] ++
      propertiesKeyword properties ++
        (required.map fun names => ("required", texts names)).toList ++
      (minProperties.map fun n => ("minProperties", bound n)).toList
  | .anyOf options => [("anyOf", .list (optionTrees options))]
  | .oneOf options => [("oneOf", .list (optionTrees options))]
  | .ref name => [("$ref", .string ("#/$defs/" ++ name))]
  | .noted s notes => s.keywords ++ notes

def propertiesKeyword : Option (List (String × Schema)) → List (String × Json)
  | none => []
  | some properties => [("properties", Json.ofMembers (propertyTrees properties))]

/-- The known members of an object, each with its description. -/
def propertyTrees : List (String × Schema) → List (String × Json)
  | [] => []
  | (key, s) :: rest => (key, .object (Named.ofList s.keywords)) :: propertyTrees rest

/-- What other members an object may have. -/
def additionalKeyword : Option Schema → Json
  | none => .bool false
  | some s => .object (Named.ofList s.keywords)

def optionTrees : List Schema → List Json
  | [] => []
  | s :: rest => .object (Named.ofList s.keywords) :: optionTrees rest

end

def toJson (s : Schema) : Json := Json.ofMembers s.keywords

end Schema

/-- A description with the descriptions that it refers to. -/
structure SchemaDocument where
  root : Schema
  definitions : List (String × Schema)

/-- The tree that writes a description down together with those it refers to. -/
def SchemaDocument.toJson (d : SchemaDocument) : Json :=
  Json.ofMembers
    (d.root.keywords ++
      [("$schema", .string "https://json-schema.org/draft/2020-12/schema"),
        ("$defs", Json.ofMembers (d.definitions.map fun (name, s) => (name, s.toJson)))])

end BatteryParams

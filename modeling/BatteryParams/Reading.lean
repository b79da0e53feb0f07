import BatteryParams.Issue

/-!
# Readings

Reading a part of a document yields what could be read and the issues that were met. Parts are read
independently of each other: a `Reading` combines by `<*>` and never by `>>=`, so that no fault in
one part hides another, and the issues of a whole are those of its parts, one after the other.

A `Record` is an object whose keys must all stand in its tables of fields. Its entries are read one
by one; an absent entry is an issue when the model asks for it.
-/

namespace BatteryParams

/-- What reading a part yields: the part, unless something in it was unreadable, and the issues
met. -/
structure Reading (α : Type) where
  value : Option α
  issues : List Issue

namespace Reading

variable {α β : Type}

def clean (a : α) : Reading α := ⟨some a, []⟩

def issue (path : Path) (cause : IssueCause) : Reading α := ⟨none, [⟨path, cause⟩]⟩

/-- The reading of one place by a rule. -/
def ofExcept (path : Path) : Except IssueCause α → Reading α
  | .ok a => clean a
  | .error cause => issue path cause

def withIssues (issues : List Issue) (r : Reading α) : Reading α := ⟨r.value, issues ++ r.issues⟩

instance : Functor Reading where
  map f r := ⟨r.value.map f, r.issues⟩

instance : Applicative Reading where
  pure := clean
  seq f r :=
    let rest := r ()
    ⟨f.value.bind fun g => rest.value.map g, f.issues ++ rest.issues⟩

def each (read : α → Reading β) : List α → Reading (List β)
  | [] => clean []
  | a :: as => List.cons <$> read a <*> each read as

end Reading

/-- The entries of one object, where it stands, and the model that it is read for. -/
structure Record where
  path : Path
  members : List (String × Json)
  model : Model

namespace Record

variable {α : Type}

/-- The keys of an object that stand in none of its tables. -/
def unknownIssues (path : Path) (fields : List Field) (members : List (String × Json)) :
    List Issue :=
  (members.filter fun m => !fields.any (·.key == m.1)).map fun m => ⟨path ++ [m.1], .unknown⟩

/-- Read an object by its tables; anything else is of the wrong kind. -/
def read (model : Model) (fields : List Field) (body : Record → Reading α) (path : Path) :
    Json → Reading α
  | .object members => (body ⟨path, members, model⟩).withIssues (unknownIssues path fields members)
  | j => .issue path (.wrongKind .object j.kind)

/-- Read the entry of a field, if there is one. -/
def entry (r : Record) (f : Field) (read : Path → Json → Reading α) : Reading (Option α) :=
  match Named.find? f.key r.members with
  | some j => some <$> read (r.path ++ [f.key]) j
  | none =>
    if f.requirement.isRequired r.model then .issue (r.path ++ [f.key]) (.missing f.requirement)
    else .clean none

/-- Read the entry of a field that every document has. -/
def required (r : Record) (f : Field) (read : Path → Json → Reading α) : Reading α :=
  let found := r.entry f read
  ⟨found.value.join, found.issues⟩

end Record

/-! ### Rules for single entries -/

namespace Rule

/-- An entry that some part of a tree decides, and what is expected of it. -/
def expect {α : Type} (expected : Expected) (decode : Json → Option α) (path : Path) (j : Json) :
    Reading α :=
  match decode j with
  | some a => .clean a
  | none => .issue path (.wrongKind expected j.kind)

def number : Path → Json → Reading Float := expect .number Json.toFloat?

/-- An integer from 1 on. -/
def count : Path → Json → Reading UInt32 := expect .count Json.toCount?

def text : Path → Json → Reading String := expect .text Json.toText?

def numberList : Path → Json → Reading (List Float) := expect .numberList Json.toFloats?

/-- A value: a constant, a formula or a table. -/
def value (path : Path) (j : Json) : Reading Value :=
  .ofExcept path ((Value.ofJson j).mapError .value)

def version (path : Path) (j : Json) : Reading Version :=
  .ofExcept path ((Version.ofJson j).mapError .version)

def model (path : Path) (j : Json) : Reading Model :=
  match j with
  | .string name =>
    match Model.ofName? name with
    | some m => .clean m
    | none => .issue path (.model name)
  | j => .issue path (.wrongKind .text j.kind)

end Rule

end BatteryParams

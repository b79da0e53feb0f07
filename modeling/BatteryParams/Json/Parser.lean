import BatteryParams.Decimal.Numeral
import BatteryParams.Json.Basic

/-!
# Reading JSON texts

`Json.parse?` is one way to decode a text; taking a document in does not depend on which is used. It
goes by the strict grammar: blanks are space, tab, line feed and carriage return; a string holds no
raw control character and no lone surrogate; a number has no idle zero and a digit on either side of
its point, and is not out of range; nothing but blanks follows the value. At most `limit` lists and
objects may be open at once. Of a repeated key the last value stays, and a number that is no integer
of 64 bits becomes the double nearest to it.

A reader takes a value off the start of a text and returns what follows it.
-/

namespace BatteryParams.Json

/-- A reader of values of one type; it fails or returns what it read and what follows. -/
abbrev Reader (α : Type) := List Char → Option (α × List Char)

/-- The lists and objects that may be open at once in a document. -/
def nestingLimit : Nat := 127

def isBlank (c : Char) : Bool := c = ' ' || c = '\t' || c = '\n' || c = '\r'

/-- A text from its first character on that is no blank. -/
def skipBlanks (text : List Char) : List Char := text.dropWhile isBlank

def hexDigit? (c : Char) : Option Nat :=
  if c.isDigit then some (c.toNat - '0'.toNat)
  else if 'a' ≤ c ∧ c ≤ 'f' then some (c.toNat - 'a'.toNat + 10)
  else if 'A' ≤ c ∧ c ≤ 'F' then some (c.toNat - 'A'.toNat + 10)
  else none

/-- The number that the first four characters spell in hexadecimal. -/
def codeUnit? : List Char → Option Nat
  | a :: b :: c :: d :: _ => do
    some (((← hexDigit? a) * 16 + (← hexDigit? b)) * 256 + (← hexDigit? c) * 16 + (← hexDigit? d))
  | _ => none

/-- The character after a backslash that stands for itself or for a control character. -/
def plainEscape? : Char → Option Char
  | '"' => some '"'
  | '\\' => some '\\'
  | '/' => some '/'
  | 'b' => some '\x08'
  | 'f' => some '\x0c'
  | 'n' => some '\n'
  | 'r' => some '\r'
  | 't' => some '\t'
  | _ => none

/-- The character that an escape stands for, given the text after the backslash, and how many
characters of that text it takes. A high surrogate needs a low one in an escape right after it. -/
def escape? : List Char → Option (Char × Nat)
  | 'u' :: digits =>
    match codeUnit? digits with
    | none => none
    | some unit =>
      if 0xD800 ≤ unit ∧ unit < 0xDC00 then
        match digits.drop 4 with
        | '\\' :: 'u' :: more =>
          match codeUnit? more with
          | none => none
          | some low =>
            if 0xDC00 ≤ low ∧ low < 0xE000 then
              some (Char.ofNat (0x10000 + (unit - 0xD800) * 0x400 + (low - 0xDC00)), 11)
            else none
        | _ => none
      else if 0xDC00 ≤ unit ∧ unit < 0xE000 then none
      else some (Char.ofNat unit, 5)
  | c :: _ => (plainEscape? c).map (·, 1)
  | [] => none

/-- The characters of a string up to its closing quote, which is taken too. -/
def stringBody : Reader (List Char)
  | [] => none
  | c :: rest =>
    if c = '"' then some ([], rest)
    else if c = '\\' then
      match escape? rest with
      | none => none
      | some (escaped, taken) =>
        (stringBody (rest.drop taken)).map fun (body, after) => (escaped :: body, after)
    else if c.toNat < 0x20 then none
    else (stringBody rest).map fun (body, after) => (c :: body, after)
termination_by text => text.length
decreasing_by all_goals (simp only [List.length_drop, List.length_cons]; omega)

/-- A number: naturals below `2 ^ 64` and negative integers down to `-2 ^ 63` keep their form, all
others are doubles. -/
def number? : Reader Number := fun text =>
  let negative := text.head? == some '-'
  let (numeral, rest) := Decimal.Numeral.take (if negative then text.tail else text)
  let magnitude := Decimal.natOfDigits numeral.whole
  let value := numeral.value
  if !numeral.isStrict || !value.isFinite then none
  else if numeral.isWhole && !negative && decide (magnitude < Nat.pow 2 64) then
    some (.natural magnitude.toUInt64, rest)
  else if numeral.isWhole && negative && decide (0 < magnitude ∧ magnitude ≤ Nat.pow 2 63) then
    some (.negative magnitude.toUInt64, rest)
  else some (.float (if negative then -value else value), rest)

/-- A value that is neither a list nor an object. -/
def scalar? : Reader Json
  | 'n' :: 'u' :: 'l' :: 'l' :: rest => some (.null, rest)
  | 't' :: 'r' :: 'u' :: 'e' :: rest => some (.bool true, rest)
  | 'f' :: 'a' :: 'l' :: 's' :: 'e' :: rest => some (.bool false, rest)
  | '"' :: rest => (stringBody rest).map fun (body, after) => (.string (String.ofList body), after)
  | text => (number? text).map fun (n, after) => (.number n, after)

/-- The items of a list up to its closing bracket, which is taken too. An item has a character at
least, so there are no more items than characters `ahead`. -/
def items? (value : Reader Json) : (ahead : List Char) → Reader (List Json)
  | [], _ => none
  | _ :: ahead, text => do
    let (item, rest) ← value text
    match skipBlanks rest with
    | ',' :: rest => (items? value ahead rest).map fun (items, after) => (item :: items, after)
    | ']' :: rest => some ([item], rest)
    | _ => none

def key? (text : List Char) : Option (String × List Char) :=
  match skipBlanks text with
  | '"' :: rest => do
    let (key, rest) ← stringBody rest
    match skipBlanks rest with
    | ':' :: rest => some (String.ofList key, rest)
    | _ => none
  | _ => none

/-- The members of an object up to its closing brace, which is taken too. There are no more of them
than characters `ahead`. -/
def members? (value : Reader Json) : (ahead : List Char) → Reader (List (String × Json))
  | [], _ => none
  | _ :: ahead, text => do
    let (key, rest) ← key? text
    let (member, rest) ← value rest
    match skipBlanks rest with
    | ',' :: rest => (members? value ahead rest).map fun (members, after) =>
      ((key, member) :: members, after)
    | '}' :: rest => some ([(key, member)], rest)
    | _ => none

/-- A value in which at most `depth` lists and objects are open at once. -/
def value? : (depth : Nat) → Reader Json
  | 0, text => scalar? (skipBlanks text)
  | depth + 1, text =>
    match skipBlanks text with
    | '[' :: rest =>
      match skipBlanks rest with
      | ']' :: rest => some (.list [], rest)
      | rest => (items? (value? depth) rest rest).map fun (items, after) => (.list items, after)
    | '{' :: rest =>
      match skipBlanks rest with
      | '}' :: rest => some (.object [], rest)
      | rest =>
        (members? (value? depth) rest rest).map fun (members, after) => (ofMembers members, after)
    | rest => scalar? rest

/-- The tree that a text spells, at most `limit` lists and objects being open at once. -/
def parseWithin? (limit : Nat) (text : String) : Option Json :=
  match value? limit text.toList with
  | some (j, rest) => if (skipBlanks rest).isEmpty then some j else none
  | none => none

def parse? (text : String) : Option Json := parseWithin? nestingLimit text

end BatteryParams.Json

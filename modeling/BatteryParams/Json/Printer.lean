import BatteryParams.Decimal.Layout
import BatteryParams.Json.Basic

/-!
# Writing JSON texts

`Json.render` writes a tree without blanks. Members stand in the order in which the object files
them. In strings the quote, the backslash and the control characters are escaped and all else stands
as it is; a double has the fewest digits that read back and always a point or an exponent.
-/

namespace BatteryParams.Json

/-- Doubles are written positionally from `0.00001` up to below `10 ^ 16`, and with a signed
exponent outside that range. -/
def layout : Decimal.Layout := ⟨some (-5, 16), true, true, .toEven⟩

def lowerHexDigit (n : Nat) : Char :=
  if n < 10 then Char.ofNat ('0'.toNat + n) else Char.ofNat ('a'.toNat + (n - 10))

/-- A character as it stands in a string. -/
def escapeChar (c : Char) : List Char :=
  if c = '"' then ['\\', '"']
  else if c = '\\' then ['\\', '\\']
  else if c = '\x08' then ['\\', 'b']
  else if c = '\x0c' then ['\\', 'f']
  else if c = '\n' then ['\\', 'n']
  else if c = '\r' then ['\\', 'r']
  else if c = '\t' then ['\\', 't']
  else if c.toNat < 0x20 then
    ['\\', 'u', '0', '0', lowerHexDigit (c.toNat / 16), lowerHexDigit (c.toNat % 16)]
  else [c]

/-- A string with its quotes. -/
def quote (s : String) : String := String.ofList ('"' :: (s.toList.flatMap escapeChar ++ ['"']))

def Number.text : Number → String
  | .natural n => String.ofList (Decimal.digitsOf n.toNat)
  | .negative magnitude => String.ofList ('-' :: Decimal.digitsOf magnitude.toNat)
  | .float x => if x.isFinite then layout.render x else "null"

/-- A text in braces. -/
def braced (text : String) : String := "".push '{' ++ text ++ "".push '}'

mutual

def render : Json → String
  | .null => "null"
  | .bool b => if b then "true" else "false"
  | .number n => n.text
  | .string s => quote s
  | .list items => "[" ++ ",".intercalate (renderItems items) ++ "]"
  | .object members => braced (",".intercalate (renderMembers members))

def renderItems : List Json → List String
  | [] => []
  | item :: items => render item :: renderItems items

def renderMembers : List (String × Json) → List String
  | [] => []
  | (key, member) :: members => (quote key ++ ":" ++ render member) :: renderMembers members

end

end BatteryParams.Json

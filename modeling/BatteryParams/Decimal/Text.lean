import BatteryParams.Decimal.Numeral
import BatteryParams.Text.Blank

/-!
# Doubles given as text

Outside documents a number may come as a text of its own: a sign, then a numeral with a digit before
or after the point, or a word for infinity or for no number in letters of either case.
-/

namespace BatteryParams.Decimal

/-- An unsigned number given as text. -/
def unsignedOfText? (text : List Char) : Option Float :=
  let word := String.ofList (text.map Char.toLower)
  if word = "inf" ∨ word = "infinity" then some (1.0 / 0.0)
  else if word = "nan" then some (0.0 / 0.0)
  else
    let (numeral, rest) := Numeral.take text
    if rest.isEmpty && numeral.isLenient then some numeral.value else none

/-- A number given as text; it may be out of range and is then infinite. -/
def ofText? : List Char → Option Float
  | '-' :: rest => (unsignedOfText? rest).map (-·)
  | '+' :: rest => unsignedOfText? rest
  | text => unsignedOfText? text

end BatteryParams.Decimal

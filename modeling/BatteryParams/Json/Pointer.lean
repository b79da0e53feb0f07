import BatteryParams.Decimal.Numeral
import BatteryParams.Json.Basic

/-!
# JSON pointers

A pointer is empty and names the whole tree, or it is a row of steps, each after a slash. A step
names a member of an object or counts into a list from zero; in it `~1` stands for a slash and `~0`
for a tilde.
-/

namespace BatteryParams.Json

/-- A step with its two escapes undone. -/
def unescapeStep : List Char → List Char
  | '~' :: '1' :: rest => '/' :: unescapeStep rest
  | '~' :: '0' :: rest => '~' :: unescapeStep rest
  | c :: rest => c :: unescapeStep rest
  | [] => []

/-- The number that a step spells: decimal digits without an idle zero in front. -/
def stepIndex? (step : List Char) : Option Nat :=
  if step.isEmpty || !step.all Char.isDigit || (step.length != 1 && step.head? == some '0') then
    none
  else some (Decimal.natOfDigits step)

/-- The tree that a row of steps leads to. -/
def descend? : List (List Char) → Json → Option Json
  | [], j => some j
  | step :: steps, .object members =>
    (Named.find? (String.ofList step) members).bind (descend? steps)
  | step :: steps, .list items => ((stepIndex? step).bind (items[·]?)).bind (descend? steps)
  | _ :: _, _ => none

/-- The tree that a pointer leads to. -/
def pointer? (pointer : String) (j : Json) : Option Json :=
  match pointer.toList with
  | [] => some j
  | '/' :: steps => descend? ((steps.splitOn '/').map unescapeStep) j
  | _ => none

end BatteryParams.Json

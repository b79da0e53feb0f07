/-!
# Spelled numerals

An unsigned decimal numeral is a run of digits, optionally a point with a run of digits, and
optionally an exponent. `Numeral.take` splits the longest such spelling off a text; which spellings
count as numbers is for the reader to say (`isLenient`, `isStrict`). `Numeral.value` is the double
nearest to the spelled number, a half going to the even mantissa.
-/

namespace BatteryParams.Decimal

/-- The exponent of a numeral as it is spelled. -/
structure Exponent where
  mark : Char
  sign : Option Char
  digits : List Char
deriving DecidableEq, Repr

/-- An unsigned numeral as it is spelled; `fraction` is absent when there is no point. -/
structure Numeral where
  whole : List Char
  fraction : Option (List Char)
  exponent : Option Exponent
deriving DecidableEq, Repr

namespace Exponent

/-- The longest exponent at the start of a text: its mark, a sign and all digits that follow. -/
def take : List Char → Option Exponent × List Char
  | [] => (none, [])
  | mark :: rest =>
    if mark = 'e' ∨ mark = 'E' then
      match rest with
      | sign :: digits =>
        if sign = '+' ∨ sign = '-' then
          (some ⟨mark, some sign, digits.takeWhile Char.isDigit⟩, digits.dropWhile Char.isDigit)
        else (some ⟨mark, none, rest.takeWhile Char.isDigit⟩, rest.dropWhile Char.isDigit)
      | [] => (some ⟨mark, none, []⟩, [])
    else (none, mark :: rest)

def text (e : Exponent) : List Char := e.mark :: (e.sign.toList ++ e.digits)

end Exponent

def natOfDigits (digits : List Char) : Nat :=
  digits.foldl (fun n d => 10 * n + (d.toNat - '0'.toNat)) 0

def Exponent.value (e : Exponent) : Int :=
  if e.sign = some '-' then -(natOfDigits e.digits : Int) else natOfDigits e.digits

namespace Numeral

/-- The longest numeral at the start of a text, and what follows it. -/
def take (text : List Char) : Numeral × List Char :=
  let whole := text.takeWhile Char.isDigit
  match text.dropWhile Char.isDigit with
  | '.' :: rest =>
    let (exponent, after) := Exponent.take (rest.dropWhile Char.isDigit)
    (⟨whole, some (rest.takeWhile Char.isDigit), exponent⟩, after)
  | rest =>
    let (exponent, after) := Exponent.take rest
    (⟨whole, none, exponent⟩, after)

def text (n : Numeral) : List Char :=
  n.whole ++ (n.fraction.elim [] ('.' :: ·)) ++ (n.exponent.elim [] Exponent.text)

def fractionDigits (n : Numeral) : List Char := n.fraction.getD []

/-- There is a digit before or after the point, and one in the exponent if there is an exponent. -/
def isLenient (n : Numeral) : Bool :=
  !(n.whole ++ n.fractionDigits).isEmpty && n.exponent.all (!·.digits.isEmpty)

/-- There is a digit before the point and no idle zero in front, one after the point if there is a
point, and one in the exponent if there is an exponent. -/
def isStrict (n : Numeral) : Bool :=
  !n.whole.isEmpty && (n.whole.length = 1 || n.whole.head? != some '0') &&
    n.fraction.all (!·.isEmpty) && n.exponent.all (!·.digits.isEmpty)

/-- There is neither a point nor an exponent. -/
def isWhole (n : Numeral) : Bool := n.fraction.isNone && n.exponent.isNone

/-- The double nearest to the spelled number, infinite if it is out of range. -/
def value (n : Numeral) : Float :=
  let e := (n.exponent.elim 0 Exponent.value) - (n.fractionDigits.length : Int)
  Float.ofScientific (natOfDigits (n.whole ++ n.fractionDigits)) (decide (e < 0)) e.natAbs

end Numeral

end BatteryParams.Decimal

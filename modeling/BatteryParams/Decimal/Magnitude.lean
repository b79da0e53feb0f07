/-!
# Magnitudes of doubles

A finite double is `mantissa * 2 ^ exponent` with a natural mantissa. Everything that is printed
about a double is computed from these two numbers in exact arithmetic:

* `Magnitude.ofFloat`: the two numbers, read off the bit pattern;
* `Magnitude.leading`: the decimal position of the leading digit;
* `roundHalfEven`: the nearest integer to a quotient, a half going to the even neighbour;
* `Magnitude.roundAt`: the value in multiples of a power of ten, rounded to an integer.
-/

namespace BatteryParams.Decimal

/-- The absolute value `mantissa * 2 ^ exponent` of a finite double. `tight` holds at a power of two
whose lower neighbour is half as far away as its upper one. -/
structure Magnitude where
  mantissa : Nat
  exponent : Int
  tight : Bool
deriving DecidableEq, Repr

/-- The bit pattern of a double without its sign bit. -/
def unsignedBits (x : Float) : Nat := x.toBits.toNat % Nat.pow 2 63

/-- The sign bit of a double; set for negative zero too. -/
def isNegative (x : Float) : Bool := decide (Nat.pow 2 63 ≤ x.toBits.toNat)

def Magnitude.ofFloat (x : Float) : Magnitude :=
  let field : Nat := unsignedBits x / Nat.pow 2 52
  let fraction : Nat := unsignedBits x % Nat.pow 2 52
  if field = 0 then ⟨fraction, -1074, false⟩
  else ⟨Nat.pow 2 52 + fraction, (field : Int) - 1075, decide (fraction = 0 ∧ 1 < field)⟩

/-- The integer nearest to `num / den`; a half goes to the even neighbour. -/
def roundHalfEven (num den : Nat) : Nat :=
  let floor := num / den
  let rest := num % den
  if 2 * rest < den then floor
  else if den < 2 * rest then floor + 1
  else floor + floor % 2

/-- Whether the magnitude lies below `10 ^ k`. -/
def Magnitude.isBelow (m : Magnitude) (k : Int) : Bool :=
  decide (m.mantissa * Nat.pow 2 m.exponent.toNat * Nat.pow 10 (-k).toNat <
    Nat.pow 10 k.toNat * Nat.pow 2 (-m.exponent).toNat)

/-- The least `k` with the magnitude below `10 ^ k`, so that its leading digit stands at
`10 ^ (k - 1)`. The binary logarithm puts it within three neighbours. -/
def Magnitude.leading (m : Magnitude) : Int :=
  let estimate := ((m.mantissa.log2 : Int) + m.exponent) * 30103 / 100000
  if m.isBelow estimate then estimate
  else if m.isBelow (estimate + 1) then estimate + 1
  else estimate + 2

/-- The magnitude in multiples of `10 ^ place`, rounded to an integer. -/
def Magnitude.roundAt (m : Magnitude) (place : Int) : Nat :=
  roundHalfEven (m.mantissa * Nat.pow 2 m.exponent.toNat * Nat.pow 10 (-place).toNat)
    (Nat.pow 2 (-m.exponent).toNat * Nat.pow 10 place.toNat)

end BatteryParams.Decimal

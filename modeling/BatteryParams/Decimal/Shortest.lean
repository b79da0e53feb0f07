import BatteryParams.Decimal.Magnitude

/-!
# Shortest decimals

`Magnitude.shortest` gives the decimal with the fewest digits that reads back as the same double,
and of several such decimals the one nearest to it. The reals that round to a double form an
interval that reaches half way to each neighbour, ends included exactly when the mantissa is even.
For one digit, two digits and so on the two grid points next to the value are tested against that
interval; the first grid with a hit wins.
-/

namespace BatteryParams.Decimal

structure ScaledDigits where
  digits : Nat
  exponent : Int
deriving DecidableEq, Repr

/-- Where an exact tie between two equally short decimals goes. -/
inductive Tie where
  | toEven
  | up
deriving DecidableEq, Repr

/-- A magnitude laid on a decimal grid: the grid step is `step` and a quarter of the last binary
place is `quarter`, both on one integer scale. -/
structure Grid where
  quarter : Nat
  step : Nat
deriving DecidableEq, Repr

/-- The grid of multiples of `10 ^ place` under a magnitude. -/
def Magnitude.grid (m : Magnitude) (place : Int) : Grid :=
  ⟨Nat.pow 2 (m.exponent - 2).toNat * Nat.pow 10 (-place).toNat,
    Nat.pow 2 (2 - m.exponent).toNat * Nat.pow 10 place.toNat⟩

/-- The lower end of the reals that round to the magnitude, in quarters of its last binary place. -/
def Magnitude.lowQuarters (m : Magnitude) : Nat := 4 * m.mantissa - (if m.tight then 1 else 2)

/-- The upper end of the reals that round to the magnitude, in quarters of its last binary place. -/
def Magnitude.highQuarters (m : Magnitude) : Nat := 4 * m.mantissa + 2

/-- Whether the grid point `n` rounds to the magnitude. -/
def Magnitude.readsBack (m : Magnitude) (g : Grid) (n : Nat) : Bool :=
  let low := m.lowQuarters * g.quarter
  let high := m.highQuarters * g.quarter
  let point := n * g.step
  if m.mantissa % 2 = 0 then decide (low ≤ point ∧ point ≤ high)
    else decide (low < point ∧ point < high)

/-- Of the grid point below the value and the one above it, the one nearer to the value. -/
def Magnitude.nearer (m : Magnitude) (g : Grid) (tie : Tie) (floor : Nat) : Nat :=
  match compare (8 * m.mantissa * g.quarter) ((2 * floor + 1) * g.step), tie with
  | .lt, _ => floor
  | .gt, _ => floor + 1
  | .eq, .up => floor + 1
  | .eq, .toEven => floor + floor % 2

/-- The best grid point at `10 ^ place` that reads back, if there is one. -/
def Magnitude.hit? (m : Magnitude) (tie : Tie) (place : Int) : Option Nat :=
  let g := m.grid place
  let floor := 4 * m.mantissa * g.quarter / g.step
  match m.readsBack g floor, m.readsBack g (floor + 1) with
  | true, true => some (m.nearer g tie floor)
  | true, false => some floor
  | false, true => some (floor + 1)
  | false, false => none

/-- The search over grids of growing fineness, `rounds` of them from `10 ^ place` on. When no grid
is left the exact value of the magnitude stands. -/
def Magnitude.search (m : Magnitude) (tie : Tie) : (rounds : Nat) → (place : Int) → ScaledDigits
  | 0, _ =>
    if 0 ≤ m.exponent then ⟨m.mantissa * Nat.pow 2 m.exponent.toNat, 0⟩
    else ⟨m.mantissa * Nat.pow 5 (-m.exponent).toNat, m.exponent⟩
  | rounds + 1, place =>
    match m.hit? tie place with
    | some n => ⟨n, place⟩
    | none => m.search tie rounds (place - 1)

/-- Trailing zeros of the digits moved into the exponent, at most `rounds` of them. -/
def ScaledDigits.strip : (rounds : Nat) → ScaledDigits → ScaledDigits
  | 0, d => d
  | rounds + 1, d =>
    if d.digits ≠ 0 ∧ d.digits % 10 = 0 then
      ScaledDigits.strip rounds ⟨d.digits / 10, d.exponent + 1⟩
    else d

/-- The shortest decimal that reads back as the magnitude, the nearest of those. Seventeen digits
always suffice. -/
def Magnitude.shortest (m : Magnitude) (tie : Tie) : ScaledDigits :=
  if m.mantissa = 0 then ⟨0, 0⟩
  else ScaledDigits.strip 17 (m.search tie 17 (m.leading - 1))

end BatteryParams.Decimal

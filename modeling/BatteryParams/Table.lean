import BatteryParams.Decimal.Layout
import BatteryParams.Increasing

/-!
# Interpolation tables

A table gives a parameter by breakpoints: at least two, their arguments strictly increasing. Between
two neighbouring breakpoints it is linear; outside the tabulated range the nearest segment is
extended, so a table has a value everywhere.

The choice of the segment and the formula are stated for any type with an order and arithmetic. They
run on doubles and can be read over the rationals.
-/

namespace BatteryParams

/-- Breakpoints `(x i, y i)`, at least two of them. -/
structure Table (α : Type) where
  x : List α
  y : List α
  length_eq : y.length = x.length
  two_le : 2 ≤ x.length
deriving DecidableEq

/-- Why two lists are no table. -/
inductive TableFault where
  | lengths (x y : Nat)
  | tooFew (points : Nat)
  | notFinite (value : Float)
  | notIncreasing (stall : Stall Float)
deriving DecidableEq, Repr

def TableFault.message : TableFault → String
  | .lengths x y => s!"x & y should be same length (got {x} and {y})"
  | .tooFew points => s!"a table needs at least 2 points, got {points}"
  | .notFinite value => s!"table values must be finite, got {Decimal.prose.render value}"
  | .notIncreasing stall =>
    let i := stall.index
    let next := i + 1
    let before := Decimal.prose.render stall.before
    let after := Decimal.prose.render stall.after
    s!"x must be strictly increasing (x[{next}] = {after} is not greater than x[{i}] = {before})"

namespace Table

/-- The table with these breakpoints, if they are one: as many values as arguments, at least two,
all finite, and the arguments strictly increasing. -/
def ofLists (x y : List Float) : Except TableFault (Table Float) :=
  if hlength : y.length = x.length then
    if htwo : 2 ≤ x.length then
      match (x ++ y).find? (!·.isFinite), stall? x with
      | some value, _ => .error (.notFinite value)
      | none, some stall => .error (.notIncreasing stall)
      | none, none => .ok ⟨x, y, hlength, htwo⟩
    else .error (.tooFew x.length)
  else .error (.lengths x.length y.length)

section

variable {α : Type} [LE α] [DecidableLE α]

/-- The number of leading breakpoints that do not lie above `x0`. -/
def countUpTo (t : Table α) (x0 : α) : Nat := (t.x.takeWhile fun x => decide (x ≤ x0)).length

/-- The segment used at `x0`, counted by its left end. The edge segments reach outward. -/
def segment (t : Table α) (x0 : α) : Nat := min (max (t.countUpTo x0) 1) (t.x.length - 1) - 1

theorem segment_lt (t : Table α) (x0 : α) : t.segment x0 + 1 < t.x.length := by
  have := t.two_le
  simp only [segment]
  omega

variable [Add α] [Sub α] [Mul α] [Div α] [OfNat α 1]

/-- The value at `x0`: the share of the segment that lies before `x0` weighs its right end. At a
breakpoint the share is 0 or 1 and the value is the tabulated one, as long as the width of the
segment is in range. -/
def evaluate (t : Table α) (x0 : α) : α :=
  let i := t.segment x0
  have right : i + 1 < t.x.length := t.segment_lt x0
  have left : i < t.x.length := Nat.lt_of_succ_lt right
  have hy := t.length_eq
  let share := (x0 - t.x[i]) / (t.x[i + 1] - t.x[i])
  t.y[i] * (1 - share) + t.y[i + 1] * share

def evaluateEach (t : Table α) (xs : List α) : List α := xs.map t.evaluate

end

/-- The first and the last argument that is tabulated. -/
def domain {α : Type} (t : Table α) : α × α :=
  have htwo := t.two_le
  (t.x[0], t.x[t.x.length - 1])

end Table

end BatteryParams

import BatteryParams.Decimal.Shortest

/-!
# Written forms of doubles

* `Layout` gathers the decisions of one written form: where positional writing ends, whether a whole
  number keeps `.0`, the sign of a positive exponent and the way of ties. `Layout.render` writes a
  double with the fewest digits that read back.
* `significant` writes a double with a given number of significant digits, `fixed` with a given
  number of places; both round the exact value, a half going to the even neighbour.
-/

namespace BatteryParams.Decimal

/-- The decisions of one written form. -/
structure Layout where
  /-- The decimal positions of the leading digit that are written without an exponent, from the
  first up to but not including the second; every position if absent. -/
  positional : Option (Int × Int)
  /-- A whole number keeps a point and a zero. -/
  pointZero : Bool
  /-- A positive exponent carries a plus sign. -/
  exponentPlus : Bool
  /-- Where equally short and equally near decimals go. -/
  tie : Tie
deriving DecidableEq, Repr

/-- The digits of a number, most significant first. -/
def digitsOf (n : Nat) : List Char := Nat.toDigits 10 n

/-- A number with at least `width` digits. -/
def paddedDigits (width n : Nat) : List Char :=
  List.replicate (width - (digitsOf n).length) '0' ++ digitsOf n

/-- Digits written positionally, the point standing after the first `point` of them. -/
def positionalText (pointZero : Bool) (digits : List Char) (point : Int) : List Char :=
  if point ≤ 0 then '0' :: '.' :: (List.replicate (-point).toNat '0' ++ digits)
  else if (digits.length : Int) ≤ point then
    digits ++ List.replicate (point.toNat - digits.length) '0' ++ (if pointZero then ['.', '0']
      else [])
  else digits.take point.toNat ++ '.' :: digits.drop point.toNat

def exponentText (plus : Bool) (e : Int) : List Char :=
  'e' :: ((if e < 0 then ['-'] else if plus then ['+'] else []) ++ digitsOf e.natAbs)

/-- Digits written with the point after the first of them. -/
def pointedText : List Char → List Char
  | [] => []
  | [d] => [d]
  | d :: rest => d :: '.' :: rest

def Layout.decimalText (l : Layout) (d : ScaledDigits) : List Char :=
  let digits := digitsOf d.digits
  let point := d.exponent + digits.length
  let isPositional := match l.positional with
    | none => true
    | some (first, last) => decide (first ≤ point - 1 ∧ point - 1 < last)
  if isPositional then positionalText l.pointZero digits point
  else pointedText digits ++ exponentText l.exponentPlus (point - 1)

def signed (x : Float) (text : List Char) : String :=
  String.ofList (if isNegative x then '-' :: text else text)

def nonFiniteText (x : Float) : String :=
  if x.isNaN then "NaN" else if isNegative x then "-inf" else "inf"

/-- A double in the fewest digits that read back, laid out as `l` says. -/
def Layout.render (l : Layout) (x : Float) : String :=
  if x.isFinite then signed x (l.decimalText ((Magnitude.ofFloat x).shortest l.tie))
    else nonFiniteText x

/-- Numbers in messages are written positionally, whole ones without a point. -/
def prose : Layout := ⟨none, false, false, .up⟩

/-- Numbers in lists of samples are written positionally from `0.0001` up to below `10 ^ 16`, keep a
point, and take a bare exponent outside that range. -/
def sample : Layout := ⟨some (-4, 16), true, false, .up⟩

/-- A double in `count` significant digits and scientific writing. -/
def significant (count : Nat) (x : Float) : String :=
  if !x.isFinite then nonFiniteText x
  else
    let m := Magnitude.ofFloat x
    if m.mantissa = 0 then
      signed x (pointedText (List.replicate count '0') ++ exponentText false 0)
    else
      let k := m.leading
      let n := m.roundAt (k - count)
      if n < Nat.pow 10 count then signed x (pointedText (digitsOf n) ++ exponentText false (k - 1))
      else signed x (pointedText (digitsOf (n / 10)) ++ exponentText false k)

/-- A double with exactly `places` digits after the point. -/
def fixed (places : Nat) (x : Float) : String :=
  if !x.isFinite then nonFiniteText x
  else
    let digits := paddedDigits (places + 1) ((Magnitude.ofFloat x).roundAt (-(places : Int)))
    let whole := digits.take (digits.length - places)
    let fraction := digits.drop (digits.length - places)
    signed x (if places = 0 then whole else whole ++ '.' :: fraction)

end BatteryParams.Decimal

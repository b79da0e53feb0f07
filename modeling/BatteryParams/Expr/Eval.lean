import BatteryParams.Decimal.Layout
import BatteryParams.Expr.Basic

/-!
# Evaluating formulas

A variable is bound to a number or to a list of samples. An operation on samples is done sample by
sample, a number going with each of them; it passes over its lists once, so a long list costs no
more a sample than a short one. Every result has to be finite: one that is no number is a domain
error and one that is infinite an overflow, so no value that is not finite goes unnoticed.
-/

namespace BatteryParams

/-- The operation at which an evaluation fails. -/
inductive Operation where
  | binary (op : BinaryOp) (left right : Float)
  | call (f : Builtin) (args : List Float)
  /-- A function at an argument for which it is refused. -/
  | refused (f : UnaryFunction) (arg : Float)
deriving DecidableEq, Repr

def Operation.text : Operation → String
  | .binary op left right =>
    s!"{Decimal.prose.render left} {op.symbol} {Decimal.prose.render right}"
  | .call f args => f.name ++ "([" ++ ", ".intercalate (args.map Decimal.sample.render) ++ "])"
  | .refused f arg => s!"{f.name}({Decimal.prose.render arg}) is undefined"

/-- Why a formula has no value. -/
inductive EvalFault where
  | divisionByZero
  | domain (operation : Operation)
  | overflow (operation : Operation)
  | unbound (v : Variable)
  | nonFinite (v : Variable) (value : Float)
  | lengthMismatch (first second : Nat)
  /-- An argument or a sample of this number was asked for and is not there. -/
  | missing (index : Nat)
deriving DecidableEq, Repr

def EvalFault.message : EvalFault → String
  | .divisionByZero => "Division by zero"
  | .domain operation => s!"Domain error: {operation.text}"
  | .overflow operation => s!"Overflow: {operation.text}"
  | .unbound v => s!"Unbound variable: {v.name}"
  | .nonFinite v value => s!"Non-finite value {Decimal.prose.render value} bound to {v.name}"
  | .lengthMismatch first second => s!"Array length mismatch: {first} vs {second}"
  | .missing index => s!"Missing operand {index}"

namespace UnaryFunction

/-- The logarithm of `1 + a`. What the sum loses by rounding is added back to first order, so the
result is accurate for small `a` too. -/
def logOnePlus (a : Float) : Float :=
  let sum := 1.0 + a
  if sum == 1.0 then a else sum.log + (a - (sum - 1.0)) / sum

/-- The inverse hyperbolic tangent, as half the logarithm of `(1 + a) / (1 - a)`. It is accurate
toward `1`; toward `-1` it is as coarse as the quotient `2 a / (1 - a)` is near `-1`. -/
def arctanhOf (a : Float) : Float := 0.5 * logOnePlus (2.0 * a / (1.0 - a))

def value : UnaryFunction → Float → Float
  | .exp => Float.exp
  | .log => Float.log
  | .log10 => Float.log10
  | .sqrt => Float.sqrt
  | .abs => Float.abs
  | .sin => Float.sin
  | .cos => Float.cos
  | .tan => Float.tan
  | .arcsin => Float.asin
  | .arccos => Float.acos
  | .arctan => Float.atan
  | .sinh => Float.sinh
  | .cosh => Float.cosh
  | .tanh => Float.tanh
  | .arcsinh => Float.asinh
  | .arccosh => Float.acosh
  | .arctanh => arctanhOf

def isRefused : UnaryFunction → Float → Bool
  | .log, a | .log10, a => a ≤ 0.0
  | .sqrt, a => a < 0.0
  | .arccosh, a => a < 1.0
  | .arctanh, a => 1.0 ≤ a.abs
  | .arcsin, a | .arccos, a => 1.0 < a.abs
  | _, _ => false

end UnaryFunction

/-- The value of a function of two arguments. One that is no number gives way to the other; of two
equal ones, which may be zeros of either sign, the second stands. -/
def BinaryFunction.value : BinaryFunction → Float → Float → Float
  | .min, a, b => if b.isNaN || a < b then a else b
  | .max, a, b => if b.isNaN || b < a then a else b

/-- The value of a function at a list of arguments, unchecked but for the arguments at which the
function is refused. -/
def Builtin.call : Builtin → List Float → Except EvalFault Float
  | .unary f, a :: _ => if f.isRefused a then .error (.domain (.refused f a)) else .ok (f.value a)
  | .unary _, [] => .error (.missing 0)
  | .binary f, a :: b :: _ => .ok (f.value a b)
  | .binary _, args => .error (.missing args.length)

def BinaryOp.value : BinaryOp → Float → Float → Float
  | .add, a, b => a + b
  | .sub, a, b => a - b
  | .mul, a, b => a * b
  | .div, a, b => a / b
  | .pow, a, b => a.pow b

/-- A finite value; another one is charged to `operation`. -/
def requireFinite (operation : Operation) (value : Float) : Except EvalFault Float :=
  if value.isNaN then .error (.domain operation)
  else if value.isInf then .error (.overflow operation)
  else .ok value

/-- An operator at two numbers. Dividing by zero is refused, and so is raising zero to a negative
power. -/
def BinaryOp.apply (op : BinaryOp) (a b : Float) : Except EvalFault Float :=
  let isDivisionByZero := match op with
    | .div => b == 0.0
    | .pow => a == 0.0 && b < 0.0
    | _ => false
  if isDivisionByZero then .error .divisionByZero else requireFinite (.binary op a b) (op.value a b)

/-- A function at a list of arguments, whose result has to be finite. -/
def Builtin.apply (f : Builtin) (args : List Float) : Except EvalFault Float := do
  requireFinite (.call f args) (← f.call args)

inductive Quantity where
  | scalar (value : Float)
  | array (values : List Float)
deriving DecidableEq, Repr

namespace Quantity

def length? : Quantity → Option Nat
  | .scalar _ => none
  | .array values => some values.length

def scalar? : Quantity → Option Float
  | .scalar value => some value
  | .array _ => none

/-- The samples of a list, or a number `count` times. -/
def toList (count : Nat) : Quantity → List Float
  | .scalar value => List.replicate count value
  | .array values => values

def values : Quantity → List Float
  | .scalar value => [value]
  | .array values => values

def map (f : Float → Float) : Quantity → Quantity
  | .scalar a => .scalar (f a)
  | .array as => .array (as.map f)

/-- An operation on a number, or on the samples of a list one after the other. It fails where the
first of them does. -/
def mapM (f : Float → Except EvalFault Float) : Quantity → Except EvalFault Quantity
  | .scalar a => return .scalar (← f a)
  | .array as => return .array (← as.mapM f)

/-- An operation on two quantities. A number goes with every sample of a list, and two lists go
together sample by sample, which takes lists of one length. -/
def zipWithM (f : Float → Float → Except EvalFault Float) :
    Quantity → Quantity → Except EvalFault Quantity
  | .scalar a, .scalar b => return .scalar (← f a b)
  | .scalar a, .array bs => return .array (← bs.mapM (f a))
  | .array as, .scalar b => return .array (← as.mapM (f · b))
  | .array as, .array bs => do
    if as.length = bs.length then
      return .array (← (as.zip bs).mapM fun pair => f pair.1 pair.2)
    else .error (.lengthMismatch as.length bs.length)

end Quantity

structure Assignment where
  x : Option Quantity
  T : Option Quantity
deriving DecidableEq, Repr

namespace Assignment

def get? (b : Assignment) : Variable → Option Quantity
  | .x => b.x
  | .T => b.T

/-- The values bound, each with its variable. -/
def values (b : Assignment) : List (Variable × Float) :=
  Variable.all.flatMap fun v => ((b.get? v).elim [] Quantity.values).map (v, ·)

/-- Every value bound must be finite, whether its variable is used or not. -/
def check (b : Assignment) : Except EvalFault Unit :=
  match b.values.find? (!·.2.isFinite) with
  | some (v, value) => .error (.nonFinite v value)
  | none => .ok ()

end Assignment

/-- A function at a list of quantities. No function takes none, or more than two. -/
def Builtin.applyTo (f : Builtin) : List Quantity → Except EvalFault Quantity
  | [p] => p.mapM fun a => f.apply [a]
  | [p, q] => Quantity.zipWithM (fun a b => f.apply [a, b]) p q
  | args => .error (.missing args.length)

namespace Expr

mutual

/-- The value of a tree under bindings that hold finite values. -/
def eval (b : Assignment) : Expr → Except EvalFault Quantity
  | .number value => .ok (.scalar value)
  | .var v =>
    match b.get? v with
    | some q => .ok q
    | none => .error (.unbound v)
  | .neg operand => do
    return (← operand.eval b).map (-·)
  | .binary op left right => do
    let l ← left.eval b
    let r ← right.eval b
    Quantity.zipWithM op.apply l r
  | .call f args => do
    f.applyTo (← evalAll b args)

def evalAll (b : Assignment) : List Expr → Except EvalFault (List Quantity)
  | [] => .ok []
  | e :: es => do
    let q ← e.eval b
    let qs ← evalAll b es
    .ok (q :: qs)

end

/-- The value of a tree, once the bindings are known to be finite. -/
def evaluate (e : Expr) (b : Assignment) : Except EvalFault Quantity := do
  b.check
  e.eval b

end Expr

end BatteryParams

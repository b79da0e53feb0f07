/-!
# Expressions

A parameter may be given as a formula in the variables `x` and `T`. An `Expr` is the tree of such a
formula: numbers, variables, negation, five binary operators and calls of built-in functions. Code
is reached by nothing but a call, and a call names a `Builtin`, so the functions listed here are all
that a formula can run.
-/

namespace BatteryParams

/-- The variables of a formula: `x`, whatever the parameter is a function of, and the temperature
`T`. -/
inductive Variable where
  | x
  | T
deriving DecidableEq, Repr

namespace Variable

/-- Every variable, in the order in which they are listed. -/
def all : List Variable := [.x, .T]

def name : Variable → String
  | .x => "x"
  | .T => "T"

def ofName? (name : String) : Option Variable := all.find? (·.name == name)

end Variable

inductive BinaryOp where
  | add
  | sub
  | mul
  | div
  | pow
deriving DecidableEq, Repr

def BinaryOp.symbol : BinaryOp → String
  | .add => "+"
  | .sub => "-"
  | .mul => "*"
  | .div => "/"
  | .pow => "**"

inductive UnaryFunction where
  | exp
  | log
  | log10
  | sqrt
  | abs
  | sin
  | cos
  | tan
  | arcsin
  | arccos
  | arctan
  | sinh
  | cosh
  | tanh
  | arcsinh
  | arccosh
  | arctanh
deriving DecidableEq, Repr

def UnaryFunction.name : UnaryFunction → String
  | .exp => "exp"
  | .log => "log"
  | .log10 => "log10"
  | .sqrt => "sqrt"
  | .abs => "abs"
  | .sin => "sin"
  | .cos => "cos"
  | .tan => "tan"
  | .arcsin => "arcsin"
  | .arccos => "arccos"
  | .arctan => "arctan"
  | .sinh => "sinh"
  | .cosh => "cosh"
  | .tanh => "tanh"
  | .arcsinh => "arcsinh"
  | .arccosh => "arccosh"
  | .arctanh => "arctanh"

inductive BinaryFunction where
  | min
  | max
deriving DecidableEq, Repr

def BinaryFunction.name : BinaryFunction → String
  | .min => "min"
  | .max => "max"

inductive Builtin where
  | unary (f : UnaryFunction)
  | binary (f : BinaryFunction)
deriving DecidableEq, Repr

namespace Builtin

/-- The name by which a formula calls a function. -/
def name : Builtin → String
  | .unary f => f.name
  | .binary f => f.name

def arity : Builtin → Nat
  | .unary _ => 1
  | .binary _ => 2

def all : List Builtin :=
  [.unary .exp, .unary .log, .unary .log10, .unary .sqrt, .unary .abs, .unary .sin, .unary .cos,
    .unary .tan, .unary .arcsin, .unary .arccos, .unary .arctan, .unary .sinh, .unary .cosh,
    .unary .tanh, .unary .arcsinh, .unary .arccosh, .unary .arctanh, .binary .min, .binary .max]

end Builtin

inductive Expr where
  | number (value : Float)
  | var (v : Variable)
  | neg (operand : Expr)
  | binary (op : BinaryOp) (left right : Expr)
  | call (f : Builtin) (args : List Expr)
deriving Repr

namespace Expr

mutual

/-- Whether a variable stands anywhere in a tree. -/
def mentions (v : Variable) : Expr → Bool
  | .number _ => false
  | .var w => w == v
  | .neg operand => operand.mentions v
  | .binary _ left right => left.mentions v || right.mentions v
  | .call _ args => mentionsAny v args

def mentionsAny (v : Variable) : List Expr → Bool
  | [] => false
  | e :: es => e.mentions v || mentionsAny v es

end

/-- The variables that stand in a tree, in their order. -/
def vars (e : Expr) : List Variable := Variable.all.filter e.mentions

mutual

/-- The number of nodes on the longest path down a tree. -/
def height : Expr → Nat
  | .number _ => 1
  | .var _ => 1
  | .neg operand => operand.height + 1
  | .binary _ left right => max left.height right.height + 1
  | .call _ args => heightOfAll args + 1

def heightOfAll : List Expr → Nat
  | [] => 0
  | e :: es => max e.height (heightOfAll es)

end

end Expr

end BatteryParams

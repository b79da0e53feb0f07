import BatteryParams.Expr.Registry
import BatteryParams.Expr.Token

/-!
# Reading formulas

The grammar, from the loosest binding to the tightest:

* a sum is a product and any number of further ones behind `+` or `-`;
* a product is a signed operand and any number of further ones behind `*` or `/`;
* a signed operand is one behind `-` or `+`, or a power;
* a power is a primary, possibly with `**` and a signed operand as its exponent;
* a primary is a number, `x`, `T`, a call of a registered function with as many arguments as it
  takes, or a sum in parentheses.

Every group, call, sign and exponent counts as a level of nesting while it is being read, and so
does every operator already passed in a sum or product that is being read. At most `maxNesting`
levels may be open.

A `Cursor` holds the tokens still to read and the number of open levels. The only recursion is that
of `signed`, whose allowance falls by one each time a level is opened; chains of operators are loops
that open a level a round, and lists of arguments are loops over the tokens that are left.
-/

namespace BatteryParams

/-- The levels of nesting that a formula may have. -/
def maxNesting : Nat := 256

/-- Where a reader stands: the tokens still to read, what lies behind them, and the levels open. -/
structure Cursor where
  rest : List Lexeme
  stop : Except FormulaError Nat
  depth : Nat

namespace Cursor

def token (c : Cursor) : Token :=
  match c.rest with
  | l :: _ => l.token
  | [] => .endOfInput

def position (c : Cursor) : Nat :=
  match c.rest, c.stop with
  | l :: _, _ => l.position
  | [], .ok length => length
  | [], .error e => e.position

/-- Fail at the token to read next. -/
def fail {α : Type} (c : Cursor) (cause : FormulaFault) : Except FormulaError α :=
  .error ⟨cause, c.position⟩

/-- A cursor with a token to read; behind the last token a text that could not be cut fails. -/
def settle (c : Cursor) : Except FormulaError Cursor :=
  match c.rest, c.stop with
  | [], .error e => .error e
  | _, _ => .ok c

def ofScan (s : Scan) : Except FormulaError Cursor := settle ⟨s.lexemes, s.stop, 0⟩

def advance (c : Cursor) : Except FormulaError Cursor := settle { c with rest := c.rest.tail }

def enter (c : Cursor) : Except FormulaError Cursor :=
  if c.depth < maxNesting then .ok { c with depth := c.depth + 1 } else c.fail (.tooDeep maxNesting)

def leave (c : Cursor) : Cursor := { c with depth := c.depth - 1 }

/-- Pass over the closing parenthesis of a bracket. -/
def close (c : Cursor) (bracket : Bracket) : Except FormulaError Cursor :=
  if c.token = .rightParen then c.advance else c.fail (.unclosed bracket c.token)

end Cursor

namespace Parser

/-- A reader takes what it reads off a cursor. -/
abbrev Reader (α : Type) := Cursor → Except FormulaError (α × Cursor)

def sumOp? : Token → Option BinaryOp
  | .plus => some .add
  | .minus => some .sub
  | _ => none

def productOp? : Token → Option BinaryOp
  | .star => some .mul
  | .slash => some .div
  | _ => none

/-- The rest of a chain whose left part has been read: operators, each with an operand behind it.
Every operator opens a level, so there are never more than `maxNesting` rounds. -/
def chain (op? : Token → Option BinaryOp) (operand : Reader Expr) :
    (bound : Nat) → Expr → Reader Expr
  | bound, left, c =>
    match op? c.token, bound with
    | none, _ => .ok (left, c)
    | some _, 0 => c.fail .exhausted
    | some op, bound + 1 => do
      let c ← c.enter
      let c ← c.advance
      let (right, c) ← operand c
      chain op? operand bound (.binary op left right) c

/-- A whole chain, which closes the levels of its operators at its end. -/
def chained (op? : Token → Option BinaryOp) (operand : Reader Expr) : Reader Expr := fun c => do
  let depth := c.depth
  let (left, c) ← operand c
  let (e, c) ← chain op? operand (maxNesting + 1) left c
  .ok (e, { c with depth := depth })

def product (operand : Reader Expr) : Reader Expr := chained productOp? operand

def sum (operand : Reader Expr) : Reader Expr := chained sumOp? (product operand)

/-- The arguments behind the first one, each behind a comma. A round passes over a token, so there
are no more rounds than tokens `ahead`. -/
def moreArguments (argument : Reader Expr) : (ahead : List Lexeme) → Reader (List Expr)
  | ahead, c =>
    if c.token = .comma then
      match ahead with
      | [] => c.fail .exhausted
      | _ :: ahead => do
        let c ← c.advance
        let (arg, c) ← argument c
        let (args, c) ← moreArguments argument ahead c
        .ok (arg :: args, c)
    else .ok ([], c)

/-- The arguments of a call of `name`, whose name stands at byte `position`; the opening parenthesis
is the token to read next. -/
def call (registry : Registry) (argument : Reader Expr) (name : String) (position : Nat) :
    Reader Expr :=
  fun c =>
    match registry.find? name with
    | none => .error ⟨.unknownFunction name, position⟩
    | some f => do
      let c ← c.enter
      let c ← c.advance
      let (first, c) ← argument c
      let (more, c) ← moreArguments argument c.rest c
      let c ← c.close .arguments
      let args := first :: more
      if args.length = f.arity then .ok (.call f args, c.leave)
      else .error ⟨.wrongArity name f.arity args.length, position⟩

/-- A number, a variable, a call or a group; `inner` reads what stands in parentheses. -/
def primary (registry : Registry) (inner : Reader Expr) : Reader Expr := fun c =>
  match c.token with
  | .number x => do
    let c ← c.advance
    .ok (.number x, c)
  | .identifier name => do
    let position := c.position
    let c ← c.advance
    if c.token = .leftParen then call registry inner name position c
    else
      match Variable.ofName? name with
      | some v => .ok (.var v, c)
      | none => .error ⟨.unknownIdentifier name, position⟩
  | .leftParen => do
    let c ← c.enter
    let c ← c.advance
    let (e, c) ← inner c
    let c ← c.close .group
    .ok (e, c.leave)
  | token => c.fail (.unexpected token)

/-- A primary, possibly raised to a signed operand. -/
def power (registry : Registry) (operand : Reader Expr) : Reader Expr := fun c => do
  let (base, c) ← primary registry (sum operand) c
  if c.token = .doubleStar then
    let c ← c.enter
    let c ← c.advance
    let (e, c) ← operand c
    .ok (.binary .pow base e, c.leave)
  else .ok (base, c)

/-- A signed operand; `allowance` bounds the levels that it may open on top of each other. -/
def signed (registry : Registry) : (allowance : Nat) → Reader Expr
  | 0, c => c.fail .exhausted
  | allowance + 1, c =>
    match c.token with
    | .minus => do
      let c ← c.enter
      let c ← c.advance
      let (e, c) ← signed registry allowance c
      .ok (.neg e, c.leave)
    | .plus => do
      let c ← c.enter
      let c ← c.advance
      let (e, c) ← signed registry allowance c
      .ok (e, c.leave)
    | _ => power registry (signed registry allowance) c

/-- A whole formula, behind which no token is left. -/
def formula (registry : Registry) (allowance : Nat) (c : Cursor) : Except FormulaError Expr := do
  let (e, c) ← sum (signed registry allowance) c
  if c.token = .endOfInput then .ok e else c.fail (.trailing c.token)

end Parser

namespace Expr

/-- The formula that a text spells, calling functions of `registry` only. -/
def parseWith (registry : Registry) (text : String) : Except FormulaError Expr :=
  if (Text.trim text.toList).isEmpty then .error ⟨.blank, 0⟩
  else do
    let c ← Cursor.ofScan (scan text)
    Parser.formula registry (maxNesting + 1) c

def parse (text : String) : Except FormulaError Expr := parseWith .standard text

end Expr

end BatteryParams

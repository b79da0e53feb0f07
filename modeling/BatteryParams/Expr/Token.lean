import BatteryParams.Decimal.Layout
import BatteryParams.Decimal.Numeral
import BatteryParams.Expr.Basic
import BatteryParams.Text.Blank

/-!
# Tokens of a formula

A text is cut into tokens by longest match, blanks being skipped. `scan` gives the tokens with the
byte positions at which they start, up to the end of the text or to the first place that starts no
token.

A numeral has at most one point, and an `e` right behind it always belongs to it as the mark of an
exponent.
-/

namespace BatteryParams

inductive Token where
  | number (value : Float)
  | identifier (name : String)
  | plus
  | minus
  | star
  | doubleStar
  | slash
  | leftParen
  | rightParen
  | comma
  | endOfInput
deriving DecidableEq, Repr

def Token.text : Token → String
  | .number x => s!"number {Decimal.prose.render x}"
  | .identifier name => s!"'{name}'"
  | .plus => "'+'"
  | .minus => "'-'"
  | .star => "'*'"
  | .doubleStar => "'**'"
  | .slash => "'/'"
  | .leftParen => "'('"
  | .rightParen => "')'"
  | .comma => "','"
  | .endOfInput => "end of input"

/-- The brackets that a formula may leave open. -/
inductive Bracket where
  | group
  | arguments
deriving DecidableEq, Repr

/-- Why a text is no formula. -/
inductive FormulaFault where
  | blank
  /-- No token starts with this character. -/
  | strayCharacter (c : Char)
  /-- A numeral whose value is no finite double. -/
  | numberOutOfRange (text : String)
  /-- A numeral without a digit in front of its exponent, or without one in it. -/
  | invalidNumber (text : String)
  /-- A token that cannot start an operand. -/
  | unexpected (found : Token)
  | trailing (found : Token)
  /-- A bracket that is not closed where it must be. -/
  | unclosed (bracket : Bracket) (found : Token)
  /-- A name that is no variable. -/
  | unknownIdentifier (name : String)
  /-- A called name that the registry does not hold. -/
  | unknownFunction (name : String)
  | wrongArity (name : String) (takes given : Nat)
  /-- More levels of nesting than the limit allows. -/
  | tooDeep (limit : Nat)
  /-- The reader's own allowance of recursion is spent. -/
  | exhausted
deriving DecidableEq, Repr

def FormulaFault.text : FormulaFault → String
  | .blank => "Empty expression"
  | .strayCharacter c => s!"Unexpected character: '{c}'"
  | .numberOutOfRange text => s!"Number out of range: '{text}'"
  | .invalidNumber text => s!"Invalid number: '{text}'"
  | .unexpected found => s!"Unexpected {found.text}"
  | .trailing found => s!"Unexpected {found.text} after expression"
  | .unclosed .group found => s!"Expected ')' to close '(', found {found.text}"
  | .unclosed .arguments found => s!"Expected ')' after function arguments, found {found.text}"
  | .unknownIdentifier name => s!"Unknown identifier: '{name}' (only 'x' and 'T' are variables)"
  | .unknownFunction name => s!"Unknown function: '{name}'"
  | .wrongArity name takes given => s!"Function '{name}' takes {takes} argument(s), got {given}"
  | .tooDeep limit => s!"expression nested too deeply (limit {limit})"
  | .exhausted => "expression needs more recursion than is allowed"

/-- A text that is no formula: why, and at which byte. -/
structure FormulaError where
  cause : FormulaFault
  position : Nat
deriving DecidableEq, Repr

def FormulaError.message (e : FormulaError) : String :=
  s!"Syntax error at position {e.position}: {e.cause.text}"

structure Lexeme where
  token : Token
  position : Nat
deriving DecidableEq, Repr

/-- A text cut into tokens: the tokens found, and the length of the text in bytes or why no further
token could be cut off. -/
structure Scan where
  lexemes : List Lexeme
  stop : Except FormulaError Nat

def isNameStart (c : Char) : Bool := c.isAlpha || c == '_'

def isNamePart (c : Char) : Bool := isNameStart c || c.isDigit

/-- The token of a numeral, which must spell a finite double. -/
def numberToken (n : Decimal.Numeral) : Except FormulaFault Token :=
  if !n.isLenient then .error (.invalidNumber (String.ofList n.text))
  else if !n.value.isFinite then .error (.numberOutOfRange (String.ofList n.text))
  else .ok (.number n.value)

/-- The token that starts with `c`, given the text behind it, and how much of that text belongs to
it. -/
def lexeme (c : Char) (tail : List Char) : Except FormulaFault (Token × Nat) :=
  match c with
  | '+' => .ok (.plus, 0)
  | '-' => .ok (.minus, 0)
  | '/' => .ok (.slash, 0)
  | '(' => .ok (.leftParen, 0)
  | ')' => .ok (.rightParen, 0)
  | ',' => .ok (.comma, 0)
  | '*' => if tail.head? == some '*' then .ok (.doubleStar, 1) else .ok (.star, 0)
  | _ =>
    if c.isDigit || c == '.' then
      let numeral := (Decimal.Numeral.take (c :: tail)).1
      (numberToken numeral).map fun token => (token, numeral.text.length - 1)
    else if isNameStart c then
      let part := tail.takeWhile isNamePart
      .ok (.identifier (String.ofList (c :: part)), part.length)
    else .error (.strayCharacter c)

/-- The tokens of a text whose first character stands at byte `position`. -/
def scanFrom (text : List Char) (position : Nat) : Scan :=
  match _h : text.dropWhile Text.isBlank with
  | [] => ⟨[], .ok (position + Text.byteWidth text)⟩
  | c :: tail =>
    let start := position + Text.byteWidth (text.takeWhile Text.isBlank)
    match lexeme c tail with
    | .error cause => ⟨[], .error ⟨cause, start⟩⟩
    | .ok (token, more) =>
      let rest := scanFrom (tail.drop more) (start + Text.byteWidth (c :: tail.take more))
      ⟨⟨token, start⟩ :: rest.lexemes, rest.stop⟩
termination_by text.length
decreasing_by
  have hlen : (c :: tail).length ≤ text.length :=
    _h ▸ (List.dropWhile_sublist Text.isBlank).length_le
  simp only [List.length_cons, List.length_drop] at hlen ⊢
  omega

def scan (text : String) : Scan := scanFrom text.toList 0

end BatteryParams

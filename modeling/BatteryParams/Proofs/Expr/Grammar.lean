import BatteryParams.Expr.Parser
import BatteryParams.Proofs.Expr.Scan

/-!
# The grammar of formulas

`Derives R n p ts` says, without a parser, that the tokens `ts` are a phrase `p` of the grammar
where `n` levels of nesting are open. Every rule that opens a level asks for one that is free: a
group, a call, a sign and an exponent open one for what is inside, and the operators already passed
in a chain count as open for its later operands.

`IsFormula R text e` puts this on top of the rules of spelling: the text splits completely into
tokens, and these are a sum with the tree `e`.
-/

namespace BatteryParams

/-- The operators of a sum. -/
def sumOperators : List (Token × BinaryOp) := [(.plus, .add), (.minus, .sub)]

/-- The operators of a product. -/
def productOperators : List (Token × BinaryOp) := [(.star, .mul), (.slash, .div)]

/-- The phrases of the grammar with their trees. A chain also tells how many operators were passed
in it. -/
inductive Phrase where
  | sum (passed : Nat) (e : Expr)
  | product (passed : Nat) (e : Expr)
  | signed (e : Expr)
  | power (e : Expr)
  | primary (e : Expr)
  | arguments (es : List Expr)

/-- Where `n` levels are open, the tokens are a phrase of the grammar. -/
inductive Derives (R : Registry) : (n : Nat) → Phrase → List Token → Prop
  | number {n : Nat} (value : Float) : Derives R n (.primary (.number value)) [.number value]
  | var {n : Nat} (v : Variable) : Derives R n (.primary (.var v)) [.identifier v.name]
  | call {n : Nat} {name : String} {f : Builtin} {es : List Expr} {ts : List Token}
      (hfind : R.find? name = some f) (harity : es.length = f.arity) (hn : n < maxNesting)
      (h : Derives R (n + 1) (.arguments es) ts) :
      Derives R n (.primary (.call f es)) (.identifier name :: .leftParen :: ts ++ [.rightParen])
  | group {n k : Nat} {e : Expr} {ts : List Token} (hn : n < maxNesting)
      (h : Derives R (n + 1) (.sum k e) ts) :
      Derives R n (.primary e) (.leftParen :: ts ++ [.rightParen])
  | base {n : Nat} {e : Expr} {ts : List Token} (h : Derives R n (.primary e) ts) :
      Derives R n (.power e) ts
  | raised {n : Nat} {b e : Expr} {ts ts' : List Token} (hn : n < maxNesting)
      (hb : Derives R n (.primary b) ts)
      (he : Derives R (n + 1) (.signed e) ts') :
        Derives R n (.power (.binary .pow b e)) (ts ++ .doubleStar :: ts')
  | unsigned {n : Nat} {e : Expr} {ts : List Token} (h : Derives R n (.power e) ts) :
      Derives R n (.signed e) ts
  | negated {n : Nat} {e : Expr} {ts : List Token} (hn : n < maxNesting)
      (h : Derives R (n + 1) (.signed e) ts) : Derives R n (.signed (.neg e)) (.minus :: ts)
  | plus {n : Nat} {e : Expr} {ts : List Token} (hn : n < maxNesting)
      (h : Derives R (n + 1) (.signed e) ts) : Derives R n (.signed e) (.plus :: ts)
  | factor {n : Nat} {e : Expr} {ts : List Token} (h : Derives R n (.signed e) ts) :
      Derives R n (.product 0 e) ts
  | timesFactor {n k : Nat} {t : Token} {op : BinaryOp} {l r : Expr} {ts ts' : List Token}
      (hop : (t, op) ∈ productOperators) (hn : n + k < maxNesting)
        (hl : Derives R n (.product k l) ts)
      (hr : Derives R (n + k + 1) (.signed r) ts') :
      Derives R n (.product (k + 1) (.binary op l r)) (ts ++ t :: ts')
  | term {n k : Nat} {e : Expr} {ts : List Token} (h : Derives R n (.product k e) ts) :
      Derives R n (.sum 0 e) ts
  | plusTerm {n k j : Nat} {t : Token} {op : BinaryOp} {l r : Expr} {ts ts' : List Token}
      (hop : (t, op) ∈ sumOperators) (hn : n + k < maxNesting) (hl : Derives R n (.sum k l) ts)
      (hr : Derives R (n + k + 1) (.product j r) ts') :
      Derives R n (.sum (k + 1) (.binary op l r)) (ts ++ t :: ts')
  | lastArgument {n k : Nat} {e : Expr} {ts : List Token} (h : Derives R n (.sum k e) ts) :
      Derives R n (.arguments [e]) ts
  | argument {n k : Nat} {e : Expr} {es : List Expr} {ts ts' : List Token}
      (h : Derives R n (.sum k e) ts)
      (hs : Derives R n (.arguments es) ts') :
        Derives R n (.arguments (e :: es)) (ts ++ .comma :: ts')

/-- A text splits completely into tokens, and these are a sum with the tree `e`. -/
def IsFormula (R : Registry) (text : String) (e : Expr) : Prop :=
  ∃ ts k, Tokenizes text.toList ts ∧ Derives R 0 (.sum k e) ts

/-! ### Small facts -/

theorem productOp?_eq_some {t : Token} {op : BinaryOp} :
    Parser.productOp? t = some op ↔ (t, op) ∈ productOperators := by
  cases t <;> simp [Parser.productOp?, productOperators, @eq_comm _ op]

theorem sumOp?_eq_some {t : Token} {op : BinaryOp} :
    Parser.sumOp? t = some op ↔ (t, op) ∈ sumOperators := by
  cases t <;> simp [Parser.sumOp?, sumOperators, @eq_comm _ op]

theorem Variable.ofName?_eq_some {name : String} {v : Variable} :
    Variable.ofName? name = some v ↔ name = v.name := by
  constructor
  · intro h
    have hname : v.name = name := by simpa using List.find?_some h
    exact hname.symm
  · rintro rfl
    cases v <;> decide

/-- Every phrase has a token. -/
theorem Derives.ne_nil {R : Registry} {n : Nat} {p : Phrase} {ts : List Token}
    (h : Derives R n p ts) : ts ≠ [] := by
  induction h <;> simp_all

end BatteryParams

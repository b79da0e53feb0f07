import BatteryParams.Expr.Eval
import BatteryParams.Proofs.Expr.Exactness

/-!
# Trees that were read

`Expr.WellFormed` says what the tree of an accepted text looks like: its numbers are finite, and a
call has the operands that its function takes. Induction over it has one case for every kind of
node, without lists of operands.
-/

namespace BatteryParams

/-- The numbers of a tree are finite and its calls have the operands that their functions take. -/
inductive Expr.WellFormed : Expr → Prop
  | number {value : Float} (h : value.isFinite = true) : WellFormed (.number value)
  | var (v : Variable) : WellFormed (.var v)
  | neg {operand : Expr} (h : WellFormed operand) : WellFormed (.neg operand)
  | binary (op : BinaryOp) {left right : Expr} (hleft : WellFormed left)
      (hright : WellFormed right) : WellFormed (.binary op left right)
  | unaryCall (f : UnaryFunction) {a : Expr} (h : WellFormed a) : WellFormed (.call (.unary f) [a])
  | binaryCall (f : BinaryFunction) {a b : Expr} (ha : WellFormed a) (hb : WellFormed b) :
      WellFormed (.call (.binary f) [a, b])

theorem Expr.wellFormed_call {f : Builtin} {args : List Expr} (harity : args.length = f.arity)
    (h : ∀ a ∈ args, a.WellFormed) : (Expr.call f args).WellFormed := by
  cases f with
  | unary f =>
    obtain ⟨a, rfl⟩ := List.length_eq_one_iff.mp harity
    exact .unaryCall f (h a (by simp))
  | binary f =>
    match args, harity, h with
    | [a, b], _, h => exact .binaryCall f (h a (by simp)) (h b (by simp))

/-! ### Evaluating a node -/

theorem Quantity.mapM_ok (f : Float → Float) (q : Quantity) :
    q.mapM (fun a => .ok (f a)) = .ok (q.map f) := by
  cases q with
  | scalar a => rfl
  | array as =>
    have hlist : as.mapM (fun a => Except.ok (ε := EvalFault) (f a)) = .ok (as.map f) :=
      List.mapM_pure
    rw [mapM, hlist]
    rfl

/-- A sign is an operation on each number, like a call. -/
theorem Expr.eval_neg (b : Assignment) (operand : Expr) :
    (neg operand).eval b = (do Quantity.mapM (fun a => .ok (-a)) (← operand.eval b)) := by
  rw [eval]
  cases operand.eval b with
  | error e => rfl
  | ok q => exact (Quantity.mapM_ok (-·) q).symm

theorem Expr.eval_unaryCall (b : Assignment) (f : UnaryFunction) (a : Expr) :
    (call (.unary f) [a]).eval b =
      (do Quantity.mapM (fun v => (Builtin.unary f).apply [v]) (← a.eval b)) := by
  rw [eval, evalAll, evalAll]
  cases a.eval b with
  | error e => rfl
  | ok q => rfl

theorem Expr.eval_binaryCall (b : Assignment) (f : BinaryFunction) (a₁ a₂ : Expr) :
    (call (.binary f) [a₁, a₂]).eval b =
      (do Quantity.zipWithM (fun v w =>
        (Builtin.binary f).apply [v, w]) (← a₁.eval b) (← a₂.eval b)) := by
  rw [eval, evalAll, evalAll, evalAll]
  cases a₁.eval b with
  | error e => rfl
  | ok q =>
    cases a₂.eval b with
    | error e => rfl
    | ok r => rfl

/-! ### From texts to trees -/

/-- The trees of a phrase are well formed. -/
def Phrase.WellFormed : Phrase → Prop
  | .sum _ e | .product _ e | .signed e | .power e | .primary e => e.WellFormed
  | .arguments es => ∀ e ∈ es, e.WellFormed

theorem isFinite_of_cuts {w s : List Char} {t : Token} (h : Cuts w s t) {value : Float}
    (ht : t = .number value) : value.isFinite = true := by
  cases h with
  | symbol hmem _ =>
    subst ht
    simp [symbols] at hmem
  | name _ _ => cases ht
  | numeral _ _ _ hfinite =>
    cases ht
    exact hfinite

theorem isFinite_of_tokenizes {s : List Char} {ts : List Token} (h : Tokenizes s ts) {value : Float}
    (hmem : .number value ∈ ts) : value.isFinite = true := by
  induction h with
  | nil => cases hmem
  | blank _ _ ih => exact ih hmem
  | token hcuts _ ih =>
    rcases List.mem_cons.mp hmem with ht | hmem
    · exact isFinite_of_cuts hcuts ht.symm
    · exact ih hmem

theorem wellFormed_of_derives {R : Registry} {n : Nat} {p : Phrase} {ts : List Token}
    (h : Derives R n p ts)
    (hfinite : ∀ value, Token.number value ∈ ts → value.isFinite = true) : p.WellFormed := by
  induction h with
  | number value => exact .number (hfinite value (by simp))
  | var v => exact .var v
  | call hfind harity hn h ih =>
    exact Expr.wellFormed_call harity (ih fun v hv => hfinite v (by simp [hv]))
  | group hn h ih => exact ih fun v hv => hfinite v (by simp [hv])
  | base h ih => exact ih hfinite
  | raised hn hb he ihb ihe =>
    exact .binary .pow (ihb fun v hv => hfinite v (by simp [hv])) (ihe fun v hv =>
      hfinite v (by simp [hv]))
  | unsigned h ih => exact ih hfinite
  | negated hn h ih => exact .neg (ih fun v hv => hfinite v (by simp [hv]))
  | plus hn h ih => exact ih fun v hv => hfinite v (by simp [hv])
  | factor h ih => exact ih hfinite
  | timesFactor hop hn hl hr ihl ihr =>
    exact .binary _ (ihl fun v hv => hfinite v (by simp [hv])) (ihr fun v hv =>
      hfinite v (by simp [hv]))
  | term h ih => exact ih hfinite
  | plusTerm hop hn hl hr ihl ihr =>
    exact .binary _ (ihl fun v hv => hfinite v (by simp [hv])) (ihr fun v hv =>
      hfinite v (by simp [hv]))
  | lastArgument h ih => exact List.forall_mem_singleton.mpr (ih hfinite)
  | argument h hs ih ihs =>
    exact List.forall_mem_cons.mpr
      ⟨ih fun v hv => hfinite v (by simp [hv]), ihs fun v hv => hfinite v (by simp [hv])⟩

/-- Whatever functions may be called, the tree of an accepted text is well formed. -/
theorem Expr.wellFormed_of_parseWith {R : Registry} {text : String} {e : Expr}
    (h : Expr.parseWith R text = .ok e) : e.WellFormed := by
  obtain ⟨ts, k, htokens, hderives⟩ := isFormula_of_parseWith h
  exact wellFormed_of_derives hderives fun _ hmem => isFinite_of_tokenizes htokens hmem

end BatteryParams

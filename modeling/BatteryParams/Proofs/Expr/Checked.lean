import BatteryParams.Proofs.Except
import BatteryParams.Proofs.Expr.WellFormed
import BatteryParams.Proofs.Float.Finite

/-!
# Checked and plain evaluation

`Expr.plain` evaluates a tree by the operators and functions alone, with no check anywhere. The
evaluator that formulas run on checks its bindings, refuses some arguments, and requires each result
to be finite. Under what the mathematical library promises for the arguments refused,
`Expr.evaluate_eq_ok_iff` says that the checks change nothing else: the evaluator gives a value
exactly if plain evaluation is finite at every node, and then it is the plain value.
-/

namespace BatteryParams

/-! ### Plain evaluation -/

/-- The value of a function, at whatever arguments. -/
def Builtin.plain : Builtin → List Float → Option Float
  | .unary f, [a] => some (f.value a)
  | .binary f, [a, b] => some (f.value a b)
  | _, _ => none

namespace Expr

mutual

/-- The value of a tree by the operators and functions alone, if its variables are bound. -/
def plain (numbers : Variable → Option Float) : Expr → Option Float
  | .number value => some value
  | .var v => numbers v
  | .neg operand => do return -(← operand.plain numbers)
  | .binary op left right => do return op.value (← left.plain numbers) (← right.plain numbers)
  | .call f args => do f.plain (← plainAll numbers args)

def plainAll (numbers : Variable → Option Float) : List Expr → Option (List Float)
  | [] => some []
  | e :: es => do return (← e.plain numbers) :: (← plainAll numbers es)

end

mutual

/-- The trees that stand in a tree, itself included. -/
def nodes : Expr → List Expr
  | .number value => [.number value]
  | .var v => [.var v]
  | .neg operand => .neg operand :: operand.nodes
  | .binary op left right => .binary op left right :: (left.nodes ++ right.nodes)
  | .call f args => .call f args :: nodesOfAll args

def nodesOfAll : List Expr → List Expr
  | [] => []
  | e :: es => e.nodes ++ nodesOfAll es

end

/-- Plain evaluation gives a finite number at every node. -/
def FiniteThroughout (numbers : Variable → Option Float) (e : Expr) : Prop :=
  ∀ node ∈ e.nodes, ∃ y, node.plain numbers = some y ∧ y.isFinite = true

/-- What the mathematical library promises for the functions that a tree calls: where an argument is
refused, the function is not finite, and zero raised to a negative power is infinite. -/
structure LibraryLaws (e : Expr) : Prop where
  refused : ∀ f args, .call (.unary f) args ∈ e.nodes →
    ∀ a : Float, a.isFinite = true → f.isRefused a = true → (f.value a).isFinite = false
  power : ∀ base exponent, .binary .pow base exponent ∈ e.nodes →
    ∀ a b : Float, (a == 0.0) = true → b < 0.0 → (a.pow b).isInf = true

end Expr

/-- Variables bound to numbers. -/
def Assignment.ofNumbers (numbers : Variable → Option Float) : Assignment :=
  ⟨(numbers .x).map .scalar, (numbers .T).map .scalar⟩

variable {numbers : Variable → Option Float} {e : Expr} {a b z : Float} {q : Quantity}

theorem Assignment.get?_ofNumbers (numbers : Variable → Option Float) (v : Variable) :
    (ofNumbers numbers).get? v = (numbers v).map .scalar := by
  cases v with
  | x => rfl
  | T => rfl

theorem Assignment.check_ofNumbers (h : ∀ v y, numbers v = some y → y.isFinite = true) :
    (ofNumbers numbers).check = .ok () := by
  have hvalues : ∀ p ∈ (ofNumbers numbers).values, p.2.isFinite = true := by
    rintro ⟨v, y⟩ hmem
    simp only [values, List.mem_flatMap, get?_ofNumbers] at hmem
    obtain ⟨w, -, hmem⟩ := hmem
    cases hw : numbers w with
    | none => simp [hw] at hmem
    | some y' =>
      simp only [hw, Option.map_some, Option.elim_some, Quantity.values, List.map_cons,
        List.map_nil, List.mem_singleton, Prod.mk.injEq] at hmem
      obtain ⟨-, rfl⟩ := hmem
      exact h w y hw
  have hfind : (ofNumbers numbers).values.find? (!·.2.isFinite) = none := by
    simpa using hvalues
  rw [check, hfind]

/-! ### The nodes of a tree -/

namespace Expr

theorem nodes_neg (operand : Expr) : (neg operand).nodes = .neg operand :: operand.nodes := by
  rw [nodes]

theorem nodes_binary (op : BinaryOp) (left right : Expr) :
    (binary op left right).nodes = .binary op left right :: (left.nodes ++ right.nodes) := by
      rw [nodes]

theorem nodes_unaryCall (f : UnaryFunction) (a : Expr) :
    (call (.unary f) [a]).nodes = .call (.unary f) [a] :: a.nodes := by
  rw [nodes, nodesOfAll, nodesOfAll, List.append_nil]

theorem nodes_binaryCall (f : BinaryFunction) (a b : Expr) :
    (call (.binary f) [a, b]).nodes = .call (.binary f) [a, b] :: (a.nodes ++ b.nodes) := by
  rw [nodes, nodesOfAll, nodesOfAll, nodesOfAll, List.append_nil]

theorem self_mem_nodes (e : Expr) : e ∈ e.nodes := by
  cases e <;> simp [nodes]

theorem plain_neg (operand : Expr) :
    (neg operand).plain numbers = (operand.plain numbers).map (-·) := by
  rw [plain]
  cases operand.plain numbers with
  | none => rfl
  | some y => rfl

theorem plain_binary (op : BinaryOp) (left right : Expr) :
    (binary op left right).plain numbers =
      (left.plain numbers).bind fun y => (right.plain numbers).map (op.value y) := by
  rw [plain]
  cases left.plain numbers with
  | none => rfl
  | some y =>
    cases right.plain numbers with
    | none => rfl
    | some z => rfl

theorem plain_unaryCall (f : UnaryFunction) (a : Expr) :
    (call (.unary f) [a]).plain numbers = (a.plain numbers).map f.value := by
  rw [plain, plainAll, plainAll]
  cases a.plain numbers with
  | none => rfl
  | some y => rfl

theorem plain_binaryCall (f : BinaryFunction) (a b : Expr) :
    (call (.binary f) [a, b]).plain numbers =
      (a.plain numbers).bind fun y => (b.plain numbers).map (f.value y) := by
  rw [plain, plainAll, plainAll, plainAll]
  cases a.plain numbers with
  | none => rfl
  | some y =>
    cases b.plain numbers with
    | none => rfl
    | some z => rfl

/-- Every variable that a tree mentions stands at one of its nodes. -/
theorem mem_nodes_of_mentions (he : e.WellFormed) {v : Variable} (h : e.mentions v = true) :
    .var v ∈ e.nodes := by
  induction he with
  | number => cases h
  | var w =>
    have hw : w = v := by simpa [mentions] using h
    simp [nodes, hw]
  | neg _ ih =>
    rw [nodes_neg]
    exact List.mem_cons_of_mem _ (ih h)
  | binary op _ _ ihl ihr =>
    rw [mentions, Bool.or_eq_true] at h
    rw [nodes_binary, List.mem_cons, List.mem_append]
    exact .inr (h.imp ihl ihr)
  | unaryCall f _ ih =>
    simp only [mentions, mentionsAny, Bool.or_false] at h
    rw [nodes_unaryCall]
    exact List.mem_cons_of_mem _ (ih h)
  | binaryCall f _ _ iha ihb =>
    simp only [mentions, mentionsAny, Bool.or_false, Bool.or_eq_true] at h
    rw [nodes_binaryCall, List.mem_cons, List.mem_append]
    exact .inr (h.imp iha ihb)

theorem FiniteThroughout.isSome_of_mem_vars (he : e.WellFormed) (h : FiniteThroughout numbers e)
    {v : Variable} (hv : v ∈ e.vars) : (numbers v).isSome = true := by
  have hmentions : e.mentions v = true := (List.mem_filter.mp hv).2
  obtain ⟨y, hy, -⟩ := h _ (mem_nodes_of_mentions he hmentions)
  have hbound : numbers v = some y := hy
  rw [hbound]
  rfl

end Expr

/-! ### One operation -/

theorem requireFinite_eq_ok {operation : Operation} {value : Float} :
    requireFinite operation value = .ok z ↔ value.isFinite = true ∧ z = value := by
  rw [Double.isFinite_iff, requireFinite]
  cases hnan : value.isNaN with
  | true => simp
  | false =>
    cases hinf : value.isInf with
    | true => simp
    | false => simp [eq_comm]

/-- What an operator is refused for is not finite anyway. -/
theorem BinaryOp.apply_eq_ok {op : BinaryOp}
    (hpower : op = .pow → (a == 0.0) = true → b < 0.0 → (a.pow b).isInf = true) :
    op.apply a b = .ok z ↔ (op.value a b).isFinite = true ∧ z = op.value a b := by
  have hplain : requireFinite (.binary op a b) (op.value a b) = .ok z ↔
      (op.value a b).isFinite = true ∧ z = op.value a b := requireFinite_eq_ok
  have hrefused : (op.value a b).isFinite = false →
      (Except.error EvalFault.divisionByZero = Except.ok z ↔ (op.value a b).isFinite = true ∧
        z = op.value a b) := by
    intro hinfinite
    simp [hinfinite]
  cases op with
  | add => exact hplain
  | sub => exact hplain
  | mul => exact hplain
  | div =>
    rw [apply]
    by_cases hzero : (b == 0.0) = true
    · rw [if_pos hzero]
      exact hrefused (Double.not_isFinite_div hzero)
    · rw [if_neg hzero]
      exact hplain
  | pow =>
    rw [apply]
    by_cases hzero : (a == 0.0 && b < 0.0) = true
    · rw [if_pos hzero]
      apply hrefused
      rw [Bool.and_eq_true, decide_eq_true_iff] at hzero
      have hinf : (a.pow b).isInf = true := hpower rfl hzero.1 hzero.2
      rw [← Bool.not_eq_true, Double.isFinite_iff]
      show ¬((a.pow b).isNaN = false ∧ (a.pow b).isInf = false)
      simp [hinf]
    · rw [if_neg hzero]
      exact hplain

theorem Builtin.apply_unary_eq_ok {f : UnaryFunction}
    (hrefused : f.isRefused a = true → (f.value a).isFinite = false) :
    (Builtin.unary f).apply [a] = .ok z ↔ (f.value a).isFinite = true ∧ z = f.value a := by
  rw [apply, call]
  by_cases h : f.isRefused a = true
  · rw [if_pos h, hrefused h, error_bind]
    simp
  · rw [if_neg h, ok_bind]
    exact requireFinite_eq_ok

theorem Builtin.apply_binary_eq_ok {f : BinaryFunction} :
    (Builtin.binary f).apply [a, b] = .ok z ↔ (f.value a b).isFinite = true ∧ z = f.value a b := by
  rw [apply, call, ok_bind]
  exact requireFinite_eq_ok

/-! ### Trees -/

/-- The checked result, a number or nothing, is the plain one where `finite` holds. -/
def Agrees (checked : Except EvalFault Quantity) (plain : Option Float) (finite : Prop) : Prop :=
  ∀ q, checked = .ok q ↔ finite ∧ ∃ y, plain = some y ∧ q = .scalar y

variable {left right : Except EvalFault Quantity} {l r : Option Float} {P Q : Prop}

theorem Agrees.mapM (h : Agrees left l P) {f : Float → Except EvalFault Float} {g : Float → Float}
    (hf : ∀ a, l = some a → P → ∀ z, f a = .ok z ↔ (g a).isFinite = true ∧ z = g a) :
    Agrees (do Quantity.mapM f (← left)) (l.map g) ((∃ y, l.map g = some y ∧ y.isFinite = true) ∧
      P) := by
  intro q
  constructor
  · intro hq
    obtain ⟨p, hp, hq⟩ := ok_of_bind hq
    obtain ⟨hP, a, ha, rfl⟩ := (h p).mp hp
    obtain ⟨z, hz, hq⟩ := ok_of_bind hq
    cases hq
    obtain ⟨hfinite, rfl⟩ := (hf a ha hP z).mp hz
    have hplain : l.map g = some (g a) := by rw [ha, Option.map_some]
    exact ⟨⟨⟨_, hplain, hfinite⟩, hP⟩, _, hplain, rfl⟩
  · rintro ⟨⟨⟨z, hz, hfinite⟩, hP⟩, y, hy, rfl⟩
    obtain ⟨a, ha, rfl⟩ := Option.map_eq_some_iff.mp hz
    have hresult : f a = .ok (g a) := (hf a ha hP _).mpr ⟨hfinite, rfl⟩
    rw [ha, Option.map_some, Option.some.injEq] at hy
    rw [(h (.scalar a)).mpr ⟨hP, a, ha, rfl⟩, ok_bind, Quantity.mapM, hresult, hy]
    rfl

theorem Agrees.zipWithM (hl : Agrees left l P) (hr : Agrees right r Q)
    {f : Float → Float → Except EvalFault Float} {g : Float → Float → Float}
    (hf : ∀ a b, l = some a → r = some b → P → Q →
      ∀ z, f a b = .ok z ↔ (g a b).isFinite = true ∧ z = g a b) :
    Agrees (do Quantity.zipWithM f (← left) (← right)) (l.bind fun a => r.map (g a))
      ((∃ y, (l.bind fun a => r.map (g a)) = some y ∧ y.isFinite = true) ∧ P ∧ Q) := by
  intro q
  constructor
  · intro hq
    obtain ⟨p, hp, hq⟩ := ok_of_bind hq
    obtain ⟨s, hs, hq⟩ := ok_of_bind hq
    obtain ⟨hP, a, ha, rfl⟩ := (hl p).mp hp
    obtain ⟨hQ, b, hb, rfl⟩ := (hr s).mp hs
    obtain ⟨z, hz, hq⟩ := ok_of_bind hq
    cases hq
    obtain ⟨hfinite, rfl⟩ := (hf a b ha hb hP hQ z).mp hz
    have hplain : (l.bind fun a => r.map (g a)) = some (g a b) := by
      rw [ha, hb, Option.bind_some, Option.map_some]
    exact ⟨⟨⟨_, hplain, hfinite⟩, hP, hQ⟩, _, hplain, rfl⟩
  · rintro ⟨⟨⟨z, hz, hfinite⟩, hP, hQ⟩, y, hy, rfl⟩
    obtain ⟨a, ha, hz⟩ := Option.bind_eq_some_iff.mp hz
    obtain ⟨b, hb, rfl⟩ := Option.map_eq_some_iff.mp hz
    have hresult : f a b = .ok (g a b) := (hf a b ha hb hP hQ _).mpr ⟨hfinite, rfl⟩
    rw [ha, hb, Option.bind_some, Option.map_some, Option.some.injEq] at hy
    rw [(hl (.scalar a)).mpr ⟨hP, a, ha, rfl⟩, ok_bind, (hr (.scalar b)).mpr ⟨hQ, b, hb, rfl⟩,
      ok_bind, Quantity.zipWithM, hresult, hy]
    rfl

theorem Agrees.congr {finite : Prop} (h : Agrees left l P) (heq : finite ↔ P) :
    Agrees left l finite := by
  intro q
  rw [heq]
  exact h q

namespace Expr

theorem LibraryLaws.mono {e' : Expr} (h : LibraryLaws e)
    (hnodes : ∀ node ∈ e'.nodes, node ∈ e.nodes) : LibraryLaws e' where
  refused f args hcall := h.refused f args (hnodes _ hcall)
  power base exponent hpow := h.power base exponent (hnodes _ hpow)

/-- The value that plain evaluation gives at the root of a tree. -/
theorem FiniteThroughout.isFinite (h : FiniteThroughout numbers e) {y : Float}
    (hy : e.plain numbers = some y) : y.isFinite = true := by
  obtain ⟨y', hy', hfinite⟩ := h e e.self_mem_nodes
  rw [hy'] at hy
  cases hy
  exact hfinite

/-- A node whose parts stand below it adds its own value to what has to be finite. -/
theorem finiteThroughout_iff {parts : List Expr} (h : e.nodes = e :: parts) :
    FiniteThroughout numbers e ↔
      (∃ y, e.plain numbers = some y ∧ y.isFinite = true) ∧
        ∀ node ∈ parts, ∃ y, node.plain numbers = some y ∧ y.isFinite = true := by
  rw [FiniteThroughout, h, List.forall_mem_cons]

theorem finiteThroughout_pair {left right : Expr} (h : e.nodes = e :: (left.nodes ++ right.nodes)) :
    FiniteThroughout numbers e ↔
      (∃ y, e.plain numbers = some y ∧ y.isFinite = true) ∧
        FiniteThroughout numbers left ∧ FiniteThroughout numbers right := by
  rw [finiteThroughout_iff h, List.forall_mem_append]
  rfl

/-- The guards and the checks of the evaluator leave plain evaluation as it is, node by node. -/
theorem agrees (he : e.WellFormed) (hfinite : ∀ v y, numbers v = some y → y.isFinite = true)
    (laws : LibraryLaws e) :
    Agrees (e.eval (.ofNumbers numbers)) (e.plain numbers) (FiniteThroughout numbers e) := by
  induction he with
  | @number value hvalue =>
    intro q
    have hnodes : FiniteThroughout numbers (.number value) :=
      (finiteThroughout_iff rfl).mpr ⟨⟨value, rfl, hvalue⟩, by simp⟩
    constructor
    · rintro ⟨⟩
      exact ⟨hnodes, value, rfl, rfl⟩
    · rintro ⟨-, y, ⟨⟩, rfl⟩
      rfl
  | var v =>
    intro q
    rw [finiteThroughout_iff rfl, eval, Assignment.get?_ofNumbers, plain]
    cases hv : numbers v with
    | none => simp
    | some y =>
      constructor
      · rintro ⟨⟩
        exact ⟨⟨⟨y, rfl, hfinite v y hv⟩, by simp⟩, y, rfl, rfl⟩
      · rintro ⟨-, y', ⟨⟩, rfl⟩
        rfl
  | @neg operand _ ih =>
    have hoperand := ih (laws.mono fun node hnode => by simp [nodes_neg, hnode])
    have hneg := hoperand.mapM (f := fun a => .ok (-a)) (g := (-·)) fun a ha hnodes z => by
      have hz : (-a).isFinite = true := Double.isFinite_neg (hnodes.isFinite ha)
      simp [hz, eq_comm]
    rw [eval_neg, plain_neg]
    refine hneg.congr ?_
    rw [finiteThroughout_iff (nodes_neg operand), plain_neg]
    rfl
  | @binary op left right _ _ ihl ihr =>
    have hleft := ihl (laws.mono fun node hnode => by simp [nodes_binary, hnode])
    have hright := ihr (laws.mono fun node hnode => by simp [nodes_binary, hnode])
    have hbinary := hleft.zipWithM hright (f := op.apply) (g := op.value) fun a b _ _ _ _ z => by
      apply BinaryOp.apply_eq_ok
      intro hop
      subst hop
      exact laws.power left right (self_mem_nodes _) a b
    rw [eval, plain_binary]
    refine hbinary.congr ?_
    rw [finiteThroughout_pair (nodes_binary op left right), plain_binary]
  | @unaryCall f a _ ih =>
    have hoperand := ih (laws.mono fun node hnode => by simp [nodes_unaryCall, hnode])
    have hcall := hoperand.mapM (f := fun v => (Builtin.unary f).apply [v]) (g :=
        f.value) fun v hv hnodes z => by
      apply Builtin.apply_unary_eq_ok
      exact laws.refused f [a] (self_mem_nodes _) v (hnodes.isFinite hv)
    rw [eval_unaryCall, plain_unaryCall]
    refine hcall.congr ?_
    rw [finiteThroughout_iff (nodes_unaryCall f a), plain_unaryCall]
    rfl
  | @binaryCall f a b _ _ iha ihb =>
    have hfirst := iha (laws.mono fun node hnode => by simp [nodes_binaryCall, hnode])
    have hsecond := ihb (laws.mono fun node hnode => by simp [nodes_binaryCall, hnode])
    have hcall :=
      hfirst.zipWithM hsecond (f := fun v w => (Builtin.binary f).apply [v, w]) (g := f.value)
      fun v w _ _ _ _ z => Builtin.apply_binary_eq_ok
    rw [eval_binaryCall, plain_binaryCall]
    refine hcall.congr ?_
    rw [finiteThroughout_pair (nodes_binaryCall f a b), plain_binaryCall]

/-- The evaluator of formulas, where all its guards stand, gives what plain evaluation gives, and
gives it exactly if every variable of the tree is bound and plain evaluation is finite at every
node. -/
theorem evaluate_eq_ok_iff {R : Registry} {text : String} (hparse : Expr.parseWith R text = .ok e)
    (hfinite : ∀ v y, numbers v = some y → y.isFinite = true) (laws : LibraryLaws e)
    (q : Quantity) :
    e.evaluate (.ofNumbers numbers) = .ok q ↔
      (∀ v ∈ e.vars, (numbers v).isSome = true) ∧
        (∀ node ∈ e.nodes, ∃ y, node.plain numbers = some y ∧ y.isFinite = true) ∧
          ∃ y, e.plain numbers = some y ∧ q = .scalar y := by
  have he : e.WellFormed := wellFormed_of_parseWith hparse
  rw [evaluate, Assignment.check_ofNumbers hfinite, ok_bind, agrees he hfinite laws q]
  constructor
  · rintro ⟨hnodes, hroot⟩
    exact ⟨fun v hv => hnodes.isSome_of_mem_vars he hv, hnodes, hroot⟩
  · rintro ⟨-, hnodes, hroot⟩
    exact ⟨hnodes, hroot⟩

/-- The tree of `sqrt(x)/T`. -/
def rootOverT : Expr := .binary .div (.call (.unary .sqrt) [.var .x]) (.var .T)

theorem parse_rootOverT : Expr.parse "sqrt(x)/T" = .ok rootOverT := by
  have hsqrt : lexeme 's' ['q', 'r', 't', '(', 'x', ')', '/', 'T'] = .ok (.identifier "sqrt", 3) :=
    rfl
  have hleft : lexeme '(' ['x', ')', '/', 'T'] = .ok (.leftParen, 0) := rfl
  have hx : lexeme 'x' [')', '/', 'T'] = .ok (.identifier "x", 0) := rfl
  have hright : lexeme ')' ['/', 'T'] = .ok (.rightParen, 0) := rfl
  have hslash : lexeme '/' ['T'] = .ok (.slash, 0) := rfl
  have hT : lexeme 'T' [] = .ok (.identifier "T", 0) := rfl
  have htokens : Tokenizes "sqrt(x)/T".toList
      [.identifier "sqrt", .leftParen, .identifier "x", .rightParen, .slash, .identifier "T"] :=
    .token (cuts_of_lexeme hsqrt) (.token (cuts_of_lexeme hleft) (.token (cuts_of_lexeme hx)
      (.token (cuts_of_lexeme hright)
        (.token (cuts_of_lexeme hslash) (.token (cuts_of_lexeme hT) .nil)))))
  have hfind : Registry.standard.find? "sqrt" = some (.unary .sqrt) := rfl
  have hvariable : ∀ n v, Derives .standard n (.signed (.var v)) [.identifier v.name] :=
    fun n v => .unsigned (.base (.var v))
  have hroot := Derives.factor
    (.unsigned (.base (.call hfind (show [Expr.var .x].length = _ from rfl) (by decide)
    (.lastArgument (.term (.factor (hvariable 1 .x)))))))
  have hquotient := Derives.timesFactor
    (show (Token.slash, BinaryOp.div) ∈ productOperators by simp [productOperators])
    (by decide) hroot (hvariable 1 .T)
  exact parseWith_of_isFormula ⟨_, 0, htokens, .term hquotient⟩

theorem libraryLaws_rootOverT : LibraryLaws rootOverT where
  refused f args hcall a _ hrefused := by
    have hf : f = .sqrt := by
      simp [rootOverT, nodes, nodesOfAll] at hcall
      exact hcall.1
    subst hf
    apply Double.not_isFinite_sqrt
    simpa [UnaryFunction.isRefused] using hrefused
  power base exponent hpow := by simp [rootOverT, nodes, nodesOfAll] at hpow

/-- The square root of 4 over 8. -/
theorem evaluate_rootOverT :
    (∀ v y, (fun v : Variable => some (if v = .x then 4.0 else 8.0 : Float)) v = some y →
      y.isFinite = true) ∧
      rootOverT.evaluate (.ofNumbers fun v => some (if v = .x then 4.0 else 8.0)) =
        .ok (.scalar 0.25) := by
  have hfinite : ∀ v y, (fun v : Variable => some (if v = .x then 4.0 else 8.0 : Float)) v =
      some y →
      y.isFinite = true := by
    rintro v y ⟨⟩
    cases v <;> decide
  refine ⟨hfinite,
    (evaluate_eq_ok_iff parse_rootOverT hfinite libraryLaws_rootOverT _).mpr ⟨?_, ?_, ?_⟩⟩
  · intro v _
    rfl
  · have hroot : Float.isFinite (Float.sqrt 4.0) = true := by decide +kernel
    have hquotient : Float.isFinite (Float.sqrt 4.0 / 8.0) = true := by decide +kernel
    simp only [rootOverT, nodes, nodesOfAll, List.nil_append, List.append_nil, List.cons_append,
      List.forall_mem_cons]
    exact ⟨⟨_, rfl, hquotient⟩, ⟨_, rfl, hroot⟩, ⟨_, rfl, by decide⟩, ⟨_, rfl, by decide⟩, by simp⟩
  · have hvalue : Float.sqrt 4.0 / 8.0 = 0.25 := by decide +kernel
    exact ⟨_, rfl, by rw [← hvalue]; rfl⟩

end Expr

end BatteryParams

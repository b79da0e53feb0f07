import BatteryParams.Proofs.Expr.Shape

/-!
# Accesses by index

An operation on quantities can be told sample by sample: the lists among the operands are asked for
their common length, each operand for its sample at every index below it, and the operation reads
its operands from the row of these samples by their places. Any of these accesses may be out of
range, and then it fails with `EvalFault.missing`. `Expr.evalByIndex` evaluates a tree in this way.
On the tree of an accepted text it is `Expr.eval`, and no access is out of range: the samples are
there by the common length, and the operands since a call has as many as its function takes.
-/

namespace BatteryParams

variable {f : List Float → Except EvalFault Float} {operands : List Quantity} {p q : Quantity}
variable {b : Assignment} {e : Expr} {n? : Option Nat} {fault : EvalFault}

/-- The entry of a list at an index. -/
def entry (xs : List Float) (i : Nat) : Except EvalFault Float :=
  match xs[i]? with
  | some y => .ok y
  | none => .error (.missing i)

theorem entry_of_lt {xs : List Float} {i : Nat} (h : i < xs.length) : entry xs i = .ok xs[i] := by
  rw [entry, List.getElem?_eq_getElem h]

/-! ### Samples of operands -/

namespace Quantity

/-- The sample at an index. A number stands for all of its samples. -/
def sample (i : Nat) : Quantity → Except EvalFault Float
  | .scalar y => .ok y
  | .array ys => entry ys i

/-- The length of the lists among the operands, from left to right, `n?` being that of the lists
before them. -/
def commonLengthFrom : (n? : Option Nat) → List Quantity → Except EvalFault (Option Nat)
  | n?, [] => .ok n?
  | n?, q :: qs =>
    match n?, q.length? with
    | n?, none => commonLengthFrom n? qs
    | none, some n => commonLengthFrom (some n) qs
    | some m, some n => if m = n then commonLengthFrom (some m) qs else .error (.lengthMismatch m n)

/-- The one length of the lists among the operands, if there are any. -/
def commonLength (operands : List Quantity) : Except EvalFault (Option Nat) :=
  commonLengthFrom none operands

/-- The samples of all operands at an index. -/
def row (operands : List Quantity) (i : Nat) : Except EvalFault (List Float) :=
  operands.mapM (sample i)

/-- An operation on rows of numbers, done on the row at each index. -/
def broadcast (f : List Float → Except EvalFault Float) (operands : List Quantity) :
    Except EvalFault Quantity := do
  match ← commonLength operands with
  | none => return .scalar (← f (← row operands 0))
  | some n => return .array (← (List.range n).mapM fun i => do f (← row operands i))

theorem commonLengthFrom_scalar (n? : Option Nat) (y : Float) (qs : List Quantity) :
    commonLengthFrom n? (.scalar y :: qs) = commonLengthFrom n? qs := by
  cases n? with
  | none => rfl
  | some n => rfl

theorem spreadsTo_of_commonLengthFrom {m? : Option Nat}
    (h : commonLengthFrom m? operands = .ok n?) :
    (m? = none ∨ m? = n?) ∧ ∀ q ∈ operands, q.SpreadsTo n? := by
  induction operands generalizing m? with
  | nil =>
    cases h
    exact ⟨.inr rfl, List.forall_mem_nil _⟩
  | cons q qs ih =>
    rw [List.forall_mem_cons]
    cases q with
    | scalar y =>
      rw [commonLengthFrom_scalar] at h
      obtain ⟨hm, hqs⟩ := ih h
      exact ⟨hm, .inl rfl, hqs⟩
    | array ys =>
      cases m? with
      | none =>
        obtain ⟨hys, hqs⟩ := ih h
        exact ⟨.inl rfl, .inr (hys.resolve_left (Option.some_ne_none _)), hqs⟩
      | some m =>
        simp only [commonLengthFrom, length?] at h
        split at h
        · next hlength =>
          obtain ⟨hm, hqs⟩ := ih h
          have hm := hm.resolve_left (Option.some_ne_none m)
          subst hlength
          exact ⟨.inr hm, .inr hm, hqs⟩
        · cases h

/-- A number has a sample at every index, and a list at those below its length. -/
theorem SpreadsTo.exists_sample (h : q.SpreadsTo n?) {i : Nat} (hi : i < n?.getD 1) :
    ∃ y, q.sample i = .ok y := by
  cases q with
  | scalar y => exact ⟨y, rfl⟩
  | array ys =>
    have hlength : some ys.length = n? := h.resolve_left (Option.some_ne_none _)
    subst hlength
    exact ⟨_, entry_of_lt hi⟩

/-- At an index below the common length every operand has a sample. -/
theorem exists_row (hlength : commonLength operands = .ok n?) {i : Nat} (hi : i < n?.getD 1) :
    ∃ r, row operands i = .ok r ∧ r.length = operands.length := by
  have hpointwise := pointwise_mapM (sample i) operands
  cases hrow : row operands i with
  | ok r => exact ⟨r, rfl, length_of_mapM hrow⟩
  | error fault =>
    rw [row] at hrow
    rw [hrow] at hpointwise
    obtain ⟨q, hq, herror⟩ := hpointwise
    obtain ⟨y, hy⟩ := ((spreadsTo_of_commonLengthFrom hlength).2 q hq).exists_sample hi
    rw [hy] at herror
    cases herror

theorem lengthMismatch_of_commonLengthFrom {m? : Option Nat}
    (h : commonLengthFrom m? operands = .error fault) : ∃ m n, fault = .lengthMismatch m n := by
  induction operands generalizing m? with
  | nil => cases h
  | cons q qs ih =>
    cases q with
    | scalar y =>
      rw [commonLengthFrom_scalar] at h
      exact ih h
    | array ys =>
      cases m? with
      | none => exact ih h
      | some m =>
        simp only [commonLengthFrom, length?] at h
        split at h
        · exact ih h
        · cases h
          exact ⟨_, _, rfl⟩

/-- All that can go wrong is that two lists differ in length or that the operation fails on a row of
full length. -/
theorem error_of_broadcast (h : broadcast f operands = .error fault) :
    (∃ m n, fault = .lengthMismatch m n) ∨ ∃ row, row.length = operands.length ∧
      f row = .error fault := by
  rcases error_of_bind h with h | ⟨n?, hlength, h⟩
  · exact .inl (lengthMismatch_of_commonLengthFrom h)
  right
  cases n? with
  | none =>
    obtain ⟨r, hr, hrow⟩ := exists_row hlength Nat.zero_lt_one
    simp only [hr, ok_bind] at h
    rcases error_of_bind h with h | ⟨y, -, h⟩
    · exact ⟨r, hrow, h⟩
    · cases h
  | some n =>
    obtain ⟨i, hi, h⟩ := error_of_list h
    obtain ⟨r, hr, hrow⟩ := exists_row hlength (List.mem_range.mp hi)
    rw [hr, ok_bind] at h
    exact ⟨r, hrow, h⟩

theorem broadcast_ne_missing {k : Nat}
    (hf : ∀ r, r.length = operands.length → f r ≠ .error (.missing k)) :
    broadcast f operands ≠ .error (.missing k) := by
  intro h
  rcases error_of_broadcast h with ⟨m, n, h⟩ | ⟨r, hrow, h⟩
  · cases h
  · exact hf r hrow h

/-! ### Rows of one and of two -/

/-- Going through the indices of a list is going through its entries. -/
theorem mapM_range_length {α β : Type} {one : α → Except EvalFault β}
    {at? : Nat → Except EvalFault β} (xs : List α)
    (h : ∀ i (hi : i < xs.length), at? i = one xs[i]) :
    (List.range xs.length).mapM at? = xs.mapM one := by
  induction xs generalizing at? with
  | nil => rfl
  | cons x xs ih =>
    have htail : (List.range xs.length).mapM (fun i => at? (i + 1)) = xs.mapM one :=
      ih fun i hi => h (i + 1) (Nat.succ_lt_succ hi)
    have hhead : at? 0 = one x := h 0 (Nat.zero_lt_succ _)
    rw [List.length_cons, List.range_succ_eq_map, List.mapM_cons, List.mapM_cons, List.mapM_map,
      hhead]
    simp only [Function.comp_def, Nat.succ_eq_add_one, htail]

theorem broadcast_of_rows {α : Type} {xs : List α} {one : α → Except EvalFault Float}
    (hlength : commonLength operands = .ok (some xs.length))
    (hrow : ∀ i (hi : i < xs.length), (do f (← row operands i)) = one xs[i]) :
    broadcast f operands = (do return array (← xs.mapM one)) := by
  rw [broadcast, hlength, ok_bind, ← mapM_range_length xs hrow]

theorem row_singleton (q : Quantity) (i : Nat) : row [q] i = (do return [← q.sample i]) := by
  rw [row, List.mapM_cons, List.mapM_nil]
  rfl

theorem row_pair (p q : Quantity) (i : Nat) :
    row [p, q] i = (do return [← p.sample i, ← q.sample i]) := by
  rw [row, List.mapM_cons, List.mapM_cons, List.mapM_nil]
  cases p.sample i with
  | error fault => rfl
  | ok y => cases q.sample i <;> rfl

theorem broadcast_singleton (f : List Float → Except EvalFault Float) (q : Quantity) :
    broadcast f [q] = q.mapM fun a => f [a] := by
  cases q with
  | scalar a => rfl
  | array as =>
    refine broadcast_of_rows rfl fun i hi => ?_
    rw [row_singleton, sample, entry_of_lt hi]
    rfl

theorem broadcast_pair (f : List Float → Except EvalFault Float) (p q : Quantity) :
    broadcast f [p, q] = zipWithM (fun a c => f [a, c]) p q := by
  cases p with
  | scalar a =>
    cases q with
    | scalar c => rfl
    | array cs =>
      refine broadcast_of_rows rfl fun i hi => ?_
      rw [row_pair, sample, sample, entry_of_lt hi]
      rfl
  | array as =>
    cases q with
    | scalar c =>
      refine broadcast_of_rows rfl fun i hi => ?_
      rw [row_pair, sample, sample, entry_of_lt hi]
      rfl
    | array cs =>
      have hcommon : commonLength [array as, array cs] =
          if as.length = cs.length then .ok (some as.length)
            else .error (.lengthMismatch as.length cs.length) := rfl
      rw [zipWithM]
      split at hcommon
      · next hlength =>
        rw [if_pos hlength]
        have hzip : (as.zip cs).length = as.length := by
          rw [List.length_zip, ← hlength, Nat.min_self]
        refine broadcast_of_rows (hzip ▸ hcommon) fun i hi => ?_
        rw [hzip] at hi
        rw [row_pair, sample, sample, entry_of_lt hi, entry_of_lt (hlength ▸ hi), List.getElem_zip]
        rfl
      · next hlength =>
        rw [if_neg hlength, broadcast, hcommon]
        rfl

end Quantity

/-! ### Functions and trees by index -/

/-- The value of a function, which reads its arguments by their places. -/
def Builtin.callByIndex (f : Builtin) (args : List Float) : Except EvalFault Float :=
  match f with
  | .unary f => do
    let a ← entry args 0
    if f.isRefused a then .error (.domain (.refused f a)) else .ok (f.value a)
  | .binary f => do
    let a ← entry args 0
    let c ← entry args 1
    .ok (f.value a c)

theorem Builtin.call_eq_callByIndex (f : Builtin) (args : List Float) :
    f.call args = f.callByIndex args := by
  cases f with
  | unary f =>
    cases args with
    | nil => rfl
    | cons a rest => rfl
  | binary f =>
    match args with
    | [] => rfl
    | [a] => rfl
    | a :: c :: rest => rfl

/-- A function by index, whose result has to be finite. -/
def Builtin.applyByIndex (f : Builtin) (args : List Float) : Except EvalFault Float := do
  requireFinite (.call f args) (← f.callByIndex args)

theorem Builtin.apply_eq_applyByIndex (f : Builtin) : f.apply = f.applyByIndex := by
  funext args
  rw [apply, applyByIndex, call_eq_callByIndex]

theorem Builtin.callByIndex_ne_missing {f : Builtin} {args : List Float}
    (harity : args.length = f.arity) (k : Nat) : f.callByIndex args ≠ .error (.missing k) := by
  intro h
  rw [← call_eq_callByIndex] at h
  cases ofOperation_of_call harity h

theorem Builtin.applyByIndex_ne_missing {f : Builtin} {args : List Float}
    (harity : args.length = f.arity) (k : Nat) : f.applyByIndex args ≠ .error (.missing k) := by
  intro h
  rw [← apply_eq_applyByIndex] at h
  cases ofOperation_of_apply harity h

namespace Expr

mutual

/-- The value of a tree whose operations are done index by index and read their operands by their
places. -/
def evalByIndex (b : Assignment) : Expr → Except EvalFault Quantity
  | .number value => .ok (.scalar value)
  | .var v =>
    match b.get? v with
    | some q => .ok q
    | none => .error (.unbound v)
  | .neg operand => do
    let q ← operand.evalByIndex b
    Quantity.broadcast (fun row => do return -(← entry row 0)) [q]
  | .binary op left right => do
    let l ← left.evalByIndex b
    let r ← right.evalByIndex b
    Quantity.broadcast (fun row => do op.apply (← entry row 0) (← entry row 1)) [l, r]
  | .call f args => do
    Quantity.broadcast f.applyByIndex (← evalAllByIndex b args)

def evalAllByIndex (b : Assignment) : List Expr → Except EvalFault (List Quantity)
  | [] => .ok []
  | e :: es => do
    let q ← e.evalByIndex b
    let qs ← evalAllByIndex b es
    .ok (q :: qs)

end

/-- The value of a tree by index, once the bindings are known to be finite. -/
def evaluateByIndex (e : Expr) (b : Assignment) : Except EvalFault Quantity := do
  b.check
  e.evalByIndex b

theorem evalByIndex_unaryCall (b : Assignment) (f : UnaryFunction) (a : Expr) :
    (call (.unary f) [a]).evalByIndex b =
      (do Quantity.broadcast (Builtin.unary f).applyByIndex [← a.evalByIndex b]) := by
  rw [evalByIndex, evalAllByIndex, evalAllByIndex]
  cases a.evalByIndex b with
  | error fault => rfl
  | ok q => rfl

theorem evalByIndex_binaryCall (b : Assignment) (f : BinaryFunction) (a c : Expr) :
    (call (.binary f) [a, c]).evalByIndex b =
      (do Quantity.broadcast (Builtin.binary f).applyByIndex [← a.evalByIndex b,
        ← c.evalByIndex b]) := by
  rw [evalByIndex, evalAllByIndex, evalAllByIndex, evalAllByIndex]
  cases a.evalByIndex b with
  | error fault => rfl
  | ok q =>
    cases c.evalByIndex b with
    | error fault => rfl
    | ok r => rfl

/-- On a tree whose calls have the arguments that their functions take, both ways to evaluate
agree. -/
theorem evalByIndex_eq (he : e.WellFormed) (b : Assignment) : e.evalByIndex b = e.eval b := by
  induction he with
  | number => rfl
  | var v =>
    cases hv : b.get? v with
    | none => simp only [evalByIndex, eval, hv]
    | some q => simp only [evalByIndex, eval, hv]
  | neg _ ih =>
    simp only [evalByIndex, ih, eval_neg, Quantity.broadcast_singleton]
    rfl
  | binary op _ _ ihl ihr =>
    simp only [evalByIndex, ihl, ihr, eval, Quantity.broadcast_pair]
    rfl
  | unaryCall f _ ih =>
    simp only [evalByIndex_unaryCall, ih, eval_unaryCall, Quantity.broadcast_singleton,
      Builtin.apply_eq_applyByIndex]
  | binaryCall f _ _ iha ihc =>
    simp only [evalByIndex_binaryCall, iha, ihc, eval_binaryCall, Quantity.broadcast_pair,
      Builtin.apply_eq_applyByIndex]

/-! ### Every access is in range -/

theorem length_of_call_mem_nodes (he : e.WellFormed) {f : Builtin} {args : List Expr}
    (h : call f args ∈ e.nodes) : args.length = f.arity := by
  induction he with
  | number => simp [nodes] at h
  | var v => simp [nodes] at h
  | neg _ ih => exact ih (by simpa [nodes_neg] using h)
  | binary op _ _ ihl ihr =>
    rw [nodes_binary, List.mem_cons, List.mem_append] at h
    rcases h with h | h | h
    · cases h
    · exact ihl h
    · exact ihr h
  | unaryCall g _ ih =>
    rw [nodes_unaryCall, List.mem_cons] at h
    rcases h with h | h
    · cases h
      rfl
    · exact ih h
  | binaryCall g _ _ iha ihc =>
    rw [nodes_binaryCall, List.mem_cons, List.mem_append] at h
    rcases h with h | h | h
    · cases h
      rfl
    · exact iha h
    · exact ihc h

/-- Every access of an evaluation by index is in range: a row has a number for each operand, and no
operation reads beyond those. -/
theorem evalByIndex_ne_missing (he : e.WellFormed) (k : Nat) :
    e.evalByIndex b ≠ .error (.missing k) := by
  intro h
  induction he with
  | number => cases h
  | var v =>
    rw [evalByIndex] at h
    split at h <;> cases h
  | neg _ ih =>
    rw [evalByIndex] at h
    rcases error_of_bind h with h | ⟨q, -, h⟩
    · exact ih h
    refine Quantity.broadcast_ne_missing (fun r hrow => ?_) h
    obtain ⟨a, rfl⟩ := List.length_eq_one_iff.mp hrow
    nofun
  | binary op _ _ ihl ihr =>
    rw [evalByIndex] at h
    rcases error_of_bind h with h | ⟨l, -, h⟩
    · exact ihl h
    rcases error_of_bind h with h | ⟨r, -, h⟩
    · exact ihr h
    refine Quantity.broadcast_ne_missing (fun r hrow happly => ?_) h
    obtain ⟨a, c, rfl⟩ := List.length_eq_two.mp hrow
    cases BinaryOp.ofOperation_of_apply happly
  | unaryCall f _ ih =>
    rw [evalByIndex_unaryCall] at h
    rcases error_of_bind h with h | ⟨q, -, h⟩
    · exact ih h
    exact Quantity.broadcast_ne_missing (fun r hrow => Builtin.applyByIndex_ne_missing hrow k) h
  | binaryCall f _ _ iha ihc =>
    rw [evalByIndex_binaryCall] at h
    rcases error_of_bind h with h | ⟨l, -, h⟩
    · exact iha h
    rcases error_of_bind h with h | ⟨r, -, h⟩
    · exact ihc h
    exact Quantity.broadcast_ne_missing (fun r hrow => Builtin.applyByIndex_ne_missing hrow k) h

theorem evaluateByIndex_eq (he : e.WellFormed) (b : Assignment) :
    e.evaluateByIndex b = e.evaluate b := by
  rw [evaluateByIndex, evaluate, evalByIndex_eq he]

theorem evaluateByIndex_ne_missing (he : e.WellFormed) (k : Nat) :
    e.evaluateByIndex b ≠ .error (.missing k) := by
  intro h
  rcases error_of_bind h with h | ⟨_, -, h⟩
  · rw [Assignment.check] at h
    split at h <;> cases h
  · exact evalByIndex_ne_missing he k h

/-- Where every variable that is bound is bound to a number, a value is a number. -/
theorem exists_scalar_of_evaluate (he : e.WellFormed)
    (hb : ∀ v q, b.get? v = some q → ∃ y, q = .scalar y)
    (h : e.evaluate b = .ok q) : ∃ y, q = .scalar y := by
  obtain ⟨_, -, h⟩ := ok_of_bind h
  have hshaped := shaped_of_eval he h
  rw [← Quantity.length?_eq_none, hshaped.eq_none_iff]
  intro v hv
  obtain ⟨p, hp, -⟩ := hshaped.bound v hv
  obtain ⟨y, rfl⟩ := hb v p hp
  exact ⟨y, hp⟩

theorem exists_entry_of_evaluate (he : e.WellFormed) {x : Float} {T : Option Float}
    (h : e.evaluate ⟨some (.scalar x), T.map .scalar⟩ = .ok q) :
    ∃ y, entry (q.toList 1) 0 = .ok y := by
  have hnumbers : ∀ v p, Assignment.get? ⟨some (.scalar x), T.map .scalar⟩ v = some p →
      ∃ y, p = .scalar y := by
    intro v p hp
    cases v with
    | x =>
      cases hp
      exact ⟨x, rfl⟩
    | T =>
      obtain ⟨t, -, rfl⟩ := Option.map_eq_some_iff.mp hp
      exact ⟨t, rfl⟩
  obtain ⟨y, rfl⟩ := exists_scalar_of_evaluate he hnumbers h
  exact ⟨y, rfl⟩

end Expr

theorem Value.evaluate_ne_missing (v : Value) (x : Float) (T : Option Float) (k : Nat) :
    v.evaluate x T ≠ .error (.missing k) := by
  intro h
  cases v with
  | constant c => cases h
  | formula f =>
    have hf := Expr.wellFormed_of_parseWith f.parsed
    rcases error_of_bind h with h | ⟨q, hq, h⟩
    · rw [← Expr.evaluateByIndex_eq hf] at h
      exact Expr.evaluateByIndex_ne_missing hf k h
    · obtain ⟨y, hy⟩ := Expr.exists_entry_of_evaluate hf hq
      have hentry : entry (q.toList 1) 0 = .error (.missing k) := h
      rw [hy] at hentry
      cases hentry
  | table t =>
    rcases error_of_bind h with h | ⟨_, -, h⟩
    · rw [checkArguments] at h
      split at h <;> cases h
    · cases h

/-! ### Formulas -/

namespace Expr

/-- Whatever a formula is evaluated at, no list is read beyond its end. Its calls have as many
arguments as their functions take, a function with so many finds all that it reads, and a row has a
sample of every operand wherever the lists have one. Evaluating by index therefore reports no
missing entry and gives what evaluating the tree gives, which at numbers is a number. -/
theorem accesses_in_range {R : Registry} {text : String} (hparse : Expr.parseWith R text = .ok e) :
    (∀ f args, call f args ∈ e.nodes → args.length = f.arity) ∧
    (∀ (f : Builtin) args,
      f.callByIndex args = f.call args ∧
        (args.length = f.arity → ∀ k, f.callByIndex args ≠ .error (.missing k))) ∧
    (∀ operands n?, Quantity.commonLength operands = .ok n? → ∀ i < n?.getD 1,
      ∃ r, Quantity.row operands i = .ok r ∧ r.length = operands.length) ∧
    (∀ b : Assignment,
      e.evaluateByIndex b = e.evaluate b ∧ (∀ k, e.evaluateByIndex b ≠ .error (.missing k)) ∧
      ((∀ v q, b.get? v = some q → ∃ y, q = .scalar y) →
        ∀ q, e.evaluateByIndex b = .ok q → ∃ y, q = .scalar y)) ∧
    (∀ (x : Float) (T : Option Float) q,
      e.evaluateByIndex ⟨some (.scalar x), T.map .scalar⟩ = .ok q →
      ∃ y, entry (q.toList 1) 0 = .ok y) ∧
    ∀ (v : Value) x T k, v.evaluate x T ≠ .error (.missing k) := by
  have he := wellFormed_of_parseWith hparse
  refine ⟨fun f args => length_of_call_mem_nodes he,
    fun f args => ⟨(f.call_eq_callByIndex args).symm, Builtin.callByIndex_ne_missing⟩,
    fun operands n? hlength i hi => Quantity.exists_row hlength hi, fun b => ?_, fun x T q h => ?_,
    Value.evaluate_ne_missing⟩
  · refine ⟨evaluateByIndex_eq he b, evaluateByIndex_ne_missing he, fun hb q h => ?_⟩
    rw [evaluateByIndex_eq he] at h
    exact exists_scalar_of_evaluate he hb h
  · rw [evaluateByIndex_eq he] at h
    exact exists_entry_of_evaluate he h

/-- Two samples over a number are read to their end. Over three temperatures nothing is read, since
the lengths are compared before. -/
theorem accesses_in_range_rootOverT :
    Expr.parse "sqrt(x)/T" = .ok rootOverT ∧
      rootOverT.evaluateByIndex ⟨some (.array [1.0, 4.0]), some (.scalar 2.0)⟩ =
        .ok (.array [0.5, 1.0]) ∧
      ∀ k, rootOverT.evaluateByIndex ⟨some (.array [1.0, 4.0]),
        some (.array [280.0, 290.0, 300.0])⟩ ≠ .error (.missing k) := by
  have hread := (accesses_in_range parse_rootOverT).2.2.2.1
  have hvalue : rootOverT.evaluate ⟨some (.array [1.0, 4.0]), some (.scalar 2.0)⟩ =
      .ok (.array [0.5, 1.0]) := by decide +kernel
  exact ⟨parse_rootOverT, (hread _).1.trans hvalue, (hread _).2.1⟩

end Expr

end BatteryParams

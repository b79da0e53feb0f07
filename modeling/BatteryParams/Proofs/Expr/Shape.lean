import BatteryParams.Proofs.Expr.Finite

/-!
# What a formula reads

The value of a formula hangs on the variables that stand in it, and so does its shape. Where there
is a value, each of them is bound. The value is a number if all of them are bound to numbers;
otherwise it is a list as long as every list that one of them is bound to. `Expr.Shaped` carries
this up a tree: every operand has a shape that can be spread to the result, and the shape of the
result is that of an operand.
-/

namespace BatteryParams

variable {f : Float → Except EvalFault Float} {g : Float → Float → Except EvalFault Float}
variable {p q r : Quantity} {b b' : Assignment} {e e' left right : Expr} {v : Variable}
    {fault : EvalFault}

/-! ### Shapes of quantities -/

namespace Quantity

/-- A number, or as many samples as `n?` says. -/
def SpreadsTo (n? : Option Nat) (q : Quantity) : Prop := q.length? = none ∨ q.length? = n?

theorem length?_eq_none : q.length? = none ↔ ∃ y, q = .scalar y := by
  cases q with
  | scalar y => simp [length?]
  | array ys => simp [length?]

theorem SpreadsTo.trans {n? : Option Nat} (hp : p.SpreadsTo q.length?) (hq : q.SpreadsTo n?) :
    p.SpreadsTo n? := by
  rcases hp with hp | hp
  · exact .inl hp
  · rw [SpreadsTo, hp]
    exact hq

theorem length?_mapM (h : q.mapM f = .ok p) : p.length? = q.length? := by
  cases q with
  | scalar a =>
    obtain ⟨c, -, h⟩ := ok_of_bind h
    cases h
    rfl
  | array as =>
    obtain ⟨cs, hcs, h⟩ := ok_of_bind h
    cases h
    exact congrArg some (length_of_mapM hcs)

/-- Both operands spread to the result, which has the shape of one of them. -/
theorem spreadsTo_zipWithM (h : zipWithM g p q = .ok r) :
    p.SpreadsTo r.length? ∧ q.SpreadsTo r.length? ∧
      (r.length? = p.length? ∨ r.length? = q.length?) := by
  cases p with
  | scalar a =>
    have hshape : r.length? = q.length? := by
      cases q with
      | scalar c =>
        obtain ⟨z, -, h⟩ := ok_of_bind h
        cases h
        rfl
      | array cs =>
        obtain ⟨zs, hzs, h⟩ := ok_of_bind h
        cases h
        exact congrArg some (length_of_mapM hzs)
    exact ⟨.inl rfl, .inr hshape.symm, .inr hshape⟩
  | array as =>
    cases q with
    | scalar c =>
      obtain ⟨zs, hzs, h⟩ := ok_of_bind h
      cases h
      have hshape : zs.length = as.length := length_of_mapM hzs
      exact ⟨.inr (congrArg some hshape.symm), .inl rfl, .inl (congrArg some hshape)⟩
    | array cs =>
      rw [zipWithM] at h
      split at h
      · next hlength =>
        obtain ⟨zs, hzs, h⟩ := ok_of_bind h
        cases h
        have hshape : zs.length = as.length := by
          rw [length_of_mapM hzs, List.length_zip, ← hlength, Nat.min_self]
        exact ⟨.inr (congrArg some hshape.symm), .inr (congrArg some (hshape.trans hlength).symm),
          .inl (congrArg some hshape)⟩
      · cases h

/-! ### Faults of an operation -/

theorem error_of_list {α : Type} {one : α → Except EvalFault Float} {xs : List α}
    (h : xs.mapM one >>= (fun ys => .ok (array ys)) = .error fault) :
    ∃ x ∈ xs, one x = .error fault := by
  rcases error_of_bind h with h | ⟨ys, -, h⟩
  · have hpointwise := pointwise_mapM one xs
    rwa [h] at hpointwise
  · cases h

theorem error_of_mapM (h : q.mapM f = .error fault) : ∃ a, f a = .error fault := by
  cases q with
  | scalar a =>
    rcases error_of_bind h with h | ⟨c, -, h⟩
    · exact ⟨a, h⟩
    · cases h
  | array as =>
    obtain ⟨a, -, ha⟩ := error_of_list h
    exact ⟨a, ha⟩

theorem error_of_zipWithM (h : zipWithM g p q = .error fault) :
    (∃ m n, fault = .lengthMismatch m n) ∨ ∃ a c, g a c = .error fault := by
  cases p with
  | scalar a =>
    cases q with
    | scalar c =>
      rcases error_of_bind h with h | ⟨z, -, h⟩
      · exact .inr ⟨a, c, h⟩
      · cases h
    | array cs =>
      obtain ⟨c, -, hc⟩ := error_of_list h
      exact .inr ⟨a, c, hc⟩
  | array as =>
    cases q with
    | scalar c =>
      obtain ⟨a, -, ha⟩ := error_of_list h
      exact .inr ⟨a, c, ha⟩
    | array cs =>
      rw [zipWithM] at h
      split at h
      · obtain ⟨pair, -, hpair⟩ := error_of_list h
        exact .inr ⟨pair.1, pair.2, hpair⟩
      · cases h
        exact .inl ⟨_, _, rfl⟩

end Quantity

/-- The faults of an operation on numbers: none of them is about a variable, a list or an argument
that is not there. -/
inductive EvalFault.OfOperation : EvalFault → Prop
  | divisionByZero : OfOperation .divisionByZero
  | domain (operation : Operation) : OfOperation (.domain operation)
  | overflow (operation : Operation) : OfOperation (.overflow operation)

theorem ofOperation_of_requireFinite {operation : Operation} {value : Float}
    (h : requireFinite operation value = .error fault) : fault.OfOperation := by
  unfold requireFinite at h
  split at h
  · cases h
    exact .domain operation
  · split at h
    · cases h
      exact .overflow operation
    · cases h

theorem ofOperation_of_guarded {guard : Bool} {operation : Operation} {value : Float}
    (h : (if guard then .error .divisionByZero else requireFinite operation value) = .error fault) :
    fault.OfOperation := by
  cases guard with
  | true =>
    cases h
    exact .divisionByZero
  | false => exact ofOperation_of_requireFinite h

theorem BinaryOp.ofOperation_of_apply {op : BinaryOp} {a c : Float}
    (h : op.apply a c = .error fault) : fault.OfOperation := ofOperation_of_guarded h

/-- A function with the arguments it takes fails at most as an operation on numbers. -/
theorem Builtin.ofOperation_of_call {f : Builtin} {args : List Float}
    (harity : args.length = f.arity) (h : f.call args = .error fault) : fault.OfOperation := by
  cases f with
  | unary f =>
    obtain ⟨a, rfl⟩ := List.length_eq_one_iff.mp harity
    rw [call] at h
    split at h
    · cases h
      exact .domain _
    · cases h
  | binary f =>
    obtain ⟨a, c, rfl⟩ := List.length_eq_two.mp harity
    cases h

theorem Builtin.ofOperation_of_apply {f : Builtin} {args : List Float}
    (harity : args.length = f.arity) (h : f.apply args = .error fault) : fault.OfOperation := by
  rcases error_of_bind h with h | ⟨z, -, h⟩
  · exact ofOperation_of_call harity h
  · exact ofOperation_of_requireFinite h

namespace Expr

/-! ### Variables of a node -/

theorem mem_vars : v ∈ e.vars ↔ e.mentions v = true := by
  have hall : v ∈ Variable.all := by cases v <;> decide
  simp [vars, hall]

theorem mentions_unaryCall (v : Variable) (f : UnaryFunction) (a : Expr) :
    (call (.unary f) [a]).mentions v = a.mentions v := by
  rw [mentions, mentionsAny, mentionsAny, Bool.or_false]

theorem mentions_binaryCall (v : Variable) (f : BinaryFunction) (a c : Expr) :
    (call (.binary f) [a, c]).mentions v = (a.mentions v || c.mentions v) := by
  rw [mentions, mentionsAny, mentionsAny, mentionsAny, Bool.or_false]

/-! ### The same variables, the same value -/

/-- Bindings that agree on the variables of a tree give it the same value, or the same fault. -/
theorem eval_congr (he : e.WellFormed) (h : ∀ v, e.mentions v = true → b'.get? v = b.get? v) :
    e.eval b' = e.eval b := by
  induction he with
  | number => rfl
  | var v => rw [eval, eval, h v (by rw [mentions, beq_self_eq_true])]
  | neg _ ih => rw [eval_neg, eval_neg, ih h]
  | binary op _ _ ihl ihr =>
    simp only [mentions, Bool.or_eq_true] at h
    rw [eval, eval, ihl fun v hv => h v (.inl hv), ihr fun v hv => h v (.inr hv)]
  | unaryCall f _ ih =>
    simp only [mentions_unaryCall] at h
    rw [eval_unaryCall, eval_unaryCall, ih h]
  | binaryCall f _ _ iha ihc =>
    simp only [mentions_binaryCall, Bool.or_eq_true] at h
    rw [eval_binaryCall, eval_binaryCall, iha fun v hv => h v (.inl hv),
      ihc fun v hv => h v (.inr hv)]

/-- A variable is reported as unbound if it stands in the tree and is not bound. -/
theorem unbound_of_eval (he : e.WellFormed) (h : e.eval b = .error (.unbound v)) :
    e.mentions v = true ∧ b.get? v = none := by
  induction he with
  | number => cases h
  | var w =>
    rw [eval] at h
    split at h
    · cases h
    · next hw =>
      cases h
      exact ⟨by rw [mentions, beq_self_eq_true], hw⟩
  | neg _ ih =>
    rw [eval_neg] at h
    rcases error_of_bind h with h | ⟨q, -, h⟩
    · exact ih h
    · obtain ⟨a, ha⟩ := Quantity.error_of_mapM h
      cases ha
  | binary op _ _ ihl ihr =>
    rw [mentions, Bool.or_eq_true]
    rcases error_of_bind h with h | ⟨l, -, h⟩
    · exact (ihl h).imp_left .inl
    rcases error_of_bind h with h | ⟨r, -, h⟩
    · exact (ihr h).imp_left .inr
    rcases Quantity.error_of_zipWithM h with ⟨m, n, h⟩ | ⟨a, c, h⟩
    · cases h
    · cases BinaryOp.ofOperation_of_apply h
  | unaryCall f _ ih =>
    rw [mentions_unaryCall]
    rw [eval_unaryCall] at h
    rcases error_of_bind h with h | ⟨q, -, h⟩
    · exact ih h
    · obtain ⟨a, ha⟩ := Quantity.error_of_mapM h
      cases Builtin.ofOperation_of_apply rfl ha
  | binaryCall f _ _ iha ihc =>
    rw [mentions_binaryCall, Bool.or_eq_true]
    rw [eval_binaryCall] at h
    rcases error_of_bind h with h | ⟨l, -, h⟩
    · exact (iha h).imp_left .inl
    rcases error_of_bind h with h | ⟨r, -, h⟩
    · exact (ihc h).imp_left .inr
    rcases Quantity.error_of_zipWithM h with ⟨m, n, h⟩ | ⟨a, c, h⟩
    · cases h
    · cases Builtin.ofOperation_of_apply rfl h

/-! ### Shapes of trees -/

/-- The variables of a tree are bound to quantities that spread to `n?`, and if `n?` is a number of
samples then one of them has as many. -/
structure Shaped (e : Expr) (b : Assignment) (n? : Option Nat) : Prop where
  bound : ∀ v, e.mentions v = true → ∃ p, b.get? v = some p ∧ p.SpreadsTo n?
  source : n? = none ∨ ∃ v p, e.mentions v = true ∧ b.get? v = some p ∧ p.length? = n?

theorem Shaped.of_operand {n? : Option Nat} (h : e.Shaped b n?)
    (hmentions : ∀ v, e'.mentions v = e.mentions v) : e'.Shaped b n? where
  bound v hv := h.bound v (hmentions v ▸ hv)
  source := h.source.imp_right fun ⟨v, p, hv, hp⟩ => ⟨v, p, (hmentions v).trans hv, hp⟩

theorem Shaped.of_operands (hleft : left.Shaped b p.length?) (hright : right.Shaped b q.length?)
    (hmentions : ∀ v, e.mentions v = (left.mentions v || right.mentions v))
    (h : Quantity.zipWithM g p q = .ok r) : e.Shaped b r.length? := by
  obtain ⟨hp, hq, hshape⟩ := Quantity.spreadsTo_zipWithM h
  have heither (v : Variable) : e.mentions v = true ↔ left.mentions v = true ∨
      right.mentions v = true := by
    rw [hmentions, Bool.or_eq_true]
  constructor
  · intro v hv
    rcases (heither v).mp hv with hv | hv
    · obtain ⟨s, hs, hspreads⟩ := hleft.bound v hv
      exact ⟨s, hs, hspreads.trans hp⟩
    · obtain ⟨s, hs, hspreads⟩ := hright.bound v hv
      exact ⟨s, hs, hspreads.trans hq⟩
  · rcases hshape with hshape | hshape
    · rw [hshape]
      exact hleft.source.imp_right fun ⟨v, s, hv, hs⟩ => ⟨v, s, (heither v).mpr (.inl hv), hs⟩
    · rw [hshape]
      exact hright.source.imp_right fun ⟨v, s, hv, hs⟩ => ⟨v, s, (heither v).mpr (.inr hv), hs⟩

/-- Numbers make a number. -/
theorem Shaped.eq_none_iff {n? : Option Nat} (h : e.Shaped b n?) :
    n? = none ↔ ∀ v, e.mentions v = true → ∃ y, b.get? v = some (.scalar y) := by
  constructor
  · rintro rfl v hv
    obtain ⟨p, hp, hspreads⟩ := h.bound v hv
    obtain ⟨y, rfl⟩ := Quantity.length?_eq_none.mp (or_self_iff.mp hspreads)
    exact ⟨y, hp⟩
  · intro hnumbers
    rcases h.source with hnone | ⟨v, p, hv, hp, hlength⟩
    · exact hnone
    · obtain ⟨y, hy⟩ := hnumbers v hv
      rw [hp, Option.some_inj] at hy
      rw [← hlength, hy, Quantity.length?]

/-- A list makes a list of its length. -/
theorem Shaped.eq_some {n? : Option Nat} (h : e.Shaped b n?) (hv : e.mentions v = true)
    {zs : List Float} (hzs : b.get? v = some (.array zs)) : n? = some zs.length := by
  obtain ⟨p, hp, hspreads⟩ := h.bound v hv
  rw [hzs, Option.some_inj] at hp
  subst hp
  rcases hspreads with hnone | hsome
  · cases hnone
  · exact hsome.symm

/-- A tree that has a value has the shape of it. -/
theorem shaped_of_eval (he : e.WellFormed) (h : e.eval b = .ok q) : e.Shaped b q.length? := by
  induction he generalizing q with
  | number =>
    cases h
    exact ⟨by simp [mentions], .inl rfl⟩
  | var w =>
    rw [eval] at h
    split at h
    · next hw =>
      cases h
      have hmentions (v : Variable) : (var w).mentions v = true ↔ v = w := by
        rw [mentions, beq_iff_eq, eq_comm]
      refine ⟨fun v hv => ?_, .inr ⟨w, q, (hmentions w).mpr rfl, hw, rfl⟩⟩
      rw [(hmentions v).mp hv]
      exact ⟨q, hw, .inr rfl⟩
    · cases h
  | neg _ ih =>
    rw [eval_neg] at h
    obtain ⟨p, hp, h⟩ := ok_of_bind h
    rw [Quantity.length?_mapM h]
    exact (ih hp).of_operand fun v => by rw [mentions]
  | binary op _ _ ihl ihr =>
    obtain ⟨l, hl, h⟩ := ok_of_bind h
    obtain ⟨r, hr, h⟩ := ok_of_bind h
    exact (ihl hl).of_operands (ihr hr) (fun v => by rw [mentions]) h
  | unaryCall f _ ih =>
    rw [eval_unaryCall] at h
    obtain ⟨p, hp, h⟩ := ok_of_bind h
    rw [Quantity.length?_mapM h]
    exact (ih hp).of_operand fun v => mentions_unaryCall v f _
  | binaryCall f _ _ iha ihc =>
    rw [eval_binaryCall] at h
    obtain ⟨l, hl, h⟩ := ok_of_bind h
    obtain ⟨r, hr, h⟩ := ok_of_bind h
    exact (iha hl).of_operands (ihc hr) (fun v => mentions_binaryCall v f _ _) h

end Expr

/-! ### Finite bindings -/

/-- Every value bound is finite. -/
def Assignment.AllFinite (b : Assignment) : Prop := ∀ v q, b.get? v = some q → q.AllFinite

theorem Assignment.allFinite_pair (hx : p.AllFinite) (hT : q.AllFinite) :
    AllFinite ⟨some p, some q⟩ := by
  rintro (_ | _) r ⟨⟩
  · exact hx
  · exact hT

theorem Assignment.AllFinite.check (h : b.AllFinite) : b.check = .ok () := by
  have hvalues : ∀ pair ∈ b.values, pair.2.isFinite = true := by
    rintro ⟨v, y⟩ hmem
    obtain ⟨w, -, hmem⟩ := List.mem_flatMap.mp hmem
    cases hw : b.get? w with
    | none => simp [hw] at hmem
    | some q =>
      rw [hw, Option.elim_some, List.mem_map] at hmem
      obtain ⟨y', hy, heq⟩ := hmem
      cases heq
      exact h v q hw y hy
  have hfind : b.values.find? (!·.2.isFinite) = none := by
    simpa using hvalues
  rw [Assignment.check, hfind]

namespace Expr

theorem evaluate_of_allFinite (h : b.AllFinite) : e.evaluate b = e.eval b := by
  rw [evaluate, h.check, ok_bind]

/-- The value of a formula, under finite bindings, is determined by what its variables are bound to.
It is a number if all of them are bound to numbers, and else a list as long as every list among
them. -/
theorem evaluate_reads_vars {R : Registry} {text : String} (hparse : Expr.parseWith R text = .ok e)
    (hb : b.AllFinite) :
    (∀ b' : Assignment, b'.AllFinite → (∀ v ∈ e.vars, b'.get? v = b.get? v) →
      e.evaluate b' = e.evaluate b) ∧
      (∀ v, e.evaluate b = .error (.unbound v) → v ∈ e.vars ∧ b.get? v = none) ∧
      (∀ q, e.evaluate b = .ok q →
        (∀ v ∈ e.vars, ∃ p, b.get? v = some p) ∧
        ((∃ y, q = .scalar y) ↔ ∀ v ∈ e.vars, ∃ y, b.get? v = some (.scalar y)) ∧
        ((¬∀ v ∈ e.vars, ∃ y, b.get? v = some (.scalar y)) →
          ∃ ys, q = .array ys ∧ ∀ v ∈ e.vars, ∀ zs, b.get? v = some (.array zs) →
            ys.length = zs.length)) ∧
      ∀ v ∈ e.vars, ∀ w ∈ e.vars, ∀ ys zs, b.get? v = some (.array ys) →
        b.get? w = some (.array zs) → ys.length ≠ zs.length →
          ∃ fault, e.evaluate b = .error fault := by
  have he := wellFormed_of_parseWith hparse
  rw [evaluate_of_allFinite hb]
  refine ⟨fun b' hb' hagree => ?_, fun v h => ?_, fun q h => ?_,
    fun v hv w hw ys zs hys hzs hne => ?_⟩
  · rw [evaluate_of_allFinite hb']
    exact eval_congr he fun v hv => hagree v (mem_vars.mpr hv)
  · exact (unbound_of_eval he h).imp_left mem_vars.mpr
  · have hshaped := shaped_of_eval he h
    have hnumber : (∃ y, q = .scalar y) ↔ ∀ v ∈ e.vars, ∃ y, b.get? v = some (.scalar y) := by
      simp only [mem_vars]
      rw [← Quantity.length?_eq_none, hshaped.eq_none_iff]
    refine ⟨fun v hv => ?_, hnumber, fun hlist => ?_⟩
    · obtain ⟨p, hp, -⟩ := hshaped.bound v (mem_vars.mp hv)
      exact ⟨p, hp⟩
    · cases q with
      | scalar y => exact absurd (hnumber.mp ⟨y, rfl⟩) hlist
      | array ys =>
        exact ⟨ys, rfl,
          fun v hv zs hzs => Option.some_inj.mp (hshaped.eq_some (mem_vars.mp hv) hzs)⟩
  · cases h : e.eval b with
    | error fault => exact ⟨fault, rfl⟩
    | ok q =>
      have hshaped := shaped_of_eval he h
      have hlengths :=
        (hshaped.eq_some (mem_vars.mp hv) hys).symm.trans (hshaped.eq_some (mem_vars.mp hw) hzs)
      exact absurd (Option.some_inj.mp hlengths) hne

/-- At two numbers the quotient is a number, and at two samples over a number there are as many
quotients as samples. Two samples over three temperatures have none. -/
theorem evaluate_rootOverT_lengths :
    (rootOverT.evaluate ⟨some (.scalar 4.0), some (.scalar 2.0)⟩ = .ok (.scalar 1.0) ∧
        ∀ v ∈ rootOverT.vars, ∃ y, Assignment.get? ⟨some (.scalar 4.0), some (.scalar 2.0)⟩ v =
          some (.scalar y)) ∧
      (rootOverT.evaluate ⟨some (.array [1.0, 4.0]), some (.scalar 2.0)⟩ = .ok (.array [0.5, 1.0]) ∧
        [(0.5 : Float), 1.0].length = [(1.0 : Float), 4.0].length) ∧
      ∃ fault, rootOverT.evaluate
        ⟨some (.array [1.0, 4.0]), some (.array [280.0, 290.0, 300.0])⟩ = .error fault := by
  have hsamples : Quantity.AllFinite (.array [1.0, 4.0]) := by decide
  refine ⟨?numbers, ?samples, ?lengths⟩
  case numbers =>
    have hfinite :=
      Assignment.allFinite_pair (p := .scalar 4.0) (q := .scalar 2.0) (by decide) (by decide)
    have hvalue : rootOverT.evaluate ⟨some (.scalar 4.0), some (.scalar 2.0)⟩ =
        .ok (.scalar 1.0) := by
      decide +kernel
    exact ⟨hvalue, ((evaluate_reads_vars parse_rootOverT hfinite).2.2.1 _ hvalue).2.1.mp ⟨_, rfl⟩⟩
  case samples =>
    have hfinite := Assignment.allFinite_pair (q := .scalar 2.0) hsamples (by decide)
    have hvalue : rootOverT.evaluate ⟨some (.array [1.0, 4.0]), some (.scalar 2.0)⟩ =
        .ok (.array [0.5, 1.0]) := by decide +kernel
    obtain ⟨ys, hys, hlength⟩ := ((evaluate_reads_vars parse_rootOverT hfinite).2.2.1 _ hvalue).2.2
      fun hnumbers => by
        obtain ⟨y, hy⟩ := hnumbers .x (mem_vars.mpr rfl)
        cases hy
    cases hys
    exact ⟨hvalue, hlength .x (mem_vars.mpr rfl) _ rfl⟩
  case lengths =>
    have hfinite :=
      Assignment.allFinite_pair (q := .array [280.0, 290.0, 300.0]) hsamples (by decide)
    exact (evaluate_reads_vars parse_rootOverT hfinite).2.2.2 .x (mem_vars.mpr rfl) .T
      (mem_vars.mpr rfl)
      _ _ rfl rfl (by decide)

end Expr

end BatteryParams

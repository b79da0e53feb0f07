import BatteryParams.Proofs.Expr.Checked
import BatteryParams.Proofs.Pointwise
import BatteryParams.Value

/-!
# Values at many samples

A list of samples is evaluated node by node, each operation over the whole list.
`Expr.pointwise_eval` says that this gives what evaluating the tree at each sample gives, or else
the failure of one of the samples; the result for a list is thereby as long as the list.
`Value.evaluateEach_iff_evaluate` says the same of constants, formulas and tables.
-/

namespace BatteryParams

variable {f : Float → Except EvalFault Float} {g : Float → Float → Except EvalFault Float}
variable {n : Nat} {p q : Quantity} {xs : List Float} {T : Option Quantity}

/-! ### Quantities and their samples -/

namespace Quantity

/-- The samples of a quantity, each as a quantity of its own. -/
def samples (n : Nat) (q : Quantity) : List Quantity := (q.toList n).map .scalar

/-- A number, or a list of `n` samples. -/
def Fits (n : Nat) (q : Quantity) : Prop := (q.toList n).length = n

theorem fits_scalar (n : Nat) (a : Float) : (scalar a).Fits n := List.length_replicate

theorem fits_of_scalar {T : Option Float} {t : Quantity} (h : T.map scalar = some t) :
    t.Fits n := by
  obtain ⟨a, -, rfl⟩ := Option.map_eq_some_iff.mp h
  exact fits_scalar n a

theorem fits_mapM (hq : q.Fits n) (h : q.mapM f = .ok p) : p.Fits n := by
  cases q with
  | scalar a =>
    obtain ⟨b, -, h⟩ := ok_of_bind h
    cases h
    exact fits_scalar n b
  | array as =>
    obtain ⟨bs, hbs, h⟩ := ok_of_bind h
    cases h
    exact (length_of_mapM hbs).trans hq

theorem fits_zipWithM {q r : Quantity} (hq : q.Fits n) (hr : r.Fits n)
    (h : zipWithM g q r = .ok p) : p.Fits n := by
  cases q with
  | scalar a =>
    cases r with
    | scalar b =>
      obtain ⟨c, -, h⟩ := ok_of_bind h
      cases h
      exact fits_scalar n c
    | array bs =>
      obtain ⟨cs, hcs, h⟩ := ok_of_bind h
      cases h
      exact (length_of_mapM hcs).trans hr
  | array as =>
    cases r with
    | scalar b =>
      obtain ⟨cs, hcs, h⟩ := ok_of_bind h
      cases h
      exact (length_of_mapM hcs).trans hq
    | array bs =>
      have hlength : as.length = bs.length := hq.trans hr.symm
      rw [zipWithM, if_pos hlength] at h
      obtain ⟨cs, hcs, h⟩ := ok_of_bind h
      cases h
      have hzip : (as.zip bs).length = n := by
        rw [List.length_zip, ← hlength, Nat.min_self]
        exact hq
      exact (length_of_mapM hcs).trans hzip

theorem toList_mapM (hn : n ≠ 0) (f : Float → Except EvalFault Float) (q : Quantity) :
    (q.mapM f).map (toList n) = (q.toList n).mapM f := by
  cases q with
  | scalar a =>
    rw [toList, mapM_replicate hn, mapM]
    cases f a with
    | error e => rfl
    | ok b => rfl
  | array as =>
    rw [toList, mapM]
    cases as.mapM f with
    | error e => rfl
    | ok bs => rfl

theorem zip_replicate_left {α β : Type} (a : α) (bs : List β) :
    (List.replicate bs.length a).zip bs = bs.map fun b => (a, b) := by
  induction bs with
  | nil => rfl
  | cons b bs ih =>
    rw [List.length_cons, List.replicate_succ, List.zip_cons_cons, ih, List.map_cons]

theorem zip_replicate_right {α β : Type} (as : List α) (b : β) :
    as.zip (List.replicate as.length b) = as.map fun a => (a, b) := by
  induction as with
  | nil => rfl
  | cons a as ih =>
    rw [List.length_cons, List.replicate_succ, List.zip_cons_cons, ih, List.map_cons]

theorem toList_zipWithM (hn : n ≠ 0) (g : Float → Float → Except EvalFault Float) (hp : p.Fits n)
    (hq : q.Fits n) :
    (zipWithM g p q).map (toList n) = ((p.toList n).zip (q.toList n)).mapM fun pair =>
      g pair.1 pair.2 := by
  cases p with
  | scalar a =>
    cases q with
    | scalar b =>
      rw [toList, toList, List.zip_replicate', mapM_replicate hn, zipWithM]
      cases g a b with
      | error e => rfl
      | ok c => rfl
    | array bs =>
      have hlength : bs.length = n := hq
      rw [toList, toList, ← hlength, zip_replicate_left, List.mapM_map, zipWithM]
      show (bs.mapM (g a) >>= _).map _ = bs.mapM (g a)
      cases bs.mapM (g a) with
      | error e => rfl
      | ok cs => rfl
  | array as =>
    have hlength : as.length = n := hp
    cases q with
    | scalar b =>
      rw [toList, toList, ← hlength, zip_replicate_right, List.mapM_map, zipWithM]
      show (as.mapM (g · b) >>= _).map _ = as.mapM (g · b)
      cases as.mapM (g · b) with
      | error e => rfl
      | ok cs => rfl
    | array bs =>
      have hlength' : bs.length = n := hq
      rw [toList, toList, zipWithM, if_pos (hlength.trans hlength'.symm)]
      cases (as.zip bs).mapM fun pair => g pair.1 pair.2 with
      | error e => rfl
      | ok cs => rfl

theorem map_samples (r : Except EvalFault Quantity) :
    r.map (samples n) = (r.map (toList n)).map (List.map scalar) := by
  cases r with
  | error e => rfl
  | ok q => rfl

theorem samples_scalar (n : Nat) (a : Float) : (scalar a).samples n = List.replicate n (scalar a) :=
  List.map_replicate

/-- An operation on a quantity is done on each sample. -/
theorem samples_mapM (hn : n ≠ 0) (f : Float → Except EvalFault Float) (q : Quantity) :
    (q.mapM f).map (samples n) = (q.samples n).mapM (Quantity.mapM f) := by
  rw [map_samples, toList_mapM hn, ← mapM_map_result, samples, List.mapM_map]
  rfl

/-- An operation on two quantities is done on the pairs of their samples. -/
theorem samples_zipWithM (hn : n ≠ 0) (g : Float → Float → Except EvalFault Float) (hp : p.Fits n)
    (hq : q.Fits n) : (zipWithM g p q).map (samples n) =
      ((p.samples n).zip (q.samples n)).mapM fun pair => zipWithM g pair.1 pair.2 := by
  rw [map_samples, toList_zipWithM hn g hp hq, ← mapM_map_result, samples, samples, List.zip_map,
    List.mapM_map]
  rfl

end Quantity

/-! ### Trees -/

namespace Expr

/-- Every value in the evaluation of a list of samples is a number or a list of the same length. -/
theorem fits_eval {e : Expr} (he : e.WellFormed) (hT : ∀ t, T = some t → t.Fits n)
    (hn : xs.length = n) (h : e.eval ⟨some (.array xs), T⟩ = .ok q) : q.Fits n := by
  induction he generalizing q with
  | number =>
    cases h
    exact Quantity.fits_scalar n _
  | var v =>
    cases v with
    | x =>
      cases h
      exact hn
    | T =>
      cases T with
      | none => cases h
      | some t =>
        cases h
        exact hT _ rfl
  | neg _ ih =>
    rw [eval_neg] at h
    obtain ⟨r, hr, h⟩ := ok_of_bind h
    exact Quantity.fits_mapM (ih hr) h
  | binary op _ _ ihleft ihright =>
    obtain ⟨l, hl, h⟩ := ok_of_bind h
    obtain ⟨r, hr, h⟩ := ok_of_bind h
    exact Quantity.fits_zipWithM (ihleft hl) (ihright hr) h
  | unaryCall f _ ih =>
    rw [eval_unaryCall] at h
    obtain ⟨r, hr, h⟩ := ok_of_bind h
    exact Quantity.fits_mapM (ih hr) h
  | binaryCall f _ _ iha ihb =>
    rw [eval_binaryCall] at h
    obtain ⟨l, hl, h⟩ := ok_of_bind h
    obtain ⟨r, hr, h⟩ := ok_of_bind h
    exact Quantity.fits_zipWithM (iha hl) (ihb hr) h

/-- A step on one quantity that is done on each sample. -/
theorem pointwise_step {one : Float → Except EvalFault Quantity} {r : Except EvalFault Quantity}
    {step : Quantity → Except EvalFault Quantity}
    (h : Pointwise one xs (r.map (Quantity.samples n)))
    (hstep : ∀ q, r = .ok q → (step q).map (Quantity.samples n) = (q.samples n).mapM step) :
    Pointwise (fun x => one x >>= step) xs ((r >>= step).map (Quantity.samples n)) := by
  have hbind := h.bind step
  cases r with
  | error e => exact hbind
  | ok q =>
    rw [ok_bind, hstep q rfl]
    exact hbind

/-- A step on two quantities that is done on the pairs of their samples. -/
theorem pointwise_pairStep {one other : Float → Except EvalFault Quantity}
    {r s : Except EvalFault Quantity} {step : Quantity → Quantity → Except EvalFault Quantity}
    (hr : Pointwise one xs (r.map (Quantity.samples n)))
    (hs : Pointwise other xs (s.map (Quantity.samples n)))
    (hstep : ∀ p q, r = .ok p → s = .ok q →
      (step p q).map (Quantity.samples n) = ((p.samples n).zip (q.samples n)).mapM fun pair =>
        step pair.1 pair.2) :
    Pointwise (fun x => do step (← one x) (← other x)) xs
      ((do step (← r) (← s)).map (Quantity.samples n)) := by
  have hzip := hr.zip hs step
  cases r with
  | error e => exact hzip
  | ok p =>
    cases s with
    | error e => exact hzip
    | ok q =>
      rw [ok_bind, ok_bind, hstep p q rfl rfl]
      exact hzip

/-- Evaluating a tree at a list of samples is evaluating it at each of them. -/
theorem pointwise_eval {e : Expr} (he : e.WellFormed) (hne : xs ≠ []) (T : Option Float) :
    Pointwise (fun x => e.eval ⟨some (.scalar x), T.map .scalar⟩) xs
      ((e.eval ⟨some (.array xs), T.map .scalar⟩).map (Quantity.samples xs.length)) := by
  have hn : xs.length ≠ 0 := fun h => hne (List.length_eq_zero_iff.mp h)
  have hT : ∀ t, T.map Quantity.scalar = some t → t.Fits xs.length :=
    fun t ht => Quantity.fits_of_scalar ht
  induction he with
  | @number value =>
    have hreplicate := pointwise_replicate hne (Except.ok (ε := EvalFault) (Quantity.scalar value))
    rw [Except.map, ← Quantity.samples_scalar] at hreplicate
    exact hreplicate
  | var v =>
    cases v with
    | x =>
      show List.Forall₂ _ xs (xs.map Quantity.scalar)
      exact List.forall₂_map_right_iff.mpr (List.forall₂_same.mpr fun x _ => rfl)
    | T =>
      cases T with
      | none => exact pointwise_replicate hne (Except.error (EvalFault.unbound .T))
      | some t =>
        have hreplicate := pointwise_replicate hne (Except.ok (ε := EvalFault) (Quantity.scalar t))
        rw [Except.map, ← Quantity.samples_scalar] at hreplicate
        exact hreplicate
  | neg _ ih =>
    simp only [eval_neg]
    exact pointwise_step ih fun q _ => Quantity.samples_mapM hn _ q
  | binary op hl hr ihl ihr =>
    exact pointwise_pairStep ihl ihr fun p q hp hq =>
      Quantity.samples_zipWithM hn op.apply (fits_eval hl hT rfl hp) (fits_eval hr hT rfl hq)
  | unaryCall f _ ih =>
    simp only [eval_unaryCall]
    exact pointwise_step ih fun q _ => Quantity.samples_mapM hn _ q
  | binaryCall f ha hb iha ihb =>
    simp only [eval_binaryCall]
    exact pointwise_pairStep iha ihb fun p q hp hq =>
      Quantity.samples_zipWithM hn _ (fits_eval ha hT rfl hp) (fits_eval hb hT rfl hq)

end Expr

/-! ### Checking the bindings -/

/-- The check of the temperature alone. -/
def checkTemperature (T : Option Float) : Except EvalFault Unit :=
  match T.toList.find? (!·.isFinite) with
  | some value => .error (.nonFinite .T value)
  | none => .ok ()

/-- The samples are checked first, the temperature after them. -/
theorem Assignment.check_eq (q : Quantity) (T : Option Float) :
    Assignment.check ⟨some q, T.map .scalar⟩ =
      (do Value.checkArguments q.values; checkTemperature T) := by
  have hvalues : Assignment.values ⟨some q, T.map .scalar⟩ =
      q.values.map (Variable.x, ·) ++ T.toList.map (Variable.T, ·) := by
    cases T with
    | none => rfl
    | some t => rfl
  rw [check, hvalues, List.find?_append, List.find?_map, List.find?_map, Value.checkArguments,
    checkTemperature]
  simp only [Function.comp_def]
  cases q.values.find? (!·.isFinite) with
  | some value => rfl
  | none =>
    cases T.toList.find? (!·.isFinite) with
    | some value => rfl
    | none => rfl

theorem checkArguments_eq_ok {xs : List Float} :
    Value.checkArguments xs = .ok () ↔ ∀ x ∈ xs, x.isFinite = true := by
  rw [Value.checkArguments]
  cases hfind : xs.find? (!·.isFinite) with
  | some value =>
    have hinfinite : value.isFinite = false := by simpa using List.find?_some hfind
    constructor
    · nofun
    · intro hfinite
      rw [hfinite value (List.mem_of_find?_eq_some hfind)] at hinfinite
      cases hinfinite
  | none =>
    have hfinite : ∀ x ∈ xs, x.isFinite = true := by simpa using hfind
    exact ⟨fun _ => hfinite, fun _ => rfl⟩

/-- A list fails the check as one of its members does. -/
theorem exists_of_checkArguments {xs : List Float} {fault : EvalFault}
    (h : Value.checkArguments xs = .error fault) :
    ∃ x ∈ xs, Value.checkArguments [x] = .error fault := by
  rw [Value.checkArguments] at h
  split at h
  · next value hfind =>
    have hinfinite : (!value.isFinite) = true :=
      List.find?_some (p := fun x : Float => !x.isFinite) hfind
    refine ⟨value, List.mem_of_find?_eq_some hfind, ?_⟩
    rw [Value.checkArguments, List.find?_singleton, hinfinite]
    exact h
  · cases h

/-- A computation that starts with the check of its samples. -/
theorem pointwise_checked {α : Type} {one : Float → Except EvalFault α}
    {many : Except EvalFault (List α)} (h : Pointwise one xs many) :
    Pointwise (fun x => do Value.checkArguments [x]; one x) xs
      (do Value.checkArguments xs; many) := by
  cases hcheck : Value.checkArguments xs with
  | error fault =>
    obtain ⟨x, hx, hfault⟩ := exists_of_checkArguments hcheck
    exact ⟨x, hx, by simp only [hfault, error_bind]⟩
  | ok _ =>
    refine h.congr fun x hx => ?_
    have hx : Value.checkArguments [x] = .ok () := by
      rw [checkArguments_eq_ok, List.forall_mem_singleton]
      exact checkArguments_eq_ok.mp hcheck x hx
    rw [hx, ok_bind]

/-! ### Values -/

/-- The value of an evaluation at one sample. -/
def firstValue (q : Quantity) : Except EvalFault Float :=
  match (q.toList 1)[0]? with
  | some y => .ok y
  | none => .error (.missing 0)

theorem mapM_firstValue (q : Quantity) (n : Nat) :
    (q.samples n).mapM firstValue = .ok (q.toList n) := by
  rw [Quantity.samples, List.mapM_map]
  exact (List.mapM_pure (m := Except EvalFault) (f := id)).trans (by rw [List.map_id]; rfl)

namespace Expr

theorem evaluate_eq (e : Expr) (q : Quantity) (T : Option Float) :
    e.evaluate ⟨some q, T.map .scalar⟩ =
      (do Value.checkArguments q.values; checkTemperature T; e.eval ⟨some q, T.map .scalar⟩) := by
  rw [evaluate, Assignment.check_eq]
  cases Value.checkArguments q.values with
  | error fault => rfl
  | ok _ => rfl

theorem pointwise_evaluate {e : Expr} (he : e.WellFormed) (hne : xs ≠ []) (T : Option Float) :
    Pointwise (fun x => e.evaluate ⟨some (.scalar x), T.map .scalar⟩) xs
      ((e.evaluate ⟨some (.array xs), T.map .scalar⟩).map (Quantity.samples xs.length)) := by
  simp only [evaluate_eq, mapped_bind, Quantity.values]
  apply pointwise_checked
  cases checkTemperature T with
  | error fault => exact pointwise_replicate hne (.error fault)
  | ok _ => exact pointwise_eval he hne T

end Expr

namespace Value

/-- Evaluating at a list of arguments is evaluating at each of them. -/
theorem pointwise_evaluateEach (v : Value) (hne : xs ≠ []) (T : Option Float) :
    Pointwise (fun x => v.evaluate x T) xs (v.evaluateEach xs T) := by
  cases v with
  | constant c => exact pointwise_replicate hne (Except.ok c)
  | formula f =>
    have hformula :=
      (Expr.pointwise_evaluate (Expr.wellFormed_of_parseWith f.parsed) hne T).bind firstValue
    rw [evaluateEach]
    cases hmany : f.tree.evaluate ⟨some (.array xs), T.map .scalar⟩ with
    | error fault =>
      rw [hmany] at hformula
      exact hformula
    | ok q =>
      rw [hmany, Except.map, ok_bind, mapM_firstValue] at hformula
      exact hformula
  | table t =>
    apply pointwise_checked
    show List.Forall₂ _ xs (xs.map t.evaluate)
    exact List.forall₂_map_right_iff.mpr (List.forall₂_same.mpr fun x _ => rfl)

theorem eq_nil_of_evaluateEach_nil {v : Value} {ys : List Float} {T : Option Float}
    (h : v.evaluateEach [] T = .ok ys) : ys = [] := by
  cases v with
  | constant c =>
    cases h
    rfl
  | formula f =>
    obtain ⟨q, hq, h⟩ := ok_of_bind h
    cases h
    rw [Expr.evaluate_eq] at hq
    obtain ⟨_, -, hq⟩ := ok_of_bind hq
    obtain ⟨_, -, hq⟩ := ok_of_bind hq
    have hfits : q.Fits 0 :=
      Expr.fits_eval (Expr.wellFormed_of_parseWith f.parsed) (fun t ht =>
        Quantity.fits_of_scalar ht) rfl hq
    exact List.length_eq_zero_iff.mp hfits
  | table t =>
    obtain ⟨_, -, h⟩ := ok_of_bind h
    cases h
    rfl

/-- Whatever the value: at some arguments, it has the values that it has at each of them, and it
fails only as it fails at one of them; at no arguments it has no values. -/
theorem evaluateEach_iff_evaluate (v : Value) (T : Option Float) :
    (∀ xs, xs ≠ [] →
      (∀ ys, v.evaluateEach xs T = .ok ys ↔
        List.Forall₂ (fun x y => v.evaluate x T = .ok y) xs ys) ∧
      ∀ fault, v.evaluateEach xs T = .error fault → ∃ x ∈ xs, v.evaluate x T = .error fault) ∧
    ∀ ys, v.evaluateEach [] T = .ok ys → ys = [] := by
  refine ⟨fun xs hne => ?_, fun ys h => eq_nil_of_evaluateEach_nil h⟩
  have hpointwise := v.pointwise_evaluateEach hne T
  refine ⟨hpointwise.eq_ok_iff, fun fault hfault => ?_⟩
  rw [hfault] at hpointwise
  exact hpointwise

end Value

/-- A root over the temperature. -/
def rootFormula : Formula := ⟨"sqrt(x)/T", Expr.rootOverT, Expr.parse_rootOverT⟩

/-- Two samples have the values that each has by itself, and a list with a negative sample fails as
that sample does. -/
theorem Value.evaluateEach_rootFormula :
    (formula rootFormula).evaluateEach [1.0, 4.0] (some 2.0) = .ok [0.5, 1.0] ∧
      ∃ x ∈ [4.0, -1.0],
        (formula rootFormula).evaluate x (some 2.0) = .error (.domain (.refused .sqrt (-1.0))) := by
  have heach (xs : List Float) (hne : xs ≠ []) :=
    (evaluateEach_iff_evaluate (formula rootFormula) (some 2.0)).1 xs hne
  have hone : (formula rootFormula).evaluate 1.0 (some 2.0) = .ok 0.5 := by decide +kernel
  have hfour : (formula rootFormula).evaluate 4.0 (some 2.0) = .ok 1.0 := by decide +kernel
  have hnegative : (formula rootFormula).evaluateEach [4.0, -1.0] (some 2.0) =
      .error (.domain (.refused .sqrt (-1.0))) := by decide +kernel
  exact ⟨((heach _ (List.cons_ne_nil _ _)).1 _).mpr (.cons hone (.cons hfour .nil)),
    (heach _ (List.cons_ne_nil _ _)).2 _ hnegative⟩

end BatteryParams

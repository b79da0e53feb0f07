import BatteryParams.Proofs.Expr.Checked
import BatteryParams.Proofs.Expr.Samples

/-!
# Formulas have finite values

The bindings of a formula are checked before it is evaluated, and the result of every operator and
every function on the way. The numbers that stand in a formula are finite as well, since a text with
another one is no formula. So whatever value a formula has is finite.
-/

namespace BatteryParams

/-! ### Quantities -/

theorem forall_mem_of_mapM {α β ε : Type} {P : β → Prop} {f : α → Except ε β} {xs : List α}
    {ys : List β}
    (h : xs.mapM f = .ok ys) (hP : ∀ x ∈ xs, ∀ y, f x = .ok y → P y) : ∀ y ∈ ys, P y := by
  have hpointwise : List.Forall₂ (fun x y => f x = .ok y) xs ys := by
    have := pointwise_mapM f xs
    rwa [h] at this
  clear h
  induction hpointwise with
  | nil => exact List.forall_mem_nil P
  | cons hhead _ ih =>
    rw [List.forall_mem_cons] at hP ⊢
    exact ⟨hP.1 _ hhead, ih hP.2⟩

namespace Quantity

def AllFinite (q : Quantity) : Prop := ∀ y ∈ q.values, y.isFinite = true

instance (q : Quantity) : Decidable q.AllFinite :=
  inferInstanceAs (Decidable (∀ y ∈ q.values, y.isFinite = true))

theorem allFinite_mapM {f : Float → Except EvalFault Float} {p q : Quantity} (hq : q.AllFinite)
    (hf : ∀ a z, a.isFinite = true → f a = .ok z → z.isFinite = true) (h : q.mapM f = .ok p) :
    p.AllFinite := by
  cases q with
  | scalar a =>
    obtain ⟨b, hb, h⟩ := ok_of_bind h
    cases h
    exact List.forall_mem_singleton.mpr (hf a b (hq a (by simp [values])) hb)
  | array as =>
    obtain ⟨bs, hbs, h⟩ := ok_of_bind h
    cases h
    exact forall_mem_of_mapM hbs fun a ha z hz => hf a z (hq a ha) hz

theorem allFinite_zipWithM {g : Float → Float → Except EvalFault Float} {p q r : Quantity}
    (hg : ∀ a b z, g a b = .ok z → z.isFinite = true) (h : zipWithM g q r = .ok p) :
    p.AllFinite := by
  cases q with
  | scalar a =>
    cases r with
    | scalar b =>
      obtain ⟨c, hc, h⟩ := ok_of_bind h
      cases h
      exact List.forall_mem_singleton.mpr (hg a b c hc)
    | array bs =>
      obtain ⟨cs, hcs, h⟩ := ok_of_bind h
      cases h
      exact forall_mem_of_mapM hcs fun b _ z hz => hg a b z hz
  | array as =>
    cases r with
    | scalar b =>
      obtain ⟨cs, hcs, h⟩ := ok_of_bind h
      cases h
      exact forall_mem_of_mapM hcs fun a _ z hz => hg a b z hz
    | array bs =>
      rw [zipWithM] at h
      split at h
      · obtain ⟨cs, hcs, h⟩ := ok_of_bind h
        cases h
        exact forall_mem_of_mapM hcs fun pair _ z hz => hg pair.1 pair.2 z hz
      · cases h

end Quantity

/-! ### Trees -/

theorem isFinite_of_guarded {guard : Bool} {fault : EvalFault} {operation : Operation}
    {value z : Float}
    (h : (if guard then .error fault else requireFinite operation value) = .ok z) :
    z.isFinite = true := by
  cases guard with
  | true => cases h
  | false =>
    obtain ⟨hfinite, rfl⟩ := requireFinite_eq_ok.mp h
    exact hfinite

theorem isFinite_of_apply {op : BinaryOp} {a b z : Float} (h : op.apply a b = .ok z) :
    z.isFinite = true :=
  isFinite_of_guarded h

theorem isFinite_of_call {f : Builtin} {args : List Float} {z : Float} (h : f.apply args = .ok z) :
    z.isFinite = true := by
  obtain ⟨y, -, h⟩ := ok_of_bind h
  obtain ⟨hfinite, rfl⟩ := requireFinite_eq_ok.mp h
  exact hfinite

theorem allFinite_of_check {b : Assignment} (h : b.check = .ok ()) {v : Variable} {q : Quantity}
    (hv : b.get? v = some q) : q.AllFinite := by
  intro y hy
  have hmem : (v, y) ∈ b.values := by
    refine List.mem_flatMap.mpr ⟨v, by cases v <;> decide, ?_⟩
    rw [hv]
    exact List.mem_map_of_mem hy
  rw [Assignment.check] at h
  split at h
  · cases h
  · next hfind => simpa using List.find?_eq_none.mp hfind _ hmem

/-- Under finite bindings every value that a tree has is finite. -/
theorem Expr.allFinite_eval {e : Expr} (he : e.WellFormed) {b : Assignment}
    (hcheck : b.check = .ok ()) {q : Quantity} (h : e.eval b = .ok q) : q.AllFinite := by
  induction he generalizing q with
  | number hvalue =>
    cases h
    exact List.forall_mem_singleton.mpr hvalue
  | var v =>
    rw [eval] at h
    split at h
    · next hv =>
      cases h
      exact allFinite_of_check hcheck hv
    · cases h
  | neg _ ih =>
    rw [eval_neg] at h
    obtain ⟨r, hr, h⟩ := ok_of_bind h
    refine Quantity.allFinite_mapM (ih hr) (fun a z ha hz => ?_) h
    cases hz
    exact Double.isFinite_neg ha
  | binary op _ _ _ _ =>
    obtain ⟨l, _, h⟩ := ok_of_bind h
    obtain ⟨r, _, h⟩ := ok_of_bind h
    exact Quantity.allFinite_zipWithM (fun _ _ _ => isFinite_of_apply) h
  | unaryCall f _ ih =>
    rw [eval_unaryCall] at h
    obtain ⟨r, hr, h⟩ := ok_of_bind h
    exact Quantity.allFinite_mapM (ih hr) (fun _ _ _ => isFinite_of_call) h
  | binaryCall f _ _ _ _ =>
    rw [eval_binaryCall] at h
    obtain ⟨l, _, h⟩ := ok_of_bind h
    obtain ⟨r, _, h⟩ := ok_of_bind h
    exact Quantity.allFinite_zipWithM (fun _ _ _ => isFinite_of_call) h

end BatteryParams

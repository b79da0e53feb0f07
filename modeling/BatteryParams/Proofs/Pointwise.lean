import BatteryParams.Proofs.Except
import Mathlib.Data.List.Forall2

/-!
# Results for a list and for its members

A computation over a list may go member by member, or step by step with each step over the whole
list. `Pointwise` relates both: a success for the list is the list of the successes for its members,
and a failure for the list is the failure of some member. Which member's failure comes first is left
open, since an early step may fail for a member that stands late.
-/

namespace BatteryParams

variable {ε α β γ δ : Type}

/-- What a list yields is what its members yield, in their order, or else the failure of one of
them. -/
def Pointwise (one : α → Except ε β) (xs : List α) : Except ε (List β) → Prop
  | .ok ys => List.Forall₂ (fun x y => one x = .ok y) xs ys
  | .error e => ∃ x ∈ xs, one x = .error e

variable {one : α → Except ε β} {xs : List α} {many : Except ε (List β)}

theorem eq_of_forall₂_ok {ys zs : List β} (hy : List.Forall₂ (fun x y => one x = .ok y) xs ys)
    (hz : List.Forall₂ (fun x z => one x = .ok z) xs zs) : ys = zs := by
  induction hy generalizing zs with
  | nil =>
    cases hz
    rfl
  | cons hhead _ ih =>
    cases hz with
    | cons hhead' htail' =>
      rw [hhead] at hhead'
      rw [Except.ok.inj hhead', ih htail']

theorem not_error_of_forall₂_ok {ys : List β} (hy : List.Forall₂ (fun x y => one x = .ok y) xs ys)
    {e : ε} : ∀ x ∈ xs, one x ≠ .error e := by
  induction hy with
  | nil => nofun
  | cons hhead _ ih =>
    rw [List.forall_mem_cons]
    refine ⟨?_, ih⟩
    rw [hhead]
    nofun

/-- The result for a list succeeds exactly if those for all members do. -/
theorem Pointwise.eq_ok_iff (h : Pointwise one xs many) (ys : List β) :
    many = .ok ys ↔ List.Forall₂ (fun x y => one x = .ok y) xs ys := by
  constructor
  · rintro rfl
    exact h
  · intro hys
    cases many with
    | ok zs => rw [eq_of_forall₂_ok h hys]
    | error e =>
      obtain ⟨x, hx, herror⟩ := h
      exact absurd herror (not_error_of_forall₂_ok hys x hx)

/-! ### Building results for lists -/

theorem pointwise_mapM (one : α → Except ε β) (xs : List α) : Pointwise one xs (xs.mapM one) := by
  induction xs with
  | nil => exact .nil
  | cons x xs ih =>
    rw [List.mapM_cons]
    cases hx : one x with
    | error e => exact ⟨x, List.mem_cons_self, hx⟩
    | ok y =>
      cases hxs : xs.mapM one with
      | error e =>
        rw [hxs] at ih
        obtain ⟨x', hx', herror⟩ := ih
        exact ⟨x', List.mem_cons_of_mem x hx', herror⟩
      | ok ys =>
        rw [hxs] at ih
        exact .cons hx ih

/-- Members may be exchanged for others that yield the same. -/
theorem Pointwise.of_forall₂ {zs : List γ} {other : γ → Except ε β} (hz : Pointwise other zs many)
    (h : List.Forall₂ (fun x z => one x = other z) xs zs) : Pointwise one xs many := by
  cases many with
  | ok ys =>
    have hys : List.Forall₂ (fun z y => other z = .ok y) zs ys := hz
    show List.Forall₂ (fun x y => one x = .ok y) xs ys
    induction h generalizing ys with
    | nil =>
      cases hys
      exact .nil
    | cons hhead _ ih =>
      cases hys with
      | cons hhead' htail' => exact .cons (hhead.trans hhead') (ih _ htail' htail')
  | error e =>
    obtain ⟨z, hmem, herror⟩ := hz
    show ∃ x ∈ xs, one x = .error e
    induction h with
    | nil => cases hmem
    | cons hhead _ ih =>
      rcases List.mem_cons.mp hmem with rfl | hmem
      · exact ⟨_, List.mem_cons_self, hhead.trans herror⟩
      · obtain ⟨x, hx, hx'⟩ := ih hmem
        exact ⟨x, List.mem_cons_of_mem _ hx, hx'⟩

theorem Pointwise.congr (h : Pointwise one xs many) {other : α → Except ε β}
    (heq : ∀ x ∈ xs, other x = one x) : Pointwise other xs many :=
  h.of_forall₂ (List.forall₂_same.mpr heq)

/-- A further step over the whole list goes member by member. -/
theorem Pointwise.bind (h : Pointwise one xs many) (f : β → Except ε γ) :
    Pointwise (fun x => one x >>= f) xs (many >>= fun ys => ys.mapM f) := by
  cases many with
  | ok ys =>
    have hys : List.Forall₂ (fun x y => (one x >>= f) = f y) xs ys := by
      refine List.Forall₂.imp (fun x y hy => ?_) h
      rw [hy, ok_bind]
    exact (pointwise_mapM f ys).of_forall₂ hys
  | error e =>
    obtain ⟨x, hx, herror⟩ := h
    exact ⟨x, hx, by simp only [herror, error_bind]⟩

/-- Two results for one list, taken together member by member. -/
theorem Pointwise.zip {other : α → Except ε γ} {others : Except ε (List γ)}
    (h : Pointwise one xs many) (h' : Pointwise other xs others) (f : β → γ → Except ε δ) :
    Pointwise (fun x => do f (← one x) (← other x)) xs
      (do (List.zip (← many) (← others)).mapM fun pair => f pair.1 pair.2) := by
  cases many with
  | error e =>
    obtain ⟨x, hx, herror⟩ := h
    exact ⟨x, hx, by simp only [herror, error_bind]⟩
  | ok ys =>
    cases others with
    | error e =>
      obtain ⟨x, hx, herror⟩ := h'
      have hfirst : ∃ y, one x = .ok y := by
        have hys : List.Forall₂ (fun x y => one x = .ok y) xs ys := h
        cases hone : one x with
        | ok y => exact ⟨y, rfl⟩
        | error e' => exact absurd hone (not_error_of_forall₂_ok hys x hx)
      obtain ⟨y, hy⟩ := hfirst
      exact ⟨x, hx, by simp only [hy, herror, ok_bind, error_bind]⟩
    | ok zs =>
      have hpairs :
          List.Forall₂ (fun x (pair : β × γ) => (do f (← one x) (← other x)) = f pair.1 pair.2) xs
          (ys.zip zs) := by
        have hys : List.Forall₂ (fun x y => one x = .ok y) xs ys := h
        have hzs : List.Forall₂ (fun x z => other x = .ok z) xs zs := h'
        clear h h'
        induction hys generalizing zs with
        | nil =>
          cases hzs
          exact .nil
        | cons hhead _ ih =>
          cases hzs with
          | cons hhead' htail' =>
            exact .cons (by simp only [hhead, hhead', ok_bind]) (ih _ htail')
      exact (pointwise_mapM _ _).of_forall₂ hpairs

/-- One result that hangs on no member stands for all of them, if there is any. -/
theorem pointwise_replicate (hne : xs ≠ []) (result : Except ε β) :
    Pointwise (fun _ => result) xs (result.map (List.replicate xs.length)) := by
  cases result with
  | ok y =>
    clear hne
    show List.Forall₂ (fun _ y' => Except.ok y = Except.ok y') xs (List.replicate xs.length y)
    induction xs with
    | nil => exact .nil
    | cons x xs ih => exact .cons rfl ih
  | error e =>
    obtain ⟨x, hx⟩ := List.exists_mem_of_ne_nil xs hne
    exact ⟨x, hx, rfl⟩

/-! ### Lists of results -/

theorem length_of_mapM {bs : List β} (h : xs.mapM one = .ok bs) : bs.length = xs.length := by
  have hpointwise : Pointwise one xs (.ok bs) := h ▸ pointwise_mapM one xs
  exact (List.Forall₂.length_eq hpointwise).symm

theorem mapM_replicate {n : Nat} (hn : n ≠ 0) (one : α → Except ε β) (a : α) :
    (List.replicate n a).mapM one = (one a).map (List.replicate n) := by
  induction n with
  | zero => exact absurd rfl hn
  | succ n ih =>
    rw [List.replicate_succ, List.mapM_cons]
    cases hone : one a with
    | error e => rfl
    | ok b =>
      by_cases hzero : n = 0
      · rw [hzero]
        rfl
      · rw [ih hzero, hone]
        rfl

theorem mapM_map_result (one : α → Except ε β) (h : β → γ) (as : List α) :
    as.mapM (fun a => (one a).map h) = (as.mapM one).map (List.map h) := by
  induction as with
  | nil => rfl
  | cons a as ih =>
    rw [List.mapM_cons, List.mapM_cons, ih]
    cases one a with
    | error e => rfl
    | ok b =>
      cases as.mapM one with
      | error e => rfl
      | ok bs => rfl

end BatteryParams

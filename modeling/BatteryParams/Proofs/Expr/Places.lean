import BatteryParams.Proofs.Expr.Soundness
import Mathlib.Data.List.Forall2

/-!
# Readers go by tokens

A reader looks at the tokens of its cursor and never at the places where they stand. It passes
places on: into the cursor that it returns, and into its failures. So from two cursors with the same
tokens every reader comes to the same end, and if this is a failure, it names places that correspond
(`Parser.Blind`, `Parser.blind_formula`).

What corresponds is left to a relation `ρ` between the places of the two cursors. With the places of
two spellings of one formula it compares their failures, and with those of one text on both sides it
tells where failures can stand.
-/

namespace BatteryParams

variable {α β : Type} {ρ : Nat → Nat → Prop}

/-- Two readings come to the same end: results that `p` relates, or one fault at places that `ρ`
relates. -/
def Alike (ρ : Nat → Nat → Prop) (p : α → α → Prop) :
    Except FormulaError α → Except FormulaError α → Prop
  | .ok a, .ok a' => p a a'
  | .error e, .error e' => e.cause = e'.cause ∧ ρ e.position e'.position
  | _, _ => False

theorem Alike.bind {p : α → α → Prop} {q : β → β → Prop} {x x' : Except FormulaError α}
    {f f' : α → Except FormulaError β} (h : Alike ρ p x x')
    (hf : ∀ {a a'}, p a a' → Alike ρ q (f a) (f' a')) : Alike ρ q (x >>= f) (x' >>= f') := by
  cases x with
  | error e =>
    cases x' with
    | error e' => exact h
    | ok a' => cases h
  | ok a =>
    cases x' with
    | error e' => cases h
    | ok a' => exact hf h

theorem Alike.same_end {x x' : Except FormulaError α} (h : Alike ρ (· = ·) x x') :
    (∃ a, x = .ok a ∧ x' = .ok a) ∨
      ∃ cause q q', x = .error ⟨cause, q⟩ ∧ x' = .error ⟨cause, q'⟩ ∧ ρ q q' := by
  cases x with
  | ok a =>
    cases x' with
    | ok a' => exact .inl ⟨a, rfl, congrArg _ (Eq.symm h)⟩
    | error e' => cases h
  | error e =>
    cases x' with
    | ok a' => cases h
    | error e' =>
      obtain ⟨cause, q⟩ := e
      obtain ⟨cause', q'⟩ := e'
      obtain ⟨rfl, hplaces⟩ := h
      exact .inr ⟨cause, q, q', rfl, rfl, hplaces⟩

namespace Cursor

/-- The same tokens are left and the same levels are open, and the places correspond. -/
structure Matches (ρ : Nat → Nat → Prop) (c c' : Cursor) : Prop where
  rest : List.Forall₂ (fun l l' => l.token = l'.token ∧ ρ l.position l'.position) c.rest c'.rest
  stop : Alike ρ ρ c.stop c'.stop
  depth : c.depth = c'.depth

namespace Matches

variable {c c' : Cursor} (h : c.Matches ρ c')

include h

theorem token_eq : c.token = c'.token := by
  obtain ⟨rest, stop, depth⟩ := c
  obtain ⟨rest', stop', depth'⟩ := c'
  cases h.rest with
  | nil => rfl
  | cons hl _ => exact hl.1

theorem position : ρ c.position c'.position := by
  obtain ⟨rest, stop, depth⟩ := c
  obtain ⟨rest', stop', depth'⟩ := c'
  cases h.rest with
  | cons hl _ => exact hl.2
  | nil =>
    have hstop : Alike ρ ρ stop stop' := h.stop
    cases stop with
    | error e =>
      cases stop' with
      | error e' => exact hstop.2
      | ok length' => cases hstop
    | ok length =>
      cases stop' with
      | error e' => cases hstop
      | ok length' => exact hstop

theorem fail {p : α → α → Prop} (cause : FormulaFault) : Alike ρ p (c.fail cause) (c'.fail cause) :=
  ⟨rfl, h.position⟩

theorem withDepth (depth : Nat) : Matches ρ { c with depth := depth } { c' with depth := depth } :=
  ⟨h.rest, h.stop, rfl⟩

theorem leave : c.leave.Matches ρ c'.leave := by
  rw [Cursor.leave, Cursor.leave, h.depth]
  exact h.withDepth _

theorem settle : Alike ρ (Matches ρ) c.settle c'.settle := by
  obtain ⟨rest, stop, depth⟩ := c
  obtain ⟨rest', stop', depth'⟩ := c'
  have hstop : Alike ρ ρ stop stop' := h.stop
  cases h.rest with
  | cons hl hrest => exact ⟨.cons hl hrest, h.stop, h.depth⟩
  | nil =>
    cases stop with
    | error e =>
      cases stop' with
      | error e' => exact hstop
      | ok length' => cases hstop
    | ok length =>
      cases stop' with
      | error e' => cases hstop
      | ok length' => exact h

theorem advance : Alike ρ (Matches ρ) c.advance c'.advance := by
  refine settle ⟨?_, h.stop, h.depth⟩
  obtain ⟨rest, stop, depth⟩ := c
  obtain ⟨rest', stop', depth'⟩ := c'
  cases h.rest with
  | nil => exact .nil
  | cons _ hrest => exact hrest

theorem enter : Alike ρ (Matches ρ) c.enter c'.enter := by
  rw [Cursor.enter, Cursor.enter, h.depth]
  split
  · exact h.withDepth _
  · exact h.fail _

theorem close (bracket : Bracket) : Alike ρ (Matches ρ) (c.close bracket) (c'.close bracket) := by
  rw [Cursor.close, Cursor.close, h.token_eq]
  split
  · exact h.advance
  · exact h.fail _

end Matches

end Cursor

namespace Parser

/-- The same value is read, up to cursors that match. -/
def SameReading (ρ : Nat → Nat → Prop) (r r' : α × Cursor) : Prop := r.1 = r'.1 ∧ r.2.Matches ρ r'.2

/-- From cursors that match, a reader comes to the same end. -/
def Blind (reader : Reader α) : Prop :=
  ∀ {ρ : Nat → Nat → Prop} {c c' : Cursor}, c.Matches ρ c' →
    Alike ρ (SameReading ρ) (reader c) (reader c')

variable {op? : Token → Option BinaryOp} {operand argument inner : Reader Expr} {R : Registry}
    {c c' : Cursor}

theorem chain_spent {left : Expr} {op : BinaryOp} (h : op? c.token = some op) :
    chain op? operand 0 left c = c.fail .exhausted := by
  unfold chain
  simp only [h]

theorem blind_chain (hoperand : Blind operand) (bound : Nat) (left : Expr) :
    Blind (chain op? operand bound left) := by
  induction bound generalizing left with
  | zero =>
    intro ρ c c' h
    cases hop : op? c'.token with
    | none =>
      rw [chain_end (h.token_eq ▸ hop), chain_end hop]
      exact ⟨rfl, h⟩
    | some op =>
      rw [chain_spent (h.token_eq ▸ hop), chain_spent hop]
      exact h.fail _
  | succ bound ih =>
    intro ρ c c' h
    cases hop : op? c'.token with
    | none =>
      rw [chain_end (h.token_eq ▸ hop), chain_end hop]
      exact ⟨rfl, h⟩
    | some op =>
      rw [chain_round (h.token_eq ▸ hop), chain_round hop]
      refine h.enter.bind fun h => h.advance.bind fun h => (hoperand h).bind ?_
      rintro ⟨right, c⟩ ⟨right', c'⟩ ⟨rfl, h⟩
      exact ih _ h

theorem blind_chained (hoperand : Blind operand) : Blind (chained op? operand) := by
  intro ρ c c' h
  refine (hoperand h).bind ?_
  rintro ⟨left, c₁⟩ ⟨left', c₁'⟩ ⟨rfl, h₁⟩
  refine (blind_chain hoperand _ _ h₁).bind ?_
  rintro ⟨e, c₂⟩ ⟨e', c₂'⟩ ⟨rfl, h₂⟩
  exact ⟨rfl, h.depth ▸ h₂.withDepth c.depth⟩

theorem blind_sum (hoperand : Blind operand) : Blind (sum operand) :=
  blind_chained (blind_chained hoperand)

theorem blind_moreArguments (hargument : Blind argument) {ahead ahead' : List Lexeme}
    (hahead : ahead.length = ahead'.length) (h : c.Matches ρ c') :
    Alike ρ (SameReading ρ) (moreArguments argument ahead c)
      (moreArguments argument ahead' c') := by
  induction ahead generalizing ahead' c c' with
  | nil =>
    obtain rfl : ahead' = [] := List.length_eq_zero_iff.mp hahead.symm
    rw [moreArguments, moreArguments, h.token_eq]
    split
    · exact h.fail _
    · exact ⟨rfl, h⟩
  | cons l ahead ih =>
    obtain ⟨l', ahead', rfl⟩ := List.exists_cons_of_length_eq_add_one hahead.symm
    rw [moreArguments, moreArguments, h.token_eq]
    split
    · refine h.advance.bind fun h => (hargument h).bind ?_
      rintro ⟨arg, c₂⟩ ⟨arg', c₂'⟩ ⟨rfl, h₂⟩
      refine (ih (Nat.succ.inj hahead) h₂).bind ?_
      rintro ⟨args, c₃⟩ ⟨args', c₃'⟩ ⟨rfl, h₃⟩
      exact ⟨rfl, h₃⟩
    · exact ⟨rfl, h⟩

theorem blind_call (hargument : Blind argument) (name : String) {position position' : Nat}
    (hposition : ρ position position') (h : c.Matches ρ c') :
    Alike ρ (SameReading ρ) (call R argument name position c)
      (call R argument name position' c') := by
  unfold call
  split
  · exact ⟨rfl, hposition⟩
  · refine h.enter.bind fun h => h.advance.bind fun h => (hargument h).bind ?_
    rintro ⟨first, c₃⟩ ⟨first', c₃'⟩ ⟨rfl, h₃⟩
    refine (blind_moreArguments hargument h₃.rest.length_eq h₃).bind ?_
    rintro ⟨more, c₄⟩ ⟨more', c₄'⟩ ⟨rfl, h₄⟩
    refine (h₄.close _).bind fun h₅ => ?_
    dsimp only
    split
    · exact ⟨rfl, h₅.leave⟩
    · exact ⟨rfl, hposition⟩

theorem blind_primary (hinner : Blind inner) : Blind (primary R inner) := by
  intro ρ c c' h
  unfold primary
  rw [h.token_eq]
  split
  · exact h.advance.bind fun h => ⟨rfl, h⟩
  · next name _ =>
    refine h.advance.bind fun {c₁ c₁'} h₁ => ?_
    rw [h₁.token_eq]
    split
    · exact blind_call hinner name h.position h₁
    · split
      · exact ⟨rfl, h₁⟩
      · exact ⟨rfl, h.position⟩
  · refine h.enter.bind fun h => h.advance.bind fun h => (hinner h).bind ?_
    rintro ⟨e, c₃⟩ ⟨e', c₃'⟩ ⟨rfl, h₃⟩
    exact (h₃.close _).bind fun h₄ => ⟨rfl, h₄.leave⟩
  · exact h.fail _

theorem blind_power (hoperand : Blind operand) : Blind (power R operand) := by
  intro ρ c c' h
  refine (blind_primary (blind_sum hoperand) h).bind ?_
  rintro ⟨base, c₁⟩ ⟨base', c₁'⟩ ⟨rfl, h₁⟩
  dsimp only
  rw [h₁.token_eq]
  split
  · refine h₁.enter.bind fun h => h.advance.bind fun h => (hoperand h).bind ?_
    rintro ⟨e, c₄⟩ ⟨e', c₄'⟩ ⟨rfl, h₄⟩
    exact ⟨rfl, h₄.leave⟩
  · exact ⟨rfl, h₁⟩

theorem blind_signed (R : Registry) (allowance : Nat) : Blind (signed R allowance) := by
  induction allowance with
  | zero => exact fun h => h.fail _
  | succ allowance ih =>
    intro ρ c c' h
    have hsign (build : Expr → Expr) (r r' : Expr × Cursor) (hr : SameReading ρ r r') :
        SameReading ρ (build r.1, r.2.leave) (build r'.1, r'.2.leave) :=
          ⟨congrArg build hr.1, hr.2.leave⟩
    unfold signed
    rw [h.token_eq]
    split
    · exact h.enter.bind fun h => h.advance.bind fun h => (ih h).bind (hsign .neg _ _)
    · exact h.enter.bind fun h => h.advance.bind fun h => (ih h).bind (hsign id _ _)
    · exact blind_power ih h

theorem blind_formula (R : Registry) (allowance : Nat) (h : c.Matches ρ c') :
    Alike ρ (· = ·) (formula R allowance c) (formula R allowance c') := by
  refine (blind_sum (blind_signed R allowance) h).bind ?_
  rintro ⟨e, c₁⟩ ⟨e', c₁'⟩ ⟨rfl, h₁⟩
  dsimp only
  rw [h₁.token_eq]
  split
  · exact rfl
  · exact h₁.fail _

end Parser

/-- What is read of a text that is not blank. -/
theorem parseWith_eq {text : String} (h : ¬∀ c ∈ text.toList, Text.isBlank c = true)
    (R : Registry) :
    Expr.parseWith R text = Cursor.ofScan (scan text) >>= Parser.formula R (maxNesting + 1) := by
  have htrim : (Text.trim text.toList).isEmpty = false := by
    rw [List.isEmpty_eq_false_iff]
    exact fun htrim => h ((trim_eq_nil_iff _).mp htrim)
  rw [Expr.parseWith, htrim]
  rfl

end BatteryParams

import BatteryParams.Proofs.Except
import BatteryParams.Proofs.Expr.Grammar

/-!
# What the readers accept is derived

Each reader passes over tokens that the grammar derives as the tree returned, and leaves as many
levels open as it found. The readers are opened one by one in the order of their definitions;
`signed_sound` closes the circle by induction on the allowance.
-/

namespace BatteryParams

namespace Cursor

/-- If no token is left, the text is at its end. -/
def Settled (c : Cursor) : Prop := c.rest = [] → ∃ length, c.stop = .ok length

/-- From `c` to `c'` the tokens `ts` were passed, whatever the levels open. -/
structure Passes (c : Cursor) (ts : List Token) (c' : Cursor) : Prop where
  rest : ∃ ls : List Lexeme, ls.map (·.token) = ts ∧ c.rest = ls ++ c'.rest
  stop : c'.stop = c.stop
  settled : c.Settled → c'.Settled

theorem Passes.refl (c : Cursor) : c.Passes [] c := ⟨⟨[], rfl, rfl⟩, rfl, id⟩

theorem Passes.trans {c c' c'' : Cursor} {ts ts' : List Token} (h : c.Passes ts c')
    (h' : c'.Passes ts' c'') : c.Passes (ts ++ ts') c'' := by
  obtain ⟨ls, rfl, hrest⟩ := h.rest
  obtain ⟨ls', rfl, hrest'⟩ := h'.rest
  refine ⟨⟨ls ++ ls', by simp, ?_⟩, h'.stop.trans h.stop, h'.settled ∘ h.settled⟩
  rw [hrest, hrest', List.append_assoc]

theorem Passes.withDepth {c c' : Cursor} {ts : List Token} (h : c.Passes ts c') (depth : Nat) :
    c.Passes ts { c' with depth := depth } := ⟨h.rest, h.stop, h.settled⟩

theorem settle_eq_ok {c c' : Cursor} (h : c.settle = .ok c') : c' = c ∧ c.Settled := by
  unfold settle at h
  split at h
  · cases h
  · next hne =>
    cases h
    refine ⟨rfl, fun hrest => ?_⟩
    cases hstop : c.stop with
    | error e => exact absurd hstop (hne e hrest)
    | ok length => exact ⟨length, rfl⟩

theorem rest_of_token {c : Cursor} {t : Token} (h : c.token = t) (ht : t ≠ .endOfInput) :
    ∃ l rest, c.rest = l :: rest ∧ l.token = t := by
  unfold token at h
  split at h
  · next l rest hrest => exact ⟨l, rest, hrest, h⟩
  · exact absurd h.symm ht

/-- Passing over a token. -/
theorem advanced {c c' : Cursor} {t : Token} (h : c.advance = .ok c') (htoken : c.token = t)
    (ht : t ≠ .endOfInput) : c.Passes [t] c' ∧ c'.depth = c.depth := by
  obtain ⟨l, rest, hrest, hl⟩ := rest_of_token htoken ht
  obtain ⟨rfl, hsettled⟩ := settle_eq_ok h
  refine ⟨⟨⟨[l], by simp [hl], by simp [hrest]⟩, rfl, fun _ => hsettled⟩, rfl⟩

/-- Opening a level at a token and passing over the token. -/
theorem opened {c c₁ c₂ : Cursor} {t : Token} (henter : c.enter = .ok c₁)
    (hadvance : c₁.advance = .ok c₂) (htoken : c.token = t) (ht : t ≠ .endOfInput) :
    c.Passes [t] c₂ ∧ c.depth < maxNesting ∧ c₂.depth = c.depth + 1 := by
  unfold enter at henter
  split at henter
  · next hdepth =>
    cases henter
    obtain ⟨hpasses, hdepth₂⟩ := advanced hadvance (t := t) htoken ht
    exact ⟨⟨hpasses.rest, hpasses.stop, hpasses.settled⟩, hdepth, hdepth₂⟩
  · cases henter

/-- Passing over a closing parenthesis. -/
theorem closed {c c' : Cursor} {bracket : Bracket} (h : c.close bracket = .ok c') :
    c.Passes [.rightParen] c' ∧ c'.depth = c.depth := by
  unfold close at h
  split at h
  · next htoken => exact advanced h htoken (by simp)
  · cases h

end Cursor

namespace Parser

/-- What a reader takes off a cursor is as `P` says for the levels open there, and these are open
behind it. -/
def Sound {α : Type} (reader : Reader α) (P : (n : Nat) → α → List Token → Prop) : Prop :=
  ∀ c a c', reader c = .ok (a, c') → ∃ ts, c.Passes ts c' ∧ c'.depth = c.depth ∧ P c.depth a ts

/-! ### Chains -/

theorem chain_end {op? : Token → Option BinaryOp} {operand : Reader Expr} {bound : Nat}
    {left : Expr} {c : Cursor}
    (h : op? c.token = none) : chain op? operand bound left c = .ok (left, c) := by
  unfold chain
  simp only [h]

theorem chain_round {op? : Token → Option BinaryOp} {operand : Reader Expr} {bound : Nat}
    {left : Expr} {c : Cursor} {op : BinaryOp} (h : op? c.token = some op) :
    chain op? operand (bound + 1) left c = (do
      let c ← c.enter
      let c ← c.advance
      let (right, c) ← operand c
      chain op? operand bound (.binary op left right) c) := by
  rw [chain.eq_def op? operand (bound + 1)]
  simp only [h]

section

variable {op? : Token → Option BinaryOp} {operand : Reader Expr}
    {P : Nat → Expr → List Token → Prop}
  {Q : (n k : Nat) → Expr → List Token → Prop}

theorem chain_sound (hend : op? .endOfInput = none) (hoperand : Sound operand P)
    (hstep : ∀ {n k t op l r ts ts'}, op? t = some op → n + k < maxNesting → Q n k l ts →
      P (n + k + 1) r ts' →
      Q n (k + 1) (.binary op l r) (ts ++ t :: ts'))
    {bound : Nat} {left e : Expr} {c c' : Cursor} {n k : Nat} {ts : List Token}
    (h : chain op? operand bound left c = .ok (e, c')) (hdepth : c.depth = n + k)
    (hleft : Q n k left ts) : ∃ k' ts', c.Passes ts' c' ∧ Q n k' e (ts ++ ts') := by
  induction bound generalizing left c k ts with
  | zero =>
    cases hop : op? c.token with
    | none =>
      rw [chain_end hop] at h
      cases h
      exact ⟨k, [], .refl _, by simpa using hleft⟩
    | some op => simp [chain, hop, Cursor.fail] at h
  | succ bound ih =>
    cases hop : op? c.token with
    | none =>
      rw [chain_end hop] at h
      cases h
      exact ⟨k, [], .refl _, by simpa using hleft⟩
    | some op =>
      rw [chain_round hop] at h
      obtain ⟨c₁, henter, h⟩ := ok_of_bind h
      obtain ⟨c₂, hadvance, h⟩ := ok_of_bind h
      obtain ⟨⟨right, c₃⟩, hright, h⟩ := ok_of_bind h
      have hne : c.token ≠ .endOfInput := by
        intro heq
        rw [heq, hend] at hop
        cases hop
      obtain ⟨hpasses₂, hfree, hdepth₂⟩ := Cursor.opened henter hadvance rfl hne
      obtain ⟨ts₃, hpasses₃, hdepth₃, hP⟩ := hoperand c₂ right c₃ hright
      rw [hdepth₂, hdepth] at hP
      have hQ := hstep hop (by omega) hleft hP
      obtain ⟨k', ts', hpasses', hQ'⟩ := ih h (by rw [hdepth₃, hdepth₂, hdepth, Nat.add_assoc]) hQ
      refine ⟨k', _, (hpasses₂.trans hpasses₃).trans hpasses', ?_⟩
      simpa using hQ'

theorem chained_sound (hend : op? .endOfInput = none) (hoperand : Sound operand P)
    (hfirst : ∀ {n e ts}, P n e ts → Q n 0 e ts)
    (hstep : ∀ {n k t op l r ts ts'}, op? t = some op → n + k < maxNesting → Q n k l ts →
      P (n + k + 1) r ts' →
      Q n (k + 1) (.binary op l r) (ts ++ t :: ts')) :
    Sound (chained op? operand) fun n e ts => ∃ k, Q n k e ts := by
  intro c e c' h
  obtain ⟨⟨left, c₁⟩, hleft, h⟩ := ok_of_bind h
  obtain ⟨⟨e', c₂⟩, hchain, h⟩ := ok_of_bind h
  cases h
  obtain ⟨ts, hpasses, hdepth, hP⟩ := hoperand c left c₁ hleft
  obtain ⟨k, ts', hpasses', hQ⟩ :=
    chain_sound (k := 0) hend hoperand hstep hchain hdepth (hfirst hP)
  exact ⟨ts ++ ts', (hpasses.trans hpasses').withDepth _, rfl, k, hQ⟩

end

/-! ### The readers -/

section

variable {R : Registry} {operand argument inner : Reader Expr}

theorem product_sound (h : Sound operand fun n e => Derives R n (.signed e)) :
    Sound (product operand) fun n e ts => ∃ k, Derives R n (.product k e) ts :=
  chained_sound (Q := fun n k e => Derives R n (.product k e)) rfl h .factor
    fun hop hn hl hr => .timesFactor (productOp?_eq_some.mp hop) hn hl hr

theorem sum_sound (h : Sound operand fun n e => Derives R n (.signed e)) :
    Sound (sum operand) fun n e ts => ∃ k, Derives R n (.sum k e) ts :=
  chained_sound (Q := fun n k e => Derives R n (.sum k e)) rfl (product_sound h) (fun ⟨_, h⟩ =>
    .term h) fun hop hn hl ⟨_, hr⟩ => .plusTerm (sumOp?_eq_some.mp hop) hn hl hr

theorem moreArguments_sound (hargument : Sound argument fun n e ts => ∃ k,
    Derives R n (.sum k e) ts)
    {ahead : List Lexeme} {c c' : Cursor} {es : List Expr}
    (h : moreArguments argument ahead c = .ok (es, c'))
    {k : Nat} {first : Expr} {ts : List Token} (hfirst : Derives R c.depth (.sum k first) ts) :
    ∃ ts', c.Passes ts' c' ∧ c'.depth = c.depth ∧
      Derives R c.depth (.arguments (first :: es)) (ts ++ ts') := by
  induction ahead generalizing c es k first ts with
  | nil =>
    unfold moreArguments at h
    split at h
    · cases h
    · cases h
      exact ⟨[], .refl _, rfl, by simpa using Derives.lastArgument hfirst⟩
  | cons l ahead ih =>
    unfold moreArguments at h
    split at h
    · next hcomma =>
      obtain ⟨c₁, hadvance, h⟩ := ok_of_bind h
      obtain ⟨⟨arg, c₂⟩, harg, h⟩ := ok_of_bind h
      obtain ⟨⟨args, c₃⟩, hargs, h⟩ := ok_of_bind h
      cases h
      obtain ⟨hpasses₁, hdepth₁⟩ := Cursor.advanced hadvance hcomma (by simp)
      obtain ⟨ts₂, hpasses₂, hdepth₂, k₂, hderives₂⟩ := hargument c₁ arg c₂ harg
      rw [← hdepth₂] at hderives₂
      obtain ⟨ts₃, hpasses₃, hdepth₃, hderives₃⟩ := ih hargs hderives₂
      rw [hdepth₂, hdepth₁] at hderives₃
      exact ⟨_, (hpasses₁.trans hpasses₂).trans hpasses₃, hdepth₃.trans (hdepth₂.trans hdepth₁),
        by simpa using Derives.argument hfirst hderives₃⟩
    · cases h
      exact ⟨[], .refl _, rfl, by simpa using Derives.lastArgument hfirst⟩

theorem call_sound (hargument : Sound argument fun n e ts => ∃ k, Derives R n (.sum k e) ts)
    {name : String} {position : Nat} {c c' : Cursor} {e : Expr} (hparen : c.token = .leftParen)
    (h : call R argument name position c = .ok (e, c')) :
    ∃ ts, c.Passes ts c' ∧ c'.depth = c.depth ∧
      Derives R c.depth (.primary e) (.identifier name :: ts) := by
  unfold call at h
  split at h
  · cases h
  · next f hfind =>
    obtain ⟨c₁, henter, h⟩ := ok_of_bind h
    obtain ⟨c₂, hadvance, h⟩ := ok_of_bind h
    obtain ⟨⟨first, c₃⟩, hfirst, h⟩ := ok_of_bind h
    obtain ⟨⟨more, c₄⟩, hmore, h⟩ := ok_of_bind h
    obtain ⟨c₅, hclose, h⟩ := ok_of_bind h
    simp only at h
    split at h
    · next harity =>
      cases h
      obtain ⟨hpasses₂, hfree, hdepth₂⟩ := Cursor.opened henter hadvance hparen (by simp)
      obtain ⟨ts₃, hpasses₃, hdepth₃, k, hderives₃⟩ := hargument c₂ first c₃ hfirst
      rw [← hdepth₃] at hderives₃
      obtain ⟨ts₄, hpasses₄, hdepth₄, hderives₄⟩ := moreArguments_sound hargument hmore hderives₃
      obtain ⟨hpasses₅, hdepth₅⟩ := Cursor.closed hclose
      rw [hdepth₃, hdepth₂] at hderives₄
      refine ⟨_, (((hpasses₂.trans hpasses₃).trans hpasses₄).trans hpasses₅).withDepth _, ?_, ?_⟩
      · show c₅.depth - 1 = c.depth
        omega
      · simpa using Derives.call hfind harity hfree hderives₄
    · cases h

theorem primary_sound (hinner : Sound inner fun n e ts => ∃ k, Derives R n (.sum k e) ts) :
    Sound (primary R inner) fun n e => Derives R n (.primary e) := by
  intro c e c' h
  unfold primary at h
  split at h
  · next value htoken =>
    obtain ⟨c₁, hadvance, h⟩ := ok_of_bind h
    cases h
    obtain ⟨hpasses, hdepth⟩ := Cursor.advanced hadvance htoken (by simp)
    exact ⟨_, hpasses, hdepth, .number value⟩
  · next name htoken =>
    obtain ⟨c₁, hadvance, h⟩ := ok_of_bind h
    obtain ⟨hpasses, hdepth⟩ := Cursor.advanced hadvance htoken (by simp)
    split at h
    · next hparen =>
      obtain ⟨ts, hpasses', hdepth', hderives⟩ := call_sound hinner hparen h
      rw [hdepth] at hderives
      exact ⟨_, hpasses.trans hpasses', hdepth'.trans hdepth, hderives⟩
    · split at h
      · next v hv =>
        cases h
        rw [Variable.ofName?_eq_some] at hv
        subst hv
        exact ⟨_, hpasses, hdepth, .var v⟩
      · cases h
  · next htoken =>
    obtain ⟨c₁, henter, h⟩ := ok_of_bind h
    obtain ⟨c₂, hadvance, h⟩ := ok_of_bind h
    obtain ⟨⟨e', c₃⟩, hinside, h⟩ := ok_of_bind h
    obtain ⟨c₄, hclose, h⟩ := ok_of_bind h
    cases h
    obtain ⟨hpasses₂, hfree, hdepth₂⟩ := Cursor.opened henter hadvance htoken (by simp)
    obtain ⟨ts, hpasses₃, hdepth₃, k, hderives⟩ := hinner c₂ e c₃ hinside
    obtain ⟨hpasses₄, hdepth₄⟩ := Cursor.closed hclose
    rw [hdepth₂] at hderives
    refine ⟨_, ((hpasses₂.trans hpasses₃).trans hpasses₄).withDepth _,
      ?_, by simpa using Derives.group hfree hderives⟩
    show c₄.depth - 1 = c.depth
    omega
  · cases h

theorem power_sound (h : Sound operand fun n e => Derives R n (.signed e)) :
    Sound (power R operand) fun n e => Derives R n (.power e) := by
  intro c e c' hread
  obtain ⟨⟨base, c₁⟩, hbase, hread⟩ := ok_of_bind hread
  obtain ⟨ts, hpasses, hdepth, hderives⟩ := primary_sound (sum_sound h) c base c₁ hbase
  simp only at hread
  split at hread
  · next hpower =>
    obtain ⟨c₂, henter, hread⟩ := ok_of_bind hread
    obtain ⟨c₃, hadvance, hread⟩ := ok_of_bind hread
    obtain ⟨⟨exponent, c₄⟩, hexponent, hread⟩ := ok_of_bind hread
    cases hread
    obtain ⟨hpasses₃, hfree, hdepth₃⟩ := Cursor.opened henter hadvance hpower (by simp)
    obtain ⟨ts₄, hpasses₄, hdepth₄, hderives₄⟩ := h c₃ exponent c₄ hexponent
    rw [hdepth₃, hdepth] at hderives₄
    rw [hdepth] at hfree
    refine ⟨_, (hpasses.trans (hpasses₃.trans hpasses₄)).withDepth _, ?_,
      Derives.raised hfree hderives hderives₄⟩
    show c₄.depth - 1 = c.depth
    omega
  · cases hread
    exact ⟨ts, hpasses, hdepth, .base hderives⟩

theorem signed_sound (R : Registry) (allowance : Nat) :
    Sound (signed R allowance) fun n e => Derives R n (.signed e) := by
  induction allowance with
  | zero =>
    intro c e c' h
    cases h
  | succ allowance ih =>
    intro c e c' h
    -- a sign opens a level for its operand
    have hsign : ∀ {t : Token} {c₁ c₂ c₃ : Cursor} {operand : Expr}, c.token = t → t ≠ .endOfInput →
        c.enter = .ok c₁ → c₁.advance = .ok c₂ → signed R allowance c₂ = .ok (operand, c₃) →
        ∃ ts, c.Passes (t :: ts) c₃.leave ∧ c₃.leave.depth = c.depth ∧ c.depth < maxNesting ∧
          Derives R (c.depth + 1) (.signed operand) ts := by
      intro t c₁ c₂ c₃ operand htoken ht henter hadvance hread
      obtain ⟨hpasses₂, hfree, hdepth₂⟩ := Cursor.opened henter hadvance htoken ht
      obtain ⟨ts, hpasses₃, hdepth₃, hderives⟩ := ih c₂ operand c₃ hread
      rw [hdepth₂] at hderives
      refine ⟨ts, (hpasses₂.trans hpasses₃).withDepth _, ?_, hfree, hderives⟩
      show c₃.depth - 1 = c.depth
      omega
    unfold signed at h
    split at h
    · next htoken =>
      obtain ⟨c₁, henter, h⟩ := ok_of_bind h
      obtain ⟨c₂, hadvance, h⟩ := ok_of_bind h
      obtain ⟨⟨operand, c₃⟩, hread, h⟩ := ok_of_bind h
      cases h
      obtain ⟨ts, hpasses, hdepth, hfree, hderives⟩ := hsign htoken (by simp) henter hadvance hread
      exact ⟨_, hpasses, hdepth, .negated hfree hderives⟩
    · next htoken =>
      obtain ⟨c₁, henter, h⟩ := ok_of_bind h
      obtain ⟨c₂, hadvance, h⟩ := ok_of_bind h
      obtain ⟨⟨operand, c₃⟩, hread, h⟩ := ok_of_bind h
      cases h
      obtain ⟨ts, hpasses, hdepth, hfree, hderives⟩ := hsign htoken (by simp) henter hadvance hread
      exact ⟨_, hpasses, hdepth, .plus hfree hderives⟩
    · obtain ⟨ts, hpasses, hdepth, hderives⟩ := power_sound ih c e c' h
      exact ⟨ts, hpasses, hdepth, .unsigned hderives⟩

end

end Parser

end BatteryParams

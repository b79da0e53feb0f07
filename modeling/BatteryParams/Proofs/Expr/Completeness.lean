import BatteryParams.Proofs.Expr.Soundness

/-!
# What the grammar derives is accepted

A derived phrase is read as such wherever the token behind it does not carry it on, provided the
reader's allowance reaches for the levels that are still free (`isRead_of_derives`). `Token.reach`
ranks the tokens by what they carry on: a parenthesis a name, `**` a primary, `*` a factor and so
on.
-/

namespace BatteryParams

namespace Cursor

theorem token_cons (l : Lexeme) (rest : List Lexeme) (stop : Except FormulaError Nat) (n : Nat) :
    token ⟨l :: rest, stop, n⟩ = l.token := rfl

theorem settle_ok (rest : List Lexeme) (length n : Nat) :
    settle ⟨rest, .ok length, n⟩ = .ok ⟨rest, .ok length, n⟩ := by
  cases rest <;> rfl

theorem advance_cons (l : Lexeme) (rest : List Lexeme) (length n : Nat) :
    advance ⟨l :: rest, .ok length, n⟩ = .ok ⟨rest, .ok length, n⟩ := settle_ok rest length n

theorem enter_free {n : Nat} (hn : n < maxNesting) (rest : List Lexeme)
    (stop : Except FormulaError Nat) : enter ⟨rest, stop, n⟩ = .ok ⟨rest, stop, n + 1⟩ := if_pos hn

theorem close_cons {l : Lexeme} (hl : l.token = .rightParen) (rest : List Lexeme) (length n : Nat)
    (bracket : Bracket) : close ⟨l :: rest, .ok length, n⟩ bracket = .ok ⟨rest, .ok length, n⟩ :=
  (if_pos hl).trans (advance_cons l rest length n)

end Cursor

/-- How loose a phrase may be that this token carries on. -/
def Token.reach : Token → Nat
  | .leftParen => 1
  | .doubleStar => 2
  | .star => 3
  | .slash => 3
  | .plus => 4
  | .minus => 4
  | .comma => 5
  | _ => 6

/-- The reach up to which tokens must not follow a phrase. A chain may go on. -/
def Phrase.reach : Phrase → Nat
  | .primary _ => 1
  | .power _ => 2
  | .signed _ => 2
  | .product _ _ => 2
  | .sum _ _ => 3
  | .arguments _ => 5

theorem ne_of_reach {t u : Token} {reach : Nat} (h : reach < t.reach) (hu : u.reach ≤ reach) :
    t ≠ u := by
  rintro rfl
  omega

namespace Parser

/-! ### Chains -/

/-- A chain read from `c` on has come to `c'` with `k` operators passed and the tree `e`. -/
def Chains (op? : Token → Option BinaryOp) (operand : Reader Expr) (k : Nat) (e : Expr)
    (c c' : Cursor) : Prop :=
  ∃ left c₁, operand c = .ok (left, c₁) ∧
    chain op? operand (maxNesting + 1) left c₁ =
      chain op? operand (maxNesting + 1 - k) e { c' with depth := c'.depth + k }

section

variable {op? : Token → Option BinaryOp} {operand : Reader Expr}

theorem Chains.first {e : Expr} {c c' : Cursor} (h : operand c = .ok (e, c')) :
    Chains op? operand 0 e c c' :=
  ⟨e, c', h, rfl⟩

theorem Chains.round {k n length : Nat} {op : BinaryOp} {l r : Expr} {c : Cursor} {x : Lexeme}
    {rest behind : List Lexeme} (h : Chains op? operand k l c ⟨x :: rest, .ok length, n⟩)
    (hop : op? x.token = some op) (hn : n + k < maxNesting)
    (hr : operand ⟨rest, .ok length, n + k + 1⟩ = .ok (r, ⟨behind, .ok length, n + k + 1⟩)) :
    Chains op? operand (k + 1) (.binary op l r) c ⟨behind, .ok length, n⟩ := by
  obtain ⟨left, c₁, hleft, hchain⟩ := h
  refine ⟨left, c₁, hleft, hchain.trans ?_⟩
  have hbound : maxNesting + 1 - k = maxNesting + 1 - (k + 1) + 1 := by omega
  rw [hbound, chain_round hop]
  simp only [Cursor.enter_free hn, ok_bind, Cursor.advance_cons, hr]
  rfl

theorem Chains.whole {k : Nat} {e : Expr} {c c' : Cursor} (h : Chains op? operand k e c c')
    (hend : op? c'.token = none) (hdepth : c'.depth = c.depth) :
    chained op? operand c = .ok (e, c') := by
  obtain ⟨left, c₁, hleft, hchain⟩ := h
  have hend' : op? (Cursor.token { c' with depth := c'.depth + k }) = none := hend
  rw [chain_end hend'] at hchain
  simp only [chained, hleft, ok_bind, hchain, ← hdepth]

end

theorem productOp?_of_reach {t : Token} (h : 3 < t.reach) : productOp? t = none := by
  cases t <;> first | rfl | exact absurd h (by decide)

theorem sumOp?_of_reach {t : Token} (h : 4 < t.reach) : sumOp? t = none := by
  cases t <;> first | rfl | exact absurd h (by decide)

theorem reach_of_productOp? {t : Token} {op : BinaryOp} (h : productOp? t = some op) :
    2 < t.reach := by
  cases t <;> first | decide | cases h

theorem reach_of_sumOp? {t : Token} {op : BinaryOp} (h : sumOp? t = some op) : 3 < t.reach := by
  cases t <;> first | decide | cases h

/-! ### Lexemes of a phrase -/

theorem exists_infix {ls : List Lexeme} {t : Token} {ts ts' : List Token}
    (h : ls.map (·.token) = ts ++ t :: ts') :
    ∃ left x right, ls = left ++ x :: right ∧ left.map (·.token) = ts ∧ x.token = t ∧
      right.map (·.token) = ts' := by
  obtain ⟨left, rest, rfl, hleft, hrest⟩ := List.map_eq_append_iff.mp h
  obtain ⟨x, right, rfl, hx, hright⟩ := List.map_eq_cons_iff.mp hrest
  exact ⟨left, x, right, rfl, hleft, hx, hright⟩

theorem exists_bracketed {ls : List Lexeme} {t t' : Token} {ts : List Token}
    (h : ls.map (·.token) = t :: ts ++ [t']) :
    ∃ p inside q, ls = p :: (inside ++ [q]) ∧ p.token = t ∧ inside.map (·.token) = ts ∧
      q.token = t' := by
  obtain ⟨p, rest, rfl, hp, hrest⟩ := List.map_eq_cons_iff.mp h
  obtain ⟨inside, last, rfl, hinside, hlast⟩ := List.map_eq_append_iff.mp hrest
  obtain ⟨q, rfl, hq⟩ := List.map_eq_singleton_iff.mp hlast
  exact ⟨p, inside, q, rfl, hp, hinside, hq⟩

/-! ### Phrases -/

/-- With `allowance`, the reader of a phrase goes from `c` to `c'`. -/
def IsRead (R : Registry) (allowance : Nat) (c c' : Cursor) : Phrase → Prop
  | .sum k e => Chains sumOp? (product (signed R allowance)) k e c c'
  | .product k e => Chains productOp? (signed R allowance) k e c c'
  | .signed e => signed R allowance c = .ok (e, c')
  | .power e => power R (signed R (allowance - 1)) c = .ok (e, c')
  | .primary e => primary R (sum (signed R (allowance - 1))) c = .ok (e, c')
  | .arguments es => ∃ first more c₁, es = first :: more ∧
      sum (signed R allowance) c = .ok (first, c₁) ∧
      c₁.rest.length ≤ c.rest.length ∧
      ∀ ahead : List Lexeme, c₁.rest.length ≤ ahead.length →
        moreArguments (sum (signed R allowance)) ahead c₁ = .ok (more, c')

variable {R : Registry} {n length : Nat} {behind : List Lexeme}

theorem call_of_arguments {name : String} {f : Builtin} {es : List Expr} {allowance position : Nat}
    {p q : Lexeme} {ls : List Lexeme} (hfind : R.find? name = some f) (harity : es.length = f.arity)
    (hn : n < maxNesting) (hq : q.token = .rightParen)
    (h : IsRead R allowance ⟨ls ++ q :: behind, .ok length, n + 1⟩ ⟨q :: behind, .ok length,
      n + 1⟩ (.arguments es)) :
    call R (sum (signed R allowance)) name position ⟨p :: (ls ++ q :: behind), .ok length, n⟩ =
      .ok (.call f es, ⟨behind, .ok length, n⟩) := by
  obtain ⟨first, more, c₁, rfl, hfirst, -, hmore⟩ := h
  simp only [call, hfind, Cursor.enter_free hn, ok_bind, Cursor.advance_cons, hfirst,
    hmore c₁.rest (Nat.le_refl _), Cursor.close_cons hq, harity, if_true]
  rfl

theorem group_of_sum {e : Expr} {k allowance : Nat} {p q : Lexeme} {ls : List Lexeme}
    (hp : p.token = .leftParen) (hn : n < maxNesting) (hq : q.token = .rightParen)
    (h : IsRead R (allowance - 1) ⟨ls ++ q :: behind, .ok length, n + 1⟩ ⟨q :: behind, .ok length,
      n + 1⟩ (.sum k e)) :
    IsRead R allowance ⟨p :: (ls ++ q :: behind), .ok length, n⟩ ⟨behind, .ok length,
      n⟩ (.primary e) := by
  have hsum := Chains.whole h (by rw [Cursor.token_cons, hq]; rfl) rfl
  simp only [IsRead, primary, Cursor.token_cons, hp, Cursor.enter_free hn, Cursor.advance_cons,
    ok_bind, sum, hsum, Cursor.close_cons hq]
  rfl

theorem arguments_of_comma {e : Expr} {es : List Expr} {allowance : Nat} {c c' : Cursor}
    {x : Lexeme}
    {rest : List Lexeme} (hfirst : sum (signed R allowance) c = .ok (e, ⟨x :: rest, .ok length, n⟩))
    (hx : x.token = .comma) (hlength : (x :: rest).length ≤ c.rest.length)
    (h : IsRead R allowance ⟨rest, .ok length, n⟩ c' (.arguments es)) :
    IsRead R allowance c c' (.arguments (e :: es)) := by
  obtain ⟨first, more, c₁, rfl, hnext, hshorter, hmore⟩ := h
  refine ⟨e, first :: more, _, rfl, hfirst, hlength, ?_⟩
  intro ahead hahead
  cases ahead with
  | nil => simp at hahead
  | cons a ahead =>
    have hahead' : c₁.rest.length ≤ ahead.length := by
      simp only [List.length_cons] at hahead hshorter
      omega
    unfold moreArguments
    simp only [Cursor.token_cons, hx, if_true, Cursor.advance_cons, ok_bind, hnext,
      hmore ahead hahead']

theorem power_head_ne_sign {n : Nat} {e : Expr} {ts : List Token} (h : Derives R n (.power e) ts) :
    ∃ t rest, ts = t :: rest ∧ t ≠ .minus ∧ t ≠ .plus := by
  have hprimary : ∀ {e : Expr} {ts : List Token}, Derives R n (.primary e) ts →
      ∃ t rest, ts = t :: rest ∧ t ≠ .minus ∧ t ≠ .plus := by
    intro e ts h
    cases h <;> exact ⟨_, _, rfl, by simp, by simp⟩
  cases h with
  | base h => exact hprimary h
  | raised _ hb _ =>
    obtain ⟨t, rest, rfl, ht⟩ := hprimary hb
    exact ⟨t, _, rfl, ht⟩

theorem signed_of_power {allowance : Nat} {c : Cursor} (hminus : c.token ≠ .minus)
    (hplus : c.token ≠ .plus) : signed R (allowance + 1) c = power R (signed R allowance) c := by
  unfold signed
  split
  · next h => exact absurd h hminus
  · next h => exact absurd h hplus
  · rfl

/-- A derived phrase is read where the token behind it does not carry it on. -/
theorem isRead_of_derives {p : Phrase} {ts : List Token} (h : Derives R n p ts) (allowance : Nat)
    {ls : List Lexeme} (behind : List Lexeme) (hts : ls.map (·.token) = ts) (hn : n ≤ maxNesting)
    (hallowance : maxNesting < allowance + n)
    (hbehind : p.reach < (Cursor.mk behind (.ok length) n).token.reach) :
    IsRead R allowance ⟨ls ++ behind, .ok length, n⟩ ⟨behind, .ok length, n⟩ p := by
  induction h generalizing allowance ls behind with
  | number value =>
    obtain ⟨l, rfl, hl⟩ := List.map_eq_singleton_iff.mp hts
    simp only [IsRead, primary, List.singleton_append, Cursor.token_cons, hl, Cursor.advance_cons,
      ok_bind]
  | @var n v =>
    obtain ⟨l, rfl, hl⟩ := List.map_eq_singleton_iff.mp hts
    have hparen : (Cursor.mk behind (.ok length) n).token ≠ .leftParen :=
      ne_of_reach hbehind (Nat.le_refl _)
    simp only [IsRead, primary, List.singleton_append, Cursor.token_cons, hl, Cursor.advance_cons,
      ok_bind, if_neg hparen, Variable.ofName?_eq_some.mpr rfl]
  | call hfind harity hfree h ih =>
    obtain ⟨l, rest, rfl, hl, hrest⟩ := List.map_eq_cons_iff.mp hts
    obtain ⟨p, ls', q, rfl, hp, hls', hq⟩ := exists_bracketed hrest
    have harguments := ih (allowance - 1) (q :: behind) hls' hfree (by omega)
      (by simp [Cursor.token_cons, hq, Phrase.reach, Token.reach])
    simp only [IsRead, primary, List.cons_append, List.append_assoc, Cursor.token_cons, hl,
      Cursor.advance_cons, ok_bind, hp, if_true, List.nil_append]
    exact call_of_arguments hfind harity hfree hq harguments
  | group hfree h ih =>
    obtain ⟨p, ls', q, rfl, hp, hls', hq⟩ := exists_bracketed hts
    have hinside := ih (allowance - 1) (q :: behind) hls' hfree (by omega)
      (by simp [Cursor.token_cons, hq, Phrase.reach, Token.reach])
    rw [List.cons_append, List.append_assoc]
    exact group_of_sum hp hfree hq hinside
  | @base n e ts h ih =>
    have hprimary := ih allowance behind hts hn hallowance (Nat.lt_of_succ_lt hbehind)
    have hpower : (Cursor.mk behind (.ok length) n).token ≠ .doubleStar :=
      ne_of_reach hbehind (Nat.le_refl _)
    simp only [IsRead] at hprimary
    simp only [IsRead, power, hprimary, ok_bind, if_neg hpower]
  | raised hfree hb he ihb ihe =>
    obtain ⟨ls', x, ls'', rfl, hls', hx, hls''⟩ := exists_infix hts
    have hbase := ihb allowance (x :: (ls'' ++ behind)) hls' hn hallowance
      (by simp [Cursor.token_cons, hx, Phrase.reach, Token.reach])
    have hexponent := ihe (allowance - 1) behind hls'' hfree (by omega) hbehind
    simp only [IsRead] at hbase hexponent
    simp only [IsRead, power, List.append_assoc, List.cons_append, hbase, ok_bind,
      Cursor.token_cons, hx, if_true, Cursor.enter_free hfree, Cursor.advance_cons, hexponent]
    rfl
  | unsigned h ih =>
    have hpower := ih allowance behind hts hn hallowance hbehind
    obtain ⟨t, rest, rfl, hminus, hplus⟩ := power_head_ne_sign h
    obtain ⟨l, ls, rfl, rfl, -⟩ := List.map_eq_cons_iff.mp hts
    obtain ⟨allowance, rfl⟩ : ∃ b, allowance = b + 1 := ⟨allowance - 1, by omega⟩
    exact (signed_of_power (c := ⟨l :: ls ++ behind, .ok length, _⟩) hminus hplus).trans hpower
  | negated hfree h ih =>
    obtain ⟨l, ls, rfl, hl, hls⟩ := List.map_eq_cons_iff.mp hts
    obtain ⟨allowance, rfl⟩ : ∃ b, allowance = b + 1 := ⟨allowance - 1, by omega⟩
    have hoperand := ih allowance behind hls hfree (by omega) hbehind
    simp only [IsRead] at hoperand
    simp only [IsRead, signed, List.cons_append, Cursor.token_cons, hl, Cursor.enter_free hfree,
      ok_bind, Cursor.advance_cons, hoperand]
    rfl
  | plus hfree h ih =>
    obtain ⟨l, ls, rfl, hl, hls⟩ := List.map_eq_cons_iff.mp hts
    obtain ⟨allowance, rfl⟩ : ∃ b, allowance = b + 1 := ⟨allowance - 1, by omega⟩
    have hoperand := ih allowance behind hls hfree (by omega) hbehind
    simp only [IsRead] at hoperand
    simp only [IsRead, signed, List.cons_append, Cursor.token_cons, hl, Cursor.enter_free hfree,
      ok_bind, Cursor.advance_cons, hoperand]
    rfl
  | factor h ih => exact Chains.first (ih allowance behind hts hn hallowance hbehind)
  | timesFactor hop hfree hl hr ihl ihr =>
    obtain ⟨ls', x, ls'', rfl, hls', hx, hls''⟩ := exists_infix hts
    rw [← productOp?_eq_some, ← hx] at hop
    have hleft := ihl allowance (x :: (ls'' ++ behind)) hls' hn hallowance
      (reach_of_productOp? hop)
    have hright := ihr allowance behind hls'' (by omega) (by omega) hbehind
    rw [List.append_assoc]
    exact Chains.round hleft hop hfree hright
  | term h ih =>
    have hproduct := ih allowance behind hts hn hallowance (Nat.lt_of_succ_lt hbehind)
    exact Chains.first (Chains.whole hproduct (productOp?_of_reach hbehind) rfl)
  | plusTerm hop hfree hl hr ihl ihr =>
    obtain ⟨ls', x, ls'', rfl, hls', hx, hls''⟩ := exists_infix hts
    rw [← sumOp?_eq_some, ← hx] at hop
    have hleft := ihl allowance (x :: (ls'' ++ behind)) hls' hn hallowance
      (reach_of_sumOp? hop)
    have hright := ihr allowance behind hls'' (by omega) (by omega)
      (Nat.lt_of_succ_lt hbehind)
    rw [List.append_assoc]
    exact Chains.round hleft hop hfree (Chains.whole hright (productOp?_of_reach hbehind) rfl)
  | @lastArgument n k e ts h ih =>
    have hsum :=
      ih allowance behind hts hn hallowance (Nat.lt_of_succ_lt (Nat.lt_of_succ_lt hbehind))
    have hcomma : (Cursor.mk behind (.ok length) n).token ≠ .comma :=
      ne_of_reach hbehind (Nat.le_refl _)
    refine ⟨_, [], _, rfl,
      Chains.whole hsum (sumOp?_of_reach (Nat.lt_of_succ_lt hbehind)) rfl, by simp, ?_⟩
    intro ahead _
    unfold moreArguments
    rw [if_neg hcomma]
  | argument h hs ih ihs =>
    obtain ⟨ls', x, ls'', rfl, hls', hx, hls''⟩ := exists_infix hts
    have hsum := ih allowance (x :: (ls'' ++ behind)) hls' hn hallowance
      (by simp [Cursor.token_cons, hx, Phrase.reach, Token.reach])
    have hmore := ihs allowance behind hls'' hn hallowance hbehind
    rw [List.append_assoc]
    exact arguments_of_comma (Chains.whole hsum (by rw [Cursor.token_cons, hx]; rfl) rfl) hx
      (by simp) hmore

end Parser

end BatteryParams

import BatteryParams.Proofs.Expr.Exactness

/-!
# How tall an accepted tree can be

The levels that a chain opens are closed at its end, while its tree has grown on the left by one
node for each operator. So a tree may be taller than the levels ever open at once. With `m` levels
free, a power is at most `m ^ 2 + m + 1` nodes tall, the products of a sum may add `m` and its
operators `m` more: a whole text reaches `maxNesting ^ 2 + 3 * maxNesting + 1` and no more. The
bound is reached by calls nested in the first operand of a product that is the first operand of a
sum, on every level.
-/

namespace BatteryParams

/-! ### No tree is taller -/

/-- The bounds on the trees of phrases where `m` levels are free. -/
def Phrase.Fits (m : Nat) : Phrase → Prop
  | .sum k e => k ≤ m ∧ e.height ≤ m * m + 2 * m + 1 + k
  | .product k e => k ≤ m ∧ e.height ≤ m * m + m + 1 + k
  | .signed e => e.height ≤ m * m + m + 1
  | .power e => e.height ≤ m * m + m + 1
  | .primary e => e.height ≤ max 1 (m * m + m)
  | .arguments es => Expr.heightOfAll es ≤ m * m + 3 * m + 1

theorem sq_succ (m : Nat) : (m + 1) * (m + 1) = m * m + 2 * m + 1 := by grind

theorem sq_le_sq {m m' : Nat} (h : m' ≤ m) : m' * m' ≤ m * m := Nat.mul_le_mul h h

theorem fits_of_derives {R : Registry} {n : Nat} {p : Phrase} {ts : List Token}
    (h : Derives R n p ts) {m : Nat} (hm : n + m = maxNesting) : p.Fits m := by
  induction h generalizing m with
  | number value => exact Nat.le_max_left 1 _
  | var v => exact Nat.le_max_left 1 _
  | call hfind harity hn h ih =>
    obtain ⟨m, rfl⟩ : ∃ m', m = m' + 1 := ⟨m - 1, by omega⟩
    have hargs := ih (m := m) (by omega)
    simp only [Phrase.Fits, Expr.height] at hargs ⊢
    rw [sq_succ]
    omega
  | group hn h ih =>
    obtain ⟨m, rfl⟩ : ∃ m', m = m' + 1 := ⟨m - 1, by omega⟩
    obtain ⟨hk, hheight⟩ := ih (m := m) (by omega)
    simp only [Phrase.Fits]
    rw [sq_succ]
    omega
  | base h ih =>
    have hprimary := ih hm
    simp only [Phrase.Fits] at hprimary ⊢
    omega
  | raised hn hb he ihb ihe =>
    have hbase := ihb hm
    obtain ⟨m, rfl⟩ : ∃ m', m = m' + 1 := ⟨m - 1, by omega⟩
    have hexponent := ihe (m := m) (by omega)
    simp only [Phrase.Fits, Expr.height, sq_succ] at hbase hexponent ⊢
    omega
  | unsigned h ih => exact ih hm
  | negated hn h ih =>
    obtain ⟨m, rfl⟩ : ∃ m', m = m' + 1 := ⟨m - 1, by omega⟩
    have hoperand := ih (m := m) (by omega)
    simp only [Phrase.Fits, Expr.height, sq_succ] at hoperand ⊢
    omega
  | plus hn h ih =>
    obtain ⟨m, rfl⟩ : ∃ m', m = m' + 1 := ⟨m - 1, by omega⟩
    have hoperand := ih (m := m) (by omega)
    simp only [Phrase.Fits, sq_succ] at hoperand ⊢
    omega
  | factor h ih => exact ⟨Nat.zero_le m, ih hm⟩
  | @timesFactor n k t op l r ts ts' hop hn hl hr ihl ihr =>
    obtain ⟨hk, hleft⟩ := ihl hm
    have hright := ihr (m := m - k - 1) (by omega)
    have hsq := sq_le_sq (show m - k - 1 ≤ m by omega)
    simp only [Phrase.Fits, Expr.height] at hright ⊢
    omega
  | term h ih =>
    obtain ⟨hk, hheight⟩ := ih hm
    exact ⟨Nat.zero_le m, by omega⟩
  | @plusTerm n k j t op l r ts ts' hop hn hl hr ihl ihr =>
    obtain ⟨hk, hleft⟩ := ihl hm
    obtain ⟨hj, hright⟩ := ihr (m := m - k - 1) (by omega)
    have hsq := sq_le_sq (show m - k - 1 ≤ m by omega)
    simp only [Phrase.Fits, Expr.height]
    omega
  | lastArgument h ih =>
    obtain ⟨hk, hheight⟩ := ih hm
    simp only [Phrase.Fits, Expr.heightOfAll]
    omega
  | argument h hs ih ihs =>
    obtain ⟨hk, hheight⟩ := ih hm
    have hmore := ihs hm
    simp only [Phrase.Fits, Expr.heightOfAll] at hmore ⊢
    omega

theorem height_le_of_parse {text : String} {e : Expr} (h : Expr.parse text = .ok e) :
    e.height ≤ maxNesting * maxNesting + 3 * maxNesting + 1 := by
  obtain ⟨ts, k, -, hderives⟩ := isFormula_of_parseWith h
  obtain ⟨hk, hheight⟩ := fits_of_derives hderives (Nat.zero_add maxNesting)
  omega

/-! ### A tree as tall as that -/

/-- Tokens that are each cut off in front of a blank have a text. -/
theorem exists_tokenizes {ts : List Token} (h : ∀ t ∈ ts, ∃ w, ∀ s, Cuts w (' ' :: s) t) :
    ∃ s, Tokenizes s ts := by
  induction ts with
  | nil => exact ⟨[], .nil⟩
  | cons t ts ih =>
    obtain ⟨w, hw⟩ := h t (by simp)
    obtain ⟨s, hs⟩ := ih fun t' ht' => h t' (by simp [ht'])
    exact ⟨w ++ ' ' :: s, .token (hw s) (.blank (by decide) hs)⟩

/-- The tokens that tall trees are made of. -/
def tallTokens : List Token :=
  [.identifier "x", .identifier "exp", .leftParen, .rightParen, .doubleStar, .star, .plus]

theorem cuts_of_mem_tallTokens {t : Token} (h : t ∈ tallTokens) :
    ∃ w, ∀ s, Cuts w (' ' :: s) t := by
  simp only [tallTokens, List.mem_cons, List.not_mem_nil, or_false] at h
  rcases h with rfl | rfl | rfl | rfl | rfl | rfl | rfl
  · exact ⟨['x'],
      fun s => cuts_of_lexeme (show lexeme 'x' (' ' :: s) = .ok (.identifier "x", 0) from rfl)⟩
  · exact ⟨['e', 'x', 'p'], fun s =>
      cuts_of_lexeme (show lexeme 'e' ('x' :: 'p' :: ' ' :: s) =
        .ok (.identifier "exp", 2) from rfl)⟩
  · exact ⟨['('],
      fun s => cuts_of_lexeme (show lexeme '(' (' ' :: s) = .ok (.leftParen, 0) from rfl)⟩
  · exact ⟨[')'],
      fun s => cuts_of_lexeme (show lexeme ')' (' ' :: s) = .ok (.rightParen, 0) from rfl)⟩
  · exact ⟨['*', '*'],
      fun s => cuts_of_lexeme (show lexeme '*' ('*' :: ' ' :: s) = .ok (.doubleStar, 1) from rfl)⟩
  · exact ⟨['*'], fun s => cuts_of_lexeme (show lexeme '*' (' ' :: s) = .ok (.star, 0) from rfl)⟩
  · exact ⟨['+'], fun s => cuts_of_lexeme (show lexeme '+' (' ' :: s) = .ok (.plus, 0) from rfl)⟩

theorem Expr.one_le_height (e : Expr) : 1 ≤ e.height := by
  cases e <;> simp [Expr.height]

theorem star_mem_productOperators : (Token.star, BinaryOp.mul) ∈ productOperators := by
  simp [productOperators]

theorem plus_mem_sumOperators : (Token.plus, BinaryOp.add) ∈ sumOperators := by simp [sumOperators]

theorem derives_x (R : Registry) (n : Nat) : Derives R n (.signed (.var .x)) [.identifier "x"] :=
  .unsigned (.base (.var .x))

/-- A chain grows by one node for each operator, as long as levels are free. -/
theorem exists_longer {Q : (k : Nat) → Expr → List Token → Prop} {op : BinaryOp} {t : Token}
    {m : Nat} (ht : t ∈ tallTokens) (hstep : ∀ {k e ts},
      k < m → Q k e ts → Q (k + 1) (.binary op e (.var .x)) (ts ++ [t, .identifier "x"]))
    {e : Expr} {ts : List Token} (h : Q 0 e ts) (hts : ∀ t ∈ ts, t ∈ tallTokens) {k : Nat}
    (hk : k ≤ m) : ∃ e' ts', Q k e' ts' ∧ e'.height = e.height + k ∧ ∀ t ∈ ts', t ∈ tallTokens := by
  induction k with
  | zero => exact ⟨e, ts, h, rfl, hts⟩
  | succ k ih =>
    obtain ⟨e', ts', hQ, hheight, hts'⟩ := ih (by omega)
    have hpos := Expr.one_le_height e'
    refine ⟨_, _, hstep hk hQ, ?_, ?_⟩
    · simp only [Expr.height]
      omega
    · intro u hu
      simp only [List.mem_append, List.mem_cons, List.not_mem_nil, or_false] at hu
      rcases hu with hu | rfl | rfl
      · exact hts' u hu
      · exact ht
      · simp [tallTokens]

theorem exists_tall {n m : Nat} (hm : n + m = maxNesting) :
    ∃ e ts, Derives .standard n (.sum m e) ts ∧ e.height = m * m + 3 * m + 1 ∧
      ∀ t ∈ ts, t ∈ tallTokens := by
  induction m generalizing n with
  | zero => exact ⟨.var .x, _, .term (.factor (derives_x _ n)), rfl, by simp [tallTokens]⟩
  | succ m ih =>
    obtain ⟨e, ts, hderives, hheight, hts⟩ := ih (n := n + 1) (by omega)
    have hfind : Registry.standard.find? "exp" = some (.unary .exp) := rfl
    have hcall := Derives.call hfind (show [e].length = (Builtin.unary .exp).arity from rfl)
      (by omega : n < maxNesting) (.lastArgument hderives)
    have hpower := Derives.factor (.unsigned (.raised (by omega) hcall (derives_x _ (n + 1))))
    obtain ⟨e₁, ts₁, hproduct, hheight₁, hts₁⟩ := exists_longer (t := .star) (m := m + 1)
      (Q := fun k e ts => Derives .standard n (.product k e) ts) (by simp [tallTokens])
      (fun hk h => .timesFactor star_mem_productOperators (by omega) h (derives_x _ _)) hpower
      (by simpa [tallTokens, or_imp, forall_and] using hts) (Nat.le_refl _)
    obtain ⟨e₂, ts₂, hsum, hheight₂, hts₂⟩ := exists_longer (t := .plus) (m := m + 1)
      (Q := fun k e ts => Derives .standard n (.sum k e) ts) (by simp [tallTokens])
      (fun hk h => .plusTerm plus_mem_sumOperators (by omega) h (.factor (derives_x _ _)))
      (.term hproduct) hts₁ (Nat.le_refl _)
    refine ⟨e₂, ts₂, hsum, ?_, hts₂⟩
    simp only [Expr.height, Expr.heightOfAll] at hheight₁
    rw [sq_succ]
    omega

theorem exists_parse_tall :
    ∃ text e, Expr.parse text = .ok e ∧ e.height = maxNesting * maxNesting + 3 * maxNesting +
      1 := by
  obtain ⟨e, ts, hderives, hheight, hts⟩ := exists_tall (Nat.zero_add maxNesting)
  obtain ⟨s, hs⟩ := exists_tokenizes fun t ht => cuts_of_mem_tallTokens (hts t ht)
  refine ⟨String.ofList s, e, parseWith_of_isFormula ⟨ts, maxNesting, ?_, hderives⟩, ?_⟩
  · rwa [String.toList_ofList]
  · exact hheight

/-- The least bound on the height of accepted trees. -/
theorem height_le_iff (bound : Nat) :
    (∀ text e, Expr.parse text = .ok e → e.height ≤ bound) ↔
      maxNesting * maxNesting + 3 * maxNesting + 1 ≤ bound := by
  constructor
  · intro h
    obtain ⟨text, e, hparse, hheight⟩ := exists_parse_tall
    rw [← hheight]
    exact h text e hparse
  · intro h text e hparse
    exact Nat.le_trans (height_le_of_parse hparse) h

/-! ### A short text whose tree is too tall for the limit -/

/-- A product of `k + 1` factors and a further term. -/
def productAndTerm (k : Nat) : List Char := (List.replicate k ['x', '*']).flatten ++ ['x', '+', 'x']

theorem tokenizes_productAndTerm (k : Nat) :
    Tokenizes (productAndTerm k) ((List.replicate k [.identifier "x", .star]).flatten ++
      [.identifier "x", .plus, .identifier "x"]) := by
  induction k with
  | zero =>
    show Tokenizes (['x'] ++ (['+'] ++ (['x'] ++ []))) [.identifier "x", .plus, .identifier "x"]
    exact .token (cuts_of_lexeme (show lexeme 'x' ['+', 'x'] = .ok (.identifier "x", 0) from rfl))
      (.token (cuts_of_lexeme (show lexeme '+' ['x'] = .ok (.plus, 0) from rfl))
        (.token (cuts_of_lexeme (show lexeme 'x' [] = .ok (.identifier "x", 0) from rfl)) .nil))
  | succ k ih =>
    obtain ⟨s, hs⟩ : ∃ s, productAndTerm k = 'x' :: s := by
      cases k <;> exact ⟨_, rfl⟩
    have htext : productAndTerm (k + 1) = 'x' :: '*' :: productAndTerm k := rfl
    rw [htext]
    rw [hs] at ih ⊢
    exact .token
      (cuts_of_lexeme (show lexeme 'x' ('*' :: 'x' :: s) = .ok (.identifier "x", 0) from rfl))
      (.token (cuts_of_lexeme (show lexeme '*' ('x' :: s) = .ok (.star, 0) from rfl)) ih)

theorem derives_product (R : Registry) {k : Nat} (hk : k ≤ maxNesting) :
    ∃ e, Derives R 0 (.product k e) ((List.replicate k [.identifier "x", .star]).flatten ++
      [.identifier "x"]) ∧
      e.height = k + 1 := by
  induction k with
  | zero => exact ⟨.var .x, .factor (derives_x R 0), rfl⟩
  | succ k ih =>
    obtain ⟨e, hderives, hheight⟩ := ih (by omega)
    refine ⟨.binary .mul e (.var .x), ?_, ?_⟩
    · have hstep :=
        Derives.timesFactor star_mem_productOperators (by omega) hderives (derives_x R _)
      simpa [List.replicate_succ'] using hstep
    · simp only [Expr.height]
      omega

/-- One product of as many operators as the limit allows, inside a sum. -/
theorem parse_productAndTerm :
    ∃ e, Expr.parse (String.ofList (productAndTerm maxNesting)) = .ok e ∧
      e.height = maxNesting + 2 := by
  obtain ⟨e, hderives, hheight⟩ := derives_product .standard (Nat.le_refl maxNesting)
  have htokens := tokenizes_productAndTerm maxNesting
  rw [← String.toList_ofList (l := productAndTerm maxNesting)] at htokens
  refine ⟨.binary .add e (.var .x), parseWith_of_isFormula ⟨_, 1, htokens, ?_⟩, ?_⟩
  · have hstep := Derives.plusTerm plus_mem_sumOperators (by decide) (.term hderives)
      (.factor (derives_x .standard _))
    simpa using hstep
  · simp only [Expr.height]
    omega

end BatteryParams

import BatteryParams.Proofs.Expr.Completeness

/-!
# How deep the parser recurses

The readers carry an allowance for their recursion. `Cursor.additive` and the routines with it tell
the same reading as functions that call one another, with no allowance, no bound on the rounds of
their loops, and under watch: a reading yields nothing at all if it does not end, if a routine is
entered with more than `maxNesting` levels open or returns with another number of levels than it
found, if a level is left where none is open, or if more calls are active at once than a limit says.

A routine is called with as many levels free as its caller found, or with fewer. With the same
number it is one of those that follow its caller in the grammar, so a chain of calls has at most six
links for every number of free levels. By induction on that number the watch never strikes and the
routines agree with the readers (`agrees`), without a limit and with a limit of six calls for each
of the `maxNesting + 1` numbers of free levels (`recursion_bounded`).
-/

namespace BatteryParams

namespace Parser

/-- Where a reader succeeds, it leaves as many levels open as it found. -/
def Balanced {α : Type} (reader : Reader α) : Prop :=
  ∀ {c a c'}, reader c = .ok (a, c') → c'.depth = c.depth

theorem Sound.balanced {α : Type} {reader : Reader α} {P : Nat → α → List Token → Prop}
    (h : Sound reader P) : Balanced reader := by
  intro c a c' hread
  obtain ⟨ts, -, hdepth, -⟩ := h c a c' hread
  exact hdepth

theorem depth_of_enter {c c' : Cursor} (h : c.enter = .ok c') :
    c.depth < maxNesting ∧ c'.depth = c.depth + 1 := by
  unfold Cursor.enter at h
  split at h
  · next hlt =>
    cases h
    exact ⟨hlt, rfl⟩
  · cases h

theorem depth_of_advance {c c' : Cursor} (h : c.advance = .ok c') : c'.depth = c.depth := by
  rw [(Cursor.settle_eq_ok h).1]

section

variable {R : Registry} {argument : Reader Expr} {c c₁ c₂ c₃ : Cursor}

theorem depth_of_arguments (hargument : Sound argument fun n e ts => ∃ k, Derives R n (.sum k e) ts)
    {first : Expr} {more : List Expr} {bracket : Bracket} (hfirst : argument c = .ok (first, c₁))
    (hmore : moreArguments argument c₁.rest c₁ = .ok (more, c₂))
    (hclose : c₂.close bracket = .ok c₃) : c₃.depth = c.depth := by
  obtain ⟨ts, -, hdepth₁, k, hderives⟩ := hargument c first c₁ hfirst
  rw [← hdepth₁] at hderives
  obtain ⟨ts', -, hdepth₂, -⟩ := moreArguments_sound hargument hmore hderives
  rw [(Cursor.closed hclose).2, hdepth₂, hdepth₁]

/-- A call is balanced wherever it is made, whatever is called. -/
theorem balanced_call (hargument : Sound argument fun n e ts => ∃ k, Derives R n (.sum k e) ts)
    {name : String} {position : Nat} : Balanced (call R argument name position) := by
  intro c e c' h
  unfold call at h
  split at h
  · cases h
  · obtain ⟨c₁, henter, h⟩ := ok_of_bind h
    obtain ⟨c₂, hadvance, h⟩ := ok_of_bind h
    obtain ⟨⟨first, c₃⟩, hfirst, h⟩ := ok_of_bind h
    obtain ⟨⟨more, c₄⟩, hmore, h⟩ := ok_of_bind h
    obtain ⟨c₅, hclose, h⟩ := ok_of_bind h
    simp only at h
    split at h
    · cases h
      have hdepth₁ := (depth_of_enter henter).2
      have hdepth₂ := depth_of_advance hadvance
      have hdepth₅ := depth_of_arguments hargument hfirst hmore hclose
      show c₅.depth - 1 = c.depth
      omega
    · cases h

end

end Parser

namespace Parser.Recursive

variable {α β : Type}

/-- A reading under watch. It yields nothing if it does not end or if the watch strikes. -/
abbrev Watched (α : Type) := ExceptT FormulaError Option α

/-- What a reading comes to that ends without the watch striking. -/
def yields (x : Except FormulaError α) : Watched α := some x

/-- The watch over the calls: `above` counts the calls active at this one. -/
def entering (limit : Option Nat) (above : Nat) (c : Cursor) : Watched Unit :=
  if c.depth ≤ maxNesting ∧ ∀ l ∈ limit, above < l then yields (.ok ()) else none

/-- The watch over what a routine returns. -/
def returning (c : Cursor) (r : Expr × Cursor) : Watched (Expr × Cursor) :=
  if r.2.depth = c.depth then yields (.ok r) else none

/-- The watch over levels that are left. -/
def leaving (c : Cursor) : Watched Cursor := if 0 < c.depth then yields (.ok c.leave) else none

end Parser.Recursive

namespace Cursor

open Parser.Recursive

variable (R : Registry) (limit : Option Nat)

mutual

def additive (above : Nat) (c : Cursor) : Watched (Expr × Cursor) := do
  entering limit above c
  let (left, c₁) ← c |>.multiplicative (above + 1)
  let (e, c₂) ← c₁ |>.terms above left
  returning c (e, { c₂ with depth := c.depth })
partial_fixpoint

/-- The loop of a sum. -/
def terms (above : Nat) (left : Expr) (c : Cursor) : Watched (Expr × Cursor) :=
  match Parser.sumOp? c.token with
  | none => yields (.ok (left, c))
  | some op => do
    let c ← yields c.enter
    let c ← yields c.advance
    let (right, c) ← c |>.multiplicative (above + 1)
    c |>.terms above (.binary op left right)
partial_fixpoint

def multiplicative (above : Nat) (c : Cursor) : Watched (Expr × Cursor) := do
  entering limit above c
  let (left, c₁) ← c |>.unary (above + 1)
  let (e, c₂) ← c₁ |>.factors above left
  returning c (e, { c₂ with depth := c.depth })
partial_fixpoint

/-- The loop of a product. -/
def factors (above : Nat) (left : Expr) (c : Cursor) : Watched (Expr × Cursor) :=
  match Parser.productOp? c.token with
  | none => yields (.ok (left, c))
  | some op => do
    let c ← yields c.enter
    let c ← yields c.advance
    let (right, c) ← c |>.unary (above + 1)
    c |>.factors above (.binary op left right)
partial_fixpoint

def unary (above : Nat) (c : Cursor) : Watched (Expr × Cursor) := do
  entering limit above c
  match c.token with
  | .minus => do
    let c₁ ← yields c.enter
    let c₂ ← yields c₁.advance
    let (e, c₃) ← c₂ |>.unary (above + 1)
    let c₄ ← leaving c₃
    returning c (.neg e, c₄)
  | .plus => do
    let c₁ ← yields c.enter
    let c₂ ← yields c₁.advance
    let (e, c₃) ← c₂ |>.unary (above + 1)
    let c₄ ← leaving c₃
    returning c (e, c₄)
  | _ => do
    let r ← c |>.power (above + 1)
    returning c r
partial_fixpoint

def power (above : Nat) (c : Cursor) : Watched (Expr × Cursor) := do
  entering limit above c
  let (base, c₁) ← c |>.primary (above + 1)
  if c₁.token = .doubleStar then
    let c₂ ← yields c₁.enter
    let c₃ ← yields c₂.advance
    let (e, c₄) ← c₃ |>.unary (above + 1)
    let c₅ ← leaving c₄
    returning c (.binary .pow base e, c₅)
  else returning c (base, c₁)
partial_fixpoint

def primary (above : Nat) (c : Cursor) : Watched (Expr × Cursor) := do
  entering limit above c
  match c.token with
  | .number x => do
    let c₁ ← yields c.advance
    returning c (.number x, c₁)
  | .identifier name => do
    let c₁ ← yields c.advance
    if c₁.token = .leftParen then
      let r ← c₁ |>.call (above + 1) name c.position
      returning c r
    else
      match Variable.ofName? name with
      | some v => returning c (.var v, c₁)
      | none => yields (.error ⟨.unknownIdentifier name, c.position⟩)
  | .leftParen => do
    let c₁ ← yields c.enter
    let c₂ ← yields c₁.advance
    let (e, c₃) ← c₂ |>.additive (above + 1)
    let c₄ ← yields (c₃.close .group)
    let c₅ ← leaving c₄
    returning c (e, c₅)
  | token => yields (c.fail (.unexpected token))
partial_fixpoint

def call (above : Nat) (name : String) (position : Nat) (c : Cursor) : Watched (Expr × Cursor) := do
  entering limit above c
  match R.find? name with
  | none => yields (.error ⟨.unknownFunction name, position⟩)
  | some f => do
    let c₁ ← yields c.enter
    let c₂ ← yields c₁.advance
    let (first, c₃) ← c₂ |>.additive (above + 1)
    let (more, c₄) ← c₃ |>.arguments above
    let c₅ ← yields (c₄.close .arguments)
    let c₆ ← leaving c₅
    if (first :: more).length = f.arity then returning c (.call f (first :: more), c₆)
    else yields (.error ⟨.wrongArity name f.arity (first :: more).length, position⟩)
partial_fixpoint

/-- The loop of a call. -/
def arguments (above : Nat) (c : Cursor) : Watched (List Expr × Cursor) :=
  if c.token = .comma then do
    let c₁ ← yields c.advance
    let (arg, c₂) ← c₁ |>.additive (above + 1)
    let (args, c₃) ← c₂ |>.arguments above
    yields (.ok (arg :: args, c₃))
  else yields (.ok ([], c))
partial_fixpoint

end

end Cursor

namespace Parser.Recursive

/-! ### The watch -/

section

variable {R : Registry} {limit : Option Nat} {above k m : Nat} {c c' c₁ c₂ : Cursor}

theorem yields_bind {x : Except FormulaError α} {f : α → Watched β} {g : α → Except FormulaError β}
    (h : ∀ a, x = .ok a → f a = yields (g a)) : yields x >>= f = yields (x >>= g) := by
  cases x with
  | error e => rfl
  | ok a => exact h a rfl

/-- No limit, or one with room for `n` more calls. -/
def Room (limit : Option Nat) (above n : Nat) : Prop := ∀ l ∈ limit, above + n ≤ l

theorem Room.mono {n n' : Nat} (h : Room limit above n) (hn : n' ≤ n) : Room limit above n' := by
  intro l hl
  have := h l hl
  omega

theorem Room.call {n n' : Nat} (h : Room limit above n) (hn : n' < n) :
    Room limit (above + 1) n' := by
  intro l hl
  have := h l hl
  omega

theorem entering_bind {n : Nat} (hdepth : c.depth ≤ maxNesting) (hroom : Room limit above (n + 1))
    (f : Unit → Watched α) : entering limit above c >>= f = f () := by
  have hlimit : ∀ l ∈ limit, above < l := fun l hl => Nat.lt_of_lt_of_le (by omega) (hroom l hl)
  rw [entering, if_pos ⟨hdepth, hlimit⟩]
  rfl

theorem returning_eq {r : Expr × Cursor} (h : r.2.depth = c.depth) :
    returning c r = yields (.ok r) := if_pos h

/-- A call that is the last step of its caller. -/
theorem yields_returning {x : Except FormulaError (Expr × Cursor)}
    (h : ∀ r, x = .ok r → r.2.depth = c.depth) :
    (yields x >>= fun r => returning c r) = yields x := by
  cases x with
  | error e => rfl
  | ok r => exact returning_eq (h r rfl)

theorem leaving_bind (h : c'.depth = k + 1) (f : Cursor → Watched α) :
    leaving c' >>= f = f c'.leave := by
  rw [leaving, if_pos (by omega)]
  rfl

/-! ### Agreement -/

/-- The equation of a loop of operators, each with an operand behind it. -/
def IsLoop (op? : Token → Option BinaryOp) (watched : Cursor → Watched (Expr × Cursor))
    (loop : Expr → Cursor → Watched (Expr × Cursor)) : Prop :=
  ∀ left c, loop left c =
    match op? c.token with
    | none => yields (.ok (left, c))
    | some op => do
      let c ← yields c.enter
      let c ← yields c.advance
      let (right, c) ← watched c
      loop (.binary op left right) c

section

variable {op? : Token → Option BinaryOp} {operand : Reader Expr}
    {watched : Cursor → Watched (Expr × Cursor)}
  {loop : Expr → Cursor → Watched (Expr × Cursor)}

/-- A loop of operators, with operands on all numbers of free levels below `k`. -/
theorem loop_agrees (hloop : IsLoop op? watched loop) (hbalanced : Balanced operand)
    (hoperand : ∀ j < k, ∀ c : Cursor, c.depth + j = maxNesting → watched c = yields (operand c))
    {bound : Nat} {left : Expr} (hdepth : c.depth + k = maxNesting) (hbound : k < bound) :
    loop left c = yields (chain op? operand bound left c) := by
  induction k using Nat.strong_induction_on generalizing bound left c with
  | h k ih =>
    obtain ⟨bound, rfl⟩ : ∃ b, bound = b + 1 := ⟨bound - 1, by omega⟩
    rw [hloop]
    cases hop : op? c.token with
    | none => rw [chain_end hop]
    | some op =>
      rw [chain_round hop]
      refine yields_bind fun c₁ hc₁ => yields_bind fun c₂ hc₂ => ?_
      obtain ⟨hfree, hdepth₁⟩ := depth_of_enter hc₁
      have hdepth₂ := depth_of_advance hc₂
      rw [hoperand (k - 1) (by omega) c₂ (by omega)]
      refine yields_bind ?_
      rintro ⟨right, c₃⟩ hc₃
      have hdepth₃ := hbalanced hc₃
      exact ih (k - 1) (by omega) (fun j hj => hoperand j (by omega)) (by omega) (by omega)

/-- A chain of operands, with operands on no more than `k` free levels. -/
theorem chained_agrees (hloop : IsLoop op? watched loop) (hbalanced : Balanced operand)
    (hoperand : ∀ j ≤ k, ∀ c : Cursor, c.depth + j = maxNesting → watched c = yields (operand c))
    (hdepth : c.depth + k = maxNesting) :
    (do
      let (left, c₁) ← watched c
      let (e, c₂) ← loop left c₁
      returning c (e, { c₂ with depth := c.depth })) =
    yields (chained op? operand c) := by
  rw [chained, hoperand k (Nat.le_refl k) c hdepth]
  refine yields_bind ?_
  rintro ⟨left, c₁⟩ hc₁
  have hdepth₁ := hbalanced hc₁
  dsimp only
  rw [loop_agrees hloop hbalanced (fun j hj => hoperand j (Nat.le_of_lt hj)) (by omega)
    (show k < maxNesting + 1 by omega)]
  exact yields_bind fun r _ => returning_eq rfl

end

/-- With `k` levels free, the routines that read what stands on a level of its own, in brackets or
behind a sign, agree with the readers. -/
structure Agrees (R : Registry) (limit : Option Nat) (k : Nat) : Prop where
  additive : ∀ {above a c}, c.depth + k = maxNesting → Room limit above (6 * k + 6) → k < a →
    Cursor.additive R limit above c = yields (sum (signed R a) c)
  unary : ∀ {above a c}, c.depth + k = maxNesting → Room limit above (6 * k + 4) → k < a →
    Cursor.unary R limit above c = yields (signed R a c)

theorem arguments_agrees {a : Nat} (hbelow : Agrees R limit k) (hdepth : c.depth + k = maxNesting)
    (hroom : Room limit above (6 * k + 7)) (ha : k < a) {ahead : List Lexeme}
    (hahead : c.rest.length ≤ ahead.length) :
    Cursor.arguments R limit above c = yields (moreArguments (sum (signed R a)) ahead c) := by
  induction ahead generalizing c with
  | nil =>
    have hend : c.token ≠ .comma := by
      rw [Cursor.token, List.eq_nil_of_length_eq_zero (Nat.le_zero.mp hahead)]
      nofun
    rw [Cursor.arguments, moreArguments, if_neg hend, if_neg hend]
  | cons l ahead ih =>
    rw [Cursor.arguments, moreArguments]
    split
    · next hcomma =>
      refine yields_bind fun c₁ hc₁ => ?_
      have hdepth₁ := depth_of_advance hc₁
      rw [hbelow.additive (by omega) (hroom.call (by omega)) ha]
      refine yields_bind ?_
      rintro ⟨arg, c₂⟩ hc₂
      obtain ⟨ts, hpasses, hdepth₂, -⟩ := sum_sound (signed_sound R a) c₁ arg c₂ hc₂
      -- the comma is passed, so fewer tokens are left than before
      have hshorter : c₂.rest.length ≤ ahead.length := by
        obtain ⟨ls, -, hrest⟩ := hpasses.rest
        have htail : c.rest.tail = ls ++ c₂.rest := by rw [← hrest, (Cursor.settle_eq_ok hc₁).1]
        have hlength := congrArg List.length htail
        rw [List.length_tail, List.length_append] at hlength
        rw [List.length_cons] at hahead
        omega
      dsimp only
      rw [ih (by omega) hshorter]
      exact yields_bind fun _ _ => rfl
    · rfl

theorem call_agrees {a : Nat} (hbelow : ∀ k < m, Agrees R limit k)
    (hdepth : c.depth + m = maxNesting)
    (hroom : Room limit above (6 * m + 1)) (ha : m ≤ a) (name : String) (position : Nat) :
    Cursor.call R limit above name position c =
      yields (Parser.call R (sum (signed R a)) name position c) := by
  rw [Cursor.call, Parser.call, entering_bind (by omega) hroom]
  cases R.find? name with
  | none => rfl
  | some f =>
    dsimp only
    refine yields_bind fun c₁ hc₁ => yields_bind fun c₂ hc₂ => ?_
    obtain ⟨hfree, hdepth₁⟩ := depth_of_enter hc₁
    have hdepth₂ := depth_of_advance hc₂
    obtain ⟨k, rfl⟩ : ∃ k, m = k + 1 := ⟨m - 1, by omega⟩
    have hk := hbelow k (Nat.lt_succ_self k)
    rw [hk.additive (a := a) (by omega) (hroom.call (by omega)) (by omega)]
    refine yields_bind ?_
    rintro ⟨first, c₃⟩ hc₃
    have hdepth₃ := (sum_sound (signed_sound R a)).balanced hc₃
    dsimp only
    rw [arguments_agrees (a := a) hk (by omega) hroom (by omega) (Nat.le_refl _)]
    refine yields_bind ?_
    rintro ⟨more, c₄⟩ hc₄
    refine yields_bind fun c₅ hc₅ => ?_
    have hdepth₅ : c₅.depth = c.depth + 1 := by
      have := depth_of_arguments (sum_sound (signed_sound R a)) hc₃ hc₄ hc₅
      omega
    rw [leaving_bind hdepth₅]
    split
    · exact returning_eq (Nat.pred_eq_of_eq_succ hdepth₅)
    · rfl

theorem primary_agrees {a : Nat} (hbelow : ∀ k < m, Agrees R limit k)
    (hdepth : c.depth + m = maxNesting) (hroom : Room limit above (6 * m + 2)) (ha : m ≤ a) :
    Cursor.primary R limit above c = yields (Parser.primary R (sum (signed R a)) c) := by
  rw [Cursor.primary, Parser.primary, entering_bind (by omega) hroom]
  cases htoken : c.token with
  | number x => exact yields_bind fun c₁ hc₁ => returning_eq (depth_of_advance hc₁)
  | identifier name =>
    refine yields_bind fun c₁ hc₁ => ?_
    have hdepth₁ := depth_of_advance hc₁
    split
    · rw [call_agrees hbelow (by omega) (hroom.call (by omega)) ha]
      refine yields_returning ?_
      rintro ⟨e, c₂⟩ hc₂
      exact (balanced_call (sum_sound (signed_sound R a)) hc₂).trans hdepth₁
    · cases Variable.ofName? name with
      | some v => exact returning_eq hdepth₁
      | none => rfl
  | leftParen =>
    refine yields_bind fun c₁ hc₁ => yields_bind fun c₂ hc₂ => ?_
    obtain ⟨hfree, hdepth₁⟩ := depth_of_enter hc₁
    have hdepth₂ := depth_of_advance hc₂
    obtain ⟨k, rfl⟩ : ∃ k, m = k + 1 := ⟨m - 1, by omega⟩
    rw [(hbelow k (Nat.lt_succ_self k)).additive (a :=
      a) (by omega) (hroom.call (by omega)) (by omega)]
    refine yields_bind ?_
    rintro ⟨e, c₃⟩ hc₃
    refine yields_bind fun c₄ hc₄ => ?_
    have hdepth₃ := (sum_sound (signed_sound R a)).balanced hc₃
    have hdepth₄ : c₄.depth = c.depth + 1 := by
      have := (Cursor.closed hc₄).2
      omega
    rw [leaving_bind hdepth₄]
    exact returning_eq (Nat.pred_eq_of_eq_succ hdepth₄)
  | _ => rfl

/-- An operand on a level of its own, which a sign or a power operator opens. -/
theorem level_agrees {a : Nat} (hbelow : ∀ k < m, Agrees R limit k)
    (hdepth : c.depth + m = maxNesting)
    (hroom : Room limit above (6 * m + 1)) (ha : m ≤ a) (hsame : c'.depth = c.depth)
    (henter : c'.enter = .ok c₁) (hadvance : c₁.advance = .ok c₂) (build : Expr → Expr) :
    (do
      let (e, c₃) ← Cursor.unary R limit (above + 1) c₂
      let c₄ ← leaving c₃
      returning c (build e, c₄)) =
    yields (do
      let (e, c₃) ← signed R a c₂
      .ok (build e, c₃.leave)) := by
  obtain ⟨hfree, hdepth₁⟩ := depth_of_enter henter
  have hdepth₂ := depth_of_advance hadvance
  obtain ⟨k, rfl⟩ : ∃ k, m = k + 1 := ⟨m - 1, by omega⟩
  rw [(hbelow k (Nat.lt_succ_self k)).unary (a := a) (by omega) (hroom.call (by omega)) (by omega)]
  refine yields_bind ?_
  rintro ⟨e, c₃⟩ hc₃
  have hdepth₃ : c₃.depth = c.depth + 1 := by
    have := (signed_sound R a).balanced hc₃
    omega
  dsimp only
  rw [leaving_bind hdepth₃]
  exact returning_eq (Nat.pred_eq_of_eq_succ hdepth₃)

theorem power_agrees {a : Nat} (hbelow : ∀ k < m, Agrees R limit k)
    (hdepth : c.depth + m = maxNesting) (hroom : Room limit above (6 * m + 3)) (ha : m ≤ a) :
    Cursor.power R limit above c = yields (Parser.power R (signed R a) c) := by
  rw [Cursor.power, Parser.power, entering_bind (by omega) hroom,
    primary_agrees hbelow hdepth (hroom.call (by omega)) ha]
  refine yields_bind ?_
  rintro ⟨base, c₁⟩ hc₁
  have hdepth₁ := (primary_sound (sum_sound (signed_sound R a))).balanced hc₁
  dsimp only
  split
  · refine yields_bind fun c₂ hc₂ => yields_bind fun c₃ hc₃ => ?_
    exact level_agrees hbelow hdepth (hroom.mono (by omega)) ha hdepth₁ hc₂ hc₃ (.binary .pow base)
  · exact returning_eq hdepth₁

theorem unary_agrees {a : Nat} (hbelow : ∀ k < m, Agrees R limit k)
    (hdepth : c.depth + m = maxNesting) (hroom : Room limit above (6 * m + 4))
    (ha : m < a) : Cursor.unary R limit above c = yields (signed R a c) := by
  obtain ⟨a, rfl⟩ : ∃ a', a = a' + 1 := ⟨a - 1, by omega⟩
  have hlevel : Room limit above (6 * m + 1) := hroom.mono (by omega)
  have hsign {c₁ c₂ : Cursor} (henter : c.enter = .ok c₁) (hadvance : c₁.advance = .ok c₂) :=
    level_agrees hbelow hdepth hlevel (Nat.le_of_lt_succ ha) rfl henter hadvance
  rw [Cursor.unary, signed, entering_bind (by omega) hroom]
  cases c.token with
  | minus => exact yields_bind fun c₁ hc₁ => yields_bind fun c₂ hc₂ => hsign hc₁ hc₂ .neg
  | plus => exact yields_bind fun c₁ hc₁ => yields_bind fun c₂ hc₂ => hsign hc₁ hc₂ id
  | _ =>
    rw [power_agrees (a := a) hbelow hdepth (hroom.call (by omega)) (by omega)]
    exact yields_returning fun r hr => (power_sound (signed_sound R a)).balanced hr

theorem multiplicative_agrees {a : Nat} (hbelow : ∀ k < m, Agrees R limit k)
    (hdepth : c.depth + m = maxNesting) (hroom : Room limit above (6 * m + 5)) (ha : m < a) :
    Cursor.multiplicative R limit above c = yields (product (signed R a) c) := by
  rw [Cursor.multiplicative, entering_bind (by omega) hroom]
  refine chained_agrees (fun left c => by rw [Cursor.factors]) (signed_sound R a).balanced
    (fun j hj c hc => ?_) hdepth
  exact unary_agrees (fun k hk => hbelow k (by omega)) hc (hroom.call (by omega)) (by omega)

theorem additive_agrees {a : Nat} (hbelow : ∀ k < m, Agrees R limit k)
    (hdepth : c.depth + m = maxNesting) (hroom : Room limit above (6 * m + 6)) (ha : m < a) :
    Cursor.additive R limit above c = yields (sum (signed R a) c) := by
  have hbalanced : Balanced (product (signed R a)) := (product_sound (signed_sound R a)).balanced
  rw [Cursor.additive, entering_bind (by omega) hroom]
  refine chained_agrees (fun left c => by rw [Cursor.terms]) hbalanced (fun j hj c hc => ?_) hdepth
  exact multiplicative_agrees (fun k hk => hbelow k (by omega)) hc (hroom.call (by omega))
    (by omega)

theorem agrees (R : Registry) (limit : Option Nat) (m : Nat) : Agrees R limit m := by
  induction m using Nat.strong_induction_on with
  | h m hbelow =>
    exact ⟨additive_agrees hbelow, unary_agrees hbelow⟩

end

/-! ### The routines from outside -/

/-- The routines, with what a call is given besides the parser's state. -/
inductive Routine where
  | additive
  | multiplicative
  | unary
  | power
  | primary
  | call (name : String) (position : Nat)

namespace Routine

/-- A routine under watch, called from outside. -/
def watched (R : Registry) (limit : Option Nat) : Routine → Cursor → Watched (Expr × Cursor)
  | .additive => Cursor.additive R limit 0
  | .multiplicative => Cursor.multiplicative R limit 0
  | .unary => Cursor.unary R limit 0
  | .power => Cursor.power R limit 0
  | .primary => Cursor.primary R limit 0
  | .call name position => Cursor.call R limit 0 name position

/-- The reader that does what a routine does, with the allowance that the parser gives it. -/
def reader (R : Registry) : Routine → Reader Expr
  | .additive => sum (signed R (maxNesting + 1))
  | .multiplicative => product (signed R (maxNesting + 1))
  | .unary => signed R (maxNesting + 1)
  | .power => Parser.power R (signed R maxNesting)
  | .primary => Parser.primary R (sum (signed R maxNesting))
  | .call name position => Parser.call R (sum (signed R maxNesting)) name position

theorem balanced_reader (R : Registry) (r : Routine) : Balanced (r.reader R) := by
  cases r with
  | additive => exact (sum_sound (signed_sound R _)).balanced
  | multiplicative => exact (product_sound (signed_sound R _)).balanced
  | unary => exact (signed_sound R _).balanced
  | power => exact (power_sound (signed_sound R _)).balanced
  | primary => exact (primary_sound (sum_sound (signed_sound R _))).balanced
  | call name position => exact balanced_call (sum_sound (signed_sound R _))

/-- Where no more levels are open than may be, a routine does what its reader does, and the watch
does not strike if there is room for six calls for each number of free levels. -/
theorem watched_eq {R : Registry} {limit : Option Nat} {c : Cursor}
    (hroom : Room limit 0 (6 * (maxNesting + 1))) (hdepth : c.depth ≤ maxNesting)
    (r : Routine) : r.watched R limit c = yields (r.reader R c) := by
  obtain ⟨m, hm⟩ : ∃ m, c.depth + m = maxNesting := ⟨maxNesting - c.depth, by omega⟩
  have hbelow (k : Nat) (_ : k < m) : Agrees R limit k := agrees R limit k
  have hlevel {rank : Nat} (hrank : rank ≤ 6) : Room limit 0 (6 * m + rank) := hroom.mono (by omega)
  cases r with
  | additive => exact additive_agrees hbelow hm (hlevel (by omega)) (by omega)
  | multiplicative => exact multiplicative_agrees hbelow hm (hlevel (by omega)) (by omega)
  | unary => exact unary_agrees hbelow hm (hlevel (by omega)) (by omega)
  | power => exact power_agrees hbelow hm (hlevel (by omega)) (by omega)
  | primary => exact primary_agrees hbelow hm (hlevel (by omega)) (by omega)
  | call name position => exact call_agrees hbelow hm (hlevel (by omega)) (by omega) name position

end Routine

/-- A whole text, read by the routines under watch. -/
def parse (R : Registry) (limit : Option Nat) (text : String) : Watched Expr :=
  if (Text.trim text.toList).isEmpty then yields (.error ⟨.blank, 0⟩)
  else do
    let c ← yields (Cursor.ofScan (scan text))
    let (e, c) ← Routine.additive.watched R limit c
    yields (if c.token = .endOfInput then .ok e else c.fail (.trailing c.token))

theorem parse_eq {R : Registry} {limit : Option Nat} (hroom : Room limit 0 (6 * (maxNesting + 1)))
    (text : String) : parse R limit text = yields (Expr.parseWith R text) := by
  rw [parse, Expr.parseWith]
  split
  · rfl
  · refine yields_bind fun c hc => ?_
    have hstart : c.depth = 0 := by rw [(Cursor.settle_eq_ok hc).1]
    rw [Routine.watched_eq hroom (by omega)]
    exact yields_bind fun _ _ => rfl

/-- The recursion of the parser, left to itself, ends on every text with what the readers give, and
so it does in no more than six active calls for each of the `maxNesting + 1` numbers of free levels.
No routine is entered with more than `maxNesting` levels open, each leaves as many open as it found,
and no level is left where none is open: in reading a text, and in every routine called from a state
of its own. -/
theorem recursion_bounded (R : Registry) :
    (∀ text, parse R none text = yields (Expr.parseWith R text) ∧
      parse R (some (6 * (maxNesting + 1))) text = parse R none text) ∧
    (∀ (r : Routine) (c : Cursor), c.depth ≤ maxNesting →
      r.watched R none c = yields (r.reader R c) ∧
        r.watched R (some (6 * (maxNesting + 1))) c = r.watched R none c) ∧
    ∀ (r : Routine) (c : Cursor) (e : Expr) (c' : Cursor), r.reader R c = .ok (e, c') →
      c'.depth = c.depth := by
  have hnone : Room none 0 (6 * (maxNesting + 1)) := nofun
  have hsome : Room (some (6 * (maxNesting + 1))) 0 (6 * (maxNesting + 1)) := by
    rintro l ⟨⟩
    omega
  refine ⟨fun text => ⟨parse_eq hnone text, ?_⟩, fun r c hdepth => ⟨r.watched_eq hnone hdepth, ?_⟩,
    fun r c e c' => r.balanced_reader R⟩
  · rw [parse_eq hsome, parse_eq hnone]
  · rw [r.watched_eq hsome hdepth, r.watched_eq hnone hdepth]

/-- A call with one level free, at the parenthesis behind its name. -/
theorem recursion_bounded_call :
    255 ≤ maxNesting ∧
      (Routine.call "exp" 0).watched .standard none
        ⟨[⟨.leftParen, 3⟩, ⟨.identifier "x", 4⟩, ⟨.rightParen, 5⟩], .ok 6, 255⟩ =
      yields (.ok (.call (.unary .exp) [.var .x], ⟨[], .ok 6, 255⟩)) := by
  have hcall := (recursion_bounded .standard).2.1 (.call "exp" 0)
    ⟨[⟨.leftParen, 3⟩, ⟨.identifier "x", 4⟩, ⟨.rightParen, 5⟩], .ok 6, 255⟩ (by decide)
  exact ⟨by decide, hcall.1.trans rfl⟩

end Parser.Recursive

end BatteryParams

import BatteryParams.Proofs.Expr.Places

/-!
# Layout does not matter

`Spaced` says that one text is another with blanks put in between its tokens, and notes where every
token stands in both. The longest match that cuts off a token looks at no more than the character
behind it, and a blank there ends the token as what stood there before did. So both texts split into
the same tokens, and since readers go by tokens they give the same tree, or fail for the same cause
at the same token (`parseWith_spaced`).
-/

namespace BatteryParams

open Text (isBlank byteWidth)

/-- The text `s'` is `s` with blanks put in before, between or behind its tokens. With the texts
starting at bytes `p` and `p'`, the `marks` are the bytes at which each token and then the end stand
in both. -/
inductive Spaced : (p p' : Nat) → (s s' : List Char) → (marks : List (Nat × Nat)) → Prop
  | done {p p' : Nat} : Spaced p p' [] [] [(p, p')]
  | kept {p p' : Nat} {c : Char} {s s' : List Char} {marks : List (Nat × Nat)}
      (h : isBlank c = true)
      (hs : Spaced (p + c.utf8Size) (p' + c.utf8Size) s s' marks) :
        Spaced p p' (c :: s) (c :: s') marks
  | inserted {p p' : Nat} {c : Char} {s s' : List Char} {marks : List (Nat × Nat)}
      (h : isBlank c = true)
      (hs : Spaced p (p' + c.utf8Size) s s' marks) : Spaced p p' s (c :: s') marks
  | token {p p' : Nat} {w s s' : List Char} {t : Token} {marks : List (Nat × Nat)} (h : Cuts w s t)
      (hs : Spaced (p + byteWidth w) (p' + byteWidth w) s s' marks) :
      Spaced p p' (w ++ s) (w ++ s') ((p, p') :: marks)

variable {p p' : Nat} {s s' : List Char} {marks : List (Nat × Nat)} {ρ : Nat → Nat → Prop}

/-- Behind what was in front, the new text goes on as the old one does, or with a blank. -/
theorem Spaced.head (h : Spaced p p' s s' marks) :
    ∀ c, s'.head? = some c → s.head? = some c ∨ isBlank c = true := by
  cases h with
  | done => nofun
  | kept hblank _ | inserted hblank _ =>
    rintro c ⟨⟩
    exact .inr hblank
  | token hcuts _ =>
    obtain ⟨c, tail, rfl, -, -⟩ := lexeme_of_cuts hcuts
    exact fun _ => .inl

theorem scanFrom_of_cuts {w : List Char} {t : Token} (h : Cuts w s t) (p : Nat) :
    scanFrom (w ++ s) p =
      ⟨⟨t, p⟩ :: (scanFrom s (p + byteWidth w)).lexemes, (scanFrom s (p + byteWidth w)).stop⟩ := by
  obtain ⟨c, tail, rfl, hblank, hlexeme⟩ := lexeme_of_cuts h
  rw [List.cons_append, scanFrom_token hblank hlexeme, List.drop_left, List.take_left]

/-- The scans of both texts hold the same tokens, at the places marked. -/
theorem Spaced.matches_scan (h : Spaced p p' s s' marks) (hmarks : ∀ m ∈ marks, ρ m.1 m.2)
    (depth : Nat) : Cursor.Matches ρ ⟨(scanFrom s p).lexemes, (scanFrom s p).stop, depth⟩
      ⟨(scanFrom s' p').lexemes, (scanFrom s' p').stop, depth⟩ := by
  induction h with
  | done =>
    rw [scanFrom_nil, scanFrom_nil]
    exact ⟨.nil, hmarks _ (List.mem_singleton_self _), rfl⟩
  | kept hblank _ ih =>
    rw [scanFrom_blank hblank, scanFrom_blank hblank]
    exact ih hmarks
  | inserted hblank _ ih =>
    rw [scanFrom_blank hblank]
    exact ih hmarks
  | token hcuts hs ih =>
    obtain ⟨hhere, hmarks⟩ := List.forall_mem_cons.mp hmarks
    have hrest := ih hmarks
    rw [scanFrom_of_cuts hcuts, scanFrom_of_cuts (hcuts.of_head hs.head)]
    exact ⟨.cons ⟨rfl, hhere⟩ hrest.rest, hrest.stop, rfl⟩

theorem Spaced.blank_iff (h : Spaced p p' s s' marks) :
    (∀ c ∈ s', isBlank c = true) ↔ ∀ c ∈ s, isBlank c = true := by
  induction h with
  | done => rfl
  | kept hblank _ ih => simp only [List.forall_mem_cons, hblank, true_and, ih]
  | inserted hblank _ ih => simp only [List.forall_mem_cons, hblank, true_and, ih]
  | token hcuts _ _ =>
    obtain ⟨c, tail, rfl, hblank, -⟩ := lexeme_of_cuts hcuts
    simp only [List.cons_append, List.forall_mem_cons, hblank, Bool.false_eq_true, false_and]

theorem not_blank_of_tokenizes {t : Token} {ts : List Token} (h : Tokenizes s (t :: ts)) :
    ¬∀ c ∈ s, isBlank c = true := by
  intro hblank
  have hnone := (scanFrom_of_tokenizes ((tokenizes_nil_iff s).mpr hblank) 0).2
  rw [(scanFrom_of_tokenizes h 0).2] at hnone
  cases hnone

/-- Blanks between tokens, wherever they are put in, change neither the tree of a formula nor the
cause of a failure, and the failure stays with its token or with the end. -/
theorem parseWith_spaced (R : Registry) {text text' : String} {t : Token} {ts : List Token}
    (htokens : Tokenizes text.toList (t :: ts)) (h : Spaced 0 0 text.toList text'.toList marks) :
    (∃ e, Expr.parseWith R text = .ok e ∧ Expr.parseWith R text' = .ok e) ∨
      ∃ cause q q', Expr.parseWith R text = .error ⟨cause, q⟩ ∧
        Expr.parseWith R text' = .error ⟨cause, q'⟩ ∧
        (q, q') ∈ marks := by
  have hblank := not_blank_of_tokenizes htokens
  have hmatches := h.matches_scan (ρ := fun q q' => (q, q') ∈ marks) (fun m hm => hm) 0
  have halike := hmatches.settle.bind (Parser.blind_formula R (maxNesting + 1))
  change Alike _ _ (Cursor.ofScan (scan text) >>= _) (Cursor.ofScan (scan text') >>= _) at halike
  rw [← parseWith_eq hblank, ← parseWith_eq (mt h.blank_iff.mp hblank)] at halike
  exact halike.same_end

/-- An open bracket, with a blank of one byte in front of the name in it and one of three bytes
behind. -/
theorem parseWith_spaced_open :
    Tokenizes "exp(x".toList [.identifier "exp", .leftParen, .identifier "x"] ∧
      Spaced 0 0 "exp(x".toList "exp( x\u2003".toList [(0, 0), (3, 3), (4, 5), (5, 9)] ∧
        Expr.parse "exp(x" = .error ⟨.unclosed .arguments .endOfInput, 5⟩ ∧
          Expr.parse "exp( x\u2003" = .error ⟨.unclosed .arguments .endOfInput, 9⟩ := by
  have hexp : Cuts ['e', 'x', 'p'] ['(', 'x'] (.identifier "exp") :=
    cuts_of_lexeme (show lexeme 'e' ['x', 'p', '(', 'x'] = .ok (.identifier "exp", 2) from rfl)
  have hleft : Cuts ['('] ['x'] .leftParen :=
    cuts_of_lexeme (show lexeme '(' ['x'] = .ok (.leftParen, 0) from rfl)
  have hx : Cuts ['x'] [] (.identifier "x") :=
    cuts_of_lexeme (show lexeme 'x' [] = .ok (.identifier "x", 0) from rfl)
  have htokens : Tokenizes "exp(x".toList [.identifier "exp", .leftParen, .identifier "x"] :=
    .token hexp (.token hleft (.token hx .nil))
  have hspaced : Spaced 0 0 "exp(x".toList "exp( x\u2003".toList [(0, 0), (3, 3), (4, 5), (5, 9)] :=
    .token hexp (.token hleft (.inserted (by decide) (.token hx (.inserted (by decide) .done))))
  have herror : Expr.parse "exp(x" = .error ⟨.unclosed .arguments .endOfInput, 5⟩ :=
    error_of_map (f := fun _ => ()) (by decide +kernel)
  refine ⟨htokens, hspaced, herror, ?_⟩
  rcases parseWith_spaced .standard htokens hspaced with ⟨e, hread, -⟩ | ⟨cause, q, q', hread,
    hread', hmark⟩
  · rw [← Expr.parse, herror] at hread
    cases hread
  · rw [← Expr.parse, herror] at hread
    cases hread
    obtain rfl : q' = 9 := by simpa using hmark
    exact hread'

end BatteryParams

import BatteryParams.Expr.Token
import BatteryParams.Proofs.Expr.Spelling

/-!
# Scanning a formula

`scan` reaches the end of a text exactly if the text splits into tokens, and then finds these tokens
(`tokenizes_iff_scan`).
-/

namespace BatteryParams

open Text (isBlank byteWidth)

/-! ### The scanner, character by character -/

theorem byteWidth_cons (c : Char) (s : List Char) : byteWidth (c :: s) = c.utf8Size + byteWidth s :=
  rfl

theorem byteWidth_append (s s' : List Char) : byteWidth (s ++ s') = byteWidth s + byteWidth s' := by
  induction s with
  | nil => exact (Nat.zero_add _).symm
  | cons c s ih => rw [List.cons_append, byteWidth_cons, byteWidth_cons, ih, Nat.add_assoc]

/-- A round of the scanner: blanks are skipped, then a token is cut off. -/
theorem scanFrom_eq (text : List Char) (position : Nat) :
    scanFrom text position =
      match text.dropWhile isBlank with
      | [] => ⟨[], .ok (position + byteWidth text)⟩
      | c :: tail =>
        let start := position + byteWidth (text.takeWhile isBlank)
        match lexeme c tail with
        | .error cause => ⟨[], .error ⟨cause, start⟩⟩
        | .ok (token, more) =>
          let rest := scanFrom (tail.drop more) (start + byteWidth (c :: tail.take more))
          ⟨⟨token, start⟩ :: rest.lexemes, rest.stop⟩ := by
  rw [scanFrom]
  split
  · next hs => simp only [hs]
  · next c tail hs =>
    cases hlexeme : lexeme c tail with
    | error cause => simp only [hs, hlexeme]
    | ok found => simp only [hs, hlexeme]

theorem scanFrom_nil (position : Nat) : scanFrom [] position = ⟨[], .ok position⟩ := by
  rw [scanFrom_eq]
  rfl

theorem scanFrom_blank {c : Char} (h : isBlank c = true) (s : List Char) (position : Nat) :
    scanFrom (c :: s) position = scanFrom s (position + c.utf8Size) := by
  have hdrop : (c :: s).dropWhile isBlank = s.dropWhile isBlank := by simp [h]
  have htake : (c :: s).takeWhile isBlank = c :: s.takeWhile isBlank := by simp [h]
  rw [scanFrom_eq, scanFrom_eq]
  simp only [hdrop, htake, byteWidth_cons, Nat.add_assoc]

theorem scanFrom_error {c : Char} {tail : List Char} {cause : FormulaFault} (h : isBlank c = false)
    (hlexeme : lexeme c tail = .error cause) (position : Nat) :
    scanFrom (c :: tail) position = ⟨[], .error ⟨cause, position⟩⟩ := by
  have hdrop : (c :: tail).dropWhile isBlank = c :: tail := by simp [h]
  have htake : (c :: tail).takeWhile isBlank = [] := by simp [h]
  rw [scanFrom_eq]
  simp only [hdrop, htake, hlexeme]
  rfl

theorem scanFrom_token {c : Char} {tail : List Char} {t : Token} {more : Nat}
    (h : isBlank c = false) (hlexeme : lexeme c tail = .ok (t, more)) (position : Nat) :
    scanFrom (c :: tail) position =
      ⟨⟨t, position⟩ ::
        (scanFrom (tail.drop more) (position + byteWidth (c :: tail.take more))).lexemes,
        (scanFrom (tail.drop more) (position + byteWidth (c :: tail.take more))).stop⟩ := by
  have hdrop : (c :: tail).dropWhile isBlank = c :: tail := by simp [h]
  have htake : (c :: tail).takeWhile isBlank = [] := by simp [h]
  rw [scanFrom_eq]
  simp only [hdrop, htake, hlexeme]
  rfl

/-! ### Scanner and rules of spelling -/

theorem tokenizes_scanFrom {s : List Char} {position length : Nat}
    (h : (scanFrom s position).stop = .ok length) :
    Tokenizes s ((scanFrom s position).lexemes.map (·.token)) := by
  induction hn : s.length using Nat.strong_induction_on generalizing s position with
  | h n ih =>
    subst hn
    cases s with
    | nil =>
      rw [scanFrom_nil]
      exact .nil
    | cons c tail =>
      by_cases hblank : isBlank c = true
      · rw [scanFrom_blank hblank] at h ⊢
        exact .blank hblank (ih _ (by simp) h rfl)
      · rw [Bool.not_eq_true] at hblank
        cases hlexeme : lexeme c tail with
        | error cause =>
          rw [scanFrom_error hblank hlexeme] at h
          cases h
        | ok found =>
          obtain ⟨t, more⟩ := found
          rw [scanFrom_token hblank hlexeme] at h ⊢
          have hrest := ih _ (by simp only [List.length_cons, List.length_drop]; omega) h rfl
          simpa using Tokenizes.token (cuts_of_lexeme hlexeme) hrest

theorem scanFrom_of_tokenizes {s : List Char} {ts : List Token} (h : Tokenizes s ts)
    (position : Nat) : (scanFrom s position).stop = .ok (position + byteWidth s) ∧
      (scanFrom s position).lexemes.map (·.token) = ts := by
  induction h generalizing position with
  | nil => simp [scanFrom_nil, byteWidth]
  | blank hblank hs ih =>
    rw [scanFrom_blank hblank, byteWidth_cons, ← Nat.add_assoc]
    exact ih _
  | token hcuts hs ih =>
    obtain ⟨c, tail, rfl, hblank, hlexeme⟩ := lexeme_of_cuts hcuts
    rw [List.cons_append, scanFrom_token hblank hlexeme]
    simp only [List.drop_left, List.take_left, List.map_cons, List.cons.injEq, true_and]
    rw [← List.cons_append, byteWidth_append, ← Nat.add_assoc]
    exact ih _

theorem tokenizes_iff_scan (text : String) (ts : List Token) :
    Tokenizes text.toList ts ↔
      (∃ length, (scan text).stop = .ok length) ∧ (scan text).lexemes.map (·.token) = ts := by
  constructor
  · intro h
    obtain ⟨hstop, htokens⟩ := scanFrom_of_tokenizes h 0
    exact ⟨⟨_, hstop⟩, htokens⟩
  · rintro ⟨⟨length, hstop⟩, rfl⟩
    exact tokenizes_scanFrom hstop

/-- Blanks alone hold no token. -/
theorem tokenizes_nil_iff (s : List Char) : Tokenizes s [] ↔ ∀ c ∈ s, isBlank c = true := by
  constructor
  · intro h
    generalize hts : ([] : List Token) = ts at h
    induction h with
    | nil => simp
    | blank hblank hs ih => simpa [hblank] using ih hts
    | token => cases hts
  · intro h
    induction s with
    | nil => exact .nil
    | cons c s ih => exact .blank (h c (by simp)) (ih fun d hd => h d (by simp [hd]))

theorem trim_eq_nil_iff (s : List Char) : Text.trim s = [] ↔ ∀ c ∈ s, isBlank c = true := by
  rw [Text.trim, List.reverse_eq_nil_iff, List.dropWhile_eq_nil_iff]
  simp only [List.mem_reverse]
  constructor
  · intro h c hc
    have hall : s.dropWhile isBlank = [] := by
      cases hs : s.dropWhile isBlank with
      | nil => rfl
      | cons d tail =>
        have hd := h d (by simp [hs])
        have hnot : isBlank d = false := by
          simpa [hs] using List.head_dropWhile_not isBlank (l := s) (by simp [hs])
        rw [hd] at hnot
        cases hnot
    exact List.dropWhile_eq_nil_iff.mp hall c hc
  · intro h c hc
    exact h c ((List.dropWhile_sublist isBlank).subset hc)

/-! ### What stands for no token -/

theorem Cuts.ne_endOfInput {w s : List Char} {t : Token} (h : Cuts w s t) : t ≠ .endOfInput := by
  cases h with
  | symbol h =>
    rintro rfl
    simp [symbols] at h
  | name => simp
  | numeral => simp

theorem scanFrom_ne_endOfInput (s : List Char) (position : Nat) :
    ∀ l ∈ (scanFrom s position).lexemes, l.token ≠ .endOfInput := by
  induction hn : s.length using Nat.strong_induction_on generalizing s position with
  | h n ih =>
    subst hn
    cases s with
    | nil => simp [scanFrom_nil]
    | cons c tail =>
      by_cases hblank : isBlank c = true
      · rw [scanFrom_blank hblank]
        exact ih _ (by simp) _ _ rfl
      · rw [Bool.not_eq_true] at hblank
        cases hlexeme : lexeme c tail with
        | error cause => simp [scanFrom_error hblank hlexeme]
        | ok found =>
          obtain ⟨t, more⟩ := found
          have hrest :=
            ih _ (by simp only [List.length_cons, List.length_drop]; omega) (tail.drop more)
            (position + byteWidth (c :: tail.take more)) rfl
          rw [scanFrom_token hblank hlexeme]
          simpa using ⟨(cuts_of_lexeme hlexeme).ne_endOfInput, hrest⟩

end BatteryParams

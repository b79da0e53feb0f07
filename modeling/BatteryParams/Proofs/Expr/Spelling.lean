import BatteryParams.Expr.Token
import BatteryParams.Proofs.Decimal.Numeral

/-!
# Spellings of tokens

`Tokenizes s ts` says, without a scanner, that the characters `s` split completely into the tokens
`ts`: blanks are skipped, and each token is the longest spelling of any token at its place. A
numeral is a spelling whatever its value, so one that is out of range is not cut shorter to fit, and
a mark of an exponent right behind a numeral always belongs to it.

`lexeme` cuts off a token exactly by these rules (`cuts_of_lexeme`, `lexeme_of_cuts`).
-/

namespace BatteryParams

open Decimal (Numeral StartsExponent)

/-- The symbols with their tokens. -/
def symbols : List (List Char × Token) :=
  [(['+'], .plus), (['-'], .minus), (['*'], .star), (['*', '*'], .doubleStar), (['/'], .slash),
    (['('], .leftParen), ([')'], .rightParen), ([','], .comma)]

/-- A letter or an underscore, then letters, underscores and digits. -/
def IsName (w : List Char) : Prop :=
  ∃ c part, w = c :: part ∧ isNameStart c = true ∧ ∀ d ∈ part, isNamePart d = true

/-- What can be cut off a text as one token. -/
inductive Spelling : List Char → Prop
  | symbol {w : List Char} {t : Token} (h : (w, t) ∈ symbols) : Spelling w
  | name {w : List Char} (h : IsName w) : Spelling w
  | numeral {n : Numeral} (h : n.WellFormed) : Spelling n.text

/-- No spelling in front of `w ++ s` is longer than `w`. -/
def IsLongest (w s : List Char) : Prop := ∀ w', Spelling w' → w' <+: w ++ s → w'.length ≤ w.length

/-- In front of `s`, the characters `w` are cut off as the token `t`. -/
inductive Cuts : (w s : List Char) → (t : Token) → Prop
  | symbol {w s : List Char} {t : Token} (h : (w, t) ∈ symbols) (hlongest : IsLongest w s) :
      Cuts w s t
  | name {w s : List Char} (h : IsName w) (hlongest : IsLongest w s) :
      Cuts w s (.identifier (String.ofList w))
  | numeral {n : Numeral} {s : List Char} (h : n.WellFormed) (hlongest : IsLongest n.text s)
      (hmark : n.exponent = none → ¬StartsExponent s) (hfinite : n.value.isFinite = true) :
      Cuts n.text s (.number n.value)

/-- The characters split completely into the tokens. -/
inductive Tokenizes : List Char → List Token → Prop
  | nil : Tokenizes [] []
  | blank {c : Char} {s : List Char} {ts : List Token} (h : Text.isBlank c = true)
      (hs : Tokenizes s ts) : Tokenizes (c :: s) ts
  | token {w s : List Char} {t : Token} {ts : List Token} (h : Cuts w s t) (hs : Tokenizes s ts) :
      Tokenizes (w ++ s) (t :: ts)

/-! ### Classes of characters -/

theorem isDigit_iff (c : Char) : c.isDigit = true ↔ 48 ≤ c.toNat ∧ c.toNat ≤ 57 := by
  simp [Char.isDigit, UInt32.le_iff_toNat_le]

theorem isNameStart_iff (c : Char) :
    isNameStart c = true ↔ 65 ≤ c.toNat ∧ c.toNat ≤ 90 ∨ 97 ≤ c.toNat ∧ c.toNat ≤ 122 ∨
      c.toNat = 95 := by
  have hunderscore : c = '_' ↔ c.toNat = 95 := by
    rw [← Char.toNat_inj]
    rfl
  show (decide (c.val ≥ 'A'.val ∧ c.val ≤ 'Z'.val) ||
    (decide (c.val ≥ 'a'.val) && decide (c.val ≤ 'z'.val)) || c == '_') = true ↔ _
  simp [UInt32.le_iff_toNat_le, hunderscore, or_assoc]

theorem not_isDigit_of_isNameStart {c : Char} (h : isNameStart c = true) : c.isDigit = false := by
  rw [isNameStart_iff] at h
  rw [← Bool.not_eq_true, isDigit_iff]
  omega

/-- The characters with which symbols start. -/
def isSymbolStart (c : Char) : Bool := ['+', '-', '*', '/', '(', ')', ','].contains c

theorem isSymbolStart_iff (c : Char) :
    isSymbolStart c = true ↔
      c = '+' ∨ c = '-' ∨ c = '*' ∨ c = '/' ∨ c = '(' ∨ c = ')' ∨ c = ',' := by
  simp [isSymbolStart]

theorem not_isNameStart_of_isSymbolStart {c : Char} (h : isSymbolStart c = true) :
    isNameStart c = false := by
  rw [isSymbolStart_iff] at h
  rcases h with rfl | rfl | rfl | rfl | rfl | rfl | rfl <;> rfl

/-- The characters with which numerals start. -/
def isNumeralStart (c : Char) : Bool := c.isDigit || c == '.'

theorem not_isNumeralStart_of_isSymbolStart {c : Char} (h : isSymbolStart c = true) :
    isNumeralStart c = false := by
  rw [isSymbolStart_iff] at h
  rcases h with rfl | rfl | rfl | rfl | rfl | rfl | rfl <;> rfl

theorem not_isNumeralStart_of_isNameStart {c : Char} (h : isNameStart c = true) :
    isNumeralStart c = false := by
  have hpoint : c ≠ '.' := by
    rintro rfl
    exact absurd h (by decide)
  simp [isNumeralStart, not_isDigit_of_isNameStart h, hpoint]

theorem not_isBlank_of_starts {c : Char}
    (h : isSymbolStart c = true ∨ isNameStart c = true ∨ isNumeralStart c = true) :
    Text.isBlank c = false := by
  rcases h with h | h | h
  · rw [isSymbolStart_iff] at h
    rcases h with rfl | rfl | rfl | rfl | rfl | rfl | rfl <;> decide
  · rw [isNameStart_iff] at h
    simp [Text.isBlank, Text.blankRanges]
    omega
  · simp only [isNumeralStart, Bool.or_eq_true, beq_iff_eq] at h
    rcases h with h | rfl
    · rw [isDigit_iff] at h
      simp [Text.isBlank, Text.blankRanges]
      omega
    · decide

/-! ### Spellings by their first character -/

theorem symbols_head {w : List Char} {t : Token} (h : (w, t) ∈ symbols) :
    ∃ c part, w = c :: part ∧ isSymbolStart c = true := by
  simp only [symbols, List.mem_cons, Prod.mk.injEq, List.not_mem_nil, or_false] at h
  rcases h with ⟨rfl, -⟩ | ⟨rfl, -⟩ | ⟨rfl, -⟩ | ⟨rfl, -⟩ | ⟨rfl, -⟩ | ⟨rfl, -⟩ | ⟨rfl, -⟩ | ⟨rfl,
    -⟩ <;> exact ⟨_, _, rfl, by decide⟩

theorem numeral_head {n : Numeral} (h : n.WellFormed) :
    ∃ c part, n.text = c :: part ∧ isNumeralStart c = true := by
  obtain ⟨whole, fraction, exponent⟩ := n
  have hdigit : ∀ c ∈ whole, isNumeralStart c = true :=
    fun c hc => by simp [isNumeralStart, h.whole c hc]
  cases whole with
  | cons c part => exact ⟨c, _, rfl, hdigit c (by simp)⟩
  | nil =>
    cases fraction with
    | some f => exact ⟨'.', _, rfl, by decide⟩
    | none => exact absurd (by simp [Numeral.fractionDigits]) h.mantissa_ne_nil

theorem Spelling.ne_nil {w : List Char} (h : Spelling w) : w ≠ [] := by
  cases h with
  | symbol h =>
    obtain ⟨c, part, rfl, -⟩ := symbols_head h
    simp
  | name h =>
    obtain ⟨c, part, rfl, -⟩ := h
    simp
  | numeral h =>
    obtain ⟨c, part, htext, -⟩ := numeral_head h
    simp [htext]

theorem Spelling.symbol_of_start {c : Char} {part : List Char} (h : Spelling (c :: part))
    (hc : isSymbolStart c = true) : ∃ t, (c :: part, t) ∈ symbols := by
  generalize hw : c :: part = w at h
  cases h with
  | symbol h => exact ⟨_, h⟩
  | name h =>
    obtain ⟨d, part', rfl, hd, -⟩ := h
    cases hw
    simp [not_isNameStart_of_isSymbolStart hc] at hd
  | numeral h =>
    obtain ⟨d, part', htext, hd⟩ := numeral_head h
    rw [htext] at hw
    cases hw
    simp [not_isNumeralStart_of_isSymbolStart hc] at hd

theorem Spelling.name_of_start {c : Char} {part : List Char} (h : Spelling (c :: part))
    (hc : isNameStart c = true) : IsName (c :: part) := by
  generalize hw : c :: part = w at h
  cases h with
  | symbol h =>
    obtain ⟨d, part', rfl, hd⟩ := symbols_head h
    cases hw
    simp [not_isNameStart_of_isSymbolStart hd] at hc
  | name h => exact h
  | numeral h =>
    obtain ⟨d, part', htext, hd⟩ := numeral_head h
    rw [htext] at hw
    cases hw
    simp [not_isNumeralStart_of_isNameStart hc] at hd

theorem Spelling.numeral_of_start {c : Char} {part : List Char} (h : Spelling (c :: part))
    (hc : isNumeralStart c = true) : ∃ n : Numeral, n.WellFormed ∧ n.text = c :: part := by
  generalize hw : c :: part = w at h
  cases h with
  | symbol h =>
    obtain ⟨d, part', rfl, hd⟩ := symbols_head h
    cases hw
    simp [not_isNumeralStart_of_isSymbolStart hd] at hc
  | name h =>
    obtain ⟨d, part', rfl, hd, -⟩ := h
    cases hw
    simp [not_isNumeralStart_of_isNameStart hd] at hc
  | numeral h => exact ⟨_, h, rfl⟩

/-- A spelling in front of a text starts with the first character of the text. -/
theorem Spelling.eq_cons {w s : List Char} {c : Char} (h : Spelling w) (hfront : w <+: c :: s) :
    ∃ part, w = c :: part ∧ part <+: s := by
  cases w with
  | nil => exact absurd rfl h.ne_nil
  | cons d part =>
    obtain ⟨rfl, hpart⟩ := List.cons_prefix_cons.mp hfront
    exact ⟨part, rfl, hpart⟩

/-! ### Longest spellings -/

theorem isLongest_symbol {c : Char} (hc : isSymbolStart c = true) {s : List Char}
    (hstar : c = '*' → s.head? ≠ some '*') : IsLongest [c] s := by
  intro w hw hfront
  obtain ⟨part, rfl, hpart⟩ := hw.eq_cons hfront
  obtain ⟨t, ht⟩ := hw.symbol_of_start hc
  simp only [symbols, List.mem_cons, Prod.mk.injEq, List.cons.injEq, List.not_mem_nil,
    or_false] at ht
  rcases ht with h | h | h | h | h | h | h | h
  · simp [h]
  · simp [h]
  · simp [h]
  · obtain ⟨⟨rfl, rfl⟩, -⟩ := h
    obtain ⟨s', rfl⟩ := hpart
    exact absurd rfl (hstar rfl)
  · simp [h]
  · simp [h]
  · simp [h]
  · simp [h]

theorem isLongest_doubleStar (s : List Char) : IsLongest ['*', '*'] s := by
  intro w hw hfront
  obtain ⟨part, rfl, -⟩ := hw.eq_cons hfront
  obtain ⟨t, ht⟩ := hw.symbol_of_start (by decide)
  simp only [symbols, List.mem_cons, Prod.mk.injEq, List.cons.injEq, List.not_mem_nil,
    or_false] at ht
  rcases ht with h | h | h | h | h | h | h | h <;> simp [h]

/-- A run of characters in front of a text is no longer than the longest run of their kind. -/
theorem length_le_takeWhile {p : Char → Bool} {part s : List Char} (hpart : ∀ d ∈ part, p d = true)
    (hfront : part <+: s) : part.length ≤ (s.takeWhile p).length := by
  obtain ⟨s', rfl⟩ := hfront
  simp [List.takeWhile_append_of_pos hpart]

theorem isLongest_name {c : Char} (hc : isNameStart c = true) (tail : List Char) :
    IsLongest (c :: tail.takeWhile isNamePart) (tail.dropWhile isNamePart) := by
  intro w hw hfront
  rw [List.cons_append, List.takeWhile_append_dropWhile] at hfront
  obtain ⟨part, rfl, hpart⟩ := hw.eq_cons hfront
  obtain ⟨d, part', heq, -, hpart'⟩ := hw.name_of_start hc
  cases heq
  have hlength := length_le_takeWhile hpart' hpart
  simpa using hlength

theorem isLongest_numeral {c : Char} (hc : isNumeralStart c = true) {tail s : List Char}
    {n : Numeral} (htake : Numeral.take (c :: tail) = (n, s)) : IsLongest n.text s := by
  intro w hw hfront
  have htext := Numeral.text_append_take (c :: tail)
  rw [htake] at htext
  rw [htext] at hfront
  obtain ⟨part, rfl, -⟩ := hw.eq_cons hfront
  obtain ⟨m, hm, hmtext⟩ := hw.numeral_of_start hc
  rw [← hmtext] at hfront ⊢
  simpa [htake] using Numeral.length_text_le_take hm hfront

/-! ### Cutting off one token -/

theorem drop_length_takeWhile (p : Char → Bool) (s : List Char) :
    s.drop (s.takeWhile p).length = s.dropWhile p := by
  induction s with
  | nil => rfl
  | cons c s ih =>
    by_cases h : p c = true
    · simp [h, ih]
    · simp [h]

theorem numberToken_eq_ok {n : Numeral} {t : Token} (h : numberToken n = .ok t) :
    n.isLenient = true ∧ n.value.isFinite = true ∧ t = .number n.value := by
  unfold numberToken at h
  split at h
  · simp at h
  · next hlenient =>
    split at h
    · simp at h
    · next hfinite =>
      cases h
      exact ⟨by simpa using hlenient, by simpa using hfinite, rfl⟩

theorem Decimal.Numeral.WellFormed.isLenient {n : Numeral} (h : n.WellFormed) :
    n.isLenient = true := by
  have hmantissa : (n.whole ++ n.fractionDigits).isEmpty = false := by
    rw [List.isEmpty_eq_false_iff]
    exact h.mantissa_ne_nil
  rw [Numeral.isLenient, hmantissa]
  cases he : n.exponent with
  | none => rfl
  | some e =>
    have hdigits := (h.exponent e he).digits_ne_nil
    simpa [List.isEmpty_iff] using hdigits

/-- The numeral at the start of a text is cut off as a token if it is a number. -/
theorem cuts_of_numberToken {c : Char} (hc : isNumeralStart c = true) {tail : List Char} {t : Token}
    (h : numberToken (Numeral.take (c :: tail)).1 = .ok t) :
    Cuts (c :: tail.take ((Numeral.take (c :: tail)).1.text.length - 1))
      (tail.drop ((Numeral.take (c :: tail)).1.text.length - 1)) t := by
  obtain ⟨hlenient, hfinite, rfl⟩ := numberToken_eq_ok h
  have hwell := Numeral.wellFormed_take hlenient
  have htext := Numeral.text_append_take (c :: tail)
  have hmark := Numeral.not_startsExponent_take (s := c :: tail)
  have hlongest :=
    isLongest_numeral hc (n := (Numeral.take (c :: tail)).1) (s := (Numeral.take (c :: tail)).2) rfl
  generalize (Numeral.take (c :: tail)).1 = n at *
  generalize (Numeral.take (c :: tail)).2 = s at *
  obtain ⟨d, part, hn, -⟩ := numeral_head hwell
  rw [hn] at htext
  obtain ⟨rfl, rfl⟩ : d = c ∧ part ++ s = tail := by simpa using htext
  have hcut : d :: (part ++ s).take (n.text.length - 1) = n.text := by simp [hn]
  have hrest : (part ++ s).drop (n.text.length - 1) = s := by simp [hn]
  rw [hcut, hrest]
  exact .numeral hwell hlongest hmark hfinite

/-- What `lexeme` cuts off is a token by the rules of spelling. -/
theorem cuts_of_lexeme {c : Char} {tail : List Char} {t : Token} {more : Nat}
    (h : lexeme c tail = .ok (t, more)) : Cuts (c :: tail.take more) (tail.drop more) t := by
  unfold lexeme at h
  split at h
  case h_1 | h_2 | h_3 | h_4 | h_5 | h_6 =>
    cases h
    exact .symbol (by simp [symbols]) (isLongest_symbol (by decide) (fun h => by simp at h))
  case h_7 =>
    split at h
    · next hstar =>
      cases h
      obtain ⟨rest, rfl⟩ : ∃ rest, tail = '*' :: rest := by
        cases tail with
        | nil => simp at hstar
        | cons d rest => exact ⟨rest, by simpa using hstar⟩
      exact .symbol (by simp [symbols]) (isLongest_doubleStar rest)
    · next hstar =>
      cases h
      exact .symbol (by simp [symbols])
        (isLongest_symbol (by decide) (fun _ => by simpa using hstar))
  case h_8 =>
    split at h
    · next hstart =>
      cases hn : numberToken (Numeral.take (c :: tail)).1 with
      | error e => simp [hn, Except.map] at h
      | ok token =>
        have hcuts := cuts_of_numberToken hstart hn
        simp only [hn, Except.map, Except.ok.injEq, Prod.mk.injEq] at h
        obtain ⟨rfl, rfl⟩ := h
        exact hcuts
    · split at h
      · next hname =>
        cases h
        rw [drop_length_takeWhile, ← List.prefix_iff_eq_take.mp (List.takeWhile_prefix isNamePart)]
        exact .name ⟨c, _, rfl, hname,
          fun d hd => List.mem_takeWhile_imp hd⟩ (isLongest_name hname tail)
      · simp at h

theorem lexeme_of_name {c : Char} {part s : List Char} (hc : isNameStart c = true)
    (hpart : ∀ d ∈ part, isNamePart d = true) (hs : ∀ d, s.head? = some d → isNamePart d = false) :
    lexeme c (part ++ s) = .ok (.identifier (String.ofList (c :: part)), part.length) := by
  have htake : (part ++ s).takeWhile isNamePart = part := by
    rw [List.takeWhile_append_of_pos hpart, Decimal.takeWhile_eq_nil_of_head hs, List.append_nil]
  have hsymbol : isSymbolStart c = false := by
    rw [← Bool.not_eq_true]
    intro h
    simp [not_isNameStart_of_isSymbolStart h] at hc
  have hnumeral : (c.isDigit || c == '.') = false := not_isNumeralStart_of_isNameStart hc
  unfold lexeme
  split
  case h_8 => simp only [hnumeral, Bool.false_eq_true, if_false, hc, if_true, htake]
  all_goals exact absurd hsymbol (by decide)

theorem lexeme_of_numeral {c : Char} {tail s : List Char} {n : Numeral}
    (hc : isNumeralStart c = true)
    (hwell : n.WellFormed) (hn : n.text = c :: tail) (htake : Numeral.take (n.text ++ s) = (n, s))
    (hfinite : n.value.isFinite = true) :
    lexeme c (tail ++ s) = .ok (.number n.value, tail.length) := by
  have htoken : numberToken n = .ok (.number n.value) := by
    simp [numberToken, hwell.isLenient, hfinite]
  have hsymbol : isSymbolStart c = false := by
    rw [← Bool.not_eq_true]
    intro h
    simp [not_isNumeralStart_of_isSymbolStart h] at hc
  rw [hn, List.cons_append] at htake
  unfold lexeme
  split
  case h_8 =>
    rw [isNumeralStart] at hc
    simp only [hc, if_true, htake, htoken, Except.map, hn, List.length_cons, Nat.add_sub_cancel]
  all_goals exact absurd hsymbol (by decide)

/-- Behind a numeral that is the longest spelling at its place stands no digit, and no point that it
could take. -/
theorem head_of_isLongest {n : Numeral} {s : List Char} (h : n.WellFormed)
    (hlongest : IsLongest n.text s) : (∀ c, s.head? = some c → c.isDigit = false) ∧
      (n.fraction = none → n.exponent = none → s.head? ≠ some '.') := by
  -- a longer spelling would be the numeral with one more character at its end
  have hno : ∀ {m : Numeral} {c : Char} {s' : List Char}, m.WellFormed → m.text = n.text ++ [c] →
      s ≠ c :: s' := by
    rintro m c s' hm hmtext rfl
    have hlength := hlongest m.text (.numeral hm) ⟨s', by simp [hmtext]⟩
    rw [hmtext, List.length_append, List.length_singleton] at hlength
    omega
  refine ⟨fun c hc => ?_, fun hfraction hexponent hc => ?_⟩
  · obtain ⟨s', rfl⟩ := List.head?_eq_some_iff.mp hc
    rw [← Bool.not_eq_true]
    intro hdigit
    obtain ⟨whole, fraction, exponent⟩ := n
    cases exponent with
    | some e =>
      have he := h.exponent e rfl
      refine hno (m := ⟨whole, fraction, some { e with digits := e.digits ++ [c] }⟩)
        ⟨h.whole, h.fraction, h.mantissa_ne_nil, ?_⟩ (by simp [Numeral.text, Decimal.Exponent.text])
          rfl
      rintro _ ⟨⟩
      exact ⟨he.mark, he.sign, by simpa [or_imp, forall_and] using ⟨he.digits, hdigit⟩, by simp⟩
    | none =>
      cases fraction with
      | some f =>
        refine hno (m := ⟨whole, some (f ++ [c]), none⟩) ⟨h.whole,
          ?_, by simp [Numeral.fractionDigits], by simp⟩ (by simp [Numeral.text]) rfl
        have hf : ∀ d ∈ f, d.isDigit = true := h.fraction
        simpa [Numeral.fractionDigits, or_imp, forall_and] using ⟨hf, hdigit⟩
      | none =>
        refine hno (m :=
          ⟨whole ++ [c], none, none⟩) ⟨?_, by simp [Numeral.fractionDigits], by simp, by simp⟩
          (by simp [Numeral.text]) rfl
        simpa [or_imp, forall_and] using ⟨h.whole, hdigit⟩
  · obtain ⟨s', rfl⟩ := List.head?_eq_some_iff.mp hc
    obtain ⟨whole, fraction, exponent⟩ := n
    simp only at hfraction hexponent
    subst hfraction hexponent
    refine hno (m :=
      ⟨whole, some [], none⟩) ⟨h.whole, by simp [Numeral.fractionDigits], ?_, by simp⟩
      (by simp [Numeral.text]) rfl
    simpa [Numeral.fractionDigits] using h.mantissa_ne_nil

/-- A numeral that is the longest spelling at its place is what is taken there. -/
theorem take_of_isLongest {n : Numeral} {s : List Char} (h : n.WellFormed)
    (hlongest : IsLongest n.text s)
    (hmark : n.exponent = none → ¬StartsExponent s) : Numeral.take (n.text ++ s) = (n, s) := by
  obtain ⟨hdigit, hpoint⟩ := head_of_isLongest h hlongest
  exact Numeral.take_text_append h hdigit hpoint hmark

theorem ne_star_of_isLongest {s : List Char} (hlongest : IsLongest ['*'] s) :
    s.head? ≠ some '*' := by
  intro hs
  obtain ⟨s', rfl⟩ := List.head?_eq_some_iff.mp hs
  have hlength := hlongest ['*', '*'] (.symbol (t := .doubleStar) (by simp [symbols])) ⟨s', rfl⟩
  simp at hlength

/-- Behind a name that is the longest spelling at its place stands no part of a name. -/
theorem not_isNamePart_of_isLongest {w s : List Char} (h : IsName w) (hlongest : IsLongest w s) :
    ∀ d, s.head? = some d → isNamePart d = false := by
  intro d hd
  obtain ⟨c, part, rfl, hc, hpart⟩ := h
  obtain ⟨s', rfl⟩ := List.head?_eq_some_iff.mp hd
  rw [← Bool.not_eq_true]
  intro hmore
  have hlonger : IsName (c :: (part ++ [d])) :=
    ⟨c, part ++ [d], rfl, hc, by simpa [or_imp, forall_and] using ⟨hpart, hmore⟩⟩
  have hlength := hlongest _ (.name hlonger) ⟨s', by simp⟩
  simp only [List.length_cons, List.length_append, List.length_nil] at hlength
  omega

/-- What is a token by the rules of spelling is what `lexeme` cuts off. -/
theorem lexeme_of_cuts {w s : List Char} {t : Token} (h : Cuts w s t) :
    ∃ c tail, w = c :: tail ∧ Text.isBlank c = false ∧
      lexeme c (tail ++ s) = .ok (t, tail.length) := by
  cases h with
  | symbol h hlongest =>
    obtain ⟨c, tail, rfl, hc⟩ := symbols_head h
    refine ⟨c, tail, rfl, not_isBlank_of_starts (.inl hc), ?_⟩
    simp only [symbols, List.mem_cons, Prod.mk.injEq, List.cons.injEq, List.not_mem_nil,
      or_false] at h
    rcases h with h | h | h | h | h | h | h | h
    case inr.inr.inl =>
      obtain ⟨⟨rfl, rfl⟩, rfl⟩ := h
      simp [lexeme, ne_star_of_isLongest hlongest]
    all_goals
      obtain ⟨⟨rfl, rfl⟩, rfl⟩ := h
      simp [lexeme]
  | name h hlongest =>
    have hbehind := not_isNamePart_of_isLongest h hlongest
    obtain ⟨c, tail, rfl, hc, htail⟩ := h
    exact ⟨c, tail, rfl, not_isBlank_of_starts (.inr (.inl hc)), lexeme_of_name hc htail hbehind⟩
  | numeral h hlongest hmark hfinite =>
    obtain ⟨c, tail, htext, hc⟩ := numeral_head h
    exact ⟨c, tail, htext, not_isBlank_of_starts (.inr (.inr hc)),
      lexeme_of_numeral hc h htext (take_of_isLongest h hlongest hmark) hfinite⟩

/-! ### What stands behind a token -/

theorem isLongest_of_name {w s : List Char} (h : IsName w)
    (hs : ∀ d, s.head? = some d → isNamePart d = false) : IsLongest w s := by
  obtain ⟨c, part, rfl, hc, hpart⟩ := h
  have hlongest := isLongest_name hc (part ++ s)
  rwa [List.takeWhile_append_of_pos hpart, List.dropWhile_append_of_pos hpart,
    Decimal.takeWhile_eq_nil_of_head hs, Decimal.dropWhile_eq_self_of_head hs,
    List.append_nil] at hlongest

/-- A token is cut off by a look at the one character behind it, and every blank ends it. So it is
cut off in front of another text, too, if that is empty or starts with the same character or with a
blank. -/
theorem Cuts.of_head {w s s' : List Char} {t : Token} (h : Cuts w s t)
    (hs : ∀ c, s'.head? = some c → s.head? = some c ∨ Text.isBlank c = true) : Cuts w s' t := by
  -- a character that would carry the token on is no blank, so it does not stand behind it in the
  -- other text either
  have hchar {d : Char} (hd : Text.isBlank d = false) (hnot : s.head? ≠ some d) :
      s'.head? ≠ some d := by
    intro hs'
    rcases hs d hs' with hs | hblank
    · exact hnot hs
    · rw [hd] at hblank
      cases hblank
  have hclass {p : Char → Bool} (hp : ∀ d, p d = true → Text.isBlank d = false)
      (hnot : ∀ d, s.head? = some d → p d = false) : ∀ d, s'.head? = some d → p d = false := by
    intro d hs'
    rw [← Bool.not_eq_true]
    intro hpd
    exact hchar (hp d hpd) (fun hs => by simp [hnot d hs] at hpd) hs'
  have hdigits (d : Char) (hd : d.isDigit = true) : Text.isBlank d = false :=
    not_isBlank_of_starts (.inr (.inr (by simp [isNumeralStart, hd])))
  cases h with
  | symbol h hlongest =>
    refine .symbol h ?_
    by_cases hdouble : w = ['*', '*']
    · rw [hdouble]
      exact isLongest_doubleStar s'
    · obtain ⟨c, part, rfl, hc⟩ := symbols_head h
      obtain rfl : part = [] := by
        simp only [symbols, List.mem_cons, Prod.mk.injEq, List.cons.injEq, List.not_mem_nil,
          or_false] at h hdouble
        grind
      refine isLongest_symbol hc ?_
      rintro rfl
      exact hchar (by decide) (ne_star_of_isLongest hlongest)
  | name h hlongest =>
    have hparts (d : Char) (hd : isNamePart d = true) : Text.isBlank d = false := by
      rw [isNamePart, Bool.or_eq_true] at hd
      exact hd.elim (fun hd => not_isBlank_of_starts (.inr (.inl hd))) (hdigits d)
    exact .name h (isLongest_of_name h (hclass hparts (not_isNamePart_of_isLongest h hlongest)))
  | @numeral n _ h hlongest hmark hfinite =>
    obtain ⟨hdigit, hpoint⟩ := head_of_isLongest h hlongest
    obtain ⟨c, tail, htext, hc⟩ := numeral_head h
    have hpoint' (hfraction : n.fraction = none) (hexponent : n.exponent = none) :
    s'.head? ≠ some '.' :=
      hchar (by decide) (hpoint hfraction hexponent)
    have hmark' (hexponent : n.exponent = none) : ¬StartsExponent s' := by
      obtain ⟨hlower, hupper⟩ := not_or.mp (hmark hexponent)
      exact not_or.mpr ⟨hchar (by decide) hlower, hchar (by decide) hupper⟩
    have htake := Numeral.take_text_append h (hclass hdigits hdigit) hpoint' hmark'
    rw [htext, List.cons_append] at htake
    exact .numeral h (isLongest_numeral hc htake) hmark' hfinite

end BatteryParams

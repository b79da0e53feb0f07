import BatteryParams.Decimal.Numeral
import Mathlib.Data.List.TakeWhile

/-!
# Well-formed numerals

`Numeral.WellFormed` says what a numeral looks like, without saying how one is read. `Numeral.take`
loses nothing of a text (`text_append_take`), no well-formed numeral in front of the text is longer
than what it takes (`length_text_le_take`), and a well-formed numeral that the text behind it cannot
extend is taken as it is (`take_text_append`).
-/

namespace BatteryParams.Decimal

/-- A mark, perhaps a sign, and at least one digit. -/
structure Exponent.WellFormed (e : Exponent) : Prop where
  mark : e.mark = 'e' ∨ e.mark = 'E'
  sign : ∀ c, e.sign = some c → c = '+' ∨ c = '-'
  digits : ∀ c ∈ e.digits, c.isDigit = true
  digits_ne_nil : e.digits ≠ []

/-- At least one digit, perhaps with a point before, between or behind the digits, and perhaps an
exponent. -/
structure Numeral.WellFormed (n : Numeral) : Prop where
  whole : ∀ c ∈ n.whole, c.isDigit = true
  fraction : ∀ c ∈ n.fractionDigits, c.isDigit = true
  mantissa_ne_nil : n.whole ++ n.fractionDigits ≠ []
  exponent : ∀ e, n.exponent = some e → e.WellFormed

/-- The first character of a text, if there is one, is a mark of an exponent. -/
def StartsExponent (s : List Char) : Prop := s.head? = some 'e' ∨ s.head? = some 'E'

theorem takeWhile_eq_nil_of_head {p : Char → Bool} {s : List Char}
    (h : ∀ c, s.head? = some c → p c = false) : s.takeWhile p = [] := by
  cases s with
  | nil => rfl
  | cons c s => simp [h c rfl]

theorem dropWhile_eq_self_of_head {p : Char → Bool} {s : List Char}
    (h : ∀ c, s.head? = some c → p c = false) : s.dropWhile p = s := by
  cases s with
  | nil => rfl
  | cons c s => simp [h c rfl]

namespace Exponent

theorem isDigit_mark {e : Exponent} (h : e.WellFormed) : e.mark.isDigit = false := by
  rcases h.mark with h | h <;> rw [h] <;> rfl

theorem mark_ne_point {e : Exponent} (h : e.WellFormed) : e.mark ≠ '.' := by
  rcases h.mark with h | h <;> rw [h] <;> decide

/-- Taking an exponent takes all digits that follow it, too. -/
theorem take_text_append {e : Exponent} (h : e.WellFormed) (s : List Char) :
    take (e.text ++ s) = (some { e with digits := e.digits ++ s.takeWhile Char.isDigit },
      s.dropWhile Char.isDigit) := by
  obtain ⟨mark, sign, digits⟩ := e
  have hmark : mark = 'e' ∨ mark = 'E' := h.mark
  have hdigits : ∀ c ∈ digits, c.isDigit = true := h.digits
  cases sign with
  | some sign =>
    have hsign : sign = '+' ∨ sign = '-' := h.sign sign rfl
    simp [text, take, hmark, hsign, List.takeWhile_append_of_pos hdigits,
      List.dropWhile_append_of_pos hdigits]
  | none =>
    cases digits with
    | nil => exact absurd rfl h.digits_ne_nil
    | cons d ds =>
      have hd : d.isDigit = true := hdigits d (by simp)
      have hds : ∀ c ∈ ds, c.isDigit = true := fun c hc => hdigits c (by simp [hc])
      have hsign : ¬(d = '+' ∨ d = '-') := by rintro (rfl | rfl) <;> exact absurd hd (by decide)
      simp [text, take, hmark, hsign, hd, List.takeWhile_append_of_pos hds,
        List.dropWhile_append_of_pos hds]

theorem take_of_not_startsExponent {s : List Char} (h : ¬StartsExponent s) :
    take s = (none, s) := by
  cases s with
  | nil => rfl
  | cons c s =>
    have hc : ¬(c = 'e' ∨ c = 'E') := by simpa [StartsExponent] using h
    simp [take, hc]

/-- Where no exponent is taken there is no mark of one. -/
theorem not_startsExponent_of_take {s : List Char} (h : (take s).1 = none) :
    ¬StartsExponent (take s).2 := by
  unfold take at h ⊢
  split
  · simp [StartsExponent]
  · next mark rest =>
    split
    · next hmark =>
      simp only [hmark, if_true] at h
      split at h
      · split at h <;> simp at h
      · simp at h
    · next hmark => simpa [StartsExponent] using hmark

/-- What is taken and what is left are the whole text. -/
theorem text_append_take (s : List Char) : (take s).1.elim [] text ++ (take s).2 = s := by
  unfold take
  split
  · rfl
  · split
    · split
      · split
        · simp [text]
        · simp [text]
      · simp [text]
    · rfl

theorem wellFormed_of_take {s : List Char} {e : Exponent} (h : (take s).1 = some e)
    (hdigits : e.digits ≠ []) : e.WellFormed := by
  unfold take at h
  split at h
  · simp at h
  · next mark rest =>
    split at h
    · next hmark =>
      split at h
      · next sign digits =>
        split at h
        · next hsign =>
          cases h
          refine ⟨hmark, fun c hc => ?_, fun c hc => List.mem_takeWhile_imp hc, hdigits⟩
          cases hc
          exact hsign
        · cases h
          exact ⟨hmark, fun c hc => by simp at hc, fun c hc => List.mem_takeWhile_imp hc, hdigits⟩
      · cases h
        simp at hdigits
    · simp at h

end Exponent

namespace Numeral

/-- Taking a numeral with an exponent takes all digits that follow it, too. -/
theorem take_exponent {n : Numeral} (h : n.WellFormed) {e : Exponent} (he : n.exponent = some e)
    (s : List Char) : take (n.text ++ s) =
      (⟨n.whole, n.fraction, some { e with digits := e.digits ++ s.takeWhile Char.isDigit }⟩,
        s.dropWhile Char.isDigit) := by
  have hwell := h.exponent e he
  obtain ⟨whole, fraction, exponent⟩ := n
  have hwhole : ∀ c ∈ whole, c.isDigit = true := h.whole
  have hmark : ∀ s' : List Char, (e.text ++ s').takeWhile Char.isDigit = [] ∧
      (e.text ++ s').dropWhile Char.isDigit = e.text ++ s' := by
    intro s'
    have := e.isDigit_mark hwell
    exact ⟨by simp [Exponent.text, this], by simp [Exponent.text, this]⟩
  simp only at he
  subst he
  cases fraction with
  | some f =>
    have hf : ∀ c ∈ f, c.isDigit = true := h.fraction
    simp [text, take, List.takeWhile_append_of_pos hwhole, List.dropWhile_append_of_pos hwhole,
      List.takeWhile_append_of_pos hf, List.dropWhile_append_of_pos hf, hmark,
      Exponent.take_text_append hwell]
  | none =>
    have htake := Exponent.take_text_append hwell s
    have hpoint := e.mark_ne_point hwell
    simp only [text, take, Option.elim_none, Option.elim_some, List.append_nil, List.append_assoc,
      List.takeWhile_append_of_pos hwhole, List.dropWhile_append_of_pos hwhole, hmark]
    rw [Exponent.text, List.cons_append] at htake ⊢
    split
    · next hcons => exact absurd (List.cons.inj hcons).1 hpoint
    · rw [htake]

/-- Taking a numeral with a point and no exponent takes what digits and exponent follow it, too. -/
theorem take_fraction {n : Numeral} (h : n.WellFormed) {f : List Char} (hf : n.fraction = some f)
    (he : n.exponent = none) (s : List Char) :
    take (n.text ++ s) =
      (⟨n.whole, some (f ++ s.takeWhile Char.isDigit),
        (Exponent.take (s.dropWhile Char.isDigit)).1⟩,
        (Exponent.take (s.dropWhile Char.isDigit)).2) := by
  obtain ⟨whole, fraction, exponent⟩ := n
  have hwhole : ∀ c ∈ whole, c.isDigit = true := h.whole
  simp only at hf he
  subst hf he
  have hf : ∀ c ∈ f, c.isDigit = true := h.fraction
  simp [text, take, List.takeWhile_append_of_pos hwhole, List.dropWhile_append_of_pos hwhole,
    List.takeWhile_append_of_pos hf, List.dropWhile_append_of_pos hf]

/-- Taking a run of digits takes what numeral follows it, too. -/
theorem take_whole {n : Numeral} (h : n.WellFormed) (hf : n.fraction = none)
    (he : n.exponent = none) (s : List Char) :
    take (n.text ++ s) = (⟨n.whole ++ (take s).1.whole, (take s).1.fraction, (take s).1.exponent⟩,
      (take s).2) := by
  obtain ⟨whole, fraction, exponent⟩ := n
  have hwhole : ∀ c ∈ whole, c.isDigit = true := h.whole
  simp only at hf he
  subst hf he
  simp only [text, take, Option.elim_none, List.append_nil, List.takeWhile_append_of_pos hwhole,
    List.dropWhile_append_of_pos hwhole]
  split <;> rfl

/-- What is taken and what is left are the whole text. -/
theorem text_append_take (s : List Char) : (take s).1.text ++ (take s).2 = s := by
  have hwhole := List.takeWhile_append_dropWhile (p := Char.isDigit) (l := s)
  unfold take
  split
  · next rest hrest =>
    have hexponent := Exponent.text_append_take (rest.dropWhile Char.isDigit)
    have hfraction := List.takeWhile_append_dropWhile (p := Char.isDigit) (l := rest)
    rw [hrest] at hwhole
    simp only [text, Option.elim_some, List.append_assoc, hexponent, List.cons_append, hfraction]
    exact hwhole
  · next rest _ =>
    have hexponent := Exponent.text_append_take (s.dropWhile Char.isDigit)
    simp only [text, Option.elim_none, List.append_nil, List.append_assoc, hexponent]
    exact hwhole

/-- What is taken is well-formed as soon as the digits that a number needs are there. -/
theorem wellFormed_take {s : List Char} (h : (take s).1.isLenient = true) :
    (take s).1.WellFormed := by
  have hexponent : ∀ {s' : List Char} {e}, (Exponent.take s').1 = some e → e.digits ≠ [] →
      e.WellFormed :=
    Exponent.wellFormed_of_take
  simp only [isLenient, Bool.and_eq_true, Bool.not_eq_true', List.isEmpty_eq_false_iff] at h
  obtain ⟨hmantissa, hdigits⟩ := h
  have hdigits : ∀ e, (take s).1.exponent = some e → e.digits ≠ [] := by
    intro e he
    simpa [he] using hdigits
  refine ⟨?_, ?_, hmantissa, fun e he => ?_⟩
  · unfold take
    split <;> exact fun c hc => List.mem_takeWhile_imp hc
  · unfold take
    split
    · exact fun c hc => List.mem_takeWhile_imp hc
    · exact fun c hc => by simp [fractionDigits] at hc
  · have hne := hdigits e he
    unfold take at he
    split at he
    · exact hexponent he hne
    · exact hexponent he hne

/-- Where a numeral without an exponent is taken, no mark of one follows. -/
theorem not_startsExponent_take {s : List Char} (h : (take s).1.exponent = none) :
    ¬StartsExponent (take s).2 := by
  unfold take at h ⊢
  split
  · next rest hrest =>
    simp only [hrest] at h
    exact Exponent.not_startsExponent_of_take h
  · next rest hrest =>
    split at h
    · next hpoint => exact absurd hpoint (hrest _)
    · exact Exponent.not_startsExponent_of_take h

/-- No well-formed numeral in front of a text is longer than what is taken. -/
theorem length_text_le_take {n : Numeral} (h : n.WellFormed) {s : List Char}
    (hfront : n.text <+: s) : n.text.length ≤ (take s).1.text.length := by
  obtain ⟨s', rfl⟩ := hfront
  obtain ⟨whole, fraction, exponent⟩ := n
  cases exponent with
  | some e =>
    rw [take_exponent h rfl]
    simp [text, Exponent.text]
  | none =>
    cases fraction with
    | some f =>
      rw [take_fraction h rfl rfl]
      simp [text]
    | none =>
      rw [take_whole h rfl rfl]
      simp [text]

/-- A well-formed numeral is taken as it is when no digit follows, no point unless there is one, and
no mark of an exponent unless there is one. -/
theorem take_text_append {n : Numeral} (h : n.WellFormed) {s : List Char}
    (hdigit : ∀ c, s.head? = some c → c.isDigit = false)
    (hpoint : n.fraction = none → n.exponent = none → s.head? ≠ some '.')
    (hmark : n.exponent = none → ¬StartsExponent s) : take (n.text ++ s) = (n, s) := by
  have htake := takeWhile_eq_nil_of_head hdigit
  have hdrop := dropWhile_eq_self_of_head hdigit
  obtain ⟨whole, fraction, exponent⟩ := n
  cases exponent with
  | some e => simp [take_exponent h rfl, htake, hdrop]
  | none =>
    have hnone := Exponent.take_of_not_startsExponent (hmark rfl)
    cases fraction with
    | some f => simp [take_fraction h rfl rfl, htake, hdrop, hnone]
    | none =>
      have hs : take s = (⟨[], none, none⟩, s) := by
        unfold take
        rw [htake, hdrop]
        split
        · exact absurd rfl (hpoint rfl rfl)
        · rw [hnone]
      simp [take_whole h rfl rfl, hs]

end Numeral

end BatteryParams.Decimal

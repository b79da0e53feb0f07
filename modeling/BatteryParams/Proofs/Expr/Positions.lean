import BatteryParams.Proofs.Expr.Places

/-!
# Where a failure points

`Splits front back ts` says that in front of the rest `back` the text `front` splits completely into
the tokens `ts`: this is how far a scanner may have come. What it finds next is the end of the text,
a token, or something that it cannot cut off as one (`Next`). The scanner notes just such places
(`comesNext_of_mem_places`), and a reader, which goes by tokens, fails at places that its cursor
holds. So every failure points to one of them (`error_position`).
-/

namespace BatteryParams

open Text (isBlank byteWidth)

/-! ### How far a scanner may have come -/

/-- In front of `back`, the text `front` splits completely into tokens. -/
inductive Splits : (front back : List Char) → List Token → Prop
  | nil {back : List Char} : Splits [] back []
  | blank {c : Char} {front back : List Char} {ts : List Token} (h : isBlank c = true)
      (hs : Splits front back ts) : Splits (c :: front) back ts
  | token {w front back : List Char} {t : Token} {ts : List Token} (h : Cuts w (front ++ back) t)
      (hs : Splits front back ts) : Splits (w ++ front) back (t :: ts)

/-- What a failure may point to: the end, a token, or the first thing that is none. -/
inductive Next : List Char → Prop
  | done : Next []
  | token {w s : List Char} {t : Token} (h : Cuts w s t) : Next (w ++ s)
  /-- A character with which no token starts. -/
  | stray {c : Char} {s : List Char} (hblank : isBlank c = false) (h : ∀ part,
      ¬Spelling (c :: part)) : Next (c :: s)
  /-- A numeral that cannot be cut off as a token. -/
  | numeral {c : Char} {s : List Char} (hc : isNumeralStart c = true)
      (h : ∀ w s' t, c :: s = w ++ s' → ¬Cuts w s' t) : Next (c :: s)

variable {s front back : List Char} {ts : List Token} {p q : Nat}

/-- What stands in front of a failure splits into tokens on its own. -/
theorem Splits.tokenizes (h : Splits front back ts) : Tokenizes front ts := by
  induction h with
  | nil => exact .nil
  | blank hblank _ ih => exact .blank hblank ih
  | @token w front back t ts hcuts _ ih =>
    refine .token (hcuts.of_head fun c hc => .inl ?_) ih
    obtain ⟨front', rfl⟩ := List.head?_eq_some_iff.mp hc
    rfl

/-! ### Places that the scanner notes -/

theorem Spelling.start {c : Char} {part : List Char} (h : Spelling (c :: part)) :
    isSymbolStart c = true ∨ isNameStart c = true ∨ isNumeralStart c = true := by
  generalize hw : c :: part = w at h
  cases h with
  | symbol h =>
    obtain ⟨d, part', rfl, hd⟩ := symbols_head h
    cases hw
    exact .inl hd
  | name h =>
    obtain ⟨d, part', rfl, hd, -⟩ := h
    cases hw
    exact .inr (.inl hd)
  | numeral h =>
    obtain ⟨d, part', htext, hd⟩ := numeral_head h
    rw [htext] at hw
    cases hw
    exact .inr (.inr hd)

theorem lexeme_of_isSymbolStart {c : Char} (hc : isSymbolStart c = true) (tail : List Char) :
    ∃ found, lexeme c tail = .ok found := by
  rw [isSymbolStart_iff] at hc
  rcases hc with rfl | rfl | rfl | rfl | rfl | rfl | rfl
  case inr.inr.inl =>
    by_cases hstar : (tail.head? == some '*') = true
    · exact ⟨_, if_pos hstar⟩
    · exact ⟨_, if_neg hstar⟩
  all_goals exact ⟨_, rfl⟩

theorem next_of_lexeme_error {c : Char} {tail : List Char} {cause : FormulaFault}
    (hblank : isBlank c = false) (h : lexeme c tail = .error cause) : Next (c :: tail) := by
  by_cases hnumeral : isNumeralStart c = true
  · refine .numeral hnumeral fun w s' t hw hcuts => ?_
    obtain ⟨d, part, rfl, -, hlexeme⟩ := lexeme_of_cuts hcuts
    rw [List.cons_append, List.cons.injEq] at hw
    obtain ⟨rfl, rfl⟩ := hw
    rw [h] at hlexeme
    cases hlexeme
  · refine .stray hblank fun part hspelling => ?_
    rcases hspelling.start with hc | hc | hc
    · obtain ⟨found, hfound⟩ := lexeme_of_isSymbolStart hc tail
      rw [h] at hfound
      cases hfound
    · have hname := isLongest_name hc tail
      obtain ⟨d, part, heq, -, hlexeme⟩ := lexeme_of_cuts
        (.name ⟨c, _, rfl, hc, fun d hd => List.mem_takeWhile_imp hd⟩ hname)
      cases heq
      rw [List.takeWhile_append_dropWhile, h] at hlexeme
      cases hlexeme
    · exact hnumeral hc

/-- The places that a scan notes: of its tokens, and where it stopped. -/
def Scan.places (s : Scan) : List Nat :=
  s.lexemes.map (·.position) ++ [match s.stop with | .ok length => length | .error e => e.position]

/-- Byte `q` is where something comes next in the text `s`, which starts at byte `p`. -/
def ComesNext (s : List Char) (p q : Nat) : Prop :=
  ∃ front back ts, s = front ++ back ∧ q = p + byteWidth front ∧ Splits front back ts ∧ Next back

theorem ComesNext.here (h : Next s) : ComesNext s p p := ⟨[], s, [], rfl, rfl, .nil, h⟩

theorem ComesNext.blank {c : Char} (hc : isBlank c = true) (h : ComesNext s (p + c.utf8Size) q) :
    ComesNext (c :: s) p q := by
  obtain ⟨front, back, ts, rfl, rfl, hsplits, hnext⟩ := h
  exact ⟨c :: front, back, ts, rfl, by rw [byteWidth_cons, Nat.add_assoc], .blank hc hsplits, hnext⟩

theorem ComesNext.token {w : List Char} {t : Token} (hcuts : Cuts w s t)
    (h : ComesNext s (p + byteWidth w) q) : ComesNext (w ++ s) p q := by
  obtain ⟨front, back, ts, rfl, rfl, hsplits, hnext⟩ := h
  exact ⟨w ++ front, back,
    t :: ts, by rw [List.append_assoc], by rw [byteWidth_append, Nat.add_assoc],
    .token hcuts hsplits, hnext⟩

theorem comesNext_of_mem_places (hq : q ∈ (scanFrom s p).places) : ComesNext s p q := by
  induction hn : s.length using Nat.strong_induction_on generalizing s p with
  | h n ih =>
    subst hn
    cases s with
    | nil =>
      rw [scanFrom_nil] at hq
      obtain rfl : q = p := List.mem_singleton.mp hq
      exact .here .done
    | cons c tail =>
      by_cases hblank : isBlank c = true
      · rw [scanFrom_blank hblank] at hq
        exact .blank hblank (ih _ (by simp) hq rfl)
      · rw [Bool.not_eq_true] at hblank
        cases hlexeme : lexeme c tail with
        | error cause =>
          rw [scanFrom_error hblank hlexeme] at hq
          obtain rfl : q = p := List.mem_singleton.mp hq
          exact .here (next_of_lexeme_error hblank hlexeme)
        | ok found =>
          obtain ⟨t, more⟩ := found
          have hcuts := cuts_of_lexeme hlexeme
          have htext : (c :: tail.take more) ++ tail.drop more = c :: tail := by simp
          rw [scanFrom_token hblank hlexeme] at hq
          rw [← htext]
          rcases List.mem_cons.mp hq with rfl | hq
          · exact .here (.token hcuts)
          · exact .token hcuts
              (ih _ (by simp only [List.length_cons, List.length_drop]; omega) hq rfl)

/-! ### Places of failures -/

/-- A scan of one text, held against itself. -/
theorem matches_self {scan : Scan} {P : Nat → Prop} (h : ∀ q ∈ scan.places, P q) (depth : Nat) :
    Cursor.Matches (fun q _ => P q) ⟨scan.lexemes, scan.stop, depth⟩ ⟨scan.lexemes, scan.stop,
      depth⟩ where
  rest := List.forall₂_same.mpr fun l hl =>
    ⟨rfl, h _ (List.mem_append_left _ (List.mem_map_of_mem hl))⟩
  stop := by
    have hlast := h _ (List.mem_append_right _ (List.mem_singleton_self _))
    cases hstop : scan.stop with
    | ok length =>
      rw [hstop] at hlast
      exact hlast
    | error e =>
      rw [hstop] at hlast
      exact ⟨rfl, hlast⟩
  depth := rfl

theorem utf8ByteSize_ofList (s : List Char) : (String.ofList s).utf8ByteSize = byteWidth s := by
  induction s with
  | nil => rfl
  | cons c s ih => rw [String.ofList_cons, String.utf8ByteSize_append,
      String.utf8ByteSize_singleton, ih, byteWidth_cons]

variable {R : Registry} {text : String} {e : FormulaError}

theorem comesNext_of_parseWith (h : Expr.parseWith R text = .error e)
    (hblank : ¬∀ c ∈ text.toList, isBlank c = true) : ComesNext text.toList 0 e.position := by
  have hself := matches_self (fun q hq => comesNext_of_mem_places (s := text.toList) (p := 0) hq) 0
  have halike := hself.settle.bind (Parser.blind_formula R (maxNesting + 1))
  change Alike _ _ (Cursor.ofScan (scan text) >>= _) (Cursor.ofScan (scan text) >>= _) at halike
  rw [← parseWith_eq hblank, h] at halike
  exact halike.2

/-- A failure points to a boundary between characters of the text. Unless the text is blank, what
stands in front of it splits into tokens, and behind it comes the end of the text, a token of it, or
the first thing in it that is none. -/
theorem error_position (h : Expr.parseWith R text = .error e) :
    e.position ≤ text.utf8ByteSize ∧ String.Pos.Raw.IsValid text ⟨e.position⟩ ∧
      ((∃ c ∈ text.toList, isBlank c = false) →
        ∃ (front back : String) (ts : List Token), text = front ++ back ∧
          e.position = front.utf8ByteSize ∧
          Splits front.toList back.toList ts ∧ Tokenizes front.toList ts ∧ Next back.toList) := by
  have hbetween {front back : String} (htext : text = front ++ back)
      (hposition : e.position = front.utf8ByteSize) :
      e.position ≤ text.utf8ByteSize ∧ String.Pos.Raw.IsValid text ⟨e.position⟩ := by
    refine ⟨?_, String.Pos.Raw.isValid_iff_exists_append.mpr ⟨front, back, htext, ?_⟩⟩
    · rw [hposition, htext, String.utf8ByteSize_append]
      exact Nat.le_add_right _ _
    · rw [hposition]
      rfl
  by_cases hblank : ∀ c ∈ text.toList, isBlank c = true
  · have hempty : Expr.parseWith R text = .error ⟨.blank, 0⟩ := by
      rw [Expr.parseWith, (trim_eq_nil_iff _).mpr hblank]
      rfl
    rw [hempty] at h
    cases h
    obtain ⟨hle, hvalid⟩ := hbetween (show text = "" ++ text from String.empty_append.symm) rfl
    refine ⟨hle, hvalid, ?_⟩
    rintro ⟨c, hc, hnot⟩
    rw [hblank c hc] at hnot
    cases hnot
  · obtain ⟨front, back, ts, htext, hposition, hsplits, hnext⟩ := comesNext_of_parseWith h hblank
    have hstrings : text = String.ofList front ++ String.ofList back := by
      rw [← String.ofList_append, ← htext, String.ofList_toList]
    have hbytes : e.position = (String.ofList front).utf8ByteSize := by
      rw [hposition, utf8ByteSize_ofList, Nat.zero_add]
    obtain ⟨hle, hvalid⟩ := hbetween hstrings hbytes
    refine ⟨hle, hvalid, fun _ => ⟨_, _, ts, hstrings, hbytes, ?_, ?_, ?_⟩⟩
    · rwa [String.toList_ofList, String.toList_ofList]
    · rw [String.toList_ofList]
      exact hsplits.tokenizes
    · rwa [String.toList_ofList]

/-- A name that is not known, behind a blank of three bytes. -/
theorem error_position_unknown :
    Expr.parse "x *\u2003volume" = .error ⟨.unknownIdentifier "volume", 6⟩ ∧
      6 ≤ "x *\u2003volume".utf8ByteSize ∧ String.Pos.Raw.IsValid "x *\u2003volume" ⟨6⟩ ∧
        ∃ (front back : String) (ts : List Token), "x *\u2003volume" = front ++ back ∧
          6 = front.utf8ByteSize ∧
          Splits front.toList back.toList ts ∧ Tokenizes front.toList ts ∧ Next back.toList := by
  have herror : Expr.parse "x *\u2003volume" = .error ⟨.unknownIdentifier "volume", 6⟩ :=
    error_of_map (f := fun _ => ()) (by decide +kernel)
  obtain ⟨hle, hvalid, hnext⟩ := error_position herror
  exact ⟨herror, hle, hvalid, hnext ⟨'x', by decide, by decide⟩⟩

end BatteryParams

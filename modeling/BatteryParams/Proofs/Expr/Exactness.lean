import BatteryParams.Proofs.Expr.Completeness

/-!
# The parser is exact

A text is accepted exactly if it is a formula by the rules of spelling and the grammar, and then the
tree returned is the one derived. As the parser returns one tree, a text is a formula in one way
only.
-/

namespace BatteryParams

open BatteryParams.Parser

variable {R : Registry} {text : String} {e e' : Expr}

theorem isFormula_of_parseWith (h : Expr.parseWith R text = .ok e) : IsFormula R text e := by
  unfold Expr.parseWith at h
  split at h
  · cases h
  · obtain ⟨c, hscan, h⟩ := ok_of_bind h
    obtain ⟨⟨e', c'⟩, hread, h⟩ := ok_of_bind h
    simp only at h
    split at h
    · next hend =>
      cases h
      obtain ⟨rfl, hsettled⟩ := Cursor.settle_eq_ok hscan
      obtain ⟨ts, hpasses, -, k, hderives⟩ :=
        sum_sound (signed_sound R (maxNesting + 1)) _ _ _ hread
      obtain ⟨ls, rfl, hrest⟩ := hpasses.rest
      -- no token of the text stands for its end, so none is left
      have hnil : c'.rest = [] := by
        cases hleft : c'.rest with
        | nil => rfl
        | cons l rest =>
          have hl : l.token = .endOfInput := by simpa [Cursor.token, hleft] using hend
          have hmem : l ∈ (scan text).lexemes := by
            rw [show (scan text).lexemes = ls ++ c'.rest from hrest, hleft]
            simp
          exact absurd hl (scanFrom_ne_endOfInput _ _ l hmem)
      obtain ⟨length, hstop⟩ := hpasses.settled hsettled hnil
      rw [hnil, List.append_nil] at hrest
      refine ⟨_, k, (tokenizes_iff_scan text _).mpr ⟨⟨length, ?_⟩, ?_⟩, hderives⟩
      · rw [← hstop, hpasses.stop]
      · rw [← hrest]
    · cases h

theorem parseWith_of_isFormula (h : IsFormula R text e) : Expr.parseWith R text = .ok e := by
  obtain ⟨ts, k, htokens, hderives⟩ := h
  obtain ⟨⟨length, hstop⟩, hmap⟩ := (tokenizes_iff_scan text ts).mp htokens
  have hblank : (Text.trim text.toList).isEmpty = false := by
    rw [List.isEmpty_eq_false_iff]
    intro htrim
    have hnil := (tokenizes_nil_iff text.toList).mpr ((trim_eq_nil_iff text.toList).mp htrim)
    rw [tokenizes_iff_scan, hmap] at hnil
    exact hderives.ne_nil hnil.2
  have hread : IsRead R (maxNesting + 1) ⟨(scan text).lexemes ++ [], .ok length, 0⟩ ⟨[], .ok length,
      0⟩ (.sum k e) :=
    isRead_of_derives hderives _ _ hmap (Nat.zero_le _) (Nat.lt_succ_self _) (show 3 < 6 by decide)
  have hsum := Chains.whole hread rfl rfl
  rw [List.append_nil] at hsum
  simp only [Expr.parseWith, hblank, Bool.false_eq_true, if_false, Cursor.ofScan, hstop,
    Cursor.settle_ok, ok_bind, formula, sum, hsum]
  rfl

/-- A text is accepted, with a tree, exactly if it is a formula with this tree. -/
theorem parseWith_eq_ok_iff (R : Registry) (text : String) (e : Expr) :
    Expr.parseWith R text = .ok e ↔ IsFormula R text e :=
  ⟨isFormula_of_parseWith, parseWith_of_isFormula⟩

/-- The grammar is unambiguous. -/
theorem IsFormula.unique (h : IsFormula R text e) (h' : IsFormula R text e') : e = e' := by
  rw [← Except.ok.injEq (ε := FormulaError), ← parseWith_of_isFormula h, parseWith_of_isFormula h']

end BatteryParams

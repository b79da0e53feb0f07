import BatteryParams.Proofs.Expr.Checked

/-!
# Restricting what may be called

A derivation looks into the registry at its calls and nowhere else. So what is derived with one
registry is derived, as the same tree, with every other that holds the functions called in it, and
with none that lacks one of them.
-/

namespace BatteryParams

namespace Expr

mutual

/-- The functions called anywhere in a tree. -/
def calls : Expr → List Builtin
  | .number _ => []
  | .var _ => []
  | .neg operand => operand.calls
  | .binary _ left right => left.calls ++ right.calls
  | .call f args => f :: callsOfAll args

def callsOfAll : List Expr → List Builtin
  | [] => []
  | e :: es => e.calls ++ callsOfAll es

end

end Expr

/-- The functions called in the trees of a phrase. -/
def Phrase.calls : Phrase → List Builtin
  | .sum _ e | .product _ e | .signed e | .power e | .primary e => e.calls
  | .arguments es => Expr.callsOfAll es

/-! ### Look-up by name -/

theorem Builtin.mem_all (f : Builtin) : f ∈ all := by
  rcases f with f | f <;> cases f <;> decide

theorem Builtin.nodup_names : (all.map name).Nodup := by decide

theorem Builtin.name_inj {f g : Builtin} (h : f.name = g.name) : f = g :=
  List.inj_on_of_nodup_map nodup_names f.mem_all g.mem_all h

/-- No two functions share a name, so a registry finds a function exactly if it holds it. -/
theorem Registry.find?_eq_some_iff {R : Registry} {name : String} {f : Builtin} :
    R.find? name = some f ↔ f ∈ R.builtins ∧ f.name = name := by
  constructor
  · intro h
    exact ⟨List.mem_of_find?_eq_some h, by simpa using List.find?_some h⟩
  · rintro ⟨hmem, rfl⟩
    have hsome : (R.find? f.name).isSome = true := List.find?_isSome.mpr ⟨f, hmem, by simp⟩
    obtain ⟨g, hg⟩ := Option.isSome_iff_exists.mp hsome
    have hname : g.name = f.name := by simpa using List.find?_some hg
    rw [hg, Builtin.name_inj hname]

/-! ### Derivations -/

section

variable {R R' : Registry} {n : Nat} {p : Phrase} {ts : List Token}

/-- Only functions of the registry are called. -/
theorem Derives.mem_of_mem_calls (h : Derives R n p ts) : ∀ f ∈ p.calls, f ∈ R.builtins := by
  induction h with
  | number value => exact nofun
  | var v => exact nofun
  | call hfind _ _ _ ih =>
    exact List.forall_mem_cons.mpr ⟨(Registry.find?_eq_some_iff.mp hfind).1, ih⟩
  | group _ _ ih | base _ ih | unsigned _ ih | negated _ _ ih | plus _ _ ih | factor _ ih
  | term _ ih => exact ih
  | raised _ _ _ ihl ihr | timesFactor _ _ _ _ ihl ihr | plusTerm _ _ _ _ ihl ihr
  | argument _ _ ihl ihr =>
    exact List.forall_mem_append.mpr ⟨ihl, ihr⟩
  | lastArgument _ ih => exact List.forall_mem_append.mpr ⟨ih, nofun⟩

/-- A registry that holds the functions called in a phrase derives it too. -/
theorem Derives.of_calls (h : Derives R n p ts) (hcalls : ∀ f ∈ p.calls, f ∈ R'.builtins) :
    Derives R' n p ts := by
  induction h with
  | number value => exact .number value
  | var v => exact .var v
  | call hfind harity hn _ ih =>
    obtain ⟨hf, hargs⟩ := List.forall_mem_cons.mp hcalls
    exact .call (Registry.find?_eq_some_iff.mpr ⟨hf, (Registry.find?_eq_some_iff.mp hfind).2⟩)
      harity hn (ih hargs)
  | group hn _ ih => exact .group hn (ih hcalls)
  | base _ ih => exact .base (ih hcalls)
  | raised hn _ _ ihb ihe =>
    obtain ⟨hb, he⟩ := List.forall_mem_append.mp hcalls
    exact .raised hn (ihb hb) (ihe he)
  | unsigned _ ih => exact .unsigned (ih hcalls)
  | negated hn _ ih => exact .negated hn (ih hcalls)
  | plus hn _ ih => exact .plus hn (ih hcalls)
  | factor _ ih => exact .factor (ih hcalls)
  | timesFactor hop hn _ _ ihl ihr =>
    obtain ⟨hl, hr⟩ := List.forall_mem_append.mp hcalls
    exact .timesFactor hop hn (ihl hl) (ihr hr)
  | term _ ih => exact .term (ih hcalls)
  | plusTerm hop hn _ _ ihl ihr =>
    obtain ⟨hl, hr⟩ := List.forall_mem_append.mp hcalls
    exact .plusTerm hop hn (ihl hl) (ihr hr)
  | lastArgument _ ih => exact .lastArgument (ih (List.forall_mem_append.mp hcalls).1)
  | argument _ _ ih ihs =>
    obtain ⟨he, hes⟩ := List.forall_mem_append.mp hcalls
    exact .argument (ih he) (ihs hes)

end

namespace Expr

variable {R R' : Registry} {text : String} {e : Expr}

theorem mem_of_parseWith (h : parseWith R text = .ok e) : ∀ f ∈ e.calls, f ∈ R.builtins := by
  obtain ⟨_, _, -, hderives⟩ := isFormula_of_parseWith h
  exact hderives.mem_of_mem_calls

theorem parseWith_of_calls (h : parseWith R text = .ok e)
    (hcalls : ∀ f ∈ e.calls, f ∈ R'.builtins) : parseWith R' text = .ok e := by
  obtain ⟨ts, k, htokens, hderives⟩ := isFormula_of_parseWith h
  exact parseWith_of_isFormula ⟨ts, k, htokens, hderives.of_calls hcalls⟩

/-- The registry is the only way to code: it accepts exactly those standard formulas that call
nothing but its functions, with their trees, and a larger one accepts whatever a smaller one does,
with the same tree. -/
theorem parseWith_eq_ok_iff_calls (R : Registry) (text : String) :
    (∀ e, parseWith R text = .ok e ↔ parse text = .ok e ∧ ∀ f ∈ e.calls, f ∈ R.builtins) ∧
      ∀ R' : Registry, R.builtins ⊆ R'.builtins → ∀ e, parseWith R text = .ok e →
        parseWith R' text = .ok e := by
  refine ⟨fun e => ⟨fun h => ⟨?_, mem_of_parseWith h⟩, ?_⟩, fun R' hsubset e h => ?_⟩
  · exact parseWith_of_calls h fun f _ => f.mem_all
  · rintro ⟨h, hcalls⟩
    exact parseWith_of_calls h hcalls
  · exact parseWith_of_calls h fun f hf => hsubset (mem_of_parseWith h f hf)

/-- A quotient of a root calls one function, and the registry that it needs may hold others. -/
theorem parseWith_eq_ok_iff_calls_rootOverT :
    parseWith ⟨[.unary .sqrt]⟩ "sqrt(x)/T" = .ok rootOverT ∧
      parseWith ⟨[.unary .exp]⟩ "sqrt(x)/T" ≠ .ok rootOverT ∧
      parseWith ⟨[.unary .exp, .unary .sqrt]⟩ "sqrt(x)/T" = .ok rootOverT := by
  obtain ⟨hexact, hlarger⟩ := parseWith_eq_ok_iff_calls ⟨[.unary .sqrt]⟩ "sqrt(x)/T"
  have hroot := (hexact rootOverT).mpr ⟨parse_rootOverT, by decide⟩
  refine ⟨hroot, fun h => ?_, hlarger _ (by decide) _ hroot⟩
  obtain ⟨-, hcalls⟩ := ((parseWith_eq_ok_iff_calls ⟨[.unary .exp]⟩ "sqrt(x)/T").1 rootOverT).mp h
  exact absurd (hcalls (.unary .sqrt) (by decide)) (by decide)

end Expr

end BatteryParams

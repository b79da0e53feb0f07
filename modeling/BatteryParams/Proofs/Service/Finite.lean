import BatteryParams.Proofs.Document.RoundTrip
import BatteryParams.Proofs.Expr.Finite
import BatteryParams.Proofs.Service.Answers
import BatteryParams.Proofs.Table.Range

/-!
# Finite answers

A constant was read as a finite number, and a formula has finite values only. A table is not
checked: beyond its breakpoints it follows a line for as long as it is asked to, and where that
leaves the range of doubles, so does the answer, which is null in a response. Within reach of its
segments its values are finite too.
-/

namespace BatteryParams

namespace Value

variable {v : Value} {x y : Float} {T : Option Float}

/-- Where a value is known to be finite. Only a table tells arguments apart. -/
def InReach : Value → Float → Prop
  | .table t, x => t.InReach x
  | _, _ => True

theorem isFinite_of_evaluate (hv : v.WellFormed) (hreach : v.InReach x)
    (h : v.evaluate x T = .ok y) : y.isFinite = true := by
  cases v with
  | constant c =>
    cases h
    exact hv
  | formula f =>
    obtain ⟨q, hq, h⟩ := ok_of_bind h
    obtain ⟨_, hcheck, hq⟩ := ok_of_bind hq
    have hfinite := Expr.allFinite_eval (Expr.wellFormed_of_parseWith f.parsed) hcheck hq
    split at h
    · next z hz =>
      cases h
      refine hfinite _ ?_
      have hmem := List.mem_of_getElem? hz
      cases q with
      | scalar a => simpa [Quantity.toList, Quantity.values] using hmem
      | array as => exact hmem
    · cases h
  | table t =>
    obtain ⟨_, hcheck, h⟩ := ok_of_bind h
    cases h
    exact Table.Built.isFinite_evaluate hv (checkArguments_eq_ok.mp hcheck x (by simp)) hreach

theorem isFinite_of_evaluateEach {xs ys : List Float} (hv : v.WellFormed)
    (hreach : ∀ x ∈ xs, v.InReach x)
    (h : v.evaluateEach xs T = .ok ys) : ∀ y ∈ ys, y.isFinite = true := by
  by_cases hne : xs = []
  · subst hne
    rw [eq_nil_of_evaluateEach_nil h]
    exact List.forall_mem_nil _
  · have hpointwise := ((v.pointwise_evaluateEach hne T).eq_ok_iff ys).mp h
    clear h hne
    induction hpointwise with
    | nil => exact List.forall_mem_nil _
    | cons hhead _ ih =>
      rw [List.forall_mem_cons] at hreach ⊢
      exact ⟨isFinite_of_evaluate hv hreach.1 hhead, ih hreach.2⟩

end Value

/-- Every value of a document that was read is well formed. -/
theorem Document.wellFormed_of_value? {j : Json} {d : Document} {path : String} {v : Value}
    (h : ofJson j = .ok d) (hvalue : d.value? path = some v) : v.WellFormed := by
  rw [value?_eq, Option.map_eq_some_iff] at hvalue
  obtain ⟨placed, hfind, rfl⟩ := hvalue
  have hmem : placed ∈ d.values := List.mem_of_find?_eq_some hfind
  have hreadable : d.Readable := readable_of_read (ofJson_eq_ok.mp h)
  exact (forall_mem_values (P := Value.WellFormed)).mpr hreadable.parameters.values _ hmem

namespace Service

/-- Finite values are written as numbers. -/
theorem ofFloats_of_finite {ys : List Float} (h : ∀ y ∈ ys, y.isFinite = true) :
    Json.ofFloats ys = .list (ys.map fun y => .number (.float y)) := by
  rw [Json.ofFloats]
  congr 1
  refine List.map_congr_left fun y hy => ?_
  rw [Json.ofFloat, if_pos (h y hy)]

end Service

namespace Value

/-- Whatever tree a value is read from, its values are finite at arguments within its reach, one by
one and in a list, and a response that carries them has no null. -/
theorem finite_in_reach :
    (∀ j v, ofJson j = .ok v →
      (∀ x T y, v.InReach x → v.evaluate x T = .ok y → y.isFinite = true) ∧
      ∀ xs T ys, (∀ x ∈ xs, v.InReach x) → v.evaluateEach xs T = .ok ys →
        ∀ y ∈ ys, y.isFinite = true) ∧
    ∀ (codec : Service.Codec) defaults (r : Service.ValueRequest) a v text,
      Accepted.ofJson defaults r.document = .ok a → a.document.value? r.path = some v →
      (∀ x ∈ r.x, v.InReach x) → Service.respond codec defaults (.evaluate r) = ⟨200, text⟩ →
      ∃ ys : List Float, (∀ y ∈ ys, y.isFinite = true) ∧
        text = codec.encode
          (Json.ofMembers [("y", .list (ys.map fun y => .number (.float y)))]) := by
  constructor
  · intro j v h
    have hv := wellFormed_of_ofJson h
    exact ⟨fun x T y => isFinite_of_evaluate hv, fun xs T ys => isFinite_of_evaluateEach hv⟩
  · intro codec defaults r a v text haccept hvalue hreach hgiven
    rw [Service.respond_evaluate codec haccept hvalue] at hgiven
    cases heach : v.evaluateEach r.x r.temperature with
    | error e =>
      rw [heach] at hgiven
      cases hgiven
    | ok ys =>
      have hv := Document.wellFormed_of_value? (Service.ofJson_of_accepted haccept) hvalue
      have hfinite := isFinite_of_evaluateEach hv hreach heach
      rw [heach, Service.valuesResponse, Service.ofFloats_of_finite hfinite] at hgiven
      exact ⟨ys, hfinite, (congrArg Service.Response.body hgiven).symm⟩

/-- A table whose line is so steep that it leaves the range of doubles. -/
def steepTree : Json :=
  .object [("x", .list [.number (.natural 0), .number (.natural 1)]),
    ("y", .list [.number (.natural 0), .number (.float 1e308)])]

def steep : Table Float :=
  ⟨[0.0, 1.0], [0.0, 1e308], by simp only [List.length_cons], by simp only [List.length_cons,
    List.length_nil, le_refl]⟩

theorem ofJson_steepTree : ofJson steepTree = .ok (.table steep) := by decide +kernel

theorem finite_in_reach_steep :
    (∃ y, evaluate (.table steep) 0.5 none = .ok y ∧ y.isFinite = true) ∧
      ∃ ys : List Float, (∀ y ∈ ys, y.isFinite = true) ∧
        Service.respond Service.plainCodec ⟨⟨0.25⟩, false⟩
            (.evaluate (Service.plainRequest "Parameterisation/Negative electrode/OCP [V]")) =
          ⟨200, Json.render
            (Json.ofMembers [("y", .list (ys.map fun y => .number (.float y)))])⟩ := by
  constructor
  · have hreach : steep.InReach 0.5 :=
      .inl ⟨by rw [Table.Covers]; decide +kernel, by decide +kernel⟩
    exact ⟨_, rfl, ((finite_in_reach.1 steepTree _ ofJson_steepTree).1 0.5 none _ hreach rfl)⟩
  · let path := "Parameterisation/Negative electrode/OCP [V]"
    have hany : ((Document.plain.value? path).any fun v => (v.evaluateEach [0.5] none).toOption.any
        fun _ => match v with
          | .table t => (0.5 - t.leftEnd 0.5).isFinite && t.domain.1 ≤ 0.5 && 0.5 ≤ t.domain.2
          | _ => false) = true := by decide +kernel
    obtain ⟨v, hvalue, hany⟩ := (Option.any_eq_true _ _).mp hany
    obtain ⟨ys, heach, htable⟩ := ok_of_any hany
    have hreach : ∀ x ∈ [0.5], v.InReach x := by
      rw [List.forall_mem_singleton]
      cases v with
      | table t =>
        simp only [Bool.and_eq_true, decide_eq_true_eq] at htable
        exact .inl ⟨⟨htable.1.2, htable.2⟩, htable.1.1⟩
      | _ => cases htable
    have hgiven := Service.respond_evaluate (r := Service.plainRequest path) Service.plainCodec
      Service.ofJson_plain hvalue
    have hvalues : v.evaluateEach (Service.plainRequest path).x none = .ok ys := heach
    rw [show (Service.plainRequest path).temperature = none from rfl, hvalues] at hgiven
    obtain ⟨zs, hfinite, htext⟩ := finite_in_reach.2 _ _ (Service.plainRequest path) _ v _
      Service.ofJson_plain hvalue hreach hgiven
    exact ⟨zs, hfinite, hgiven.trans (congrArg (Service.Response.mk 200) htext)⟩

/-- Far beyond its breakpoints the table answers infinity. -/
theorem steep_overflows : ¬∀ j v x (T : Option Float) y, ofJson j = .ok v → x.isFinite = true →
    (∀ t, T = some t → t.isFinite = true) → v.evaluate x T = .ok y → y.isFinite = true := by
  intro h
  have hfinite :=
    h steepTree _ 1e10 none (steep.evaluate 1e10) ofJson_steepTree (by decide +kernel) nofun rfl
  have hinfinite : (steep.evaluate 1e10).isFinite = false := by decide +kernel
  rw [hinfinite] at hfinite
  cases hfinite

end Value

end BatteryParams

import BatteryParams.Proofs.Document.Issues
import BatteryParams.Proofs.Document.Spelling

/-!
# The number of electrode pairs

The one count of a document. What is reported at its place is reported of this entry alone, so it
hangs on the number that stands there and on nothing else: the number is accepted if its double is
an integer from 1 to 4294967295, and this integer is what the document has. Since no other reader
sees more of a number than its double either, documents are read the same however their numbers are
spelled.
-/

namespace BatteryParams

open Reading (check clean)
open Record

variable {model : Model} {path : Path} {members : List (String × Json)} {content : Json} {i : Issue}

/-! ### What is reported at one place -/

theorem Cell.mem_check_pairs (hfind : Named.find? CellField.numberOfElectrodePairs.key members =
    some content) (hi : path ++ [CellField.numberOfElectrodePairs.key] <+: i.path) :
    i ∈ check (read model) path (.object members) ↔
      i ∈ check Rule.count (path ++ [CellField.numberOfElectrodePairs.key]) content := by
  have hpart : Part.leaf CellField.numberOfElectrodePairs Rule.count ∈ parts := by simp [parts]
  exact mem_check_iff (reportsParts_of_eq fun r _ => issues_body r) CellField.keys_nodup
    (List.Perm.refl _) (fun p hp => (plain_parts p hp).sound) hpart hfind hi

theorem Parameters.mem_check_cell (hfind : Named.find? ParameterField.cell.key members =
    some content) (hi : path ++ [ParameterField.cell.key] <+: i.path) :
    i ∈ check (read model) path (.object members) ↔
      i ∈ check (Cell.read model) (path ++ [ParameterField.cell.key]) content := by
  have hpart : ⟨ParameterField.cell, check (Cell.read model),
      closedObject CellField.table⟩ ∈ parts model := by
    simp [parts]
  exact mem_check_iff (reportsParts_of_eq fun r hr => hr ▸ issues_body r) ParameterField.keys_nodup
    (List.Perm.refl _) (sound_parts model) hpart hfind hi

namespace Document

theorem mem_issues_parameters (hfind : Named.find? DocumentField.parameterisation.key members =
    some content) (hi : [DocumentField.parameterisation.key] <+: i.path) :
    i ∈ issues (.object members) ↔
      i ∈ check (Parameters.read (statedModel (.object members)))
        [DocumentField.parameterisation.key] content := by
  let model := statedModel (.object members)
  have hpart : ⟨DocumentField.parameterisation, check (Parameters.read model),
      closedRecord ParameterField.table (Parameters.parts model)⟩ ∈ parts model := by
    simp [parts]
  rw [issues_eq]
  exact mem_check_iff (reportsParts_of_eq fun r hr => hr ▸ issues_body r) DocumentField.keys_nodup
    (List.Perm.refl _) (sound_parts model) hpart hfind hi

/-- The place of the number of electrode pairs. -/
def pairsPath : Path :=
  [DocumentField.parameterisation.key, ParameterField.cell.key,
    CellField.numberOfElectrodePairs.key]

theorem mem_issues_pairs {j : Json} (h : j.follow? pairsPath = some content)
    (hi : i.path = pairsPath) : i ∈ issues j ↔ i ∈ check Rule.count pairsPath content := by
  obtain ⟨members, parameters, rfl, hparameters, h⟩ := Json.follow?_cons_eq_some.mp h
  obtain ⟨sections, cell, rfl, hcell, h⟩ := Json.follow?_cons_eq_some.mp h
  obtain ⟨entries, pairs, rfl, hpairs, h⟩ := Json.follow?_cons_eq_some.mp h
  obtain rfl : pairs = content := Option.some.inj h
  rw [mem_issues_parameters hparameters (by rw [hi]; exact ⟨_, rfl⟩),
    Parameters.mem_check_cell hcell (by rw [hi]; exact ⟨_, rfl⟩),
    Cell.mem_check_pairs hpairs (by rw [hi]; exact List.prefix_rfl)]
  rfl

/-- The number of electrode pairs is reported unless it is a count. -/
theorem exists_issue_pairs_iff {j : Json} (h : j.follow? pairsPath = some content) :
    (∃ i ∈ issues j, i.path = pairsPath) ↔ content.toCount? = none := by
  constructor
  · rintro ⟨i, hi, hpath⟩
    rw [mem_issues_pairs h hpath, check, Rule.count, Rule.expect] at hi
    split at hi
    · cases hi
    · assumption
  · intro hnone
    refine ⟨⟨pairsPath, .wrongKind .count content.kind⟩, (mem_issues_pairs h rfl).mpr ?_, rfl⟩
    rw [check, Rule.count, Rule.expect, hnone]
    exact List.mem_singleton_self _

theorem statedPairs?_of_follow? {j : Json} (h : j.follow? pairsPath = some content) :
    statedPairs? j = content.toCount? := by
  obtain ⟨members, parameters, rfl, hparameters, h⟩ := Json.follow?_cons_eq_some.mp h
  obtain ⟨sections, cell, rfl, hcell, h⟩ := Json.follow?_cons_eq_some.mp h
  obtain ⟨entries, pairs, rfl, hpairs, h⟩ := Json.follow?_cons_eq_some.mp h
  obtain rfl : pairs = content := Option.some.inj h
  simp only [statedPairs?, Json.member?, hparameters, hcell, hpairs, Option.bind_eq_bind,
    Option.bind_some]

/-- How numbers are spelled does not matter: trees with the same doubles are read as the same
document, or refused for the same issues. The number of electrode pairs is reported unless its
double is an integer from 1 to 4294967295, and a document has this integer. -/
theorem number_spelling_irrelevant :
    (∀ j j' : Json, j.asDoubles = j'.asDoubles → ofJson j = ofJson j') ∧
      ∀ (j : Json) (n : Json.Number), j.follow? pairsPath = some (.number n) →
        ((∀ i ∈ issues j, i.path ≠ pairsPath) ↔
          ∃ k : Nat, Double.value? n.toFloat = some (k : ℚ) ∧ 1 ≤ k ∧ k ≤ 4294967295) ∧
        ∀ d, ofJson j = .ok d →
          Double.value? n.toFloat = some (d.parameters.cell.numberOfElectrodePairs.toNat : ℚ) := by
  refine ⟨fun j j' h => ?_, fun j n h => ⟨?_, fun d hd => ?_⟩⟩
  · rw [← ofJson_asDoubles j, h, ofJson_asDoubles]
  · rw [← Json.Number.isSome_toCount?_iff_double, Option.isSome_iff_ne_none, ne_eq]
    have hreported : ¬(∃ i ∈ issues j, i.path = pairsPath) ↔ ¬n.toCount? = none :=
      not_congr (exists_issue_pairs_iff h)
    simpa using hreported
  · have hpairs := statedPairs?_of_read (ofJson_eq_ok.mp hd)
    rw [statedPairs?_of_follow? h] at hpairs
    exact (Json.Number.toCount?_eq_some_iff.mp hpairs).2

/-- A document is written with the doubles of the tree that it was read from, which spells its whole
numbers as integers and its count as a double. -/
theorem number_spelling_irrelevant_plain :
    ofJson plain.toJson = ofJson plainTree ∧
      plainTree.follow? pairsPath = some (.number (.float 2.0)) ∧
        Double.value? 2.0 = some ((2 : Nat) : ℚ) ∧
      ∀ i ∈ issues plainTree, i.path ≠ pairsPath := by
  have hfollow : plainTree.follow? pairsPath = some (.number (.float 2.0)) := rfl
  have hvalue : Double.value? 2.0 = some ((2 : Nat) : ℚ) :=
    (number_spelling_irrelevant.2 plainTree _ hfollow).2 plain ofJson_plainTree
  refine ⟨number_spelling_irrelevant.1 _ _ ?_, hfollow, hvalue, ?_⟩
  · exact asDoubles_toJson_of_read plainTree_filed (ofJson_eq_ok.mp ofJson_plainTree)
  · exact (number_spelling_irrelevant.2 plainTree _ hfollow).1.mpr ⟨2, hvalue, by decide⟩

end Document

end BatteryParams

import BatteryParams.Increasing
import Mathlib.Data.List.Chain

/-!
# The order of doubles

`<` and `≤` on doubles are no linear order, since a double that is no number compares with nothing.
Among numbers they behave as usual, and sums and differences with a finite double are numbers again.
All of this is read off the model of doubles in the core library: an operation unpacks its arguments
into a sign, a mantissa and an exponent.
-/

namespace BatteryParams

/-! ### Lists that do not stall -/

section

variable {α : Type} [LE α] [DecidableLE α]

theorem stallFrom?_eq_none_iff_isChain (xs : List α) (index : Nat) :
    stallFrom? index xs = none ↔ xs.IsChain fun a b => ¬b ≤ a := by
  fun_induction stallFrom? index xs with
  | case1 index a b rest hle => simp [hle]
  | case2 index a b rest hle ih => simp [hle, ih]
  | case3 xs index hshort =>
    rcases xs with _ | ⟨a, _ | ⟨b, rest⟩⟩
    · simp
    · simp
    · exact absurd rfl (hshort a b rest)

/-- Only neighbours are compared. -/
theorem stall?_eq_none_iff_getElem (xs : List α) :
    stall? xs = none ↔ ∀ i (hi : i + 1 < xs.length), ¬xs[i + 1] ≤ xs[i] := by
  rw [stall?, stallFrom?_eq_none_iff_isChain, List.isChain_iff_getElem]

end

namespace Double

open Float.Model (UnpackedFloat)
open Float.Model.Format (binary64)

/-- The sign, mantissa and exponent of a double. -/
def parts (x : Float) : UnpackedFloat := x.toModel.unpack

/-- A double that is a number, which may be infinite. -/
def IsNumber (x : Float) : Prop := parts x ≠ .notANumber

theorem lt_iff (a b : Float) : a < b ↔ (parts a).compare (parts b) = some .lt := by
  show decide (((parts a).compare (parts b) == some .lt) = true) = true ↔ _
  simp

theorem le_iff (a b : Float) :
    a ≤ b ↔ (parts a).compare (parts b) = some .lt ∨ (parts a).compare (parts b) = some .eq := by
  show decide (((parts a).compare (parts b)).any (·.isLE) = true) = true ↔ _
  cases (parts a).compare (parts b) with
  | none => simp
  | some o => cases o <;> simp

theorem isNumber_of_isFinite {x : Float} (h : x.isFinite = true) : IsNumber x := by
  intro hparts
  have hfinite : (parts x).isFinite = true := h
  rw [hparts] at hfinite
  cases hfinite

/-! ### Comparing parts -/

/-- Where a number stands: on which side of zero, or beyond all finite numbers, then its exponent
and mantissa. -/
def rank : UnpackedFloat → Int × Int × Int
  | .notANumber => (0, 0, 0)
  | .infinity .negative => (-2, 0, 0)
  | .finite .negative m e _ => (-1, -e, -m)
  | .zero _ => (0, 0, 0)
  | .finite .positive m e _ => (1, e, m)
  | .infinity .positive => (2, 0, 0)

/-- The lexicographic order of ranks. -/
def Below (a b : Int × Int × Int) : Prop :=
  a.1 < b.1 ∨ a.1 = b.1 ∧ (a.2.1 < b.2.1 ∨ a.2.1 = b.2.1 ∧ a.2.2 < b.2.2)

theorem compare_eq_lt_iff {u v : UnpackedFloat} (hu : u ≠ .notANumber) (hv : v ≠ .notANumber) :
    u.compare v = some .lt ↔ Below (rank u) (rank v) := by
  rcases u with s | _ | s | ⟨s, m, e, hm⟩ <;> rcases v with s' | _ | s' | ⟨s', m', e', hm'⟩ <;>
    (try cases s) <;> (try cases s') <;>
    first
    | exact absurd rfl hu
    | exact absurd rfl hv
    | dsimp only [UnpackedFloat.compare, rank, Below]
      simp [Ordering.then_eq_lt, Ordering.then_eq_gt, Int.compare_eq_lt, Int.compare_eq_gt,
        Nat.compare_eq_lt, Nat.compare_eq_gt] <;>
      first
      | omega
      | decide

theorem compare_swap (u v : UnpackedFloat) : v.compare u = (u.compare v).map Ordering.swap := by
  have hint : ∀ a b : Int, compare b a = (compare a b).swap :=
    fun a b => (Int.compare_swap a b).symm
  have hnat : ∀ a b : Nat, compare b a = (compare a b).swap :=
    fun a b => (Nat.compare_swap a b).symm
  rcases u with s | _ | s | ⟨s, m, e, hm⟩ <;> rcases v with s' | _ | s' | ⟨s', m', e', hm'⟩ <;>
    (try cases s) <;> (try cases s') <;>
    first
    | rfl
    | dsimp only [UnpackedFloat.compare]
      simp [hint e, hnat m, Ordering.swap_then]

theorem exists_compare {u v : UnpackedFloat} (hu : u ≠ .notANumber) (hv : v ≠ .notANumber) :
    ∃ o, u.compare v = some o := by
  rcases u with s | _ | s | ⟨s, m, e, hm⟩ <;> rcases v with s' | _ | s' | ⟨s', m', e', hm'⟩ <;>
    (try cases s) <;> (try cases s') <;>
    first
    | exact absurd rfl hu
    | exact absurd rfl hv
    | exact ⟨_, rfl⟩

/-! ### Comparing numbers -/

variable {a b c : Float}

theorem isNumber_of_lt (h : a < b) : IsNumber a ∧ IsNumber b := by
  rw [lt_iff] at h
  constructor
  · intro ha
    rw [ha] at h
    cases h
  · intro hb
    rw [compare_swap, hb] at h
    cases h

theorem lt_trans (hab : a < b) (hbc : b < c) : a < c := by
  obtain ⟨ha, hb⟩ := isNumber_of_lt hab
  obtain ⟨-, hc⟩ := isNumber_of_lt hbc
  rw [lt_iff, compare_eq_lt_iff ha hb] at hab
  rw [lt_iff, compare_eq_lt_iff hb hc] at hbc
  rw [lt_iff, compare_eq_lt_iff ha hc]
  simp only [Below] at *
  omega

theorem isNumber_of_le (h : a ≤ b) : IsNumber a ∧ IsNumber b := by
  rw [le_iff] at h
  constructor
  · intro ha
    rw [ha] at h
    rcases h with h | h <;> cases h
  · intro hb
    rw [compare_swap, hb] at h
    rcases h with h | h <;> cases h

theorem le_of_lt (h : a < b) : a ≤ b := (le_iff a b).mpr (.inl ((lt_iff a b).mp h))

theorem not_lt_iff (ha : IsNumber a) (hb : IsNumber b) : ¬a < b ↔ b ≤ a := by
  obtain ⟨o, ho⟩ := exists_compare ha hb
  rw [lt_iff, le_iff, compare_swap (parts a) (parts b), ho]
  cases o <;> simp

theorem not_le_iff (ha : IsNumber a) (hb : IsNumber b) : ¬b ≤ a ↔ a < b := by
  rw [← not_lt_iff ha hb, Classical.not_not]

theorem le_self (ha : IsNumber a) : a ≤ a := by
  rw [← not_lt_iff ha ha, lt_iff, compare_eq_lt_iff ha ha]
  simp [Below]

theorem lt_of_le_of_lt (hab : a ≤ b) (hbc : b < c) : a < c := by
  obtain ⟨ha, hb⟩ := isNumber_of_le hab
  obtain ⟨-, hc⟩ := isNumber_of_lt hbc
  rw [← not_lt_iff hb ha, lt_iff, compare_eq_lt_iff hb ha] at hab
  rw [lt_iff, compare_eq_lt_iff hb hc] at hbc
  rw [lt_iff, compare_eq_lt_iff ha hc]
  simp only [Below] at *
  omega

theorem le_of_lt_of_le (hab : a < b) (hbc : b ≤ c) : a ≤ c := by
  obtain ⟨ha, hb⟩ := isNumber_of_lt hab
  obtain ⟨-, hc⟩ := isNumber_of_le hbc
  rw [← not_lt_iff hc ha]
  intro hca
  exact (not_lt_iff hc hb).mpr hbc (lt_trans hca hab)

/-! ### Arithmetic that keeps to numbers -/

/-- Only the largest exponent with a mantissa that is not zero stands for no number. -/
theorem unpack_ne_notANumber {word : BitVec binary64.numBits}
    (h : UnpackedFloat.unpackExponent word ≠ -BitVec.ofNat _ 1 ∨
      UnpackedFloat.unpackMantissa word = BitVec.ofNat _ 0) :
    UnpackedFloat.unpack binary64 word ≠ .notANumber := by
  unfold UnpackedFloat.unpack
  dsimp only
  by_cases hlargest : UnpackedFloat.unpackExponent word = -BitVec.ofNat _ 1
  · rw [if_pos hlargest, if_pos (h.resolve_left fun hne => hne hlargest)]
    exact nofun
  rw [if_neg hlargest]
  by_cases hsmallest : UnpackedFloat.unpackExponent word = BitVec.ofNat _ 0
  · rw [if_pos hsmallest]
    by_cases hmantissa : UnpackedFloat.unpackMantissa word = BitVec.ofNat _ 0
    · rw [dif_pos hmantissa]
      exact nofun
    · rw [dif_neg hmantissa]
      exact nofun
  · rw [if_neg hsmallest]
    exact nofun

theorem unpack_packComponents_ne {sign : UnpackedFloat.Sign}
    {exponent : BitVec binary64.exponentBits}
    {mantissa : BitVec binary64.mantissaBitsWithoutImplicit}
    (h : exponent ≠ -BitVec.ofNat _ 1 ∨ mantissa = BitVec.ofNat _ 0) :
    UnpackedFloat.unpack binary64 (UnpackedFloat.packComponents binary64 sign exponent mantissa) ≠
      .notANumber := by
  apply unpack_ne_notANumber
  rwa [UnpackedFloat.unpackExponent_packComponents, UnpackedFloat.unpackMantissa_packComponents]

theorem isNumber_pack {u : UnpackedFloat} (hu : u ≠ .notANumber) :
    UnpackedFloat.unpack binary64 (UnpackedFloat.pack binary64 u) ≠ .notANumber := by
  have hzero : BitVec.ofNat binary64.exponentBits 0 ≠ -BitVec.ofNat _ 1 := by decide
  cases u with
  | notANumber => exact absurd rfl hu
  | infinity s => exact unpack_packComponents_ne (.inr rfl)
  | zero s => exact unpack_packComponents_ne (.inl hzero)
  | finite s m e hm =>
    unfold UnpackedFloat.pack
    dsimp only
    split
    · exact unpack_packComponents_ne (.inr rfl)
    · next hfits =>
      split
      · refine unpack_packComponents_ne (.inl fun heq => ?_)
        have hnat := congrArg BitVec.toNat heq
        simp only [BitVec.toNat_ofNat, BitVec.neg_one_eq_allOnes, BitVec.toNat_allOnes] at hnat
        rw [Nat.mod_eq_of_lt (by omega)] at hnat
        omega
      · exact unpack_packComponents_ne (.inl hzero)

theorem dite_ne_notANumber {p : Prop} [Decidable p] {yes : p → UnpackedFloat}
    {no : ¬p → UnpackedFloat} (hyes : ∀ h, yes h ≠ .notANumber) (hno : ∀ h, no h ≠ .notANumber) :
    dite p yes no ≠ .notANumber := by
  by_cases h : p
  · rw [dif_pos h]
    exact hyes h
  · rw [dif_neg h]
    exact hno h

theorem normalize_ne_notANumber (mantissa exponent : Int) :
    UnpackedFloat.normalize binary64 mantissa exponent .positive ≠ .notANumber := by
  have hround : ∀ (sign : UnpackedFloat.Sign) (m : Nat),
      UnpackedFloat.round binary64 sign m exponent ≠ .notANumber := by
    intro sign m
    unfold UnpackedFloat.round UnpackedFloat.roundWithAccuracy
    exact dite_ne_notANumber (fun _ => nofun) (fun _ => nofun)
  unfold UnpackedFloat.normalize
  split
  · exact hround _ _
  · simp
  · exact hround _ _

theorem add_ne_notANumber {u v : UnpackedFloat} (hu : u ≠ .notANumber) (hv : v.isFinite = true) :
    UnpackedFloat.add binary64 u v ≠ .notANumber := by
  rcases u with s | _ | s | ⟨s, m, e, hm⟩ <;> rcases v with s' | _ | s' | ⟨s', m', e', hm'⟩ <;>
    first
    | exact Bool.noConfusion hv
    | exact absurd rfl hu
    | exact normalize_ne_notANumber _ _
    | exact UnpackedFloat.noConfusion
    | dsimp only [UnpackedFloat.add]
      split <;> simp

theorem sub_ne_notANumber {u v : UnpackedFloat} (hu : u ≠ .notANumber) (hv : v.isFinite = true) :
    UnpackedFloat.sub binary64 u v ≠ .notANumber := by
  rcases u with s | _ | s | ⟨s, m, e, hm⟩ <;> rcases v with s' | _ | s' | ⟨s', m', e', hm'⟩ <;>
    first
    | exact Bool.noConfusion hv
    | exact absurd rfl hu
    | exact normalize_ne_notANumber _ _
    | exact UnpackedFloat.noConfusion
    | dsimp only [UnpackedFloat.sub]
      split <;> simp

theorem isNumber_add (ha : IsNumber a) (hb : b.isFinite = true) : IsNumber (a + b) :=
  isNumber_pack (u := UnpackedFloat.add binary64 (parts a) (parts b)) (add_ne_notANumber ha hb)

theorem isNumber_sub (ha : IsNumber a) (hb : b.isFinite = true) : IsNumber (a - b) :=
  isNumber_pack (u := UnpackedFloat.sub binary64 (parts a) (parts b)) (sub_ne_notANumber ha hb)

theorem isNumber_abs (ha : IsNumber a) : IsNumber a.abs := by
  refine isNumber_pack (u := (parts a).abs) ?_
  have hnumber : parts a ≠ .notANumber := ha
  generalize parts a = u at *
  cases u with
  | notANumber => exact absurd rfl hnumber
  | infinity s => exact nofun
  | zero s => exact nofun
  | finite s m e hm => exact nofun

/-! ### Increasing lists -/

instance isTrans_lt : IsTrans Float (· < ·) := ⟨fun _ _ _ => lt_trans⟩

/-- A list of numbers has no place at which it stalls exactly if it strictly increases. -/
theorem stall?_eq_none_iff {xs : List Float} (hnumber : ∀ x ∈ xs, IsNumber x) :
    stall? xs = none ↔ xs.Pairwise (· < ·) := by
  rw [stall?_eq_none_iff_getElem, ← List.isChain_iff_pairwise, List.isChain_iff_getElem]
  exact forall₂_congr fun i hi =>
    not_le_iff (hnumber _ (List.getElem_mem _)) (hnumber _ (List.getElem_mem hi))

theorem isFinite_one : (1.0 : Float).isFinite = true := by decide

end Double

end BatteryParams

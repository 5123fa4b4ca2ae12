import Mathlib
import ReversePolish.Operator.Collection

/-!
Exact results. An integer is given in full where 64 bits can tell it, and otherwise there is an error.
The quotient is truncated toward zero, and the remainder belongs to it.
-/

namespace ReversePolish

namespace Arithmetic

variable {a b n : Int}

/-- 64 bits with a sign can tell the integer. -/
def Fits (n : Int) : Prop := -2 ^ 63 ≤ n ∧ n < 2 ^ 63

instance : DecidablePred Fits := fun n => inferInstanceAs (Decidable (-2 ^ 63 ≤ n ∧ n < 2 ^ 63))

lemma fits_toInt (i : Int64) : Fits i.toInt := ⟨i.le_toInt, i.toInt_lt⟩

lemma toInt_ofInt (h : Fits n) : (Int64.ofInt n).toInt = n :=
  Int64.toInt_ofInt_of_le h.1 h.2

lemma fits_iff_exists : Fits n ↔ ∃ i : Int64, i.toInt = n :=
  ⟨fun h => ⟨_, toInt_ofInt h⟩, fun ⟨i, hi⟩ => hi ▸ fits_toInt i⟩

lemma fit_toInt (i : Int64) : fit i.toInt = .ok i := by
  rw [fit, int64?_eq_some_iff.mpr rfl]

lemma int64?_eq_none_iff : int64? n = none ↔ ¬ Fits n := by
  rw [Option.eq_none_iff_forall_ne_some, fits_iff_exists, not_exists]
  exact forall_congr' fun i => not_congr int64?_eq_some_iff

lemma fit_of_not_fits (h : ¬ Fits n) : fit n = .error (.failed .overflow) := by
  rw [fit, int64?_eq_none_iff.mpr h]

/-- A difference that is cut off where the 64 bits end is still more than any bound within them. -/
lemma lt_saturatedDifference_iff (hn : Fits n) (hn' : n < 2 ^ 63 - 1) (i j : Int64) :
    n < (saturatedDifference i j).toInt ↔ n < i.toInt - j.toInt := by
  unfold saturatedDifference
  cases hd : int64? (i.toInt - j.toInt) with
  | some d => rw [← int64?_eq_some_iff.mp hd]
  | none =>
    have hleast : Int64.minValue.toInt = -2 ^ 63 := rfl
    have hgreatest : Int64.maxValue.toInt = 2 ^ 63 - 1 := rfl
    have hout : ¬ Fits (i.toInt - j.toInt) := int64?_eq_none_iff.mp hd
    unfold Fits at hn hout
    by_cases hlt : i.toInt < j.toInt
    · simp only [hlt, if_true, hleast]
      omega
    · simp only [hlt, if_false, hgreatest]
      omega

/-! ### Quotient and remainder -/

/-- One quotient is too large, that of the least integer by minus one. -/
lemma fits_tdiv (ha : Fits a) (hb : b ≠ 0) : Fits (a.tdiv b) ↔ ¬ (a = -2 ^ 63 ∧ b = -1) := by
  unfold Fits at *
  by_cases hunit : b = 1 ∨ b = -1
  · rcases hunit with rfl | rfl
    · rw [Int.tdiv_one]
      omega
    · rw [Int.tdiv_neg, Int.tdiv_one]
      omega
  · -- A larger divisor at least halves the integer.
    have habs : (a.tdiv b).natAbs = a.natAbs / b.natAbs := Int.natAbs_tdiv a b
    have hhalf : a.natAbs / b.natAbs ≤ a.natAbs / 2 :=
      Nat.div_le_div_left (by omega) (by decide)
    omega

/-- Every remainder is smaller than its divisor. -/
lemma fits_tmod (hb : Fits b) (hb₀ : b ≠ 0) : Fits (a.tmod b) := by
  have habs : (a.tmod b).natAbs = a.natAbs % b.natAbs := Int.natAbs_tmod a b
  have hlt : a.natAbs % b.natAbs < b.natAbs := Nat.mod_lt _ (by omega)
  unfold Fits at *
  omega

lemma toInt_ne_zero {i : Int64} (h : i ≠ 0) : i.toInt ≠ 0 := fun hi =>
  h (Int64.toInt_inj.mp hi)

end Arithmetic

namespace Collection

open Arithmetic

variable {a b : Int64}

/-- The integers from `a` up to but not including `b`, each once and in order. -/
def IsRange (a b : Int64) (ns : List Int64) : Prop :=
  ns.Pairwise (fun i j => i.toInt < j.toInt) ∧
    ∀ i : Int64, i ∈ ns ↔ a.toInt ≤ i.toInt ∧ i.toInt < b.toInt

lemma exists_integers (a b : Int64) :
    ∃ ns, IsRange a b ns ∧ integers a.toInt b.toInt = (ns.map .int).toArray := by
  let count := (b.toInt - a.toInt).toNat
  have hbetween {i : Nat} (hi : i < count) :
      (Int64.ofInt (a.toInt + i)).toInt = a.toInt + i := by
    have ha := fits_toInt a
    have hb := fits_toInt b
    refine toInt_ofInt ?_
    unfold Fits at *
    omega
  refine ⟨(List.range count).map fun (i : Nat) => Int64.ofInt (a.toInt + i), ⟨?_, fun j => ?_⟩, ?_⟩
  · refine List.pairwise_map.mpr (List.pairwise_lt_range.imp_of_mem fun hi hj hlt => ?_)
    rw [hbetween (List.mem_range.mp hi), hbetween (List.mem_range.mp hj)]
    omega
  · simp only [List.mem_map, List.mem_range]
    constructor
    · rintro ⟨i, hi, rfl⟩
      rw [hbetween hi]
      omega
    · rintro ⟨haj, hjb⟩
      have hi : (j.toInt - a.toInt).toNat < count := by omega
      refine ⟨_, hi, Int64.toInt_inj.mp ?_⟩
      rw [hbetween hi]
      omega
  · rw [integers, ← Array.toList_inj]
    simp [count, Function.comp_def]

end Collection

end ReversePolish

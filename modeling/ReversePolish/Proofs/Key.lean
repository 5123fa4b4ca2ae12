import Mathlib.Tactic.Lemma
import ReversePolish.Key

/-!
The order of keys.
-/

namespace ReversePolish

namespace Key

variable {k l : Key}

/-- Integers come before strings. Integers ascend by value, and strings by their code points. -/
def Precedes : Key → Key → Prop
  | int a, int b => a.toInt < b.toInt
  | int _, str _ => True
  | str _, int _ => False
  | str s, str t => List.Lex (fun c d => c.toNat < d.toNat) s.toList t.toList

lemma precedes_iff : k.Precedes l ↔ compare k l = .lt := by
  cases k with
  | int a =>
    cases l with
    | int b => exact Int64.lt_iff_toInt_lt.symm.trans compareOfLessAndEq_eq_lt.symm
    | str t => simp [Precedes]
  | str s =>
    cases l with
    | int b => simp [Precedes]
    | str t => exact (compareOfLessAndEq_eq_lt (x := s) (y := t)).symm

instance : DecidableRel Precedes := fun _ _ => decidable_of_iff _ precedes_iff.symm

end Key

end ReversePolish

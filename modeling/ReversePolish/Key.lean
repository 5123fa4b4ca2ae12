import ReversePolish.Text.Decimal
import ReversePolish.Text.Quoted

/-!
Map keys. Integers come before strings; integers ascend by value and strings by code point.
-/

namespace ReversePolish

inductive Key where
  | int (n : Int64)
  | str (s : String)
  deriving DecidableEq, Inhabited

namespace Key

protected def compare : Key → Key → Ordering
  | int a, int b => Ord.compare a b
  | int _, str _ => .lt
  | str _, int _ => .gt
  | str a, str b => Ord.compare a b

instance : Ord Key := ⟨Key.compare⟩

@[simp] theorem compare_int_int (a b : Int64) : compare (int a) (int b) = compare a b := rfl
@[simp] theorem compare_str_str (a b : String) : compare (str a) (str b) = compare a b := rfl
@[simp] theorem compare_int_str (a : Int64) (b : String) : compare (int a) (str b) = .lt := rfl
@[simp] theorem compare_str_int (a : String) (b : Int64) : compare (str a) (int b) = .gt := rfl

instance : Std.TransOrd Key where
  eq_swap {a b} := by
    cases a <;> cases b <;> simp <;> exact Std.OrientedCmp.eq_swap
  isLE_trans {a b c} hab hbc := by
    cases a <;> cases b <;> cases c <;> simp_all <;> exact Std.TransCmp.isLE_trans hab hbc

instance : Std.LawfulEqOrd Key where
  compare_self {a} := by cases a <;> simp
  eq_of_compare {a b} h := by
    cases a <;> cases b <;> simp_all

/-- How diagnostics call what can be a key. -/
def title : String := "Integer or String map key"

/-- The key as it is written in a program. -/
def text : Key → String
  | int n => decimal n.toInt
  | str s => quote s

end Key

end ReversePolish

import Mathlib.Data.List.Basic
import Mathlib.Tactic.Lemma
import ReversePolish.Stack

/-!
What an operation on the stack that succeeds says about the stack.
-/

namespace ReversePolish

/-- Commands are run. Any other value can lie on the stack. -/
def Value.IsData (v : Value) : Prop := v.kind ≠ .command

namespace Value

@[simp] lemma isData_int (n : Int64) : (int n).IsData := nofun

@[simp] lemma isData_str (s : String) : (str s).IsData := nofun

@[simp] lemma isData_list (cell : Nat) : (list cell).IsData := nofun

@[simp] lemma isData_map (cell : Nat) : (map cell).IsData := nofun

@[simp] lemma isData_program (p : Program) : (program p).IsData := nofun

lemma not_isData_iff {v : Value} : ¬ v.IsData ↔ ∃ c help, v = command c help := by
  cases v <;> simp [IsData, kind]

end Value

namespace Stack

variable {s s' : Stack} {v : Value} {vs : List Value} {n : Nat}

lemma push_eq_ok_iff : s.push v = .ok s' ↔ v.IsData ∧ v :: s = s' := by
  cases v <;> simp [push, Value.IsData, Value.kind]

lemma peek_eq_ok_iff : s.peek n = .ok v ↔ s[n]? = some v := by
  unfold peek
  split <;> simp_all

lemma mem_of_peek (h : s.peek n = .ok v) : v ∈ s := List.mem_of_getElem? (peek_eq_ok_iff.mp h)

lemma mem_of_expect {k : Kind} (h : s.expect n k = .ok v) : v ∈ s := by
  cases hv : s.peek n with
  | error e =>
    rw [expect, hv] at h
    cases h
  | ok w =>
    rw [expect, hv] at h
    change (if w.kind = k then _ else _) = _ at h
    split at h <;> cases h
    exact mem_of_peek hv

lemma pop_eq_ok_iff : s.pop = .ok (v, s') ↔ s = v :: s' := by
  cases s <;> simp [pop]

lemma require_eq_ok_iff : s.require n = .ok () ↔ n ≤ s.length := by
  simp [require]

lemma mem_of_top (h : s.top n = .ok vs) (hv : v ∈ vs) : v ∈ s := by
  cases hn : s.require n with
  | error e =>
    rw [top, hn] at h
    cases h
  | ok u =>
    rw [top, hn] at h
    cases h
    exact List.mem_of_mem_take (List.mem_reverse.mp hv)

lemma top_of_le (h : n ≤ s.length) : s.top n = .ok (s.take n).reverse := by
  unfold top
  rw [require_eq_ok_iff.mpr h]
  rfl

end Stack

end ReversePolish

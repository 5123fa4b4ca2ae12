import Mathlib.Tactic.Lemma
import ReversePolish.Token.Scan

/-!
Where a scan comes to. Every place that it tells is a place of the text that is scanned.
-/

namespace ReversePolish

/-- All places that the scan tells are places of this text. -/
def Scan.Within (cs : List Char) : Scan → Prop
  | .token _ start rest => start.chars = cs ∧ rest.chars = cs
  | .finished place => place.chars = cs
  | .bad _ start => start.chars = cs

namespace Cursor

variable {c rest : Cursor}

lemma chars_skipTriviaFrom (comment : Bool) (before cs : List Char) :
    (skipTriviaFrom comment before cs).chars = before.reverse ++ cs := by
  induction cs generalizing comment before with
  | nil => rfl
  | cons d cs ih =>
    have hstep : ∀ comment, (skipTriviaFrom comment (d :: before) cs).chars =
        before.reverse ++ d :: cs := fun comment => by simp [ih]
    unfold skipTriviaFrom
    split
    · exact hstep _
    · split
      · exact hstep _
      · split
        · exact hstep _
        · rfl

@[simp] lemma chars_skipTrivia (c : Cursor) : c.skipTrivia.chars = c.chars :=
  chars_skipTriviaFrom false c.before c.after

lemma chars_readString {text before cs : List Char} {v : String}
    (h : readString text before cs = some (v, rest)) : rest.chars = before.reverse ++ cs := by
  fun_induction readString text before cs with
  | case1 => cases h
  | case2 => cases h; simp [chars]
  | case3 => cases h
  | case4 _ _ _ _ ih => simpa using ih h
  | case5 _ _ _ _ _ _ _ ih => simpa using ih h

lemma within_scanToken (c : Cursor) : c.scanToken.Within c.chars := by
  have hafter {cs : List Char} (h : c.after = cs) : c.chars = c.before.reverse ++ cs := by
    rw [chars, h]
  unfold scanToken
  split
  case h_1 => rfl
  case h_8 | h_9 => rfl
  case h_10 cs hcs =>
    split
    · next hread =>
      exact ⟨rfl, by rw [hafter hcs, chars_readString hread, List.reverse_cons]; simp⟩
    · rfl
  case h_11 =>
    split
    · rfl
    · split
      · exact ⟨rfl, chars_skipWhile _ c⟩
      · rfl
  -- Brackets: what follows them is left.
  all_goals
    next hcs =>
      refine ⟨rfl, ?_⟩
      rw [hafter hcs]
      simp [chars]

/-- **A scan stays in its text.** -/
theorem within_scan (c : Cursor) : c.scan.Within c.chars := by
  simpa [scan] using within_scanToken c.skipTrivia

end Cursor

end ReversePolish

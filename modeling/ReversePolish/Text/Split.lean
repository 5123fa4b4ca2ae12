/-!
Cutting a text at every occurrence of a separator, or at the last one.
-/

namespace ReversePolish

/-- The parts between separators; there is one more part than there are separators. -/
def splitChars (sep : Char) : List Char → List (List Char)
  | [] => [[]]
  | c :: cs =>
    if c = sep then [] :: splitChars sep cs
    else
      match splitChars sep cs with
      | [] => [[c]]
      | part :: parts => (c :: part) :: parts

def splitText (sep : Char) (s : String) : List String :=
  (splitChars sep s.toList).map String.ofList

/-- What comes before and after the last separator, if there is one. -/
def splitLast (sep : Char) (cs : List Char) : Option (List Char × List Char) :=
  match cs.reverse.dropWhile (· != sep) with
  | [] => none
  | _ :: before => some (before.reverse, (cs.reverse.takeWhile (· != sep)).reverse)

theorem splitChars_ne_nil (sep : Char) (cs : List Char) : splitChars sep cs ≠ [] := by
  cases cs with
  | nil => simp [splitChars]
  | cons c cs => unfold splitChars; split <;> (try split) <;> simp

/-- No part contains the separator. -/
theorem not_mem_of_mem_splitChars {sep : Char} {cs p : List Char} (h : p ∈ splitChars sep cs) :
    sep ∉ p := by
  induction cs generalizing p with
  | nil => simp [splitChars] at h; simp [h]
  | cons c cs ih =>
    unfold splitChars at h
    split at h
    · rcases List.mem_cons.mp h with rfl | h
      · simp
      · exact ih h
    · next hc =>
      split at h
      · simp at h; subst h; simpa using Ne.symm hc
      · next part parts hp =>
        rcases List.mem_cons.mp h with rfl | h
        · have := @ih part (hp ▸ .head _)
          simpa [this] using Ne.symm hc
        · exact ih (hp ▸ .tail _ h)

end ReversePolish

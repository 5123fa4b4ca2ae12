import ReversePolish.Text.Cursor
import ReversePolish.Token

/-!
Cutting a text into tokens, one at a time.

White space and comments come before a token and belong to none; a comment runs from `#` to the
end of the line. A word ends at white space or at a delimiter, so `#` inside a word is part of
it.
-/

namespace ReversePolish

namespace Cursor

/-- Steps over white space and comments, the flag telling whether we are in a comment. -/
def skipTriviaFrom (comment : Bool) (before : List Char) : List Char → Cursor
  | [] => ⟨before, []⟩
  | c :: cs =>
    if comment then skipTriviaFrom (c != '\n') (c :: before) cs
    else if isBlank c then skipTriviaFrom false (c :: before) cs
    else if c = '#' then skipTriviaFrom true (c :: before) cs
    else ⟨before, c :: cs⟩

def skipTrivia (c : Cursor) : Cursor := skipTriviaFrom false c.before c.after

/-- Reads a string after its opening quote, collecting its characters latest first. -/
def readString (text before : List Char) : List Char → Option (String × Cursor)
  | [] => none
  | '"' :: cs => some (String.ofList text.reverse, ⟨'"' :: before, cs⟩)
  | '\\' :: [] => none
  | '\\' :: c :: cs => readString (unescapeChar c :: text) (c :: '\\' :: before) cs
  | c :: cs => readString (c :: text) (c :: before) cs

end Cursor

/-- What scanning found. A fault leaves the place before what could not be read. -/
inductive Scan where
  | finished (place : Cursor)
  | token (t : Token) (start rest : Cursor)
  | bad (fault : Token.Fault) (start : Cursor)
  deriving Inhabited

namespace Cursor

/-- The token at this place. -/
def scanToken (start : Cursor) : Scan :=
  match start.after with
  | [] => .finished start
  | '[' :: cs => .token (.opener .list) start ⟨'[' :: start.before, cs⟩
  | ']' :: cs => .token (.closer .list) start ⟨']' :: start.before, cs⟩
  | '{' :: cs => .token (.opener .map) start ⟨'{' :: start.before, cs⟩
  | '}' :: cs => .token (.closer .map) start ⟨'}' :: start.before, cs⟩
  | '<' :: '<' :: cs => .token (.opener .program) start ⟨'<' :: '<' :: start.before, cs⟩
  | '>' :: '>' :: cs => .token (.closer .program) start ⟨'>' :: '>' :: start.before, cs⟩
  | '<' :: _ => .bad (.loneAngle '<') start
  | '>' :: _ => .bad (.loneAngle '>') start
  | '"' :: cs =>
    match readString [] ('"' :: start.before) cs with
    | some (s, rest) => .token (.str s) start rest
    | none => .bad .openString start
  | c :: cs =>
    match (c :: cs).takeWhile Token.isWordChar with
    | [] => .bad (.unexpected c) start
    | w =>
      match Token.ofWord w with
      | .ok t => .token t start (start.skipWhile Token.isWordChar)
      | .error fault => .bad fault start

/-- The next token, past white space and comments. -/
def scan (c : Cursor) : Scan := c.skipTrivia.scanToken

theorem length_after_skipTriviaFrom (comment : Bool) (before cs : List Char) :
    (skipTriviaFrom comment before cs).after.length ≤ cs.length := by
  induction cs generalizing comment before with
  | nil => simp [skipTriviaFrom]
  | cons c cs ih =>
    unfold skipTriviaFrom
    repeat' split
    all_goals first | exact Nat.le_refl _ | exact Nat.le_succ_of_le (ih _ _)

theorem length_after_skipTrivia (c : Cursor) : c.skipTrivia.after.length ≤ c.after.length :=
  length_after_skipTriviaFrom _ _ _

/-- A scan that stops at a character other than white space stops at no white space. -/
theorem skipTriviaFrom_head {comment : Bool} {before cs : List Char} {c : Char} {r : List Char}
    (h : (skipTriviaFrom comment before cs).after = c :: r) : isBlank c = false ∧ c ≠ '#' := by
  induction cs generalizing comment before with
  | nil => simp [skipTriviaFrom] at h
  | cons d cs ih =>
    unfold skipTriviaFrom at h
    split at h
    · exact ih h
    · split at h
      · exact ih h
      · split at h
        · exact ih h
        · next h₁ h₂ =>
          cases h
          exact ⟨by simpa using h₁, h₂⟩

theorem length_after_readString {text before cs : List Char} {s : String} {c : Cursor}
    (h : readString text before cs = some (s, c)) : c.after.length < cs.length := by
  fun_induction readString text before cs with
  | case1 => simp at h
  | case2 => cases h; simp
  | case3 => simp at h
  | case4 _ _ _ _ ih => exact Nat.lt_succ_of_lt (Nat.lt_succ_of_lt (ih h))
  | case5 _ _ _ _ _ _ _ ih => exact Nat.lt_succ_of_lt (ih h)

/-- Reading a token consumes something. -/
theorem length_after_scan {c start rest : Cursor} {t : Token}
    (h : c.scan = .token t start rest) : rest.after.length < c.after.length := by
  refine Nat.lt_of_lt_of_le ?_ (length_after_skipTrivia c)
  unfold scan scanToken at h
  split at h
  · cases h
  · next hs => cases h; simp [hs]
  · next hs => cases h; simp [hs]
  · next hs => cases h; simp [hs]
  · next hs => cases h; simp [hs]
  · next hs => cases h; simp only [hs, List.length_cons]; omega
  · next hs => cases h; simp only [hs, List.length_cons]; omega
  · cases h
  · cases h
  · next hs =>
    split at h
    · next hq => cases h; rw [hs]; exact Nat.lt_succ_of_lt (length_after_readString hq)
    · cases h
  · next d r _ _ _ _ _ _ _ _ _ hs =>
    split at h
    · cases h
    · next w hne =>
      split at h
      · cases h
        have hw : Token.isWordChar d = true := by
          cases hw : Token.isWordChar d with
          | true => rfl
          | false => simp [hw] at hne
        have : (r.dropWhile Token.isWordChar).length ≤ r.length :=
          (List.dropWhile_sublist _).length_le
        simp only [skipWhile, hs, List.dropWhile_cons, hw, if_true, List.length_cons]
        omega
      · cases h

end Cursor

end ReversePolish

/-!
Integers in decimal. A word is an integer literal when it is a run of ASCII digits, with or
without a minus sign in front.
-/

namespace ReversePolish

def decimalChars (n : Int) : List Char :=
  if n < 0 then '-' :: Nat.toDigits 10 n.natAbs else Nat.toDigits 10 n.natAbs

def decimal (n : Int) : String := String.ofList (decimalChars n)

def isDigit (c : Char) : Bool := '0' ≤ c && c ≤ '9'

/-- A nonempty run of digits. -/
def isNumeral (cs : List Char) : Bool := !cs.isEmpty && cs.all isDigit

/-- The value of a word that is an integer literal, of any size. -/
def integer? : List Char → Option Int
  | '-' :: cs => if isNumeral cs then some (-(Nat.ofDigitChars 10 cs 0 : Nat)) else none
  | cs => if isNumeral cs then some (Nat.ofDigitChars 10 cs 0 : Nat) else none

/-- `n` as a 64-bit signed integer, if it is in range. -/
def int64? (n : Int) : Option Int64 :=
  if -9223372036854775808 ≤ n ∧ n ≤ 9223372036854775807 then some (Int64.ofInt n) else none

theorem int64?_eq_some_iff {n : Int} {i : Int64} : int64? n = some i ↔ i.toInt = n := by
  constructor
  · intro h
    unfold int64? at h
    split at h
    · next hn =>
      cases h
      exact Int64.toInt_ofInt_of_le (by omega) (by omega)
    · cases h
  · rintro rfl
    have h₁ := i.le_toInt
    have h₂ := i.toInt_lt
    unfold int64?
    rw [if_pos (by omega), Int64.ofInt_toInt]

end ReversePolish

import Mathlib.Data.List.TakeWhile
import ReversePolish.Token.Scan

/-!
What a token is written as is scanned back, whatever follows that does not run into it. A gap of
white space and whole comments in front of a token makes no difference.
-/

namespace ReversePolish

/-! ### Decimals -/

lemma isDigit_of_mem_toDigits {n : Nat} {c : Char} (h : c ∈ Nat.toDigits 10 n) :
    isDigit c = true := by
  have hd := Nat.isDigit_of_mem_toDigits (by decide) (by decide) h
  simp only [Char.isDigit, Bool.and_eq_true, decide_eq_true_eq] at hd
  simpa [isDigit, Char.le_def] using hd

lemma isNumeral_toDigits (n : Nat) : isNumeral (Nat.toDigits 10 n) = true := by
  have hall : (Nat.toDigits 10 n).all isDigit = true :=
    List.all_eq_true.mpr fun c hc => isDigit_of_mem_toDigits hc
  simp [isNumeral, hall, Nat.toDigits_ne_nil]

/-- A numeral is read from its first digit on, not as a sign. -/
lemma integer?_of_isNumeral {cs : List Char} (h : isNumeral cs = true) :
    integer? cs = some (Int.ofNat (Nat.ofDigitChars 10 cs 0)) := by
  unfold integer?
  split
  · simp [isNumeral, isDigit] at h
  · rw [if_pos h]
    rfl

theorem integer?_decimalChars (n : Int) : integer? (decimalChars n) = some n := by
  unfold decimalChars
  split
  · next hn =>
    have hneg : -(n.natAbs : Int) = n := by omega
    simp only [integer?, isNumeral_toDigits, if_true, Nat.ofDigitChars_ten_toDigits, hneg]
  · next hn =>
    have hpos : (n.natAbs : Int) = n := by omega
    rw [integer?_of_isNumeral (isNumeral_toDigits _), Nat.ofDigitChars_ten_toDigits]
    exact congrArg some hpos

lemma isWordChar_of_isDigit {c : Char} (h : isDigit c = true) : Token.isWordChar c = true := by
  simp only [isDigit, Bool.and_eq_true, decide_eq_true_eq, Char.le_def, UInt32.le_iff_toNat_le] at h
  obtain ⟨h₁, h₂⟩ := h
  have h₁ : 48 ≤ c.toNat := h₁
  have h₂ : c.toNat ≤ 57 := h₂
  have hd : Token.isDelimiter c = false := by
    have hne : ∀ d : Char, ¬ (48 ≤ d.toNat ∧ d.toNat ≤ 57) → (c == d) = false := by
      intro d hd
      refine beq_false_of_ne fun e => hd ?_
      subst e
      exact ⟨h₁, h₂⟩
    simp [Token.isDelimiter, hne]
  have hb : isBlank c = false := by
    simp only [isBlank, Bool.or_eq_false_iff, Bool.and_eq_false_iff, decide_eq_false_iff_not,
      beq_eq_false_iff_ne]
    omega
  simp [Token.isWordChar, hb, hd]

lemma isWordChar_of_mem_decimalChars {n : Int} {c : Char} (h : c ∈ decimalChars n) :
    Token.isWordChar c = true := by
  unfold decimalChars at h
  split at h
  · rcases List.mem_cons.mp h with rfl | h
    · decide
    · exact isWordChar_of_isDigit (isDigit_of_mem_toDigits h)
  · exact isWordChar_of_isDigit (isDigit_of_mem_toDigits h)

lemma decimalChars_ne_nil (n : Int) : decimalChars n ≠ [] := by
  unfold decimalChars
  split <;> simp [Nat.toDigits_ne_nil]

/-! ### Quoted strings -/

/-- `Escapes cs s`: between quotes, `cs` writes the characters `s`. A quote or a backslash has a
backslash in front, and so may any other character. -/
inductive Escapes : List Char → List Char → Prop where
  | nil : Escapes [] []
  | plain {c : Char} {cs s : List Char} :
      c ≠ '"' → c ≠ '\\' → Escapes cs s → Escapes (c :: cs) (c :: s)
  | escaped {c : Char} {cs s : List Char} :
      Escapes cs s → Escapes ('\\' :: c :: cs) (unescapeChar c :: s)

lemma escapes_escapeChar {cs s : List Char} (c : Char) (h : Escapes cs s) :
    Escapes (escapeChar c ++ cs) (c :: s) := by
  unfold escapeChar
  split
  case h_5 hquote hback _ _ => exact .plain hquote hback h
  all_goals exact .escaped h

lemma escapes_quoted (s : List Char) : Escapes (s.flatMap escapeChar) s := by
  induction s with
  | nil => exact .nil
  | cons c s ih => exact escapes_escapeChar c ih

namespace Cursor

lemma readString_plain {d : Char} (hquote : d ≠ '"') (hback : d ≠ '\\')
    (text before cs : List Char) :
    readString text before (d :: cs) = readString (d :: text) (d :: before) cs := by
  rw [readString]
  · exact hquote
  · exact fun h => (hback h).elim
  · exact fun _ _ h => (hback h).elim

end Cursor

theorem readString_of_escapes {cs s : List Char} (h : Escapes cs s) (text before rest : List Char) :
    ∃ b, Cursor.readString text before (cs ++ '"' :: rest) =
      some (String.ofList (text.reverse ++ s), ⟨b, rest⟩) := by
  induction h generalizing text before with
  | nil => exact ⟨'"' :: before, by simp [Cursor.readString]⟩
  | @plain c cs s hquote hback _ ih =>
    obtain ⟨b, hb⟩ := ih (c :: text) (c :: before)
    exact ⟨b, by rw [List.cons_append, Cursor.readString_plain hquote hback, hb]; simp⟩
  | @escaped c cs s _ ih =>
    obtain ⟨b, hb⟩ := ih (unescapeChar c :: text) (c :: '\\' :: before)
    exact ⟨b, by simpa [Cursor.readString] using hb⟩

/-! ### Words -/

/-- A run of characters that nothing after it prolongs. -/
lemma span_append {p : Char → Bool} {w : List Char} (h : ∀ c ∈ w.head?, p c = false)
    (cs : List Char) :
    (cs ++ w).takeWhile p = cs.takeWhile p ∧ (cs ++ w).dropWhile p = cs.dropWhile p ++ w := by
  induction cs with
  | nil =>
    cases w with
    | nil => exact ⟨rfl, rfl⟩
    | cons d w =>
      have hd : p d = false := h d rfl
      simp [hd]
  | cons d cs ih =>
    cases hd : p d with
    | true => simp [hd, ih]
    | false => simp [hd]

namespace Cursor

/-- Where a word begins, the longest run of word characters is the token. -/
lemma scanToken_word {start : Cursor} {c : Char} {cs : List Char} (h : start.after = c :: cs)
    (hw : Token.isWordChar c = true) :
    start.scanToken =
      match Token.ofWord ((c :: cs).takeWhile Token.isWordChar) with
      | .ok t => .token t start (start.skipWhile Token.isWordChar)
      | .error fault => .bad fault start := by
  have hne : ∀ d, Token.isDelimiter d = true → c ≠ d := by
    rintro d hd rfl
    simp [Token.isWordChar, hd] at hw
  have htake : (c :: cs).takeWhile Token.isWordChar = c :: cs.takeWhile Token.isWordChar := by
    simp [hw]
  unfold scanToken
  rw [h]
  split
  case h_11 heq =>
    cases heq
    generalize (c :: cs).takeWhile Token.isWordChar = w at htake ⊢
    subst htake
    rfl
  case h_1 heq => cases heq
  all_goals
    next heq => exact absurd (List.cons.inj heq).1 (hne _ (by decide))

end Cursor

namespace Token

/-- A token whose spelling ends of itself. Any other token is written like a word and ends where
the word does. -/
def isClosed : Token → Bool
  | opener .list | opener .map | opener .program => true
  | closer .list | closer .map | closer .program => true
  | str _ => true
  | _ => false

/-- A token that a text can hold: a word must not be an integer, a keyword or no word at all. -/
def Spelt : Token → Prop
  | word w => isWordText w = true ∧ keyword? w = Option.none
  | _ => True

lemma spelt_of_isClosed {t : Token} (h : t.isClosed = true) : t.Spelt := by
  cases t with
  | word w => cases h
  | _ => trivial

/-- The token may stand right in front of this text. -/
def EndsBefore (t : Token) (rest : List Char) : Prop :=
  t.isClosed = false → ∀ c ∈ rest.head?, isWordChar c = false

/-- How the tokens that are written like words are written. -/
structure WordSpelling (t : Token) : Prop where
  chars : ∀ c ∈ t.spelling.toList, isWordChar c = true
  head : ∃ c cs, t.spelling.toList = c :: cs ∧ c ≠ '#'
  ofWord : Token.ofWord t.spelling.toList = .ok t

lemma wordSpelling_int (n : Int64) : WordSpelling (int n) := by
  have hs : (int n).spelling.toList = decimalChars n.toInt := by simp [spelling, decimal]
  refine ⟨?_, ?_, ?_⟩
  · rw [hs]
    exact fun c hc => isWordChar_of_mem_decimalChars hc
  · rw [hs]
    obtain ⟨c, cs, hc⟩ := List.exists_cons_of_ne_nil (decimalChars_ne_nil n.toInt)
    refine ⟨c, cs, hc, ?_⟩
    rintro rfl
    unfold decimalChars at hc
    split at hc
    · simp at hc
    · have := isDigit_of_mem_toDigits (hc ▸ List.mem_cons_self)
      simp [isDigit] at this
  · rw [hs]
    have hi : int64? n.toInt = some n := int64?_eq_some_iff.mpr rfl
    simp only [Token.ofWord, integer?_decimalChars, hi]

lemma wordSpelling_word {w : String} (h : Spelt (word w)) : WordSpelling (word w) := by
  obtain ⟨hw, hk⟩ := h
  simp only [isWordText, Bool.and_eq_true, Bool.not_eq_true', List.isEmpty_eq_false_iff,
    List.all_eq_true, Option.isNone_iff_eq_none] at hw
  obtain ⟨⟨⟨hne, hhash⟩, hall⟩, hint⟩ := hw
  refine ⟨hall, ?_, ?_⟩
  · obtain ⟨c, cs, hc⟩ := List.exists_cons_of_ne_nil hne
    refine ⟨c, cs, hc, ?_⟩
    rintro rfl
    simp [hc] at hhash
  · simp [Token.ofWord, spelling, hint, hk]

lemma Spelt.wordSpelling {t : Token} (h : t.Spelt) (ho : t.isClosed = false) :
    WordSpelling t := by
  cases t with
  | int n => exact wordSpelling_int n
  | word w => exact wordSpelling_word h
  | str s => simp [isClosed] at ho
  | opener f =>
    cases f <;> simp [isClosed] at ho
    all_goals exact ⟨List.all_eq_true.mp rfl, ⟨_, _, rfl, by decide⟩, rfl⟩
  | closer f =>
    cases f <;> simp [isClosed] at ho
    all_goals exact ⟨List.all_eq_true.mp rfl, ⟨_, _, rfl, by decide⟩, rfl⟩
  | divider d => cases d <;> exact ⟨List.all_eq_true.mp rfl, ⟨_, _, rfl, by decide⟩, rfl⟩
  | exit => exact ⟨List.all_eq_true.mp rfl, ⟨_, _, rfl, by decide⟩, rfl⟩
  | none => exact ⟨List.all_eq_true.mp rfl, ⟨_, _, rfl, by decide⟩, rfl⟩
  | importing => exact ⟨List.all_eq_true.mp rfl, ⟨_, _, rfl, by decide⟩, rfl⟩

/-- A token begins with a character that begins no gap. -/
lemma Spelt.head {t : Token} (h : t.Spelt) :
    ∃ c cs, t.spelling.toList = c :: cs ∧ isBlank c = false ∧ c ≠ '#' := by
  cases ho : t.isClosed with
  | false =>
    have hw := h.wordSpelling ho
    obtain ⟨c, cs, hc, hhash⟩ := hw.head
    have := hw.chars c (hc ▸ List.mem_cons_self)
    simp only [isWordChar, Bool.and_eq_true, Bool.not_eq_true'] at this
    exact ⟨c, cs, hc, this.1, hhash⟩
  | true =>
    cases t with
    | str s =>
      exact ⟨'"', s.toList.flatMap escapeChar ++ ['"'], by simp [spelling, quote, quoteChars],
        by decide, by decide⟩
    | opener f =>
      cases f <;> simp [isClosed] at ho
      all_goals exact ⟨_, _, rfl, by decide, by decide⟩
    | closer f =>
      cases f <;> simp [isClosed] at ho
      all_goals exact ⟨_, _, rfl, by decide, by decide⟩
    | _ => simp [isClosed] at ho

end Token

open Token in
/-- A token is scanned back from its spelling. -/
theorem Cursor.scanToken_spelling {t : Token} (ht : t.Spelt) {rest : List Char}
    (hr : t.EndsBefore rest) (before : List Char) :
    ∃ b, scanToken ⟨before, t.spelling.toList ++ rest⟩ =
      .token t ⟨before, t.spelling.toList ++ rest⟩ ⟨b, rest⟩ := by
  cases ho : t.isClosed with
  | false =>
    have hw := ht.wordSpelling ho
    obtain ⟨c, cs, hc, -⟩ := hw.head
    have hwc : isWordChar c = true := hw.chars c (hc ▸ List.mem_cons_self)
    have hstop : (∀ d ∈ rest.head?, isWordChar d = false) := hr ho
    obtain ⟨htake, hdrop⟩ := span_append hstop t.spelling.toList
    rw [List.takeWhile_eq_self_iff.mpr hw.chars] at htake
    rw [List.dropWhile_eq_nil_iff.mpr hw.chars, List.nil_append] at hdrop
    have hafter : t.spelling.toList ++ rest = c :: (cs ++ rest) := by rw [hc]; rfl
    rw [scanToken_word hafter hwc, ← hafter, htake, hw.ofWord]
    exact ⟨_, by rw [skipWhile, htake, hdrop]⟩
  | true =>
    cases t with
    | str s =>
      obtain ⟨b, hb⟩ := readString_of_escapes (escapes_quoted s.toList) [] ('"' :: before) rest
      refine ⟨b, ?_⟩
      have hs : (str s).spelling.toList ++ rest =
          '"' :: (s.toList.flatMap escapeChar ++ '"' :: rest) := by
        simp [spelling, quote, quoteChars]
      simp [scanToken, hs, hb]
    | opener f =>
      cases f <;> simp [isClosed] at ho
      all_goals exact ⟨_, rfl⟩
    | closer f =>
      cases f <;> simp [isClosed] at ho
      all_goals exact ⟨_, rfl⟩
    | _ => simp [isClosed] at ho

end ReversePolish

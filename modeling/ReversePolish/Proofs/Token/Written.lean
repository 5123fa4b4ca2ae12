import ReversePolish.Proofs.Token.Seam

/-!
What tokens are written as, and what is wrong where no token is. Whatever character a place begins
with, a scan from there tells one of the two, or that the text ends.
-/

namespace ReversePolish

/-! ### What tokens are written as -/

/-- `t.WrittenAs cs`: the characters `cs` are a way to write the token. An integer can have any
digits and a string any escapes; every other token has one spelling. -/
def Token.WrittenAs : Token → List Char → Prop
  | .int n, cs => ∃ digits, isNumeral digits = true ∧
      (cs = digits ∧ n.toInt = Nat.ofDigitChars 10 digits 0 ∨
        cs = '-' :: digits ∧ n.toInt = -(Nat.ofDigitChars 10 digits 0))
  | .str s, cs => ∃ body, cs = '"' :: (body ++ ['"']) ∧ Escapes body s.toList
  | t, cs => t.Spelt ∧ cs = t.spelling.toList

/-- What is wrong at the beginning of a text for this fault to be told. -/
inductive Token.Fault.At : Fault → List Char → Prop where
  | openString {cs : List Char} :
      (∀ body s rest, Escapes body s → cs ≠ body ++ '"' :: rest) → At .openString ('"' :: cs)
  | loneAngle {c : Char} {cs : List Char} :
      c = '<' ∨ c = '>' → cs.head? ≠ some c → At (.loneAngle c) (c :: cs)
  | tooLarge {w rest : List Char} {n : Int} :
      integer? w = some n → (∀ i : Int64, i.toInt ≠ n) → (∀ c ∈ w, isWordChar c = true) →
        (∀ c ∈ rest.head?, isWordChar c = false) → At (.tooLarge (String.ofList w)) (w ++ rest)

variable {cs : List Char} {t : Token} {fault : Token.Fault} {c : Cursor}

lemma integer?_eq_some_iff {n : Int} : integer? cs = some n ↔
    ∃ digits, isNumeral digits = true ∧
      (cs = digits ∧ n = Nat.ofDigitChars 10 digits 0 ∨
        cs = '-' :: digits ∧ n = -(Nat.ofDigitChars 10 digits 0)) := by
  constructor
  · intro h
    unfold integer? at h
    split at h
    · next digits =>
      split at h <;> cases h
      next hd => exact ⟨digits, hd, .inr ⟨rfl, rfl⟩⟩
    · split at h <;> cases h
      next hd => exact ⟨cs, hd, .inl ⟨rfl, rfl⟩⟩
  · rintro ⟨digits, hd, ⟨rfl, rfl⟩ | ⟨rfl, rfl⟩⟩
    · exact integer?_of_isNumeral hd
    · simp [integer?, hd]

namespace Token

lemma writtenAs_of_isClosed (ht : t.isClosed = true) (hs : ∀ s, t ≠ .str s) :
    t.WrittenAs t.spelling.toList := by
  cases t with
  | str s => exact absurd rfl (hs s)
  | int n => cases ht
  | _ => exact ⟨spelt_of_isClosed ht, rfl⟩

/-- The words with a meaning of their own are spelled in one way. -/
lemma writtenAs_of_keyword? {w : String} (h : keyword? w = some t) : t.WrittenAs w.toList := by
  unfold keyword? at h
  split at h <;> cases h
  all_goals exact ⟨trivial, rfl⟩

/-- A run of word characters writes the token that it is. -/
lemma writtenAs_of_ofWord (hne : cs ≠ []) (hall : ∀ c ∈ cs, isWordChar c = true)
    (hhash : cs.head? ≠ some '#') (h : ofWord cs = .ok t) : t.WrittenAs cs := by
  unfold ofWord at h
  split at h
  · next n hint =>
    split at h <;> cases h
    next i hi =>
      rw [← int64?_eq_some_iff.mp hi] at hint
      exact integer?_eq_some_iff.mp hint
  · next hint =>
    cases hk : keyword? (String.ofList cs) with
    | some u =>
      rw [hk] at h
      cases h
      simpa using writtenAs_of_keyword? hk
    | none =>
      rw [hk] at h
      cases h
      have htext : isWordText (String.ofList cs) = true := by
        simp [isWordText, hint, hhash, hne, List.all_eq_true.mpr hall]
      exact ⟨⟨htext, hk⟩, by simp [spelling]⟩

/-- The only run of word characters that is no token is an integer that is too large. -/
lemma at_of_ofWord {w rest : List Char} (hall : ∀ c ∈ w, isWordChar c = true)
    (hrest : ∀ c ∈ rest.head?, isWordChar c = false) (h : ofWord w = .error fault) :
    fault.At (w ++ rest) := by
  unfold ofWord at h
  split at h
  · next n hint =>
    split at h <;> cases h
    next hn =>
      refine .tooLarge hint (fun i hi => ?_) hall hrest
      rw [int64?_eq_some_iff.mpr hi] at hn
      cases hn
  · cases h

end Token

namespace Cursor

/-! ### The token at a place -/

/-- A string that is read has been written up to its closing quote. -/
lemma escapes_of_readString {read before : List Char} {s : String}
    (h : readString read before cs = some (s, c)) :
    ∃ body u, Escapes body u ∧ cs = body ++ '"' :: c.after ∧
      s = String.ofList (read.reverse ++ u) := by
  induction read, before, cs using readString.induct with
  | case1 => cases h
  | case2 read before cs =>
    cases h
    exact ⟨[], [], .nil, rfl, by simp⟩
  | case3 => cases h
  | case4 read before d cs ih =>
    obtain ⟨body, u, hbody, rfl, rfl⟩ := ih h
    exact ⟨'\\' :: d :: body, unescapeChar d :: u, .escaped hbody, rfl, by simp⟩
  | case5 read before d cs hquote hlast hnext ih =>
    have hback : d ≠ '\\' := by
      rintro rfl
      cases cs with
      | nil => exact hlast rfl rfl
      | cons e es => exact hnext e es rfl rfl
    rw [readString_plain hquote hback] at h
    obtain ⟨body, u, hbody, rfl, rfl⟩ := ih h
    exact ⟨d :: body, d :: u, .plain hquote hback hbody, rfl, by simp⟩

/-- A string that is not read is not closed. -/
lemma openString_of_readString {before : List Char} (h : readString [] before cs = none) :
    Token.Fault.At .openString ('"' :: cs) := by
  refine .openString fun body s rest hbody hcs => ?_
  obtain ⟨b, hb⟩ := readString_of_escapes hbody [] before rest
  rw [hcs, hb] at h
  cases h

/-- What a scan tells about a place that stands behind a gap. -/
inductive Tells (c : Cursor) : Scan → Prop where
  | token {t : Token} {d : Char} {x : List Char} {rest : Cursor} :
      c.after = d :: x ++ rest.after → t.WrittenAs (d :: x) → Tells c (.token t c rest)
  | bad {fault : Token.Fault} : fault.At c.after → Tells c (.bad fault c)
  | finished : c.after = [] → Tells c (.finished c)

/-- A run of word characters is a token, or an integer that is too large. -/
lemma tells_word {d : Char} (hafter : c.after = d :: cs) (hw : Token.isWordChar d = true)
    (hhash : d ≠ '#') : Tells c c.scanToken := by
  have htake : (d :: cs).takeWhile Token.isWordChar = d :: cs.takeWhile Token.isWordChar := by
    simp [hw]
  have hall : ∀ e ∈ d :: cs.takeWhile Token.isWordChar, Token.isWordChar e = true := by
    rw [← htake]
    exact fun _ he => List.mem_takeWhile_imp he
  have hcut : c.after = d :: cs.takeWhile Token.isWordChar ++ c.after.dropWhile Token.isWordChar := by
    rw [← htake, hafter, List.takeWhile_append_dropWhile]
  rw [scanToken_word hafter hw, htake]
  cases hword : Token.ofWord (d :: cs.takeWhile Token.isWordChar) with
  | ok t =>
    refine .token hcut (Token.writtenAs_of_ofWord (List.cons_ne_nil _ _) hall ?_ hword)
    simpa using hhash
  | error fault =>
    refine .bad ?_
    rw [hcut]
    refine Token.at_of_ofWord hall (fun e he => ?_) hword
    have hnot := List.head?_dropWhile_not Token.isWordChar c.after
    rwa [show (c.after.dropWhile Token.isWordChar).head? = some e from he] at hnot

/-- **Every character begins a token or is one that is told to be wrong.** -/
theorem tells_scanToken (h : ∀ d ∈ c.after.head?, isBlank d = false ∧ d ≠ '#') :
    Tells c c.scanToken := by
  by_cases hne : c.after = []
  · rw [scanToken_nil hne]
    exact .finished hne
  obtain ⟨before, after⟩ := c
  cases lead_of_ne_nil hne fun d hd => (h d hd).1 with
  | @word d cs hafter hw =>
    obtain rfl : after = d :: cs := hafter
    exact tells_word rfl hw (h d rfl).2
  | @mark t cs hafter ht hs =>
    obtain rfl : after = t.spelling.toList ++ cs := hafter
    obtain ⟨d, x, hx, -⟩ := (Token.spelt_of_isClosed ht).head
    rw [scanToken_mark ht hs]
    refine .token (d := d) (x := x) (by rw [← hx]) ?_
    rw [← hx]
    exact Token.writtenAs_of_isClosed ht hs
  | @quote cs hafter =>
    obtain rfl : after = '"' :: cs := hafter
    cases hs : readString [] ('"' :: before) cs with
    | none =>
      rw [scanToken_openString hs]
      exact .bad (openString_of_readString hs)
    | some p =>
      obtain ⟨s, rest⟩ := p
      obtain ⟨body, u, hbody, hcs, rfl⟩ := escapes_of_readString hs
      rw [scanToken_string hs]
      refine .token (x := body ++ ['"']) (by simp [hcs]) ⟨body, rfl, ?_⟩
      simpa using hbody
  | @angle d cs hafter hd hcs =>
    obtain rfl : after = d :: cs := hafter
    rw [scanToken_angle hd hcs]
    exact .bad (.loneAngle hd hcs)

end Cursor

end ReversePolish

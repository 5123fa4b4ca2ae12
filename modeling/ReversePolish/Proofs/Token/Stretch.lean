import ReversePolish.Proofs.Token.Seam

/-!
Stretches of a text. The stretch from a place to the end of its next token holds that token
wherever it stands, as long as what follows does not prolong it, and the stretch up to the beginning
of the token is a gap wherever it stands.
-/

namespace ReversePolish

open Token (EndsBefore isClosed isWordChar)

namespace Token

/-- A token that is written like a word ends where the word does. -/
lemma isClosed_of_ofWord {cs : List Char} {t : Token} (h : ofWord cs = .ok t) :
    t.isClosed = false := by
  unfold ofWord at h
  split at h
  · split at h <;> cases h
    rfl
  · cases h
    unfold keyword?
    split <;> rfl

end Token

namespace Cursor

variable {c c' start rest : Cursor} {t : Token} {cs z : List Char} {d : Char}

/-- The text from `c` up to a later place. -/
def upTo (c later : Cursor) : List Char := c.after.take (c.after.length - later.after.length)

lemma upTo_eq {x : List Char} (h : c.after = x ++ c'.after) : c.upTo c' = x := by
  simp [upTo, h]

/-! ### Gaps -/

/-- What lies in front of the first character that belongs to no gap can be cut off. -/
lemma skipTriviaFrom_cut {comment : Bool} {before : List Char}
    (h : (skipTriviaFrom comment before cs).after = d :: z) :
    ∃ g, cs = g ++ d :: z ∧ ∀ b y, ∃ b',
      skipTriviaFrom comment b (g ++ y) = skipTriviaFrom false b' y := by
  induction cs generalizing comment before with
  | nil => simp [skipTriviaFrom] at h
  | cons e cs ih =>
    unfold skipTriviaFrom at h
    split at h
    · next hc =>
      obtain ⟨g, rfl, hg⟩ := ih h
      exact ⟨e :: g, rfl, fun b y => by simpa [skipTriviaFrom, hc] using hg (e :: b) y⟩
    · next hc =>
      split at h
      · next hb =>
        obtain ⟨g, rfl, hg⟩ := ih h
        exact ⟨e :: g, rfl, fun b y => by simpa [skipTriviaFrom, hc, hb] using hg (e :: b) y⟩
      · next hb =>
        split at h
        · next hh =>
          obtain ⟨g, rfl, hg⟩ := ih h
          have hhash : isBlank '#' = false := by decide
          exact ⟨e :: g, rfl, fun b y => by
            simpa [skipTriviaFrom, hc, hhash, hh] using hg (e :: b) y⟩
        · cases h
          have hcomment : comment = false := by simpa using hc
          exact ⟨[], rfl, fun b y => ⟨b, by rw [hcomment]; rfl⟩⟩

/-! ### Tokens -/

lemma readString_cut {text before : List Char} {s : String}
    (h : readString text before cs = some (s, c)) :
    ∃ x b, cs = x ++ c.after ∧ readString text before x = some (s, ⟨b, []⟩) := by
  induction text, before, cs using readString.induct with
  | case1 => cases h
  | case2 text before cs =>
    cases h
    exact ⟨['"'], _, rfl, rfl⟩
  | case3 => cases h
  | case4 text before d cs ih =>
    obtain ⟨x, b, rfl, hx⟩ := ih h
    exact ⟨'\\' :: d :: x, b, rfl, hx⟩
  | case5 text before d cs hquote hlast hnext ih =>
    have hback : d ≠ '\\' := by
      intro hd
      cases cs with
      | nil => exact hlast hd rfl
      | cons e es => exact hnext e es hd rfl
    rw [readString_plain hquote hback] at h
    obtain ⟨x, b, rfl, hx⟩ := ih h
    exact ⟨d :: x, b, rfl, by rw [readString_plain hquote hback, hx]⟩

lemma start_of_scanToken (h : c.scanToken = .token t start rest) : start = c := by
  unfold scanToken at h
  repeat' split at h
  all_goals cases h
  all_goals rfl

/-- The text begins with a token, which could be cut out, and then the rest comes. -/
def BeginsWith (t : Token) (cs rest : List Char) : Prop :=
  ∃ d x, cs = d :: x ++ rest ∧ t.EndsBefore rest ∧ (t.isClosed = false → isWordChar d = true) ∧
    ∀ b y, t.EndsBefore y → ∃ start b', scanToken ⟨b, d :: x ++ y⟩ = .token t start ⟨b', y⟩

/-- Nothing that follows goes on with a token that is closed. -/
lemma beginsWith_closed {x cs : List Char} (ht : t.isClosed = true)
    (hscan : ∀ b y, ∃ start b', scanToken ⟨b, d :: x ++ y⟩ = .token t start ⟨b', y⟩) :
    BeginsWith t (d :: x ++ cs) cs := by
  refine ⟨d, x, rfl, fun hopen => ?_, fun hopen => ?_, fun b y _ => hscan b y⟩
  · rw [ht] at hopen
    cases hopen
  · rw [ht] at hopen
    cases hopen

/-- Nothing but word characters is cut out, and what follows must not go on with them. -/
lemma beginsWith_word (hw : isWordChar d = true)
    (hword : Token.ofWord ((d :: cs).takeWhile isWordChar) = .ok t) :
    BeginsWith t (d :: cs) ((d :: cs).dropWhile isWordChar) := by
  have hclosed := Token.isClosed_of_ofWord hword
  have hall : ∀ e ∈ (d :: cs).takeWhile isWordChar, isWordChar e = true :=
    fun _ he => List.mem_takeWhile_imp he
  have hx : (d :: cs).takeWhile isWordChar = d :: cs.takeWhile isWordChar := by simp [hw]
  refine ⟨d, cs.takeWhile isWordChar, by simp [← hx], ?_, fun _ => hw, ?_⟩
  · intro _ e he
    have hnot := List.head?_dropWhile_not isWordChar (d :: cs)
    rwa [show ((d :: cs).dropWhile isWordChar).head? = some e from he] at hnot
  · intro b y hy
    obtain ⟨htake, hdrop⟩ := span_append (hy hclosed) ((d :: cs).takeWhile isWordChar)
    rw [List.takeWhile_eq_self_iff.mpr hall] at htake
    rw [List.dropWhile_eq_nil_iff.mpr hall, List.nil_append] at hdrop
    rw [hx] at htake hdrop hword
    have hafter : d :: cs.takeWhile isWordChar ++ y = d :: (cs.takeWhile isWordChar ++ y) := rfl
    rw [scanToken_word hafter hw, ← hafter, htake, hword]
    exact ⟨_, _, by rw [skipWhile, htake, hdrop]⟩

lemma beginsWith_string {before : List Char} {s : String}
    (hs : readString [] before cs = some (s, c)) : BeginsWith (.str s) ('"' :: cs) c.after := by
  obtain ⟨x, b₁, rfl, hx⟩ := readString_cut hs
  refine beginsWith_closed rfl fun b y => ?_
  obtain ⟨b₂, hb₂⟩ := readString_append hx ('"' :: b) y
  exact ⟨_, b₂, scanToken_string hb₂⟩

/-- The token that stands at a place, cut out of the text. -/
lemma scanToken_cut (h : c.scanToken = .token t start rest)
    (hblank : ∀ d ∈ c.after.head?, isBlank d = false) : BeginsWith t c.after rest.after := by
  obtain ⟨before, after⟩ := c
  have hne : after ≠ [] := by
    rintro rfl
    rw [scanToken_nil rfl] at h
    cases h
  cases lead_of_ne_nil hne hblank with
  | @word d cs hafter hw =>
    obtain rfl : after = d :: cs := hafter
    rw [scanToken_word rfl hw] at h
    split at h <;> cases h
    next hword => exact beginsWith_word hw hword
  | @mark u cs hafter hu hs =>
    obtain rfl : after = u.spelling.toList ++ cs := hafter
    rw [scanToken_mark hu hs] at h
    cases h
    obtain ⟨d, x, hx, -⟩ := (Token.spelt_of_isClosed hu).head
    rw [hx]
    refine beginsWith_closed hu fun b y => ?_
    rw [← hx]
    exact ⟨_, _, scanToken_mark hu hs b y⟩
  | @quote cs hafter =>
    obtain rfl : after = '"' :: cs := hafter
    cases hs : readString [] ('"' :: before) cs with
    | none => rw [scanToken_openString hs] at h; cases h
    | some p =>
      rw [scanToken_string hs] at h
      cases h
      exact beginsWith_string hs
  | @angle d cs hafter hd hcs =>
    obtain rfl : after = d :: cs := hafter
    rw [scanToken_angle hd hcs] at h
    cases h

/-- A token stands behind a gap. -/
lemma scan_cut_gap (h : c.scan = .token t start rest) :
    ∃ d z, start.after = d :: z ∧ isBlank d = false ∧ d ≠ '#' ∧
      c.after = c.upTo start ++ start.after ∧ ∀ b y, ∃ b',
        skipTriviaFrom false b (c.upTo start ++ y) = skipTriviaFrom false b' y := by
  obtain rfl := start_of_scanToken h
  have hne : c.skipTrivia.after ≠ [] := by
    intro hnil
    rw [scan, scanToken_nil hnil] at h
    cases h
  obtain ⟨d, z, hd⟩ := List.exists_cons_of_ne_nil hne
  obtain ⟨hblank, hhash⟩ := skipTriviaFrom_head hd
  obtain ⟨g, hg, hgap⟩ := skipTriviaFrom_cut hd
  rw [← hd] at hg
  rw [upTo_eq hg]
  exact ⟨d, z, hd, hblank, hhash, hg, hgap⟩

/-- **The stretch up to a token is a gap wherever it stands.** -/
lemma scan_gap (h : c.scan = .token t start rest) (b y : List Char) :
    ∃ b', scan ⟨b, c.upTo start ++ y⟩ = scan ⟨b', y⟩ := by
  obtain ⟨-, -, -, -, -, -, hgap⟩ := scan_cut_gap h
  obtain ⟨b', hb'⟩ := hgap b y
  exact ⟨b', by rw [scan, skipTrivia, hb']; rfl⟩

/-- **A stretch that ends with a token holds this token wherever it stands.** -/
lemma scan_cut (h : c.scan = .token t start rest) :
    c.after = c.upTo rest ++ rest.after ∧ t.EndsBefore rest.after ∧
      ∀ b y, t.EndsBefore y →
        ∃ start' b', scan ⟨b, c.upTo rest ++ y⟩ = .token t start' ⟨b', y⟩ := by
  obtain ⟨d, z, hd, hblank, hhash, hg, hgap⟩ := scan_cut_gap h
  obtain rfl := start_of_scanToken h
  obtain ⟨e, x, hafter, hends, -, htoken⟩ := scanToken_cut h (by simp [hd, hblank])
  obtain rfl : d = e := by rw [hd] at hafter; exact (List.cons.inj hafter).1
  have hstretch : c.upTo rest = c.upTo c.skipTrivia ++ d :: x :=
    upTo_eq (by rw [List.append_assoc, ← hafter, ← hg])
  refine ⟨by rw [hstretch, List.append_assoc, ← hafter, ← hg], hends, fun b y hy => ?_⟩
  obtain ⟨b', hb'⟩ := hgap b (d :: x ++ y)
  obtain ⟨start', b'', hb''⟩ := htoken b' y hy
  refine ⟨start', b'', ?_⟩
  rw [hstretch, List.append_assoc, scan, skipTrivia, hb']
  simpa [skipTriviaFrom, hblank, hhash] using hb''

/-- Where a token begins that is written like a word. -/
lemma start_isWordChar (h : c.scan = .token t start rest) (ht : t.isClosed = false) :
    ∃ d z, start.after = d :: z ∧ isWordChar d = true := by
  obtain ⟨d, z, hd, hblank, -⟩ := scan_cut_gap h
  obtain rfl := start_of_scanToken h
  obtain ⟨e, x, hafter, -, hword, -⟩ := scanToken_cut h (by simp [hd, hblank])
  exact ⟨e, x ++ rest.after, hafter, hword ht⟩

end Cursor

end ReversePolish

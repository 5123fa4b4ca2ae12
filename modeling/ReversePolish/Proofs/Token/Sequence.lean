import ReversePolish.Proofs.Token.Spelling

/-!
The tokens of a whole text. A text that lays tokens out, with gaps between them wherever two
would run together, has exactly these tokens.
-/

namespace ReversePolish

namespace Cursor

/-- The tokens from here to the end of the text, or to the first place where there is none, and
then what is wrong there. -/
def lex (c : Cursor) : List Token × Option Token.Fault :=
  match _h : c.scan with
  | .token t _ rest => (t :: rest.lex.1, rest.lex.2)
  | .bad fault _ => ([], some fault)
  | .finished _ => ([], none)
termination_by c.after.length
decreasing_by all_goals exact length_after_scan _h

lemma lex_token {c start rest : Cursor} {t : Token} (h : c.scan = .token t start rest) :
    c.lex = (t :: rest.lex.1, rest.lex.2) := by
  rw [lex]; split <;> simp_all

lemma lex_bad {c start : Cursor} {fault : Token.Fault} (h : c.scan = .bad fault start) :
    c.lex = ([], some fault) := by
  rw [lex]; split <;> simp_all

lemma lex_finished {c place : Cursor} (h : c.scan = .finished place) : c.lex = ([], none) := by
  rw [lex]; split <;> simp_all

end Cursor

/-! ### Gaps -/

/-- White space and comments, each ended by a line feed. -/
inductive Gap : List Char → Prop where
  | nil : Gap []
  | blank {c : Char} {g : List Char} : isBlank c = true → Gap g → Gap (c :: g)
  | comment {x g : List Char} : '\n' ∉ x → Gap g → Gap ('#' :: (x ++ '\n' :: g))

namespace Cursor

lemma skipTriviaFrom_comment {x : List Char} (h : '\n' ∉ x) (before rest : List Char) :
    ∃ b, skipTriviaFrom true before (x ++ '\n' :: rest) = skipTriviaFrom false b rest := by
  induction x generalizing before with
  | nil => exact ⟨'\n' :: before, by simp [skipTriviaFrom]⟩
  | cons c x ih =>
    obtain ⟨hc, hx⟩ := not_or.mp (mt List.mem_cons.mpr h)
    obtain ⟨b, hb⟩ := ih hx (c :: before)
    refine ⟨b, ?_⟩
    have hne : (c != '\n') = true := by simpa using Ne.symm hc
    simpa [skipTriviaFrom, hne] using hb

lemma skipTriviaFrom_gap {g : List Char} (h : Gap g) (before rest : List Char) :
    ∃ b, skipTriviaFrom false before (g ++ rest) = skipTriviaFrom false b rest := by
  induction h generalizing before with
  | nil => exact ⟨before, rfl⟩
  | @blank c g hc _ ih =>
    obtain ⟨b, hb⟩ := ih (c :: before)
    exact ⟨b, by simpa [skipTriviaFrom, hc] using hb⟩
  | @comment x g hx _ ih =>
    obtain ⟨b, hb⟩ := skipTriviaFrom_comment hx ('#' :: before) (g ++ rest)
    obtain ⟨b', hb'⟩ := ih b
    have hhash : isBlank '#' = false := by decide
    exact ⟨b', by simpa [skipTriviaFrom, hhash, hb'] using hb⟩

/-- A gap is stepped over, and nothing of a token that follows it. -/
lemma skipTrivia_gap {g : List Char} (hg : Gap g) {c : Char} (hc : isBlank c = false)
    (hhash : c ≠ '#') (before cs : List Char) :
    ∃ b, skipTrivia ⟨before, g ++ c :: cs⟩ = ⟨b, c :: cs⟩ := by
  obtain ⟨b, hb⟩ := skipTriviaFrom_gap hg before (c :: cs)
  exact ⟨b, by simpa [skipTrivia, skipTriviaFrom, hc, hhash] using hb⟩

/-- Stepping over trivia twice is stepping over it once. -/
lemma skipTrivia_of_head {c : Cursor} (h : ∀ d ∈ c.after.head?, isBlank d = false ∧ d ≠ '#') :
    c.skipTrivia = c := by
  obtain ⟨before, after⟩ := c
  cases after with
  | nil => rfl
  | cons d cs =>
    obtain ⟨hd, hhash⟩ := h d (by simp)
    simp [skipTrivia, skipTriviaFrom, hd, hhash]

@[simp] lemma skipTrivia_skipTrivia (c : Cursor) : c.skipTrivia.skipTrivia = c.skipTrivia := by
  refine skipTrivia_of_head fun d hd => ?_
  obtain ⟨cs, hcs⟩ := List.head?_eq_some_iff.mp hd
  exact skipTriviaFrom_head hcs

@[simp] lemma scan_skipTrivia (c : Cursor) : c.skipTrivia.scan = c.scan := by
  simp [scan]

@[simp] lemma lex_skipTrivia (c : Cursor) : c.skipTrivia.lex = c.lex := by
  cases h : c.scan with
  | token t start rest => rw [lex_token h, lex_token (by simpa using h)]
  | bad fault start => rw [lex_bad h, lex_bad (by simpa using h)]
  | finished place => rw [lex_finished h, lex_finished (by simpa using h)]

end Cursor

/-! ### Layouts -/

/-- A text that holds these tokens, each spelled out behind a gap. The gap may be empty where the
token in front of it ends of itself, or where the next one begins with a delimiter. -/
inductive Layout : List Token → List Char → Prop where
  | nil {g : List Char} : Gap g → Layout [] g
  | cons {t : Token} {ts : List Token} {g cs : List Char} :
      Gap g → t.Spelt → t.EndsBefore cs → Layout ts cs →
        Layout (t :: ts) (g ++ (t.spelling.toList ++ cs))

namespace Cursor

/-- **A layout has the tokens that it lays out.** -/
theorem lex_layout {ts : List Token} {cs : List Char} (h : Layout ts cs) (before : List Char) :
    lex ⟨before, cs⟩ = (ts, none) := by
  induction h generalizing before with
  | @nil g hg =>
    obtain ⟨b, hb⟩ := skipTriviaFrom_gap hg before []
    have hs : skipTrivia ⟨before, g⟩ = ⟨b, []⟩ := by
      simpa [skipTrivia, skipTriviaFrom] using hb
    have hscan : scan ⟨before, g⟩ = .finished ⟨b, []⟩ := by rw [scan, hs]; rfl
    exact lex_finished hscan
  | @cons t ts g cs hg ht hend _ ih =>
    obtain ⟨c, r, hc, hblank, hhash⟩ := ht.head
    obtain ⟨b, hb⟩ := skipTrivia_gap hg hblank hhash before (r ++ cs)
    obtain ⟨b', hb'⟩ := scanToken_spelling ht hend b
    rw [← List.cons_append, ← hc] at hb
    rw [lex_token (by rw [scan, hb, hb']), ih]

end Cursor

/-- The tokens with one blank between neighbours. -/
def spaced : List Token → List Char
  | [] => []
  | [t] => t.spelling.toList
  | t :: u :: ts => t.spelling.toList ++ ' ' :: spaced (u :: ts)

lemma layout_spaced {ts : List Token} (h : ∀ t ∈ ts, t.Spelt) {g : List Char} (hg : Gap g) :
    Layout ts (g ++ spaced ts) := by
  induction ts generalizing g with
  | nil => exact .nil (by simpa [spaced] using hg)
  | cons t ts ih =>
    have ht := h t List.mem_cons_self
    have hts := fun u hu => h u (List.mem_cons_of_mem t hu)
    cases ts with
    | nil =>
      have := Layout.cons hg ht (fun _ c hc => by simp at hc) (.nil .nil)
      simpa [spaced] using this
    | cons u ts =>
      show Layout (t :: u :: ts) (g ++ (t.spelling.toList ++ ' ' :: spaced (u :: ts)))
      refine Layout.cons hg ht (fun _ c hc => ?_) ?_
      · obtain rfl : ' ' = c := by simpa using hc
        decide
      · exact ih hts (g := [' ']) (.blank (by decide) .nil)

lemma toList_intercalate_spelling (ts : List Token) :
    (" ".intercalate (ts.map Token.spelling)).toList = spaced ts := by
  induction ts with
  | nil => rfl
  | cons t ts ih =>
    cases ts with
    | nil => simp [spaced]
    | cons u ts =>
      rw [spaced, ← ih]
      simp

/-- Tokens written out with blanks between them are the tokens of the text. -/
theorem Cursor.lex_intercalate {ts : List Token} (h : ∀ t ∈ ts, t.Spelt) :
    (start (" ".intercalate (ts.map Token.spelling))).lex = (ts, none) := by
  rw [start, toList_intercalate_spelling]
  exact lex_layout (layout_spaced h .nil) []

end ReversePolish

import ReversePolish.Proofs.Token.Sequence

/-!
Scanning a text that is continued on a new line. What has been scanned stays as it is, unless it
reaches the end: a gap may go on, and so may a string that is open.
-/

namespace ReversePolish

/-- What may be put after a text: nothing, or a new line. -/
def Seam (w : List Char) : Prop := ∀ c ∈ w.head?, c = '\n'

variable {w cs : List Char} {c c' : Cursor}

namespace Seam

lemma nil : Seam [] := fun c hc => by simp at hc

lemma line (cs : List Char) : Seam ('\n' :: cs) := fun c hc => by simpa using hc.symm

lemma isWordChar_head (hw : Seam w) : ∀ c ∈ w.head?, Token.isWordChar c = false := by
  intro c hc
  obtain rfl := hw c hc
  decide

lemma head?_append (hw : Seam w) {d : Char} (h : cs.head? ≠ some d) (hd : d ≠ '\n') :
    (cs ++ w).head? ≠ some d := by
  cases cs with
  | nil => exact fun hw' => hd (hw d hw')
  | cons e cs => exact h

end Seam

namespace Cursor

/-! ### Gaps -/

lemma after_skipTriviaFrom_append {comment : Bool} {before before' : List Char}
    (h : (skipTriviaFrom comment before cs).after ≠ []) :
    (skipTriviaFrom comment before' (cs ++ w)).after =
      (skipTriviaFrom comment before cs).after ++ w := by
  induction cs generalizing comment before before' with
  | nil => simp [skipTriviaFrom] at h
  | cons d cs ih =>
    rw [List.cons_append]
    unfold skipTriviaFrom at h ⊢
    split
    · next hc =>
      rw [if_pos hc] at h
      exact ih h
    · next hc =>
      rw [if_neg hc] at h
      split
      · next hb =>
        rw [if_pos hb] at h
        exact ih h
      · next hb =>
        rw [if_neg hb] at h
        split
        · next hh =>
          rw [if_pos hh] at h
          exact ih h
        · rfl

lemma after_skipTriviaFrom_before (comment : Bool) (before before' cs : List Char) :
    (skipTriviaFrom comment before cs).after = (skipTriviaFrom comment before' cs).after := by
  induction cs generalizing comment before before' with
  | nil => rfl
  | cons d cs ih =>
    unfold skipTriviaFrom
    split
    · exact ih _ _ _
    · split
      · exact ih _ _ _
      · split
        · exact ih _ _ _
        · rfl

/-- Where a text is all gap, the scan goes on in the next line as if it began there. -/
lemma after_skipTriviaFrom_line {comment : Bool} {before before' before'' ys : List Char}
    (h : (skipTriviaFrom comment before cs).after = []) :
    (skipTriviaFrom comment before' (cs ++ '\n' :: ys)).after =
      (skipTriviaFrom false before'' ys).after := by
  induction cs generalizing comment before before' with
  | nil =>
    have hblank : isBlank '\n' = true := by decide
    cases comment <;> simp [skipTriviaFrom, hblank] <;> exact after_skipTriviaFrom_before _ _ _ _
  | cons d cs ih =>
    rw [List.cons_append]
    unfold skipTriviaFrom at h
    rw [skipTriviaFrom]
    split at h
    · next hc => rw [if_pos hc]; exact ih h
    · next hc =>
      rw [if_neg hc]
      split at h
      · next hb => rw [if_pos hb]; exact ih h
      · next hb =>
        rw [if_neg hb]
        split at h
        · next hh => rw [if_pos hh]; exact ih h
        · cases h

lemma after_skipTrivia_append (hc : c'.after = c.after ++ w) (h : c.skipTrivia.after ≠ []) :
    c'.skipTrivia.after = c.skipTrivia.after ++ w := by
  rw [skipTrivia, hc]
  exact after_skipTriviaFrom_append h

lemma after_skipTrivia_congr (hc : c'.after = c.after) :
    c'.skipTrivia.after = c.skipTrivia.after := by
  rw [skipTrivia, hc]
  exact after_skipTriviaFrom_before _ _ _ _

lemma after_skipTrivia_line {ys : List Char} (hc : c'.after = c.after ++ '\n' :: ys)
    (h : c.skipTrivia.after = []) (before : List Char) :
    c'.skipTrivia.after = (skipTrivia ⟨before, ys⟩).after := by
  rw [skipTrivia, hc]
  exact after_skipTriviaFrom_line h

/-! ### Strings -/

/-- A string that is closed stays as it is. -/
lemma readString_append {text before : List Char} {s : String}
    (h : readString text before cs = some (s, c)) (before' w : List Char) :
    ∃ b, readString text before' (cs ++ w) = some (s, ⟨b, c.after ++ w⟩) := by
  induction text, before, cs using readString.induct generalizing before' with
  | case1 => cases h
  | case2 text before cs =>
    cases h
    exact ⟨_, rfl⟩
  | case3 => cases h
  | case4 text before d cs ih => exact ih h _
  | case5 text before d cs hquote hlast hnext ih =>
    have hback : d ≠ '\\' := by
      intro hd
      cases cs with
      | nil => exact hlast hd rfl
      | cons e es => exact hnext e es hd rfl
    rw [readString_plain hquote hback] at h
    rw [List.cons_append, readString_plain hquote hback]
    exact ih h _

/-- Whether a string is closed does not depend on what came before it. -/
lemma readString_none {text before before' : List Char} (h : readString text before cs = none) :
    readString text before' cs = none := by
  cases h' : readString text before' cs with
  | none => rfl
  | some p =>
    obtain ⟨b, hb⟩ := readString_append h' before []
    simp [h] at hb

end Cursor

/-! ### Tokens -/

/-- How scanning a text goes when `w` is put after it. -/
inductive ScanFollows (w : List Char) : Scan → Scan → Prop where
  | token {t : Token} {start rest start' rest' : Cursor} :
      rest'.after = rest.after ++ w →
        ScanFollows w (.token t start rest) (.token t start' rest')
  | bad {fault : Token.Fault} {start start' : Cursor} :
      fault ≠ .openString → ScanFollows w (.bad fault start) (.bad fault start')
  | openString {start start' : Cursor} :
      w = [] → ScanFollows w (.bad .openString start) (.bad .openString start')
  | finished {place place' : Cursor} :
      w = [] → ScanFollows w (.finished place) (.finished place')
  | stringGoesOn {start : Cursor} {x : Scan} :
      w ≠ [] → ScanFollows w (.bad .openString start) x
  | gapGoesOn {place : Cursor} {x : Scan} : w ≠ [] → ScanFollows w (.finished place) x

namespace Cursor

lemma scanToken_nil (h : c.after = []) : c.scanToken = .finished c := by
  unfold scanToken
  rw [h]

lemma scanToken_finished {place : Cursor} (h : c.scanToken = .finished place) :
    c.after = [] := by
  unfold scanToken at h
  repeat' split at h
  all_goals first | assumption | cases h

lemma fault_of_ofWord {fault : Token.Fault} (h : Token.ofWord cs = .error fault) :
    fault ≠ .openString := by
  unfold Token.ofWord at h
  split at h
  · split at h
    · cases h
    · cases h
      simp
  · cases h

lemma scanToken_string {before : List Char} {s : String}
    (h : readString [] ('"' :: before) cs = some (s, c)) :
    scanToken ⟨before, '"' :: cs⟩ = .token (.str s) ⟨before, '"' :: cs⟩ c := by
  simp [scanToken, h]

lemma scanToken_openString {before : List Char} (h : readString [] ('"' :: before) cs = none) :
    scanToken ⟨before, '"' :: cs⟩ = .bad .openString ⟨before, '"' :: cs⟩ := by
  simp [scanToken, h]

lemma scanToken_angle {d : Char} {before : List Char} (hd : d = '<' ∨ d = '>')
    (h : cs.head? ≠ some d) :
    scanToken ⟨before, d :: cs⟩ = .bad (.loneAngle d) ⟨before, d :: cs⟩ := by
  cases cs with
  | nil => rcases hd with rfl | rfl <;> rfl
  | cons e cs =>
    have he : e ≠ d := fun he => h (by rw [he]; rfl)
    rcases hd with rfl | rfl <;> simp [scanToken, he]

/-- A mark is told by its own characters. -/
lemma scanToken_mark {t : Token} (ht : t.isClosed = true) (hs : ∀ s, t ≠ .str s)
    (before cs : List Char) :
    scanToken ⟨before, t.spelling.toList ++ cs⟩ =
      .token t ⟨before, t.spelling.toList ++ cs⟩ ⟨t.spelling.toList.reverse ++ before, cs⟩ := by
  cases t with
  | str s => exact absurd rfl (hs s)
  | opener f =>
    cases f <;> simp only [Token.isClosed, Bool.false_eq_true] at ht
    all_goals rfl
  | closer f =>
    cases f <;> simp only [Token.isClosed, Bool.false_eq_true] at ht
    all_goals rfl
  | _ => cases ht

/-- What can stand behind a gap: a word, a mark that ends of itself, a string, or an angle that
stands alone. -/
inductive Lead (cs : List Char) : Prop where
  | word {d : Char} {ds : List Char} : cs = d :: ds → Token.isWordChar d = true → Lead cs
  | mark {t : Token} {ds : List Char} :
      cs = t.spelling.toList ++ ds → t.isClosed = true → (∀ s, t ≠ .str s) → Lead cs
  | quote {ds : List Char} : cs = '"' :: ds → Lead cs
  | angle {d : Char} {ds : List Char} :
      cs = d :: ds → d = '<' ∨ d = '>' → ds.head? ≠ some d → Lead cs

/-- **White space, the delimiters and the characters of words are all characters.** -/
lemma lead_of_ne_nil (hne : cs ≠ []) (hblank : ∀ d ∈ cs.head?, isBlank d = false) : Lead cs := by
  obtain ⟨d, cs, rfl⟩ := List.exists_cons_of_ne_nil hne
  cases hd : Token.isDelimiter d with
  | false => exact .word rfl (by simp [Token.isWordChar, hd, hblank d rfl])
  | true =>
    simp only [Token.isDelimiter, Bool.or_eq_true, beq_iff_eq] at hd
    rcases hd with (((((rfl | rfl) | rfl) | rfl) | rfl) | rfl) | rfl
    · exact .mark (t := .opener .list) rfl rfl (by simp)
    · exact .mark (t := .closer .list) rfl rfl (by simp)
    · exact .mark (t := .opener .map) rfl rfl (by simp)
    · exact .mark (t := .closer .map) rfl rfl (by simp)
    · exact .quote rfl
    · by_cases hcs : cs.head? = some '<'
      · obtain ⟨cs, rfl⟩ := List.head?_eq_some_iff.mp hcs
        exact .mark (t := .opener .program) rfl rfl (by simp)
      · exact .angle rfl (.inl rfl) hcs
    · by_cases hcs : cs.head? = some '>'
      · obtain ⟨cs, rfl⟩ := List.head?_eq_some_iff.mp hcs
        exact .mark (t := .closer .program) rfl rfl (by simp)
      · exact .angle rfl (.inr rfl) hcs

lemma scanToken_append (hw : Seam w) (h : c'.after = c.after ++ w) (hne : c.after ≠ [])
    (hblank : ∀ d ∈ c.after.head?, isBlank d = false) :
    ScanFollows w c.scanToken c'.scanToken := by
  obtain ⟨before, after⟩ := c
  obtain ⟨before', after'⟩ := c'
  obtain rfl : after' = after ++ w := h
  cases lead_of_ne_nil hne hblank with
  | @word d cs hafter hword =>
    obtain rfl : after = d :: cs := hafter
    obtain ⟨htake, hdrop⟩ := span_append hw.isWordChar_head (d :: cs)
    rw [List.cons_append] at htake hdrop ⊢
    rw [scanToken_word rfl hword, scanToken_word rfl hword, htake]
    cases hof : Token.ofWord ((d :: cs).takeWhile Token.isWordChar) with
    | ok t => exact .token hdrop
    | error fault => exact .bad (fault_of_ofWord hof)
  | @mark t cs hafter ht hs =>
    obtain rfl : after = t.spelling.toList ++ cs := hafter
    rw [List.append_assoc, scanToken_mark ht hs, scanToken_mark ht hs]
    exact .token rfl
  | @quote cs hafter =>
    obtain rfl : after = '"' :: cs := hafter
    rw [List.cons_append]
    cases hs : readString [] ('"' :: before) cs with
    | some p =>
      obtain ⟨b, hb⟩ := readString_append hs ('"' :: before') w
      rw [scanToken_string hs, scanToken_string hb]
      exact .token rfl
    | none =>
      rw [scanToken_openString hs]
      by_cases hnil : w = []
      · subst hnil
        rw [List.append_nil, scanToken_openString (readString_none hs)]
        exact .openString rfl
      · exact .stringGoesOn hnil
  | @angle d cs hafter hd hcs =>
    obtain rfl : after = d :: cs := hafter
    have hline : d ≠ '\n' := by rcases hd with rfl | rfl <;> decide
    rw [List.cons_append, scanToken_angle hd hcs, scanToken_angle hd (hw.head?_append hcs hline)]
    exact .bad (by simp)

/-- **What has been scanned stays as it is.** -/
theorem scan_append (hw : Seam w) (h : c'.after = c.after ++ w) :
    ScanFollows w c.scan c'.scan := by
  by_cases hne : c.skipTrivia.after = []
  · rw [scan, scanToken_nil hne]
    by_cases hnil : w = []
    · subst hnil
      have hne' : c'.skipTrivia.after = [] := by
        rw [after_skipTrivia_congr (by simpa using h), hne]
      rw [scan, scanToken_nil hne']
      exact .finished rfl
    · exact .gapGoesOn hnil
  · refine scanToken_append hw (after_skipTrivia_append h hne) hne fun d hd => ?_
    obtain ⟨cs, hcs⟩ := List.head?_eq_some_iff.mp hd
    exact (skipTriviaFrom_head hcs).1

/-- The tokens of a text remain when more text follows. -/
lemma lex_prefix (hw : Seam w) (h : c'.after = c.after ++ w) : c.lex.1 <+: c'.lex.1 := by
  induction hlen : c.after.length using Nat.strongRecOn generalizing c c' with
  | _ len ih =>
    have hscan := scan_append hw h
    generalize hx : c.scan = x at hscan
    generalize hx' : c'.scan = x' at hscan
    cases hscan with
    | token hrest =>
      rw [lex_token hx, lex_token hx', List.prefix_cons_inj]
      exact ih _ (hlen ▸ length_after_scan hx) hrest rfl
    | bad hne =>
      rw [lex_bad hx]
      exact List.nil_prefix
    | openString hnil =>
      rw [lex_bad hx]
      exact List.nil_prefix
    | finished hnil =>
      rw [lex_finished hx]
      exact List.nil_prefix
    | stringGoesOn hne =>
      rw [lex_bad hx]
      exact List.nil_prefix
    | gapGoesOn hne =>
      rw [lex_finished hx]
      exact List.nil_prefix

end Cursor

end ReversePolish

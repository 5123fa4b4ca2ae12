import ReversePolish.Proofs.Reader.Streams
import ReversePolish.Proofs.Token.Stretch

/-!
Imports splice texts. A text reads like the flattened text in which the imported text, followed by
a line feed, stands in place of each import.
-/

namespace ReversePolish

variable {κ : Type} {load : String → Except Error String} {n : Nat} {c c' : Cursor} {t : Token}
  {ts us : List Token} {flat : List Char}

namespace Cursor

/-! ### Tokens of joined texts -/

lemma lex_congr (h : c'.scan = c.scan) : c'.lex = c.lex := by
  cases hscan : c.scan with
  | token t start rest => rw [lex_token hscan, lex_token (h.trans hscan)]
  | bad fault start => rw [lex_bad hscan, lex_bad (h.trans hscan)]
  | finished place => rw [lex_finished hscan, lex_finished (h.trans hscan)]

/-- The tokens of a text do not depend on what lies before it. -/
lemma lex_of_after (h : c'.after = c.after) : c'.lex = c.lex := by
  induction hlen : c.after.length using Nat.strongRecOn generalizing c c' with
  | _ len ih =>
    have hscan := scan_append .nil (h.trans (List.append_nil _).symm)
    generalize hx : c.scan = x at hscan
    generalize hx' : c'.scan = x' at hscan
    cases hscan with
    | token hrest =>
      rw [lex_token hx', lex_token hx, ih _ (hlen ▸ length_after_scan hx) (by simpa using hrest) rfl]
    | bad => rw [lex_bad hx', lex_bad hx]
    | openString => rw [lex_bad hx', lex_bad hx]
    | finished => rw [lex_finished hx', lex_finished hx]
    | stringGoesOn hne => exact (hne rfl).elim
    | gapGoesOn hne => exact (hne rfl).elim

/-- The tokens of a text, and then those of the next line. -/
lemma lex_line {y before before' : List Char} (h : c.lex = (ts, none)) :
    lex ⟨before, c.after ++ '\n' :: y⟩ =
      (ts ++ (lex ⟨before', y⟩).1, (lex ⟨before', y⟩).2) := by
  induction ts generalizing c before with
  | nil =>
    cases hscan : c.scan with
    | token t start rest => simp [lex_token hscan] at h
    | bad fault start => simp [lex_bad hscan] at h
    | finished place =>
      have hskip : (skipTrivia ⟨before, c.after ++ '\n' :: y⟩).after =
          (skipTrivia ⟨before', y⟩).after :=
        after_skipTrivia_line rfl (scanToken_finished hscan) before'
      rw [← lex_skipTrivia, lex_of_after hskip, lex_skipTrivia]
      rfl
  | cons t ts ih =>
    cases hscan : c.scan with
    | finished place => simp [lex_finished hscan] at h
    | bad fault start => simp [lex_bad hscan] at h
    | token u start rest =>
      simp only [lex_token hscan, Prod.mk.injEq, List.cons.injEq] at h
      obtain ⟨⟨rfl, hrest⟩, hnone⟩ := h
      have hfollows : ScanFollows ('\n' :: y) c.scan (scan ⟨before, c.after ++ '\n' :: y⟩) :=
        scan_append (.line y) rfl
      rw [hscan] at hfollows
      generalize hscan' : scan ⟨before, c.after ++ '\n' :: y⟩ = x at hfollows
      cases hfollows with
      | @token _ _ _ start' rest' hafter =>
        rw [lex_token hscan', lex_of_after (c := ⟨[], rest.after ++ '\n' :: y⟩) hafter,
          ih (Prod.ext hrest hnone), List.cons_append]

end Cursor

/-! ### Flattened texts -/

/-- `Splices load n c flat`: the text from `c` on becomes the text `flat` when the imported texts
are put in place of their imports, which nest at most `n` deep. Every import is followed by a name
and loads, and each text is all tokens. -/
inductive Splices (load : String → Except Error String) : Nat → Cursor → List Char → Prop where
  | finished {n : Nat} {c place : Cursor} : c.scan = .finished place → Splices load n c c.after
  | token {n : Nat} {c start rest : Cursor} {t : Token} {flat : List Char} :
      c.scan = .token t start rest → t ≠ .importing → Splices load n rest flat →
        Splices load n c (c.upTo rest ++ flat)
  | importing {n : Nat} {c start rest rest' : Cursor} {name text : String}
      {body flat : List Char} :
      c.scan = .token .importing start rest → rest.scan.name? = some (name, rest') →
        load name = .ok text → Splices load n (.start text) body →
          Splices load (n + 1) rest' flat →
            Splices load (n + 1) c (c.upTo start ++ (body ++ '\n' :: flat))

lemma Token.EndsBefore.append {x y z : List Char} (h : t.EndsBefore (x ++ y)) (hx : x ≠ []) :
    t.EndsBefore (x ++ z) := by
  obtain ⟨d, x, rfl⟩ := List.exists_cons_of_ne_nil hx
  exact h

namespace Splices

/-- What ends a token in front of a text ends it in front of the flattened text. -/
lemma endsBefore (h : Splices load n c flat) (ht : t.EndsBefore c.after) : t.EndsBefore flat := by
  cases h with
  | finished => exact ht
  | token hscan _ _ =>
    obtain ⟨hcut, -⟩ := Cursor.scan_cut hscan
    rw [hcut] at ht
    refine ht.append fun hnil => ?_
    have hlt := Cursor.length_after_scan hscan
    rw [hcut, hnil] at hlt
    exact Nat.lt_irrefl _ hlt
  | @importing _ _ start _ _ _ _ _ _ hscan _ _ _ _ =>
    obtain ⟨d, z, hd, hword⟩ := Cursor.start_isWordChar hscan rfl
    obtain ⟨-, -, -, -, -, hcut, -⟩ := Cursor.scan_cut_gap hscan
    rw [hcut] at ht
    -- An import that begins at once would prolong the token.
    by_cases hnil : c.upTo start = []
    · rw [hnil, hd] at ht
      intro ho
      have := ht ho d rfl
      simp [hword] at this
    · exact ht.append hnil

/-- The tokens that come off a text are the tokens of the flattened text. -/
lemma streams (h : Splices load n c flat) :
    ∃ ts, Streams load n c ts ∧ .importing ∉ ts ∧ Cursor.lex ⟨[], flat⟩ = (ts, none) := by
  induction h with
  | @finished n c place hscan =>
    have hlex : Cursor.lex ⟨[], c.after⟩ = c.lex := Cursor.lex_of_after rfl
    exact ⟨[], .finished hscan, List.not_mem_nil, hlex.trans (Cursor.lex_finished hscan)⟩
  | @token n c start rest t flat hscan ht hflat ih =>
    obtain ⟨ts, hts, hplain, hlex⟩ := ih
    obtain ⟨-, hends, hcut⟩ := Cursor.scan_cut hscan
    refine ⟨t :: ts, .token hscan ht hts, ?_, ?_⟩
    · simp [hplain, Ne.symm ht]
    · obtain ⟨start', b', hb'⟩ := hcut [] flat (hflat.endsBefore hends)
      have hrest : Cursor.lex ⟨b', flat⟩ = Cursor.lex ⟨[], flat⟩ := Cursor.lex_of_after rfl
      rw [Cursor.lex_token hb', hrest, hlex]
  | @importing n c start rest rest' name text body flat hscan hname hload _ hflat ihbody ih =>
    obtain ⟨us, hus, hplain, hlex⟩ := ihbody
    obtain ⟨ts, hts, hplain', hlex'⟩ := ih
    refine ⟨us ++ ts, .importing hscan hname hload hus hts, ?_, ?_⟩
    · simp [hplain, hplain']
    · obtain ⟨b', hb'⟩ := Cursor.scan_gap hscan [] (body ++ '\n' :: flat)
      rw [Cursor.lex_congr hb', Cursor.lex_line hlex, hlex']

end Splices

namespace Reader

variable {s : Setting κ}

lemma gets_ofText {text : String} (h : Streams load n (.start text) ts) :
    (ofText text).Gets load n ts := by
  have := StreamsAll.cons (Nat.le_refl n) h .nil
  rwa [List.append_nil] at this

/-- **Imports splice texts.** A text whose imports all load reads like the flattened text: both
give the same values, or both fail, and the errors differ at most in the excerpts that they show.
No more texts may be open at once than the limit allows. -/
theorem readAll_flattened {text : String} {flat : List Char}
    (h : Splices s.load n (.start text) flat)
    (hfew : n < maxSources ∨
      ∀ name, (ofText text).readAll s ≠ .error (.failed (.importsTooDeep name maxSources))) :
    ((ofText text).readAll s).mapError Error.bare =
      ((ofText (String.ofList flat)).readAll s).mapError Error.bare := by
  obtain ⟨ts, hts, hplain, hlex⟩ := h.streams
  have hflat : Streams s.load 0 (.start (String.ofList flat)) ts :=
    .of_lex (by rw [Cursor.start, String.toList_ofList]; exact hlex) hplain
  have hspliced : ((ofText text).readAll s).mapError Error.bare = s.answerAll ts := by
    rcases readAll_answers (gets_ofText hts) with heq | ⟨hmany, name, hfail⟩
    · exact heq
    · rcases hfew with hn | hnot
      · omega
      · exact (hnot name hfail).elim
  rcases readAll_answers (gets_ofText hflat) with heq | ⟨hmany, -⟩
  · rw [hspliced, heq]
  · exact absurd hmany (by decide)

/-- A list that is opened in one text and closed in another, which a third one imports. -/
theorem readAll_list_over_three_texts :
    let s : Setting Nat :=
      ⟨fun _ => none, "main", fun name => .ok (if name = "a" then "2 import b 4" else "3 ]"), 1⟩
    Splices s.load 2 (.start "[ 1 import a") "[ 1 2 3 ]\n 4\n".toList ∧
    ((ofText "[ 1 import a").readAll s).mapError Error.bare =
      ((ofText "[ 1 2 3 ]\n 4\n").readAll s).mapError Error.bare := by
  intro s
  have htail : Splices s.load 0 (.start "3 ]") "3 ]".toList := by
    have hthree : (Cursor.start "3 ]").scan =
        .token (.int 3) (.start "3 ]") ⟨['3'], " ]".toList⟩ := rfl
    have hclose : Cursor.scan ⟨['3'], " ]".toList⟩ =
        .token (.closer .list) ⟨[' ', '3'], [']']⟩ ⟨[']', ' ', '3'], []⟩ := rfl
    exact .token hthree nofun (.token hclose nofun (.finished rfl))
  have hmiddle : Splices s.load 1 (.start "2 import b 4") "2 3 ]\n 4".toList := by
    have htwo : (Cursor.start "2 import b 4").scan =
        .token (.int 2) (.start "2 import b 4") ⟨['2'], " import b 4".toList⟩ := rfl
    have himport : Cursor.scan ⟨['2'], " import b 4".toList⟩ =
        .token .importing ⟨[' ', '2'], "import b 4".toList⟩
          ⟨"2 import".toList.reverse, " b 4".toList⟩ := rfl
    have hname : (Cursor.scan ⟨"2 import".toList.reverse, " b 4".toList⟩).name? =
        some ("b", ⟨"2 import b".toList.reverse, " 4".toList⟩) := rfl
    have hfour : Cursor.scan ⟨"2 import b".toList.reverse, " 4".toList⟩ =
        .token (.int 4) ⟨"2 import b ".toList.reverse, ['4']⟩
          ⟨"2 import b 4".toList.reverse, []⟩ := rfl
    have hload : s.load "b" = .ok "3 ]" := rfl
    exact .token htwo nofun
      (.importing himport hname hload htail (.token hfour nofun (.finished rfl)))
  have hspliced : Splices s.load 2 (.start "[ 1 import a") "[ 1 2 3 ]\n 4\n".toList := by
    have hopen : (Cursor.start "[ 1 import a").scan =
        .token (.opener .list) (.start "[ 1 import a") ⟨['['], " 1 import a".toList⟩ := rfl
    have hone : Cursor.scan ⟨['['], " 1 import a".toList⟩ =
        .token (.int 1) ⟨[' ', '['], "1 import a".toList⟩
          ⟨['1', ' ', '['], " import a".toList⟩ := rfl
    have himport : Cursor.scan ⟨['1', ' ', '['], " import a".toList⟩ =
        .token .importing ⟨[' ', '1', ' ', '['], "import a".toList⟩
          ⟨"[ 1 import".toList.reverse, " a".toList⟩ := rfl
    have hname : (Cursor.scan ⟨"[ 1 import".toList.reverse, " a".toList⟩).name? =
        some ("a", ⟨"[ 1 import a".toList.reverse, []⟩) := rfl
    have hload : s.load "a" = .ok "2 import b 4" := rfl
    exact .token hopen nofun
      (.token hone nofun (.importing himport hname hload hmiddle (.finished rfl)))
  exact ⟨hspliced, readAll_flattened hspliced (.inl (by decide))⟩

end Reader

end ReversePolish

import ReversePolish.Proofs.Reader.Tokens
import ReversePolish.Proofs.Token.Tiling

/-!
Layouts of the same tokens. How much white space and how many comments lie between tokens, and
whether any do where tokens cannot run together, shows neither in the tokens of a text nor in the
values that are read off it. It shows only in the excerpts of diagnostics.
-/

namespace ReversePolish

variable {κ : Type} {t u : Token} {ts : List Token} {cs : List Char}

/-! ### Neighbours -/

/-- What may lie between two neighbours, an end of the text being a neighbour that nothing runs
into: a gap that begins with white space, or nothing where one of the two ends or begins of
itself. -/
inductive Separates : Option Token → Option Token → List Char → Prop where
  | gap {t u : Option Token} {c : Char} {g : List Char} :
      isBlank c = true → Gap g → Separates t u (c :: g)
  | nothing {t u : Option Token} :
      (∀ a ∈ t, ∀ b ∈ u, a.isClosed = true ∨ b.isClosed = true) → Separates t u []

/-- `LaidOut t ts cs`: behind the token `t`, or from the beginning of the text on, the characters
`cs` spell out the tokens `ts`, with something that separates between neighbours. A word is one that
is a token by itself. -/
inductive LaidOut : Option Token → List Token → List Char → Prop where
  | nil {t : Option Token} {g : List Char} : Separates t none g → LaidOut t [] g
  | cons {t : Option Token} {u : Token} {ts : List Token} {g cs : List Char} :
      Separates t (some u) g → (∀ w, u = .word w → (Cursor.start w).lex = ([u], none)) →
        LaidOut (some u) ts cs → LaidOut t (u :: ts) (g ++ (u.spelling.toList ++ cs))

lemma Separates.isGap {t u : Option Token} (h : Separates t u cs) : Gap cs := by
  cases h with
  | gap hblank hg => exact .blank hblank hg
  | nothing => exact .nil

/-- A token that ends of itself begins with a delimiter. -/
lemma Token.head_of_isClosed (h : u.isClosed = true) :
    ∃ d x, u.spelling.toList = d :: x ∧ isWordChar d = false := by
  cases u with
  | str s =>
    exact ⟨'"', s.toList.flatMap escapeChar ++ ['"'], by simp [spelling, quote, quoteChars],
      by decide⟩
  | opener f =>
    cases f <;> simp only [isClosed, Bool.false_eq_true] at h
    all_goals exact ⟨_, _, rfl, by decide⟩
  | closer f =>
    cases f <;> simp only [isClosed, Bool.false_eq_true] at h
    all_goals exact ⟨_, _, rfl, by decide⟩
  | _ => cases h

lemma Token.spelt_of_lex (h : ∀ w, u = .word w → (Cursor.start w).lex = ([u], Option.none)) :
    u.Spelt := by
  cases u with
  | word w => exact Cursor.lex_eq_word_iff.mp (h w rfl)
  | _ => trivial

/-- White space is part of no word. -/
lemma Token.endsBefore_blank {c : Char} (hblank : isBlank c = true) (cs : List Char) :
    t.EndsBefore (c :: cs) := by
  intro _ d hd
  obtain rfl : c = d := by simpa using hd
  simp [isWordChar, hblank]

namespace LaidOut

/-- A token ends where its neighbour is laid out behind it. -/
lemma endsBefore (h : LaidOut (some t) ts cs) : t.EndsBefore cs := by
  cases h with
  | nil hsep =>
    cases hsep with
    | gap hblank _ => exact Token.endsBefore_blank hblank _
    | nothing => exact fun _ d hd => by simp at hd
  | @cons _ u ts g cs hsep _ _ =>
    cases hsep with
    | gap hblank _ => exact Token.endsBefore_blank hblank _
    | nothing hclosed =>
      intro hopen d hd
      have hu : u.isClosed = true := by simpa [hopen] using hclosed t rfl u rfl
      obtain ⟨e, x, hx, hword⟩ := Token.head_of_isClosed hu
      obtain rfl : e = d := by simpa [hx] using hd
      exact hword

lemma layout {t : Option Token} (h : LaidOut t ts cs) : Layout ts cs := by
  induction h with
  | nil hsep => exact .nil hsep.isGap
  | cons hsep hword hrest ih =>
    exact .cons hsep.isGap (Token.spelt_of_lex hword) hrest.endsBefore ih

/-- **A text has the tokens that are laid out in it.** -/
theorem lex {text : String} (h : LaidOut none ts text.toList) :
    (Cursor.start text).lex = (ts, none) :=
  Cursor.lex_layout h.layout []

end LaidOut

/-! ### Readers of the same tokens -/

/-- Two scans that find the same token, and behind it the same tokens. -/
inductive SameToken : Scan → Scan → Prop where
  | finished {place place' : Cursor} : SameToken (.finished place) (.finished place')
  | token {t : Token} {ts : List Token} {start rest start' rest' : Cursor} :
      rest.lex = (ts, none) → rest'.lex = (ts, none) →
        SameToken (.token t start rest) (.token t start' rest')

lemma Cursor.sameToken {c c' : Cursor} (h : c.lex = (ts, none)) (h' : c'.lex = (ts, none)) :
    SameToken c.scan c'.scan := by
  cases hscan : c.scan with
  | bad fault start => simp [lex_bad hscan] at h
  | finished place =>
    rw [lex_finished hscan] at h
    cases hscan' : c'.scan with
    | bad fault start => simp [lex_bad hscan'] at h'
    | finished place' => exact .finished
    | token t start rest => simp [lex_token hscan', ← h] at h'
  | token t start rest =>
    rw [lex_token hscan] at h
    cases hscan' : c'.scan with
    | bad fault start => simp [lex_bad hscan'] at h'
    | finished place' => simp [lex_finished hscan', ← h] at h'
    | token t' start' rest' =>
      rw [lex_token hscan', ← h] at h'
      simp only [Prod.mk.injEq, List.cons.injEq] at h h'
      obtain ⟨⟨rfl, htail⟩, hnone⟩ := h'
      exact .token (Prod.ext rfl h.2) (Prod.ext htail (hnone.trans h.2))

/-- The same texts are imported, and the rest of the root texts holds the same tokens. -/
structure Alike (r r' : Reader) : Prop where
  imports : r'.imports = r.imports
  root : ∃ ts, r.root.lex = (ts, none) ∧ r'.root.lex = (ts, none)

/-- Steps of two readers that see the same, save for places in the root text. -/
inductive AdvancesAlike : Reader.Advance → Reader.Advance → Prop where
  | token {t : Token} {place place' : Cursor} {r r' : Reader} :
      Alike r r' → AdvancesAlike (.token t place r) (.token t place' r')
  | moved {r r' : Reader} : Alike r r' → AdvancesAlike (.moved r) (.moved r')
  | ended {r r' : Reader} : AdvancesAlike (.ended r) (.ended r')
  | failed {e e' : Error} {r r' : Reader} :
      e'.bare = e.bare → AdvancesAlike (.failed e r) (.failed e' r')

/-- Readings that come to the same, save for places in the root text. -/
inductive ReadsAlike : Reading κ → Reading κ → Prop where
  | value {d : Datum κ} {r r' : Reader} : Alike r r' → ReadsAlike (.value d r) (.value d r')
  | ended {r r' : Reader} : ReadsAlike (.ended r) (.ended r')
  | failed {e e' : Error} {r r' : Reader} :
      e'.bare = e.bare → ReadsAlike (.failed e r) (.failed e' r')

/-- What one token does to forms that were opened at different places. -/
inductive ShiftsAlike : Except Error (Shift κ) → Except Error (Shift κ) → Prop where
  | refused {e e' : Error} : e'.bare = e.bare → ShiftsAlike (.error e) (.error e')
  | value (d : Datum κ) : ShiftsAlike (.ok (.value d)) (.ok (.value d))
  | more {forms forms' : List (OpenForm κ)} :
      forms'.map OpenForm.bare = forms.map OpenForm.bare →
        ShiftsAlike (.ok (.more forms)) (.ok (.more forms'))

namespace Alike

variable {r r' : Reader} {load : String → Except Error String} {s : Setting κ}

lemma moveTo_root (h : Alike r r') (hr : r.imports = []) {c c' : Cursor}
    (hc : c.lex = (ts, none)) (hc' : c'.lex = (ts, none)) : Alike (r.moveTo c) (r'.moveTo c') := by
  rw [Reader.moveTo_root hr, Reader.moveTo_root (h.imports.trans hr)]
  exact ⟨h.imports, ts, hc, hc'⟩

lemma moveTo_import (h : Alike r r') {o : Cursor} {os : List Cursor} (hr : r.imports = o :: os)
    (c : Cursor) : Alike (r.moveTo c) (r'.moveTo c) := by
  have hr' := h.imports.trans hr
  refine ⟨?_, ?_⟩
  · rw [Reader.imports_moveTo hr, Reader.imports_moveTo hr']
  · rw [Reader.root_moveTo hr, Reader.root_moveTo hr']
    exact h.root

variable (load) in
lemma openText (h : Alike r r') (name : String) :
    AdvancesAlike (Reader.openText load name r) (Reader.openText load name r') := by
  unfold Reader.openText
  by_cases hlen : r.imports.length + 1 < maxSources
  · have hlen' : r'.imports.length + 1 < maxSources := by rwa [h.imports]
    rw [dif_pos hlen, dif_pos hlen']
    cases load name with
    | ok text => exact .moved ⟨congrArg (.start text :: ·) h.imports, h.root⟩
    | error e => exact .failed rfl
  · have hlen' : ¬ r'.imports.length + 1 < maxSources := by rwa [h.imports]
    rw [dif_neg hlen, dif_neg hlen']
    exact .failed rfl

/-- In the root texts, the same name stands behind an import. -/
lemma importText_root (h : Alike r r') (hr : r.imports = []) {start start' rest rest' : Cursor}
    (hrest : rest.lex = (ts, none)) (hrest' : rest'.lex = (ts, none)) :
    AdvancesAlike (Reader.importText load start rest r)
      (Reader.importText load start' rest' r') := by
  have hsame := Cursor.sameToken hrest hrest'
  unfold Reader.importText
  generalize rest.scan = x at hsame
  generalize rest'.scan = x' at hsame
  cases hsame with
  | finished => exact .failed rfl
  | @token t _ _ _ _ _ hus hus' =>
    have hmove := h.moveTo_root hr hus hus'
    cases t with
    | word name => exact hmove.openText load name
    | str name => exact hmove.openText load name
    | _ => exact .failed rfl

/-- In an imported text, what stands behind an import is the same in every respect. -/
lemma importText_import (h : Alike r r') {o : Cursor} {os : List Cursor}
    (hr : r.imports = o :: os) (start rest : Cursor) :
    AdvancesAlike (Reader.importText load start rest r) (Reader.importText load start rest r') := by
  unfold Reader.importText
  cases rest.scan with
  | finished place => exact .failed rfl
  | bad fault place => exact .failed rfl
  | token t _ stop =>
    have hmove := h.moveTo_import hr stop
    cases t with
    | word name => exact hmove.openText load name
    | str name => exact hmove.openText load name
    | _ => exact .failed rfl

lemma advance_root (h : Alike r r') (hr : r.imports = []) :
    AdvancesAlike (r.advance load) (r'.advance load) := by
  have hr' : r'.imports = [] := h.imports.trans hr
  obtain ⟨ts, hlex, hlex'⟩ := h.root
  have hsame := Cursor.sameToken hlex hlex'
  rw [← Reader.place_root hr, ← Reader.place_root hr'] at hsame
  generalize hx : r.place.scan = x at hsame
  generalize hx' : r'.place.scan = x' at hsame
  cases hsame with
  | finished =>
    rw [Reader.advance_of_finished hx hr, Reader.advance_of_finished hx' hr']
    exact .ended
  | @token t _ _ _ _ _ hus hus' =>
    by_cases ht : t = .importing
    · subst ht
      rw [Reader.advance_of_importing hx, Reader.advance_of_importing hx']
      exact h.importText_root hr hus hus'
    · rw [Reader.advance_of_token hx ht, Reader.advance_of_token hx' ht]
      exact .token (h.moveTo_root hr hus hus')

lemma advance_import (h : Alike r r') {o : Cursor} {os : List Cursor} (hr : r.imports = o :: os) :
    AdvancesAlike (r.advance load) (r'.advance load) := by
  have hr' : r'.imports = o :: os := h.imports.trans hr
  have hplace : r'.place = r.place := by rw [Reader.place, Reader.place, hr, hr']; rfl
  cases hx : r.place.scan with
  | finished stop =>
    obtain ⟨few, hadv⟩ := Reader.advance_of_finished_import load hx hr
    obtain ⟨few', hadv'⟩ := Reader.advance_of_finished_import load (hplace ▸ hx) hr'
    rw [hadv, hadv']
    exact .moved ⟨rfl, h.root⟩
  | bad fault start =>
    have hroot : r'.inRoot = r.inRoot := by rw [Reader.inRoot, Reader.inRoot, h.imports]
    rw [Reader.advance_of_bad hx, Reader.advance_of_bad (hplace ▸ hx), hroot]
    exact .failed rfl
  | token t start rest =>
    by_cases ht : t = .importing
    · subst ht
      rw [Reader.advance_of_importing hx, Reader.advance_of_importing (hplace ▸ hx)]
      exact h.importText_import hr start rest
    · rw [Reader.advance_of_token hx ht, Reader.advance_of_token (hplace ▸ hx) ht]
      exact .token (h.moveTo_import hr rest)

/-- **Readers of the same tokens take the same steps.** -/
theorem advance (h : Alike r r') : AdvancesAlike (r.advance load) (r'.advance load) := by
  cases hr : r.imports with
  | nil => exact h.advance_root hr
  | cons o os => exact h.advance_import hr

lemma advance_of {a : Reader.Advance} (h : Alike r r') (hadv : r.advance load = a) :
    AdvancesAlike a (r'.advance load) := hadv ▸ h.advance

end Alike

namespace Setting

variable {s : Setting κ}

lemma shiftsAlike {forms forms' : List (OpenForm κ)}
    (hforms : forms'.map OpenForm.bare = forms.map OpenForm.bare) (t : Token)
    (inRoot inRoot' : Bool) (place place' : Cursor) :
    ShiftsAlike (s.shift inRoot place t forms) (s.shift inRoot' place' t forms') := by
  have hsame := (s.shift_wherever inRoot' place' t forms').trans
    (hforms ▸ (s.shift_wherever inRoot place t forms).symm)
  generalize s.shift inRoot place t forms = x at hsame
  generalize s.shift inRoot' place' t forms' = x' at hsame
  cases x with
  | error e =>
    cases x' with
    | error e' => exact .refused (Except.error.inj hsame)
    | ok sh' => cases hsame
  | ok sh =>
    cases x' with
    | error e' => cases hsame
    | ok sh' =>
      have hbare : sh'.bare = sh.bare := Except.ok.inj hsame
      cases sh <;> cases sh' <;> simp only [Shift.bare, Shift.value.injEq, Shift.more.injEq,
        reduceCtorEq] at hbare
      · exact .more hbare
      · subst hbare
        exact .value _

end Setting

namespace Reader

variable {r r' : Reader} {s : Setting κ}

/-- A token is the same for both readers, and does the same to the open forms. -/
lemma token_alike {forms forms' : List (OpenForm κ)} {t : Token} {place : Cursor} {r₁ : Reader}
    {x : Except Error (Shift κ)} (hforms : forms'.map OpenForm.bare = forms.map OpenForm.bare)
    (h : Alike r r') (hadv : r.advance s.load = .token t place r₁)
    (hs : s.shift r.inRoot place t forms = x) :
    ∃ place' r₁', r'.advance s.load = .token t place' r₁' ∧ Alike r₁ r₁' ∧
      ShiftsAlike x (s.shift r'.inRoot place' t forms') := by
  have hstep := h.advance_of hadv
  generalize hadv' : r'.advance s.load = a' at hstep
  cases hstep with
  | token h₁ => exact ⟨_, _, rfl, h₁, hs ▸ Setting.shiftsAlike hforms t _ _ _ _⟩

lemma readInside_alike {forms forms' : List (OpenForm κ)}
    (hforms : forms'.map OpenForm.bare = forms.map OpenForm.bare) (h : Alike r r') :
    ReadsAlike (readInside s forms r) (readInside s forms' r') := by
  induction forms, r using readInside.induct s generalizing forms' r' with
  | case1 forms r r₁ hadv ih =>
    have hstep := h.advance_of hadv
    generalize hadv' : r'.advance s.load = a' at hstep
    cases hstep with
    | moved h₁ =>
      rw [readInside_moved hadv, readInside_moved hadv']
      exact ih hforms h₁
  | case2 forms r e r₁ hadv =>
    have hstep := h.advance_of hadv
    generalize hadv' : r'.advance s.load = a' at hstep
    cases hstep with
    | failed he =>
      rw [readInside_failed hadv, readInside_failed hadv']
      exact .failed he
  | case3 r r₁ hadv =>
    have hstep := h.advance_of hadv
    generalize hadv' : r'.advance s.load = a' at hstep
    obtain rfl : forms' = [] := by simpa using hforms
    cases hstep with
    | ended =>
      rw [readInside_ended hadv, readInside_ended hadv']
      exact .ended
  | case4 r r₁ hadv o os =>
    have hstep := h.advance_of hadv
    generalize hadv' : r'.advance s.load = a' at hstep
    obtain ⟨o', os', rfl, ho, -⟩ := List.map_eq_cons_iff.mp hforms
    cases hstep with
    | ended =>
      rw [readInside_ended hadv, readInside_ended hadv']
      refine .failed ?_
      rw [OpenForm.unterminated_bare, ho, OpenForm.unterminated_bare]
  | case5 forms r t place r₁ hadv e hs =>
    obtain ⟨place', r₁', hadv', h₁, hshift⟩ := token_alike hforms h hadv hs
    rw [readInside_token hadv, readInside_token hadv', hs]
    generalize s.shift r'.inRoot place' t forms' = x at hshift
    cases hshift with
    | refused he => exact .failed he
  | case6 forms r t place r₁ hadv d hs =>
    obtain ⟨place', r₁', hadv', h₁, hshift⟩ := token_alike hforms h hadv hs
    rw [readInside_token hadv, readInside_token hadv', hs]
    generalize s.shift r'.inRoot place' t forms' = x at hshift
    cases hshift with
    | value => exact .value h₁
  | case7 forms r t place r₁ hadv forms₁ hs ih =>
    obtain ⟨place', r₁', hadv', h₁, hshift⟩ := token_alike hforms h hadv hs
    rw [readInside_token hadv, readInside_token hadv', hs]
    generalize s.shift r'.inRoot place' t forms' = x at hshift
    cases hshift with
    | more hforms₁ => exact ih hforms₁ h₁

/-- **Readers of the same tokens read the same value next.** -/
theorem next_alike (h : Alike r r') : ReadsAlike (r.next s) (r'.next s) := by
  obtain ⟨ts, hlex, hlex'⟩ := h.root
  refine readInside_alike rfl ⟨h.imports, ts, ?_, ?_⟩
  · simpa [startUnit] using hlex
  · simpa [startUnit] using hlex'

lemma mapError_cons (d : Datum κ) (x : Except Error (List (Datum κ))) :
    (do let ds ← x; return d :: ds).mapError Error.bare =
      (do let ds ← x.mapError Error.bare; return d :: ds) := by
  cases x <;> rfl

/-- All values are the same, or what goes wrong is. -/
theorem readAll_alike (h : Alike r r') :
    (r'.readAll s).mapError Error.bare = (r.readAll s).mapError Error.bare := by
  induction r using readAll.induct s generalizing r' with
  | case1 r d r₁ hr ih =>
    have hnext : ReadsAlike (r.next s) (r'.next s) := next_alike h
    rw [hr] at hnext
    generalize hr' : r'.next s = x at hnext
    cases hnext with
    | @value _ _ r₁' h₁ =>
      rw [readAll_value hr, readAll_value hr', mapError_cons, mapError_cons, ih h₁]
  | case2 r r₁ hr =>
    have hnext : ReadsAlike (r.next s) (r'.next s) := next_alike h
    rw [hr] at hnext
    generalize hr' : r'.next s = x at hnext
    cases hnext with
    | ended => rw [readAll_ended hr, readAll_ended hr']
  | case3 r e r₁ hr =>
    have hnext : ReadsAlike (r.next s) (r'.next s) := next_alike h
    rw [hr] at hnext
    generalize hr' : r'.next s = x at hnext
    cases hnext with
    | failed he =>
      rw [readAll_failed hr, readAll_failed hr']
      exact congrArg Except.error he

/-- **Layout does not matter.** A text in which tokens are laid out has exactly these tokens, and
every other layout of them reads like it, whatever words mean and whatever is imported: to the same
values, or to the same error but for the excerpt. -/
theorem layouts_read_alike {text : String} (h : LaidOut none ts text.toList) :
    (Cursor.start text).lex = (ts, none) ∧
      ∀ {κ : Type} (s : Setting κ) {other : String}, LaidOut none ts other.toList →
        ((ofText other).readAll s).mapError Error.bare =
          ((ofText text).readAll s).mapError Error.bare :=
  ⟨h.lex, fun s _ hother => readAll_alike (s := s) ⟨rfl, ts, h.lex, hother.lex⟩⟩

/-- A list written as closely as can be, and with a comment in it. -/
theorem list_laid_out_twice :
    let ts : List Token := [.opener .list, .word "x", .str "a", .closer .list]
    let s : Setting Nat := ⟨fun _ => none, "main", fun _ => .ok "", 1⟩
    LaidOut none ts "[x\"a\"]".toList ∧ LaidOut none ts "[ x # one\n\"a\"\n]".toList ∧
      ((ofText "[ x # one\n\"a\"\n]").readAll s).mapError Error.bare =
        ((ofText "[x\"a\"]").readAll s).mapError Error.bare := by
  intro ts s
  have hend : LaidOut (some (.closer .list)) [] [] := .nil (.nothing nofun)
  have hclose : Separates (some (.str "a")) (some (.closer .list)) [] :=
    .nothing fun _ _ _ hb => by cases hb; exact .inr rfl
  have hstr : Separates (some (.word "x")) (some (.str "a")) [] :=
    .nothing fun _ _ _ hb => by cases hb; exact .inr rfl
  have hword : Separates (some (.opener .list)) (some (.word "x")) [] :=
    .nothing fun _ ha _ _ => by cases ha; exact .inl rfl
  have hopen : Separates none (some (.opener .list)) [] := .nothing nofun
  have hclose' : Separates (some (.str "a")) (some (.closer .list)) ['\n'] :=
    .gap (by decide) .nil
  have hstr' : Separates (some (.word "x")) (some (.str "a")) " # one\n".toList :=
    .gap (by decide) (.comment (x := " one".toList) (by decide) .nil)
  have hword' : Separates (some (.opener .list)) (some (.word "x")) [' '] := .gap (by decide) .nil
  have hx (w : String) (hw : Token.word "x" = .word w) :
      (Cursor.start w).lex = ([.word "x"], none) := by
    cases hw
    exact Cursor.lex_eq_word_iff.mpr ⟨rfl, rfl⟩
  have hclosely : LaidOut none ts "[x\"a\"]".toList :=
    .cons hopen nofun (.cons hword hx (.cons hstr nofun (.cons hclose nofun hend)))
  have hwidely : LaidOut none ts "[ x # one\n\"a\"\n]".toList :=
    .cons hopen nofun (.cons hword' hx (.cons hstr' nofun (.cons hclose' nofun hend)))
  exact ⟨hclosely, hwidely, (layouts_read_alike hclosely).2 s hwidely⟩

end Reader

end ReversePolish

import ReversePolish.Proofs.Reader.Root
import ReversePolish.Proofs.Reader.Unit
import ReversePolish.Proofs.Token.Seam

/-!
Reading a text that is continued on a new line. Values that were complete are read alike, and a
form that was open is one that more text can close. With nothing put after it, a text is read
alike wherever in a longer text it stands.
-/

namespace ReversePolish

variable {κ : Type} {s : Setting κ} {w ys : List Char} {r r' : Reader}
  {load : String → Except Error String}

/-- The second reader has the same texts before it as the first one, with `w` put after the root
text. A text that really is continued imports nothing. -/
structure Continues (w : List Char) (r r' : Reader) : Prop where
  imports : r'.imports.map Cursor.after = r.imports.map Cursor.after
  root : r'.root.after = r.root.after ++ w
  seam : Seam w
  plain : w ≠ [] → r.imports = [] ∧ .importing ∉ r'.root.lex.1

/-- How a step goes when `w` is put after the text. -/
inductive AdvanceFollows (w : List Char) : Reader.Advance → Reader.Advance → Prop where
  | token {t : Token} {place place' : Cursor} {r r' : Reader} :
      Continues w r r' → AdvanceFollows w (.token t place r) (.token t place' r')
  | moved {r r' : Reader} : Continues w r r' → AdvanceFollows w (.moved r) (.moved r')
  | failed {e e' : Error} {r r' : Reader} :
      e.isIncomplete = false → e'.isIncomplete = false →
        AdvanceFollows w (.failed e r) (.failed e' r')
  | opened {e e' : Error} {r r' : Reader} :
      w = [] → e.isIncomplete = true → e'.isIncomplete = true →
        AdvanceFollows w (.failed e r) (.failed e' r')
  | ended {r r' : Reader} : w = [] → AdvanceFollows w (.ended r) (.ended r')
  | openGoesOn {e : Error} {r : Reader} {x : Reader.Advance} :
      w ≠ [] → e.isIncomplete = true → AdvanceFollows w (.failed e r) x
  | endGoesOn {r : Reader} {x : Reader.Advance} : w ≠ [] → AdvanceFollows w (.ended r) x

/-- How a reading goes when `w` is put after the text. -/
inductive Follows (w : List Char) : Reading κ → Reading κ → Prop where
  | value {d : Datum κ} {r r' : Reader} : Continues w r r' → Follows w (.value d r) (.value d r')
  | failed {e e' : Error} {r r' : Reader} :
      e.isIncomplete = false → e'.isIncomplete = false → Follows w (.failed e r) (.failed e' r')
  | opened {e e' : Error} {r r' : Reader} :
      w = [] → e.isIncomplete = true → e'.isIncomplete = true →
        Follows w (.failed e r) (.failed e' r')
  | ended {r r' : Reader} : w = [] → Follows w (.ended r) (.ended r')
  | openGoesOn {e : Error} {r : Reader} {x : Reading κ} :
      w ≠ [] → e.isIncomplete = true → Follows w (.failed e r) x
  | endGoesOn {r : Reader} {x : Reading κ} : w ≠ [] → Follows w (.ended r) x

/-! ### Steps -/

lemma Cursor.mem_lex {c start rest : Cursor} {t u : Token} (h : c.scan = .token t start rest)
    (hu : u ∈ rest.lex.1) : u ∈ c.lex.1 := by
  rw [lex_token h]
  exact List.mem_cons_of_mem t hu

/-- The tokens of a text do not depend on where in a longer text it stands. -/
lemma Cursor.mem_lex_congr {c c' : Cursor} {t : Token}
    (h : c'.skipTrivia.after = c.skipTrivia.after) (ht : t ∈ c.lex.1) : t ∈ c'.lex.1 := by
  have hafter : c'.skipTrivia.after = c.skipTrivia.after ++ [] := by simpa using h
  have hpre := lex_prefix .nil hafter
  rw [lex_skipTrivia, lex_skipTrivia] at hpre
  exact hpre.subset ht

namespace Continues

lemma length_imports (h : Continues w r r') : r'.imports.length = r.imports.length := by
  simpa using congrArg List.length h.imports

lemma imports_nil_iff (h : Continues w r r') : r'.imports = [] ↔ r.imports = [] := by
  rw [← List.length_eq_zero_iff, h.length_imports, List.length_eq_zero_iff]

lemma inRoot (h : Continues w r r') : r'.inRoot = r.inRoot := by
  rw [Bool.eq_iff_iff]
  simpa [Reader.inRoot] using h.imports_nil_iff

/-- Where texts are imported nothing has been put after the root text. -/
lemma eq_nil (h : Continues w r r') {c : Cursor} {cs : List Cursor} (hr : r.imports = c :: cs) :
    w = [] := by
  by_contra hw
  have := (h.plain hw).1
  simp [hr] at this

/-- The innermost imported texts and those around them. -/
lemma imports_cons (h : Continues w r r') {c : Cursor} {cs : List Cursor}
    (hr : r.imports = c :: cs) :
    ∃ c' cs', r'.imports = c' :: cs' ∧ c'.after = c.after ∧
      cs'.map Cursor.after = cs.map Cursor.after := by
  have := h.imports
  rw [hr, List.map_cons] at this
  obtain ⟨c', cs', hr', hc, hcs⟩ := List.map_eq_cons_iff.mp this
  exact ⟨c', cs', hr', hc, hcs⟩

lemma place (h : Continues w r r') : r'.place.after = r.place.after ++ w := by
  cases hr : r.imports with
  | nil =>
    rw [Reader.place_root hr, Reader.place_root (h.imports_nil_iff.mpr hr)]
    exact h.root
  | cons c cs =>
    obtain ⟨c', cs', hr', hc, -⟩ := h.imports_cons hr
    simp [Reader.place, hr, hr', hc, h.eq_nil hr]

lemma moveTo (h : Continues w r r') {c c' : Cursor} (hc : c'.after = c.after ++ w)
    (hplain : w ≠ [] → .importing ∉ c'.lex.1) : Continues w (r.moveTo c) (r'.moveTo c') := by
  cases hr : r.imports with
  | nil =>
    have hr' := h.imports_nil_iff.mpr hr
    rw [Reader.moveTo_root hr, Reader.moveTo_root hr']
    exact ⟨by simp [hr, hr'], hc, h.seam, fun hw => ⟨hr, hplain hw⟩⟩
  | cons o os =>
    obtain ⟨o', os', hr', -, hos⟩ := h.imports_cons hr
    have hnil := h.eq_nil hr
    refine ⟨?_, ?_, h.seam, fun hw => (hw hnil).elim⟩
    · simp [Reader.imports_moveTo hr, Reader.imports_moveTo hr', hos, hc, hnil]
    · rw [Reader.root_moveTo hr, Reader.root_moveTo hr']
      exact h.root

/-- The same texts stay the same when trivia is stepped over. -/
lemma startUnit (h : Continues [] r r') : Continues [] r.startUnit r'.startUnit := by
  refine ⟨h.imports, ?_, .nil, fun hw => (hw rfl).elim⟩
  simpa [Reader.startUnit] using Cursor.after_skipTrivia_congr (by simpa using h.root)

end Continues

namespace AdvanceFollows

lemma same_error {e e' : Error} (he : e'.isIncomplete = e.isIncomplete) :
    AdvanceFollows [] (.failed e r) (.failed e' r') := by
  cases h : e.isIncomplete with
  | false => exact .failed h (he.trans h)
  | true => exact .opened rfl h (he.trans h)

end AdvanceFollows

namespace Reader

variable (load) in
lemma openText_follows (h : Continues [] r r') (name : String) :
    AdvanceFollows [] (openText load name r) (openText load name r') := by
  unfold openText
  by_cases hlen : r.imports.length + 1 < maxSources
  · have hlen' : r'.imports.length + 1 < maxSources := by rwa [h.length_imports]
    rw [dif_pos hlen, dif_pos hlen']
    cases load name with
    | ok text =>
      exact .moved ⟨by simp [h.imports], h.root, h.seam, fun hw => (hw rfl).elim⟩
    | error e => exact .same_error rfl
  · have hlen' : ¬ r'.imports.length + 1 < maxSources := by rwa [h.length_imports]
    rw [dif_neg hlen, dif_neg hlen']
    exact .same_error rfl

lemma importText_follows (h : Continues [] r r') {start start' rest rest' : Cursor}
    (hrest : rest'.after = rest.after) :
    AdvanceFollows [] (importText load start rest r) (importText load start' rest' r') := by
  have hmove : ∀ {c c' : Cursor}, c'.after = c.after → Continues [] (r.moveTo c) (r'.moveTo c') :=
    fun hc => h.moveTo (by simpa using hc) fun hw => (hw rfl).elim
  have hafter : rest'.after = rest.after ++ [] := by simpa using hrest
  have hscan := Cursor.scan_append .nil hafter
  unfold importText
  generalize rest.scan = x at hscan
  generalize rest'.scan = x' at hscan
  cases hscan with
  | @token t start rest start' rest' hafter =>
    have hname := openText_follows load (hmove (by simpa using hafter))
    cases t with
    | word name => exact hname name
    | str name => exact hname name
    | _ => exact .failed rfl rfl
  | bad hne => exact .failed rfl rfl
  | openString => exact .failed rfl rfl
  | finished => exact .failed rfl rfl
  | stringGoesOn hw => exact (hw rfl).elim
  | gapGoesOn hw => exact (hw rfl).elim

lemma isIncomplete_scanError (inRoot : Bool) (fault : Token.Fault) (start : Cursor) :
    (scanError inRoot fault start).isIncomplete = (inRoot && fault == .openString) := by
  unfold scanError
  split <;> simp_all [Error.isIncomplete]

/-- **A step is the same when more text follows**, as long as it does not come to the end. -/
lemma advance_follows (h : Continues w r r') :
    AdvanceFollows w (r.advance load) (r'.advance load) := by
  have hscan := Cursor.scan_append h.seam h.place
  generalize hx : r.place.scan = x at hscan
  generalize hx' : r'.place.scan = x' at hscan
  cases hscan with
  | @token t start rest start' rest' hafter =>
    by_cases ht : t = .importing
    · subst ht
      have hnil : w = [] := by
        by_contra hw
        obtain ⟨hr, hplain⟩ := h.plain hw
        rw [place_root (h.imports_nil_iff.mpr hr)] at hx'
        exact hplain (by rw [Cursor.lex_token hx']; exact List.mem_cons_self)
      subst hnil
      rw [advance_of_importing hx, advance_of_importing hx']
      exact importText_follows h (by simpa using hafter)
    · rw [advance_of_token hx ht, advance_of_token hx' ht]
      refine .token (h.moveTo hafter fun hw hmem => ?_)
      obtain ⟨hr, hplain⟩ := h.plain hw
      rw [place_root (h.imports_nil_iff.mpr hr)] at hx'
      exact hplain (Cursor.mem_lex hx' hmem)
  | bad hne =>
    rw [advance_of_bad hx, advance_of_bad hx']
    exact .failed (by simp [isIncomplete_scanError, hne]) (by simp [isIncomplete_scanError, hne])
  | openString hnil =>
    subst hnil
    rw [advance_of_bad hx, advance_of_bad hx']
    exact .same_error (by simp [isIncomplete_scanError, h.inRoot])
  | finished hnil =>
    subst hnil
    cases hr : r.imports with
    | nil =>
      rw [advance_of_finished hx hr, advance_of_finished hx' (h.imports_nil_iff.mpr hr)]
      exact .ended rfl
    | cons o os =>
      obtain ⟨o', os', hr', -, hos⟩ := h.imports_cons hr
      obtain ⟨few, hadv⟩ := advance_of_finished_import load hx hr
      obtain ⟨few', hadv'⟩ := advance_of_finished_import load hx' hr'
      rw [hadv, hadv']
      exact .moved ⟨hos, h.root, h.seam, fun hw => (hw rfl).elim⟩
  | stringGoesOn hw =>
    rw [advance_of_bad hx]
    refine .openGoesOn hw ?_
    simp [isIncomplete_scanError, inRoot, (h.plain hw).1]
  | gapGoesOn hw =>
    rw [advance_of_finished hx (h.plain hw).1]
    exact .endGoesOn hw

/-! ### Readings -/

lemma advance_follows_of (h : Continues w r r') {a : Advance} (hadv : r.advance load = a) :
    AdvanceFollows w a (r'.advance load) := hadv ▸ advance_follows h

/-- Tokens that do the same to the open forms, wherever these were opened. -/
inductive ShiftFollows : Except Error (Shift κ) → Except Error (Shift κ) → Prop where
  | refused {e e' : Error} :
      e.isIncomplete = false → e'.isIncomplete = false → ShiftFollows (.error e) (.error e')
  | value (d : Datum κ) : ShiftFollows (.ok (.value d)) (.ok (.value d))
  | more {forms forms' : List (OpenForm κ)} :
      forms'.map OpenForm.bare = forms.map OpenForm.bare →
        ShiftFollows (.ok (.more forms)) (.ok (.more forms'))

lemma shift_follows {forms forms' : List (OpenForm κ)}
    (hforms : forms'.map OpenForm.bare = forms.map OpenForm.bare) (t : Token)
    (inRoot inRoot' : Bool) (place place' : Cursor) :
    ShiftFollows (s.shift inRoot place t forms) (s.shift inRoot' place' t forms') := by
  have h := s.shift_bare inRoot place t forms
  have h' := s.shift_bare inRoot' place' t forms'
  rw [hforms] at h'
  generalize s.shift inRoot place t forms = x at h
  generalize s.shift inRoot' place' t forms' = x' at h'
  cases x with
  | error e =>
    cases x' with
    | error e' => exact .refused h.2 h'.2
    | ok sh' => simp [h.1] at h'
  | ok sh =>
    cases x' with
    | error e' => simp [h'.1] at h
    | ok sh' =>
      have hsame : sh.bare = sh'.bare := Option.some.inj (h.symm.trans h')
      cases sh <;> cases sh' <;> simp only [Shift.bare, Shift.value.injEq, Shift.more.injEq,
        reduceCtorEq] at hsame
      · exact .more hsame.symm
      · subst hsame
        exact .value _

/-- A token is read the same when more text follows, and does the same to the open forms. -/
lemma token_follows {forms forms' : List (OpenForm κ)} {t : Token} {place : Cursor} {r₁ : Reader}
    {x : Except Error (Shift κ)} (hforms : forms'.map OpenForm.bare = forms.map OpenForm.bare)
    (h : Continues w r r') (hadv : r.advance s.load = .token t place r₁)
    (hs : s.shift r.inRoot place t forms = x) :
    ∃ place' r₁', r'.advance s.load = .token t place' r₁' ∧ Continues w r₁ r₁' ∧
      ShiftFollows x (s.shift r'.inRoot place' t forms') := by
  have hstep := advance_follows_of h hadv
  generalize hadv' : r'.advance s.load = a' at hstep
  cases hstep with
  | token h₁ => exact ⟨_, _, rfl, h₁, hs ▸ shift_follows hforms t _ _ _ _⟩

/-- **A value is read the same when more text follows**, as long as its text is complete. -/
theorem readInside_follows {forms forms' : List (OpenForm κ)}
    (hforms : forms'.map OpenForm.bare = forms.map OpenForm.bare) (h : Continues w r r') :
    Follows w (readInside s forms r) (readInside s forms' r') := by
  induction forms, r using readInside.induct s generalizing forms' r' with
  | case1 forms r r₁ hadv ih =>
    have hstep := advance_follows_of h hadv
    generalize hadv' : r'.advance s.load = a' at hstep
    cases hstep with
    | moved h₁ =>
      rw [readInside_moved hadv, readInside_moved hadv']
      exact ih hforms h₁
  | case2 forms r e r₁ hadv =>
    have hstep := advance_follows_of h hadv
    generalize hadv' : r'.advance s.load = a' at hstep
    rw [readInside_failed hadv]
    cases hstep with
    | failed he he' =>
      rw [readInside_failed hadv']
      exact .failed he he'
    | opened hw he he' =>
      rw [readInside_failed hadv']
      exact .opened hw he he'
    | openGoesOn hw he => exact .openGoesOn hw he
  | case3 r r₁ hadv =>
    have hstep := advance_follows_of h hadv
    generalize hadv' : r'.advance s.load = a' at hstep
    obtain rfl : forms' = [] := by simpa using hforms
    rw [readInside_ended hadv]
    cases hstep with
    | ended hw =>
      rw [readInside_ended hadv']
      exact .ended hw
    | endGoesOn hw => exact .endGoesOn hw
  | case4 r r₁ hadv o os =>
    have hstep := advance_follows_of h hadv
    generalize hadv' : r'.advance s.load = a' at hstep
    rw [readInside_ended hadv]
    cases hstep with
    | ended hw =>
      rw [readInside_ended hadv']
      cases forms' with
      | nil => simp at hforms
      | cons o' os' => exact .opened hw rfl rfl
    | endGoesOn hw => exact .openGoesOn hw rfl
  | case5 forms r t place r₁ hadv e hs =>
    obtain ⟨place', r₁', hadv', h₁, hshift⟩ := token_follows hforms h hadv hs
    rw [readInside_token hadv, readInside_token hadv', hs]
    generalize s.shift r'.inRoot place' t forms' = x at hshift
    cases hshift with
    | refused he he' => exact .failed he he'
  | case6 forms r t place r₁ hadv d hs =>
    obtain ⟨place', r₁', hadv', h₁, hshift⟩ := token_follows hforms h hadv hs
    rw [readInside_token hadv, readInside_token hadv', hs]
    generalize s.shift r'.inRoot place' t forms' = x at hshift
    cases hshift with
    | value => exact .value h₁
  | case7 forms r t place r₁ hadv forms₁ hs ih =>
    obtain ⟨place', r₁', hadv', h₁, hshift⟩ := token_follows hforms h hadv hs
    rw [readInside_token hadv, readInside_token hadv', hs]
    generalize s.shift r'.inRoot place' t forms' = x at hshift
    cases hshift with
    | more hforms₁ => exact ih hforms₁ h₁

/-! ### The next value -/

/-- With something left before the end, the next value is read the same when more text follows. -/
theorem next_follows (hr : r.imports = []) (hr' : r'.imports = [])
    (hroot : r'.root.skipTrivia.after = r.root.skipTrivia.after ++ w) (hw : Seam w)
    (hplain : w ≠ [] → .importing ∉ r'.root.lex.1) : Follows w (r.next s) (r'.next s) := by
  refine readInside_follows rfl ⟨?_, hroot, hw, fun hne => ⟨hr, ?_⟩⟩
  · simp [startUnit, hr, hr']
  · simpa [startUnit] using hplain hne

/-- The next value is read the same off the same texts. -/
theorem next_congr (h : Continues [] r.startUnit r'.startUnit) :
    Follows [] (r.next s) (r'.next s) := readInside_follows rfl h

lemma next_of_gap (hr : r.imports = []) (h : r.root.skipTrivia.after = []) :
    ∃ r', r.next s = .ended r' := by
  have hscan : r.startUnit.root.scan = .finished r.startUnit.root := by
    rw [startUnit, Cursor.scan_skipTrivia, Cursor.scan, Cursor.scanToken_nil h]
  exact ⟨_, readInside_ended (advance_finished (r := r.startUnit) hr hscan)⟩

/-- Where something is left of the text, reading does not end. -/
lemma gap_of_next_ended (hr : r.imports = []) (hplain : .importing ∉ r.root.lex.1)
    (h : r.next s = .ended r') : r.root.skipTrivia.after = [] := by
  have hr : r.startUnit.imports = [] := hr
  have hscan : r.startUnit.root.scan = r.root.scan := Cursor.scan_skipTrivia r.root
  cases hx : r.root.scan with
  | finished place => exact Cursor.scanToken_finished hx
  | bad fault start =>
    rw [next, readInside_failed (advance_bad hr (hscan.trans hx))] at h
    cases h
  | token t start rest =>
    have ht : t ≠ .importing := by
      rintro rfl
      exact hplain (by rw [Cursor.lex_token hx]; exact List.mem_cons_self)
    rw [next, readInside_token (advance_token hr (hscan.trans hx) ht)] at h
    cases hs : s.shift r.startUnit.inRoot start t [] with
    | error e => rw [hs] at h; cases h
    | ok sh =>
      cases sh with
      | value d => rw [hs] at h; cases h
      | more forms =>
        rw [hs] at h
        exact (readInside_ne_ended (Setting.ne_nil_of_shift hs) h).elim

end Reader

end ReversePolish

import ReversePolish.Proofs.Reader.Root

/-!
Reading a list of tokens. A text that imports nothing is read like the list of its tokens.
-/

namespace ReversePolish

variable {κ : Type}

/-- What tokens come to when a value is read off them. -/
inductive Parse (κ : Type) where
  /-- A value, and the tokens after it. -/
  | value (d : Datum κ) (rest : List Token)
  /-- The tokens end inside these forms. -/
  | opened (forms : List (OpenForm κ))
  /-- A token stands where it cannot stand. -/
  | refused

namespace Setting

variable (s : Setting κ)

def parse (forms : List (OpenForm κ)) : List Token → Parse κ
  | [] => .opened forms
  | t :: ts =>
    match s.take? t forms with
    | none => .refused
    | some (.value d) => .value d ts
    | some (.more forms) => parse forms ts

variable {s} {forms forms' : List (OpenForm κ)} {t : Token} {ts : List Token}

@[simp] lemma parse_nil : s.parse forms [] = .opened forms := rfl

lemma parse_refused (h : s.take? t forms = none) : s.parse forms (t :: ts) = .refused := by
  rw [parse, h]

lemma parse_value {d : Datum κ} (h : s.take? t forms = some (.value d)) :
    s.parse forms (t :: ts) = .value d ts := by
  rw [parse, h]

lemma parse_more (h : s.take? t forms = some (.more forms')) :
    s.parse forms (t :: ts) = s.parse forms' ts := by
  rw [parse, h]

/-- Tokens are read one by one, so more tokens change nothing about the first ones. -/
theorem parse_append (forms : List (OpenForm κ)) (ts us : List Token) :
    s.parse forms (ts ++ us) =
      match s.parse forms ts with
      | .value d rest => .value d (rest ++ us)
      | .opened forms' => s.parse forms' us
      | .refused => .refused := by
  induction ts generalizing forms with
  | nil => rfl
  | cons t ts ih =>
    rw [List.cons_append]
    rcases h : s.take? t forms with _ | ⟨forms'⟩ | ⟨d⟩
    · rw [parse_refused h, parse_refused h]
    · rw [parse_more h, parse_more h, ih]
    · rw [parse_value h, parse_value h]

end Setting

/-- How a reading answers to what the tokens of the text come to. The value being read begins at
`unit`. -/
inductive Reads (unit : Cursor) : Parse κ → Reading κ → Prop where
  | value {d : Datum κ} {rest : List Token} {r : Reader} :
      r.imports = [] → r.root.lex = (rest, none) → Reads unit (.value d rest) (.value d r)
  | ended {r : Reader} : Reads unit (.opened []) (.ended r)
  | opened {o : OpenForm κ} {os : List (OpenForm κ)} {e : Error} {r : Reader} :
      e.isIncomplete = true → r.unit = unit → Reads unit (.opened (o :: os)) (.failed e r)
  | refused {e : Error} {r : Reader} :
      e.isIncomplete = false → Reads unit .refused (.failed e r)

namespace Reader

variable {s : Setting κ} {r : Reader} {ts : List Token}

/-- **A text without imports is read like its tokens.** -/
theorem readInside_parse (forms : List (OpenForm κ)) (himp : r.imports = [])
    (hlex : r.root.lex = (ts, none)) (hts : .importing ∉ ts) :
    Reads r.unit (s.parse (forms.map OpenForm.bare) ts) (readInside s forms r) := by
  induction ts generalizing r forms with
  | nil =>
    cases hscan : r.root.scan with
    | token t start rest => simp [Cursor.lex_token hscan] at hlex
    | bad fault start => simp [Cursor.lex_bad hscan] at hlex
    | finished stop =>
      rw [readInside_ended (advance_finished himp hscan)]
      cases forms with
      | nil => exact .ended
      | cons o os => exact .opened rfl rfl
  | cons t ts ih =>
    cases hscan : r.root.scan with
    | finished stop => simp [Cursor.lex_finished hscan] at hlex
    | bad fault start => simp [Cursor.lex_bad hscan] at hlex
    | token t' start rest =>
      simp only [Cursor.lex_token hscan, Prod.mk.injEq, List.cons.injEq] at hlex
      obtain ⟨⟨rfl, hrest⟩, hnone⟩ := hlex
      have hne : t' ≠ .importing := fun h => hts (h ▸ List.mem_cons_self)
      have hlex : rest.lex = (ts, none) := Prod.ext hrest hnone
      rw [readInside_token (advance_token himp hscan hne)]
      have hshift := s.shift_bare r.inRoot start t' forms
      revert hshift
      cases s.shift r.inRoot start t' forms with
      | error e =>
        rintro ⟨htake, he⟩
        rw [Setting.parse_refused htake]
        exact .refused he
      | ok sh =>
        intro htake
        cases sh with
        | value d =>
          rw [Setting.parse_value htake]
          exact .value himp hlex
        | more forms' =>
          rw [Setting.parse_more htake]
          refine ih (r := { r with root := rest }) forms' himp hlex fun h => hts ?_
          exact List.mem_cons_of_mem t' h

lemma next_parse (himp : r.imports = []) (hlex : r.root.lex = (ts, none))
    (hts : .importing ∉ ts) :
    Reads r.root.skipTrivia (s.parse [] ts) (r.next s) :=
  readInside_parse (r := r.startUnit) [] himp (by simpa [startUnit] using hlex) hts

/-! ### All values of a text -/

lemma readAll_value {d : Datum κ} {r' : Reader} (h : r.next s = .value d r') :
    r.readAll s = (do let ds ← r'.readAll s; return d :: ds) := by
  rw [readAll]; split <;> simp_all

lemma readAll_ended {r' : Reader} (h : r.next s = .ended r') : r.readAll s = .ok [] := by
  rw [readAll]; split <;> simp_all

lemma readAll_failed {e : Error} {r' : Reader} (h : r.next s = .failed e r') :
    r.readAll s = .error e := by
  rw [readAll]; split <;> simp_all

lemma next_of_readAll_nil (h : r.readAll s = .ok []) : ∃ r', r.next s = .ended r' := by
  cases hr : r.next s with
  | value d r' =>
    rw [readAll_value hr] at h
    cases hds : r'.readAll s <;> rw [hds] at h <;> cases h
  | ended r' => exact ⟨r', rfl⟩
  | failed e r' =>
    rw [readAll_failed hr] at h
    cases h

lemma next_of_readAll_cons {d : Datum κ} {ds : List (Datum κ)} (h : r.readAll s = .ok (d :: ds)) :
    ∃ r', r.next s = .value d r' ∧ r'.readAll s = .ok ds := by
  cases hr : r.next s with
  | value d' r' =>
    rw [readAll_value hr] at h
    cases hds : r'.readAll s <;> rw [hds] at h <;> cases h
    exact ⟨r', rfl, hds⟩
  | ended r' =>
    rw [readAll_ended hr] at h
    cases h
  | failed e r' =>
    rw [readAll_failed hr] at h
    cases h

end Reader

end ReversePolish

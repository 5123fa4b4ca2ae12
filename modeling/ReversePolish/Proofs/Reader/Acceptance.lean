import ReversePolish.Proofs.Reader.Completeness

/-!
The reader accepts exactly what the grammar derives, and a text that breaks off inside a form is
reported as unterminated.

While a value is read, the tokens read so far spell the open forms: each form has been opened, its
complete sections are values followed by their dividers, and the section being read is values.
-/

namespace ReversePolish

open Grammar

variable {κ : Type} {s : Setting κ} {n : Nat} {t : Token} {xs ts us rest : List Token}
  {d : Datum κ} {ds vs : List (Datum κ)} {o o' : OpenForm κ} {os forms forms' : List (OpenForm κ)}

lemma Error.isIncomplete_iff {e : Error} : e.isIncomplete = true ↔ ∃ c, e = .unterminated c := by
  cases e <;> simp [isIncomplete]

namespace Setting

/-- **What a token that is not refused does.** -/
lemma take?_cases {sh : Shift κ} (h : s.take? t forms = some sh) :
    (∃ d, Atom s t d ∧ sh = .emit d forms) ∨
    (∃ f, t = .opener f ∧ forms.length < s.maxDepth ∧ sh = .more (.fresh f :: forms)) ∨
    (∃ o os d, forms = o :: os ∧ t = .closer o.form ∧
      o.close s.home = .ok (.ok d) ∧ sh = .emit d os) ∨
    ∃ o os m o', forms = o :: os ∧ t = .divider m ∧ o.divide m = .ok o' ∧
      sh = .more (o' :: os) := by
  cases t with
  | opener f =>
    rw [take?_opener] at h
    split at h
    · cases h
    · exact .inr (.inl ⟨f, rfl, by omega, (Option.some.inj h).symm⟩)
  | closer f =>
    cases forms with
    | nil => cases h
    | cons o os =>
      rw [take?_closer] at h
      split at h
      · next hf =>
        split at h
        · next d hd =>
          exact .inr (.inr (.inl ⟨o, os, d, rfl, hf ▸ rfl, hd, (Option.some.inj h).symm⟩))
        · cases h
      · cases h
  | divider m =>
    cases forms with
    | nil => cases h
    | cons o os =>
      rw [take?_divider] at h
      cases hd : o.divide m with
      | error e => simp [hd, Except.toOption] at h
      | ok o' =>
        simp only [hd, Except.toOption, Option.map_some, Option.some.injEq] at h
        exact .inr (.inr (.inr ⟨o, os, m, o', rfl, rfl, hd, h.symm⟩))
  | exit =>
    cases hc : s.lookup Token.exitName with
    | none => simp [take?, shift, hc, Except.toOption] at h
    | some c =>
      have ha : Atom s .exit (.command c false) := .exit hc
      exact .inl ⟨_, ha, by rw [take?_atom ha] at h; exact (Option.some.inj h).symm⟩
  | int i => exact .inl ⟨_, .int i, (Option.some.inj h).symm⟩
  | str v => exact .inl ⟨_, .str v, (Option.some.inj h).symm⟩
  | none => exact .inl ⟨_, .none, (Option.some.inj h).symm⟩
  | word w => exact .inl ⟨_, .word w, (Option.some.inj h).symm⟩
  | importing => cases h

end Setting

/-! ### Open forms and their tokens -/

namespace Grammar

open Setting

variable (s) in
/-- The complete sections of an open form, and the tokens of each with the divider after it. -/
inductive Sections (n : Nat) : Form → List (List (Datum κ)) → List Token → Prop where
  | opened (f : Form) : Sections n f [] []
  | condition {cs : List Token} {cond : List (Datum κ)} :
      Values s n cs cond → Sections n .branch [cond] (cs ++ [.divider .thenPart])
  | alternatives {cs xs : List Token} {cond thn : List (Datum κ)} :
      Values s n cs cond → Values s n xs thn →
        Sections n .branch [cond, thn]
          (cs ++ .divider .thenPart :: (xs ++ [.divider .elsePart]))
  | test {cs : List Token} {cond : List (Datum κ)} :
      Values s n cs cond → Sections n .loop [cond] (cs ++ [.divider .repeatPart])

/-- What stands inside an open form, after its opener. -/
def Inside (s : Setting κ) (n : Nat) (o : OpenForm κ) (ts : List Token) : Prop :=
  ∃ hs xs, Sections s n o.form o.sections hs ∧ Values s n xs o.items ∧ ts = hs ++ xs

variable (s) in
/-- The tokens that lead to these open forms. -/
inductive Spells : List (OpenForm κ) → List Token → Prop where
  | nil : Spells [] []
  | cons {o : OpenForm κ} {os : List (OpenForm κ)} {n : Nat} {us ts : List Token} :
      Spells os us → os.length + (n + 1) = s.maxDepth → Inside s n o ts →
        Spells (o :: os) (us ++ .opener o.form :: ts)

/-- What the tokens read so far must be for this to come of them. -/
def Reaches (s : Setting κ) (us : List Token) : Shift κ → Prop
  | .more forms => Spells s forms us
  | .value d => Values s s.maxDepth us [d]

lemma Inside.fresh (f : Form) : Inside s n (.fresh f) [] :=
  ⟨[], [], .opened f, .nil, rfl⟩

lemma Inside.push (h : Inside s n o ts) (hx : Values s n xs [d]) :
    Inside s n (o.push d) (ts ++ xs) := by
  obtain ⟨hs, ys, hsec, hys, rfl⟩ := h
  exact ⟨hs, ys ++ xs, hsec, by simpa using hys.append hx, by simp⟩

lemma Inside.divide {m : Divider} (h : Inside s n o ts) (hd : o.divide m = .ok o') :
    o'.form = o.form ∧ Inside s n o' (ts ++ [.divider m]) := by
  obtain ⟨hs, ys, hsec, hys, rfl⟩ := h
  obtain ⟨form, origin, sections, values⟩ := o
  dsimp only at hsec
  cases hsec with
  | opened =>
    cases form <;> cases m <;> cases hd
    · exact ⟨rfl, _, [], .condition hys, .nil, by simp⟩
    · exact ⟨rfl, _, [], .test hys, .nil, by simp⟩
  | condition hc =>
    cases m <;> cases hd
    exact ⟨rfl, _, [], .alternatives hc hys, .nil, by simp⟩
  | alternatives hc hx => cases m <;> cases hd
  | test hc => cases m <;> cases hd

lemma entries_of_pairs {es : List (Key × Datum κ)} (hlen : ds.length % 2 = 0)
    (h : OpenForm.pairs ds = .ok es) : Entries ds es := by
  induction ds using OpenForm.pairs.induct generalizing es with
  | case1 k v rest ih =>
    rw [OpenForm.pairs] at h
    cases hk : k.key with
    | error e => rw [hk] at h; cases h
    | ok key =>
      cases hr : OpenForm.pairs rest with
      | error e => rw [hk, hr] at h; cases h
      | ok es' =>
        rw [hk, hr] at h
        cases h
        exact .cons hk (ih (by simp only [List.length_cons] at hlen; omega) hr)
  | case2 ds hne =>
    rcases ds with _ | ⟨k, _ | ⟨v, rest⟩⟩
    · cases h
      exact .nil
    · simp at hlen
    · exact (hne k v rest rfl).elim

/-- What stands inside a form that can be closed makes a value of the grammar. -/
lemma Inside.close (h : Inside s n o ts)
    (hc : o.close s.home = .ok (.ok d)) :
    Values s (n + 1) (.opener o.form :: (ts ++ [.closer o.form])) [d] := by
  obtain ⟨hs, ys, hsec, hys, rfl⟩ := h
  obtain ⟨form, origin, sections, values⟩ := o
  dsimp only at hsec hys ⊢
  cases hsec with
  | opened =>
    cases form with
    | list => cases hc; exact .list hys .nil
    | map =>
      simp only [OpenForm.close] at hc
      split at hc
      · next hlen =>
        cases hp : OpenForm.pairs (OpenForm.items ⟨.map, origin, [], values⟩) with
        | error e => rw [hp] at hc; cases hc
        | ok es =>
          rw [hp] at hc
          cases hc
          exact .map hys (entries_of_pairs hlen hp) .nil
      · cases hc
    | program => cases hc; exact .program hys .nil
    | branch => cases hc
    | each => cases hc; exact .each hys .nil
    | loop => cases hc
  | condition hcond => cases hc; simpa using Values.branch hcond hys .nil
  | alternatives hcond hthn => cases hc; simpa using Values.branchElse hcond hthn hys .nil
  | test hcond => cases hc; simpa using Values.loop hcond hys .nil

/-- A complete value goes into the innermost form, or it is all that the tokens are. -/
lemma Spells.emit (h : Spells s os us) (hn : os.length + n = s.maxDepth)
    (hx : Values s n xs [d]) : Reaches s (us ++ xs) (.emit d os) := by
  cases h with
  | nil =>
    obtain rfl : n = s.maxDepth := by simpa using hn
    exact hx
  | @cons o os n' us ts hus hn' hin =>
    obtain rfl : n' = n := by simp only [List.length_cons] at hn; omega
    simpa [Shift.emit, Reaches] using Spells.cons hus hn' (hin.push hx)

/-- **One token keeps the open forms spelt.** -/
lemma Spells.step (h : Spells s forms us) {sh : Shift κ} (ht : s.take? t forms = some sh) :
    Reaches s (us ++ [t]) sh := by
  have hdepth : ∃ n, forms.length + n = s.maxDepth := by
    cases h with
    | nil => exact ⟨s.maxDepth, by simp⟩
    | @cons o os n us ts hus hn hin => exact ⟨n, by simp only [List.length_cons]; omega⟩
  obtain ⟨n, hn⟩ := hdepth
  rcases take?_cases ht with ⟨d, ha, rfl⟩ | ⟨f, rfl, hlt, rfl⟩ | ⟨o, os, d, rfl, rfl, hc, rfl⟩ |
    ⟨o, os, m, o', rfl, rfl, hd, rfl⟩
  · exact h.emit hn (.atom ha .nil)
  · exact .cons h (n := n - 1) (by omega) (.fresh f)
  · cases h with
    | @cons _ _ n' us ts hus hn' hin => simpa using hus.emit hn' (hin.close hc)
  · cases h with
    | @cons _ _ n' us ts hus hn' hin =>
      obtain ⟨hform, hin'⟩ := hin.divide hd
      simpa [hform, Reaches] using Spells.cons hus hn' hin'

/-- **What is read is a value of the grammar**, and where the tokens end too soon they spell the
forms that are open. -/
theorem Spells.parse (h : Spells s forms us) (ts : List Token) :
    match s.parse forms ts with
    | .value d rest => ∃ xs, ts = xs ++ rest ∧ Values s s.maxDepth (us ++ xs) [d]
    | .opened forms' => Spells s forms' (us ++ ts)
    | .refused => True := by
  induction ts generalizing forms us with
  | nil => simpa using h
  | cons t ts ih =>
    rcases ht : s.take? t forms with _ | ⟨forms'⟩ | ⟨d⟩
    · rw [parse_refused ht]
      trivial
    · have hrest := ih (h.step ht)
      rw [parse_more ht]
      revert hrest
      cases s.parse forms' ts with
      | value d rest =>
        rintro ⟨xs, rfl, hxs⟩
        exact ⟨t :: xs, rfl, by simpa using hxs⟩
      | opened forms' => intro hrest; simpa using hrest
      | refused => intro _; trivial
    · rw [parse_value ht]
      exact ⟨[t], rfl, h.step ht⟩

end Grammar

/-! ### Whole texts -/

namespace Grammar

open Setting

/-- What one value is read off, at top level. -/
lemma values_of_parse (h : s.parse [] ts = .value d rest) :
    ∃ xs, ts = xs ++ rest ∧ xs ≠ [] ∧ Values s s.maxDepth xs [d] := by
  have := (Spells.nil (s := s)).parse ts
  rw [h] at this
  obtain ⟨xs, rfl, hxs⟩ := this
  refine ⟨xs, rfl, ?_, hxs⟩
  rintro rfl
  simp at hxs

lemma nil_of_parse_opened (h : s.parse [] ts = .opened []) : ts = [] := by
  have := (Spells.nil (s := s)).parse ts
  rw [h] at this
  generalize hus : [] ++ ts = us at this
  cases this
  simpa using hus

/-- Tokens that are read as a value are this value and those that the rest is. -/
lemma values_iff_of_parse (hp : s.parse [] ts = .value d rest) :
    Values s s.maxDepth ts vs ↔ ∃ ds, vs = d :: ds ∧ Values s s.maxDepth rest ds := by
  constructor
  · intro h
    cases vs with
    | nil =>
      rw [h.eq_nil] at hp
      cases hp
    | cons d' ds =>
      obtain ⟨us, hus, hds⟩ := h.parse_first
      obtain ⟨rfl, rfl⟩ : d = d' ∧ rest = us := by simpa [hus] using hp.symm
      exact ⟨ds, rfl, hds⟩
  · rintro ⟨ds, rfl, hds⟩
    obtain ⟨xs, rfl, -, hxs⟩ := values_of_parse hp
    exact hxs.append hds

/-- Tokens that are not read as a value are no values. -/
lemma not_values_of_parse (hne : ts ≠ []) (hp : ∀ d rest, s.parse [] ts ≠ .value d rest) :
    ¬ Values s s.maxDepth ts vs := by
  intro h
  cases vs with
  | nil => exact hne h.eq_nil
  | cons d ds =>
    obtain ⟨us, hus, -⟩ := h.parse_first
    exact hp d us hus

end Grammar

namespace Reader

variable {r : Reader}

open Setting

/-- **A reader reads what the grammar derives, and nothing else.** -/
lemma readAll_iff (himp : r.imports = []) (hlex : r.root.lex = (ts, none))
    (hts : .importing ∉ ts) (vs : List (Datum κ)) :
    r.readAll s = .ok vs ↔ Values s s.maxDepth ts vs := by
  induction hlen : ts.length using Nat.strongRecOn generalizing ts r vs with
  | _ len ih =>
    have hread := next_parse (s := s) himp hlex hts
    cases hp : s.parse [] ts with
    | value d rest =>
      rw [hp] at hread
      generalize hnext : r.next s = reading at hread
      cases hread with
      | @value d rest r' himp' hlex' =>
        rw [readAll_value hnext, values_iff_of_parse hp]
        obtain ⟨xs, rfl, hne, -⟩ := values_of_parse hp
        have hshort : rest.length < len := by
          have := List.length_pos_iff.mpr hne
          simp only [List.length_append] at hlen
          omega
        have hrest : .importing ∉ rest := fun h => hts (List.mem_append_right xs h)
        simp_rw [← ih rest.length hshort himp' hlex' hrest _ rfl]
        cases r'.readAll s with
        | error e => simp [bind, Except.bind]
        | ok ds => simp [bind, Except.bind, pure, Except.pure, eq_comm]
    | opened forms =>
      rw [hp] at hread
      generalize hnext : r.next s = reading at hread
      cases hread with
      | ended =>
        obtain rfl := nil_of_parse_opened hp
        rw [readAll_ended hnext, values_nil]
        exact ⟨fun h => (Except.ok.inj h).symm, fun h => congrArg Except.ok h.symm⟩
      | opened he hu =>
        have hne : ts ≠ [] := by
          rintro rfl
          simp at hp
        have hnone : ∀ d rest, s.parse [] ts ≠ .value d rest := by simp [hp]
        simp [readAll_failed hnext, not_values_of_parse hne hnone]
    | refused =>
      rw [hp] at hread
      generalize hnext : r.next s = reading at hread
      cases hread with
      | refused he =>
        have hne : ts ≠ [] := by
          rintro rfl
          simp at hp
        have hnone : ∀ d rest, s.parse [] ts ≠ .value d rest := by simp [hp]
        simp [readAll_failed hnext, not_values_of_parse hne hnone]

/-- **A text that breaks off inside a form is reported as unterminated**, if it is the beginning
of values. -/
lemma readAll_prefix {ps qs : List Token} (himp : r.imports = []) (hlex : r.root.lex = (ps, none))
    (hps : .importing ∉ ps) (h : Values s s.maxDepth (ps ++ qs) vs) (hin : StopsInside ps) :
    ∃ c, r.readAll s = .error (.unterminated c) := by
  induction vs generalizing ps r with
  | nil =>
    obtain ⟨rfl, -⟩ := List.append_eq_nil_iff.mp h.eq_nil
    exact (not_stopsInside_nil hin).elim
  | cons d ds ih =>
    have hread := next_parse (s := s) himp hlex hps
    obtain ⟨us, hus, hds⟩ := h.parse_first
    rw [parse_append] at hus
    cases hp : s.parse [] ps with
    | value d' rest =>
      rw [hp] at hread hus
      obtain ⟨rfl, rfl⟩ := Parse.value.inj hus
      generalize hnext : r.next s = reading at hread
      cases hread with
      | @value d rest r' himp' hlex' =>
        obtain ⟨xs, rfl, -, hxs⟩ := values_of_parse hp
        have hrest : .importing ∉ rest := fun h => hps (List.mem_append_right xs h)
        have hin' : StopsInside rest := by
          have := hxs.openers_eq_closers
          simp only [StopsInside, openers_append, closers_append] at hin ⊢
          omega
        obtain ⟨c, hc⟩ := ih himp' hlex' hrest hds hin'
        exact ⟨c, by rw [readAll_value hnext, hc]; rfl⟩
    | opened forms =>
      rw [hp] at hread
      generalize hnext : r.next s = reading at hread
      cases hread with
      | ended =>
        rw [nil_of_parse_opened hp] at hin
        exact (not_stopsInside_nil hin).elim
      | opened he hu =>
        obtain ⟨c, rfl⟩ := Error.isIncomplete_iff.mp he
        exact ⟨c, readAll_failed hnext⟩
    | refused =>
      rw [hp] at hus
      cases hus

end Reader

/-- **The reader accepts exactly its grammar.** A text of tokens that import nothing is read with
success if and only if its tokens are values of the grammar, and then it is read as these values.
Whatever text has the first tokens of such a text, and ends inside a form, is unterminated. -/
theorem readAll_eq_ok_iff_values (s : Setting κ) {text : String}
    (hlex : (Cursor.start text).lex = (ts, none)) (hts : .importing ∉ ts) :
    (∀ vs, (Reader.ofText text).readAll s = .ok vs ↔ Values s s.maxDepth ts vs) ∧
    ∀ vs, (Reader.ofText text).readAll s = .ok vs → ∀ ps qs, ts = ps ++ qs → StopsInside ps →
      ∀ text', (Cursor.start text').lex = (ps, none) →
        ∃ c, (Reader.ofText text').readAll s = .error (.unterminated c) := by
  have hread := Reader.readAll_iff (s := s) (r := .ofText text) rfl hlex hts
  refine ⟨hread, fun vs hvs ps qs hps hin text' hlex' => ?_⟩
  subst hps
  exact Reader.readAll_prefix rfl hlex' (fun h => hts (List.mem_append_left qs h))
    ((hread vs).mp hvs) hin

theorem readAll_list_of_one :
    let s : Setting Nat := ⟨fun _ => none, "main", fun _ => .error .noFrame, 1⟩
    (Cursor.start "[ 1 ]").lex = ([.opener .list, .int 1, .closer .list], none) ∧
    (Reader.ofText "[ 1 ]").readAll s = .ok [.list [.int 1]] ∧
    (Cursor.start "[ 1").lex = ([.opener .list, .int 1], none) ∧
    ∃ c, (Reader.ofText "[ 1").readAll s = .error (.unterminated c) := by
  intro s
  have hlex : (Cursor.start "[ 1 ]").lex = ([.opener .list, .int 1, .closer .list], none) := by
    rw [show "[ 1 ]" = " ".intercalate
      ([.opener .list, .int 1, .closer .list].map Token.spelling) by decide]
    exact Cursor.lex_intercalate (by simp [Token.Spelt])
  have hlex' : (Cursor.start "[ 1").lex = ([.opener .list, .int 1], none) := by
    rw [show "[ 1" = " ".intercalate ([.opener .list, .int 1].map Token.spelling) by decide]
    exact Cursor.lex_intercalate (by simp [Token.Spelt])
  obtain ⟨hread, hprefix⟩ := readAll_eq_ok_iff_values s hlex (by simp)
  have hok := (hread [.list [.int 1]]).mpr (.list (.atom (.int 1) .nil) .nil)
  exact ⟨hlex, hok, hlex', hprefix _ hok [.opener .list, .int 1] [.closer .list] rfl
    (by simp [StopsInside, openers, closers]) _ hlex'⟩

end ReversePolish

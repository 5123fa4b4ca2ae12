import ReversePolish.Proofs.Reader.Tokens

/-!
Reading where texts import others. The tokens that come to the forms are one stream, in which the
tokens of an imported text stand in place of its import, and the stream alone decides what is
read. Where its tokens stand shows only in the excerpts of diagnostics.
-/

namespace ReversePolish

variable {κ : Type} {load : String → Except Error String} {n : Nat} {c rest : Cursor}
  {cs : List Cursor} {ts us : List Token}

/-- The name that stands behind `import`, and where it ends. -/
def Scan.name? : Scan → Option (String × Cursor)
  | .token (.word name) _ rest => some (name, rest)
  | .token (.str name) _ rest => some (name, rest)
  | _ => none

/-- `Streams load n c ts`: from `c` on, the tokens `ts` come off a text, where imports nest at most
`n` deep. -/
inductive Streams (load : String → Except Error String) : Nat → Cursor → List Token → Prop where
  | finished {n : Nat} {c place : Cursor} : c.scan = .finished place → Streams load n c []
  | token {n : Nat} {c start rest : Cursor} {t : Token} {ts : List Token} :
      c.scan = .token t start rest → t ≠ .importing → Streams load n rest ts →
        Streams load n c (t :: ts)
  | importing {n : Nat} {c start rest rest' : Cursor} {name text : String} {us ts : List Token} :
      c.scan = .token .importing start rest → rest.scan.name? = some (name, rest') →
        load name = .ok text → Streams load n (.start text) us → Streams load (n + 1) rest' ts →
          Streams load (n + 1) c (us ++ ts)

/-- A text that imports nothing streams its own tokens. -/
lemma Streams.of_lex (h : c.lex = (ts, none)) (hts : .importing ∉ ts) : Streams load n c ts := by
  induction ts generalizing c with
  | nil =>
    cases hscan : c.scan with
    | token t start rest => simp [Cursor.lex_token hscan] at h
    | bad fault start => simp [Cursor.lex_bad hscan] at h
    | finished place => exact .finished hscan
  | cons t ts ih =>
    cases hscan : c.scan with
    | finished place => simp [Cursor.lex_finished hscan] at h
    | bad fault start => simp [Cursor.lex_bad hscan] at h
    | token u start rest =>
      simp only [Cursor.lex_token hscan, Prod.mk.injEq, List.cons.injEq] at h
      obtain ⟨⟨rfl, hrest⟩, hnone⟩ := h
      obtain ⟨hu, hts⟩ := not_or.mp (mt List.mem_cons.mpr hts)
      exact .token hscan (Ne.symm hu) (ih (Prod.ext hrest hnone) hts)

lemma Streams.skipTrivia (h : Streams load n c ts) : Streams load n c.skipTrivia ts := by
  cases h with
  | finished hscan => exact .finished (by simpa using hscan)
  | token hscan ht hrest => exact .token (by simpa using hscan) ht hrest
  | importing hscan hname hload htext hrest =>
    exact .importing (by simpa using hscan) hname hload htext hrest

variable (load) in
/-- The tokens that come off texts that are open one inside the other, innermost first, where
imports nest at most `n` deep below the outermost one. -/
inductive StreamsAll (n : Nat) : List Cursor → List Token → Prop where
  | nil : StreamsAll n [] []
  | cons {k : Nat} {c : Cursor} {cs : List Cursor} {us ts : List Token} :
      k + cs.length ≤ n → Streams load k c us → StreamsAll n cs ts →
        StreamsAll n (c :: cs) (us ++ ts)

lemma StreamsAll.outermost {c' : Cursor} (h : StreamsAll load n (cs ++ [c]) ts)
    (hc : ∀ {k us}, Streams load k c us → Streams load k c' us) :
    StreamsAll load n (cs ++ [c']) ts := by
  induction cs generalizing ts with
  | nil =>
    cases h with
    | cons hk hus hnil => exact .cons hk (hc hus) hnil
  | cons d cs ih =>
    cases h with
    | cons hk hus hcs => exact .cons (by simpa using hk) hus (ih hcs)

namespace Reader

variable {r r' : Reader} {s : Setting κ} {t : Token}

/-- The open texts, innermost first. -/
def sources (r : Reader) : List Cursor := r.imports ++ [r.root]

lemma sources_eq (r : Reader) : ∃ cs, r.sources = r.place :: cs ∧ cs.length = r.imports.length ∧
    ∀ c, (r.moveTo c).sources = c :: cs := by
  cases h : r.imports with
  | nil => exact ⟨[], by simp [sources, place, h, moveTo_root h]⟩
  | cons o os =>
    refine ⟨os ++ [r.root], by simp [sources, place, h], by simp, fun c => ?_⟩
    simp [sources, imports_moveTo h, root_moveTo h]

/-- The tokens that a reader is still given. -/
def Gets (load : String → Except Error String) (n : Nat) (r : Reader) (ts : List Token) : Prop :=
  StreamsAll load n r.sources ts

/-- How a step takes the tokens that a reader is still given. It goes wrong only where an import
would open more texts than may be open at once. -/
inductive AdvanceTakes (load : String → Except Error String) (n : Nat) :
    List Token → Advance → Prop where
  | token {t : Token} {ts : List Token} {place : Cursor} {r : Reader} :
      r.Gets load n ts → AdvanceTakes load n (t :: ts) (.token t place r)
  | moved {ts : List Token} {r : Reader} :
      r.Gets load n ts → AdvanceTakes load n ts (.moved r)
  | ended {r : Reader} : AdvanceTakes load n [] (.ended r)
  | tooMany {ts : List Token} {name : String} {r : Reader} :
      maxSources ≤ n →
        AdvanceTakes load n ts (.failed (.failed (.importsTooDeep name maxSources)) r)

lemma importText_of_name {start rest rest' : Cursor} {name : String}
    (h : rest.scan.name? = some (name, rest')) :
    importText load start rest r = openText load name (r.moveTo rest') := by
  unfold importText
  revert h
  cases rest.scan with
  | token t _ _ =>
    cases t <;> intro h <;> cases h <;> rfl
  | _ => intro h; cases h

theorem advance_takes (h : r.Gets load n ts) : AdvanceTakes load n ts (r.advance load) := by
  obtain ⟨cs, hsources, hlen, hmove⟩ := r.sources_eq
  unfold Gets at h
  rw [hsources] at h
  generalize hplace : r.place = c at h
  cases h with
  | cons hk hc hcs =>
    subst hplace
    cases hc with
    | finished hscan =>
      cases himp : r.imports with
      | nil =>
        obtain rfl : cs = [] := by simpa [himp] using hlen
        cases hcs
        rw [advance_of_finished hscan himp]
        exact .ended
      | cons o os =>
        obtain ⟨few, hadv⟩ := advance_of_finished_import load hscan himp
        have hos : os ++ [r.root] = cs := by
          have : o :: (os ++ [r.root]) = r.place :: cs := by rw [← hsources, sources, himp]; rfl
          exact (List.cons.inj this).2
        rw [hadv]
        refine .moved ?_
        rwa [← hos] at hcs
    | token hscan ht hrest =>
      rw [advance_of_token hscan ht]
      refine .token ?_
      unfold Gets
      rw [hmove]
      exact .cons hk hrest hcs
    | importing hscan hname hload htext hrest =>
      rw [advance_of_importing hscan, importText_of_name hname, openText]
      split
      · rw [hload]
        refine .moved ?_
        have hopen := StreamsAll.cons (by rw [List.length_cons]; omega) htext (.cons hk hrest hcs)
        rwa [← hmove, ← List.append_assoc] at hopen
      · next hmany =>
        rw [imports_length_moveTo] at hmany
        exact .tooMany (by omega)

lemma advance_takes_of {a : Advance} (h : r.Gets load n ts) (hadv : r.advance load = a) :
    AdvanceTakes load n ts a := hadv ▸ advance_takes h

end Reader

/-! ### The next value -/

namespace Setting

/-- What comes of a stream of tokens inside open forms, wherever the tokens stand: a value and the
tokens after it, or nothing where the tokens end. -/
def answer (s : Setting κ) (forms : List (OpenForm κ)) :
    List Token → Except Error (Option (Datum κ × List Token))
  | [] =>
    match forms with
    | [] => .ok none
    | o :: _ => .error o.unterminated.bare
  | t :: ts =>
    match s.shift false default t forms with
    | .error e => .error e.bare
    | .ok (.value d) => .ok (some (d, ts))
    | .ok (.more forms) => answer s forms ts

/-- It does not matter where a token stands and where the forms were opened. -/
lemma answer_cons {s : Setting κ} (inRoot : Bool) (place : Cursor) (t : Token)
    (forms : List (OpenForm κ)) (ts : List Token) :
    s.answer (forms.map OpenForm.bare) (t :: ts) =
      match s.shift inRoot place t forms with
      | .error e => .error e.bare
      | .ok (.value d) => .ok (some (d, ts))
      | .ok (.more forms') => s.answer (forms'.map OpenForm.bare) ts := by
  have h := s.shift_wherever inRoot place t forms
  rw [answer]
  generalize s.shift inRoot place t forms = x at h
  generalize s.shift false default t (forms.map OpenForm.bare) = y at h
  cases x with
  | error e =>
    cases y with
    | error e' => exact congrArg Except.error (Except.error.inj h).symm
    | ok sh => cases h
  | ok sh =>
    cases y with
    | error e' => cases h
    | ok sh' =>
      obtain rfl : sh.bare = sh' := Except.ok.inj h
      cases sh <;> rfl

end Setting

/-- How a reading answers to what comes of the tokens. -/
inductive Answers (load : String → Except Error String) (n : Nat) :
    Except Error (Option (Datum κ × List Token)) → Reading κ → Prop where
  | value {d : Datum κ} {ts : List Token} {r : Reader} :
      r.Gets load n ts → Answers load n (.ok (some (d, ts))) (.value d r)
  | ended {r : Reader} : Answers load n (.ok none) (.ended r)
  | failed {e e' : Error} {r : Reader} :
      e'.bare = e → Answers load n (.error e) (.failed e' r)
  | tooMany {x : Except Error (Option (Datum κ × List Token))} {name : String} {r : Reader} :
      maxSources ≤ n → Answers load n x (.failed (.failed (.importsTooDeep name maxSources)) r)

namespace Reader

variable {r : Reader} {s : Setting κ}

/-- **The tokens alone decide what is read.** -/
theorem readInside_answers (forms : List (OpenForm κ)) (h : r.Gets s.load n ts) :
    Answers s.load n (s.answer (forms.map OpenForm.bare) ts) (readInside s forms r) := by
  induction forms, r using readInside.induct s generalizing ts with
  | case1 forms r r₁ hadv ih =>
    rw [readInside_moved hadv]
    cases advance_takes_of h hadv with
    | moved h₁ => exact ih h₁
  | case2 forms r e r₁ hadv =>
    rw [readInside_failed hadv]
    cases advance_takes_of h hadv with
    | tooMany hn => exact .tooMany hn
  | case3 r r₁ hadv =>
    rw [readInside_ended hadv]
    cases advance_takes_of h hadv with
    | ended => exact .ended
  | case4 r r₁ hadv o os =>
    rw [readInside_ended hadv]
    cases advance_takes_of h hadv with
    | ended => exact .failed rfl
  | case5 forms r t place r₁ hadv e hs =>
    rw [readInside_token hadv, hs]
    cases advance_takes_of h hadv with
    | token h₁ =>
      rw [Setting.answer_cons r.inRoot place, hs]
      exact .failed rfl
  | case6 forms r t place r₁ hadv d hs =>
    rw [readInside_token hadv, hs]
    cases advance_takes_of h hadv with
    | token h₁ =>
      rw [Setting.answer_cons r.inRoot place, hs]
      exact .value h₁
  | case7 forms r t place r₁ hadv forms' hs ih =>
    rw [readInside_token hadv, hs]
    cases advance_takes_of h hadv with
    | token h₁ =>
      rw [Setting.answer_cons r.inRoot place, hs]
      exact ih h₁

/-! ### All values -/

lemma Gets.startUnit (h : r.Gets load n ts) : r.startUnit.Gets load n ts :=
  StreamsAll.outermost h fun hc => hc.skipTrivia

end Reader

namespace Setting

variable {s : Setting κ} {forms : List (OpenForm κ)} {d : Datum κ}

lemma length_of_answer (h : s.answer forms ts = .ok (some (d, us))) : us.length < ts.length := by
  induction ts generalizing forms with
  | nil => cases forms <;> cases h
  | cons t ts ih =>
    rw [answer] at h
    split at h
    · cases h
    · cases h
      exact Nat.lt_succ_self _
    · exact Nat.lt_succ_of_lt (ih h)

/-- What comes of a stream of tokens when every value is read off it. -/
def answerAll (s : Setting κ) (ts : List Token) : Except Error (List (Datum κ)) :=
  match _h : s.answer [] ts with
  | .ok (some (d, us)) => do
    let ds ← answerAll s us
    return d :: ds
  | .ok none => .ok []
  | .error e => .error e
termination_by ts.length
decreasing_by exact length_of_answer _h

lemma answerAll_value (h : s.answer [] ts = .ok (some (d, us))) :
    s.answerAll ts = (do let ds ← s.answerAll us; return d :: ds) := by
  rw [answerAll]; split <;> simp_all

lemma answerAll_ended (h : s.answer [] ts = .ok none) : s.answerAll ts = .ok [] := by
  rw [answerAll]; split <;> simp_all

lemma answerAll_failed {e : Error} (h : s.answer [] ts = .error e) :
    s.answerAll ts = .error e := by
  rw [answerAll]; split <;> simp_all

end Setting

namespace Reader

variable {r r' : Reader} {s : Setting κ}

/-- **The tokens alone decide what all values are**, unless too many texts would be open. -/
theorem readAll_answers (h : r.Gets s.load n ts) :
    (r.readAll s).mapError Error.bare = s.answerAll ts ∨
      maxSources ≤ n ∧ ∃ name, r.readAll s = .error (.failed (.importsTooDeep name maxSources)) := by
  induction hlen : ts.length using Nat.strongRecOn generalizing r ts with
  | _ len ih =>
    have hnext : Answers s.load n (s.answer [] ts) (r.next s) := readInside_answers [] h.startUnit
    generalize hanswer : s.answer [] ts = x at hnext
    generalize hr : r.next s = y at hnext
    cases hnext with
    | @value d us r₁ h₁ =>
      rw [readAll_value hr, Setting.answerAll_value hanswer]
      rcases ih us.length (hlen ▸ Setting.length_of_answer hanswer) h₁ rfl with heq | ⟨hn, name, herr⟩
      · left
        rw [← heq]
        cases r₁.readAll s <;> rfl
      · exact .inr ⟨hn, name, by rw [herr]; rfl⟩
    | ended =>
      rw [readAll_ended hr, Setting.answerAll_ended hanswer]
      exact .inl rfl
    | failed he =>
      rw [readAll_failed hr, Setting.answerAll_failed hanswer, ← he]
      exact .inl rfl
    | tooMany hn => exact .inr ⟨hn, _, readAll_failed hr⟩

end Reader

end ReversePolish

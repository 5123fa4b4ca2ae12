import ReversePolish.Proofs.Reader.Tokens
import ReversePolish.Proofs.Table

/-!
What values that have been read are made of. Commands are those that words stand for, programs
belong to the namespace that is read in, and forms nest no deeper than allowed. This is so in
whichever text a piece of the value stands.
-/

namespace ReversePolish

variable {κ : Type} {s : Setting κ} {n : Nat} {d : Datum κ} {ds : List (Datum κ)}
  {o o' : OpenForm κ} {os forms : List (OpenForm κ)} {r r' : Reader}

/-- The datum can have been read in this setting and has forms nested at most `n` deep. -/
inductive Datum.Made (s : Setting κ) : Nat → Datum κ → Prop where
  | int {n : Nat} (i : Int64) : Made s n (.int i)
  | str {n : Nat} (v : String) : Made s n (.str v)
  | none {n : Nat} : Made s n .none
  | command {n : Nat} {name : String} {c : κ} (help : Bool) :
      s.lookup name = some c → Made s n (.command c help)
  | list {n : Nat} {items : List (Datum κ)} :
      (∀ d ∈ items, Made s n d) → Made s (n + 1) (.list items)
  | map {n : Nat} {entries : List (Key × Datum κ)} : Ascending entries →
      (∀ e ∈ entries, Made s n e.2) → Made s (n + 1) (.map entries)
  | program {n : Nat} {body : List (Datum κ)} :
      (∀ d ∈ body, Made s n d) → Made s (n + 1) (.program s.home body)
  | branch {n : Nat} {cond thn els : List (Datum κ)} :
      (∀ d ∈ cond, Made s n d) → (∀ d ∈ thn, Made s n d) → (∀ d ∈ els, Made s n d) →
        Made s (n + 1) (.branch cond thn els)
  | each {n : Nat} {body : List (Datum κ)} :
      (∀ d ∈ body, Made s n d) → Made s (n + 1) (.each body)
  | loop {n : Nat} {cond body : List (Datum κ)} :
      (∀ d ∈ cond, Made s n d) → (∀ d ∈ body, Made s n d) → Made s (n + 1) (.loop cond body)

namespace OpenForm

/-- All that has been read inside the form. -/
structure Made (s : Setting κ) (n : Nat) (o : OpenForm κ) : Prop where
  sections : ∀ ds ∈ o.sections, ∀ d ∈ ds, d.Made s n
  values : ∀ d ∈ o.values, d.Made s n

lemma Made.items (h : o.Made s n) : ∀ d ∈ o.items, d.Made s n := fun d hd =>
  h.values d (List.mem_reverse.mp hd)

lemma Made.push (h : o.Made s n) (hd : d.Made s n) : (o.push d).Made s n :=
  ⟨h.sections, List.forall_mem_cons.mpr ⟨hd, h.values⟩⟩

lemma Made.nextSection (h : o.Made s n) : o.nextSection.Made s n where
  sections ds hds := by
    rcases List.mem_append.mp hds with hds | hds
    · exact h.sections ds hds
    · obtain rfl := List.mem_singleton.mp hds
      exact h.items
  values _ hd := (List.not_mem_nil hd).elim

lemma Made.divide {m : Divider} (h : o.Made s n) (ho : o.divide m = .ok o') :
    o'.Made s n := by
  unfold OpenForm.divide at ho
  split at ho <;> cases ho <;> exact h.nextSection

/-- What a key is bound to is one of the values. -/
lemma mem_of_pairs {es : List (Key × Datum κ)} (h : pairs ds = .ok es) : ∀ e ∈ es, e.2 ∈ ds := by
  induction ds using pairs.induct generalizing es with
  | case1 k v rest ih =>
    simp only [pairs, bind, Except.bind] at h
    split at h
    · cases h
    · split at h
      · cases h
      · next es' hes' =>
        cases h
        intro e he
        rcases List.mem_cons.mp he with rfl | he
        · simp
        · exact List.mem_cons_of_mem _ (List.mem_cons_of_mem _ (ih hes' e he))
  | case2 ds hds =>
    rw [pairs] at h
    · cases h
      exact fun _ he => (List.not_mem_nil he).elim
    · exact hds

/-- A form that is closed becomes a value with one more form around what was read in it. -/
lemma Made.close (h : o.Made s n) (hd : o.close s.home = .ok (.ok d)) : d.Made s (n + 1) := by
  unfold OpenForm.close at hd
  split at hd
  · cases hd
    exact .list h.items
  · split at hd
    · cases hp : pairs o.items with
      | error e =>
        rw [hp] at hd
        cases hd
      | ok es =>
        rw [hp] at hd
        cases hd
        refine .map (Table.ofList es).ascending (Table.forall_ofList fun e he => ?_)
        exact h.items _ (mem_of_pairs hp e he)
    · cases hd
  · cases hd
    exact .program h.items
  · cases hd
  · next cond _ hsections =>
    cases hd
    exact .branch (h.sections cond (by simp [hsections])) h.items (by simp)
  · next cond thn _ _ hsections =>
    cases hd
    exact .branch (h.sections cond (by simp [hsections])) (h.sections thn (by simp [hsections]))
      h.items
  · cases hd
    exact .each h.items
  · cases hd
  · next cond _ _ hsections =>
    cases hd
    exact .loop (h.sections cond (by simp [hsections])) h.items

end OpenForm

namespace Setting

/-! ### Open forms -/

variable (s) in
/-- No more forms are open than allowed, and what has been read in each of them leaves room for the
forms around it. -/
inductive Open : List (OpenForm κ) → Prop where
  | nil : Open []
  | cons {o : OpenForm κ} {os : List (OpenForm κ)} : os.length < s.maxDepth →
      o.Made s (s.maxDepth - (os.length + 1)) → Open os → Open (o :: os)

variable (s) in
/-- What a token comes to is made in this way. -/
inductive MadeShift : Shift κ → Prop where
  | more {forms : List (OpenForm κ)} : Open s forms → MadeShift (.more forms)
  | value {d : Datum κ} : d.Made s s.maxDepth → MadeShift (.value d)

/-- A value goes into the innermost form. -/
lemma Open.emit (h : s.Open forms) (hd : d.Made s (s.maxDepth - forms.length)) :
    s.MadeShift (.emit d forms) := by
  cases h with
  | nil => exact .value hd
  | cons hlt ho hos => exact .more (.cons hlt (ho.push hd) hos)

lemma made_resolve (w : String) : (s.resolve w).Made s n := by
  unfold resolve
  split
  · next hc => exact .command false hc
  · split
    · next hc =>
      obtain ⟨name, -, hname⟩ := Option.bind_eq_some_iff.mp hc
      exact .command true hname
    · exact .str w

/-- **A token keeps what is read made in this way.** -/
theorem madeShift_shift {inRoot : Bool} {place : Cursor} {t : Token} {sh : Shift κ}
    (h : s.Open forms) (hsh : s.shift inRoot place t forms = .ok sh) : s.MadeShift sh := by
  cases t with
  | opener f =>
    simp only [shift] at hsh
    split at hsh
    · cases hsh
    · next hlt =>
      cases hsh
      refine .more (.cons (by omega) ⟨?_, ?_⟩ h)
      · exact fun _ hds => (List.not_mem_nil hds).elim
      · exact fun _ hd => (List.not_mem_nil hd).elim
  | closer f =>
    cases h with
    | nil => cases hsh
    | @cons o os hlt ho hos =>
      simp only [shift] at hsh
      split at hsh
      · split at hsh
        · next d hclose =>
          cases hsh
          refine hos.emit ?_
          have hmade := ho.close hclose
          rwa [show s.maxDepth - (os.length + 1) + 1 = s.maxDepth - os.length by omega] at hmade
        · cases hsh
        · cases hsh
      · cases hsh
  | divider m =>
    cases h with
    | nil => cases hsh
    | @cons o os hlt ho hos =>
      simp only [shift] at hsh
      split at hsh
      · next o' hdivide =>
        cases hsh
        exact .more (.cons hlt (ho.divide hdivide) hos)
      · cases hsh
  | exit =>
    simp only [shift] at hsh
    split at hsh
    · next c hc =>
      cases hsh
      exact h.emit (.command false hc)
    · cases hsh
  | int i =>
    cases hsh
    exact h.emit (.int i)
  | str v =>
    cases hsh
    exact h.emit (.str v)
  | none =>
    cases hsh
    exact h.emit .none
  | word w =>
    cases hsh
    exact h.emit (made_resolve w)
  | importing => cases hsh

end Setting

namespace Reader

/-- What a reading gives is made in this way. -/
def MadeReading (s : Setting κ) : Reading κ → Prop
  | .value d _ => d.Made s s.maxDepth
  | _ => True

/-- By induction on what is left to read. -/
theorem made_readInside (h : s.Open forms) : MadeReading s (readInside s forms r) := by
  induction forms, r using readInside.induct s with
  | case1 forms r r' hadv ih =>
    rw [readInside_moved hadv]
    exact ih h
  | case2 forms r e r' hadv =>
    rw [readInside_failed hadv]
    trivial
  | case3 r r' hadv =>
    rw [readInside_ended hadv]
    trivial
  | case4 r r' hadv o os =>
    rw [readInside_ended hadv]
    trivial
  | case5 forms r t place r' hadv e hs =>
    rw [readInside_token hadv, hs]
    trivial
  | case6 forms r t place r' hadv d hs =>
    rw [readInside_token hadv, hs]
    cases Setting.madeShift_shift h hs with
    | value hd => exact hd
  | case7 forms r t place r' hadv forms' hs ih =>
    rw [readInside_token hadv, hs]
    cases Setting.madeShift_shift h hs with
    | more hforms => exact ih hforms

/-- **What is read is made in this way.** -/
theorem made_next (h : r.next s = .value d r') : d.Made s s.maxDepth := by
  have hmade : MadeReading s (r.next s) := made_readInside .nil
  rwa [h] at hmade

theorem made_readAll (s : Setting κ) (r : Reader) {ds : List (Datum κ)}
    (h : r.readAll s = .ok ds) : ∀ d ∈ ds, d.Made s s.maxDepth := by
  cases hnext : r.next s with
  | value d r' =>
    rw [readAll_value hnext] at h
    cases hrest : r'.readAll s with
    | error e =>
      rw [hrest] at h
      cases h
    | ok ds' =>
      rw [hrest] at h
      cases h
      exact List.forall_mem_cons.mpr ⟨made_next hnext, made_readAll s r' hrest⟩
  | ended r' =>
    rw [readAll_ended hnext] at h
    cases h
    exact fun _ hd => (List.not_mem_nil hd).elim
  | failed e r' =>
    rw [readAll_failed hnext] at h
    cases h
termination_by r
decreasing_by exact smaller_of_next hnext

end Reader

end ReversePolish

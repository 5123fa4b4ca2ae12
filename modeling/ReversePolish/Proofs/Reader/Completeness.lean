import ReversePolish.Proofs.Reader.Grammar

/-!
What the grammar derives is read: tokens that are values are read as these values.
-/

namespace ReversePolish

open Grammar

variable {κ : Type} {s : Setting κ} {n : Nat} {t : Token} {xs ts us rest : List Token}
  {d : Datum κ} {ds : List (Datum κ)} {o : OpenForm κ} {os forms forms' : List (OpenForm κ)}

namespace OpenForm

/-- A form as it is opened. -/
def fresh (f : Form) : OpenForm κ := ⟨f, none, [], []⟩

/-- Puts values into the section being read. -/
def fill (ds : List (Datum κ)) (o : OpenForm κ) : OpenForm κ :=
  { o with values := ds.reverse ++ o.values }

@[simp] lemma form_fresh (f : Form) : (fresh f : OpenForm κ).form = f := rfl
@[simp] lemma sections_fresh (f : Form) : (fresh f : OpenForm κ).sections = [] := rfl
@[simp] lemma items_fresh (f : Form) : (fresh f : OpenForm κ).items = [] := rfl

@[simp] lemma form_push (o : OpenForm κ) : (o.push d).form = o.form := rfl

@[simp] lemma form_fill (o : OpenForm κ) : (o.fill ds).form = o.form := rfl
@[simp] lemma sections_fill (o : OpenForm κ) : (o.fill ds).sections = o.sections := rfl

@[simp] lemma items_fill (o : OpenForm κ) : (o.fill ds).items = o.items ++ ds := by
  simp [fill, items]

@[simp] lemma items_push (o : OpenForm κ) : (o.push d).items = o.items ++ [d] := by
  simp [push, items]

@[simp] lemma form_nextSection (o : OpenForm κ) : o.nextSection.form = o.form := rfl
@[simp] lemma items_nextSection (o : OpenForm κ) : o.nextSection.items = [] := rfl

@[simp] lemma sections_nextSection (o : OpenForm κ) :
    o.nextSection.sections = o.sections ++ [o.items] := rfl

lemma fill_push (o : OpenForm κ) : (o.push d).fill ds = o.fill (d :: ds) := by
  simp [fill, push]

end OpenForm

namespace Setting

/-! ### What each token does -/

lemma take?_opener (f : Form) (forms : List (OpenForm κ)) :
    s.take? (.opener f) forms =
      if s.maxDepth < forms.length + 1 then none else some (.more (.fresh f :: forms)) := by
  by_cases hd : s.maxDepth < forms.length + 1 <;>
    simp [take?, shift, hd, Except.toOption, OpenForm.fresh]

lemma take?_closer (o : OpenForm κ) (os : List (OpenForm κ)) (f : Form) :
    s.take? (.closer f) (o :: os) =
      if o.form = f then
        match o.close s.home with
        | .ok (.ok d) => some (.emit d os)
        | _ => none
      else none := by
  by_cases hf : o.form = f
  · rcases hc : o.close s.home with m | e | d <;>
      simp [take?, shift, hf, hc, Except.toOption]
  · simp [take?, shift, hf, Except.toOption]

lemma take?_divider (o : OpenForm κ) (os : List (OpenForm κ)) (d : Divider) :
    s.take? (.divider d) (o :: os) = (o.divide d).toOption.map fun o => .more (o :: os) := by
  cases hc : o.divide d <;> simp [take?, shift, hc, Except.toOption]

lemma take?_atom (h : Atom s t d) (forms : List (OpenForm κ)) :
    s.take? t forms = some (.emit d forms) := by
  cases h with
  | exit hc => simp [take?, shift, hc, Except.toOption]
  | _ => simp [take?, shift, Except.toOption]

/-! ### Reading values -/

/-- What comes of a complete value: it is read, or it goes into the innermost form. -/
def give (s : Setting κ) (d : Datum κ) (forms : List (OpenForm κ)) (rest : List Token) :
    Parse κ :=
  match forms with
  | [] => .value d rest
  | o :: os => s.parse (o.push d :: os) rest

lemma parse_emit (h : s.take? t forms = some (.emit d forms')) (rest : List Token) :
    s.parse forms (t :: rest) = s.give d forms' rest := by
  cases forms' with
  | nil => exact parse_value h
  | cons o os => exact parse_more h

/-- The tokens are read as this value wherever `n` more forms may be opened. -/
def Gives (s : Setting κ) (n : Nat) (ts : List Token) (d : Datum κ) : Prop :=
  ∀ forms rest, forms.length + n = s.maxDepth →
    s.parse forms (ts ++ rest) = s.give d forms rest

/-- The tokens are read as these values inside a form. -/
def Fills (s : Setting κ) (n : Nat) (ts : List Token) (ds : List (Datum κ)) : Prop :=
  ∀ o os rest, os.length + (n + 1) = s.maxDepth →
    s.parse (o :: os) (ts ++ rest) = s.parse (o.fill ds :: os) rest

lemma Fills.nil : Fills s n [] [] := fun _ _ _ _ => rfl

lemma Fills.cons (hx : Gives s n xs d) (h : Fills s n ts ds) :
    Fills s n (xs ++ ts) (d :: ds) := by
  intro o os rest hn
  have hx' := hx (o :: os) (ts ++ rest) (by simp only [List.length_cons]; omega)
  rw [List.append_assoc, hx', give, h (o.push d) os rest hn, OpenForm.fill_push]

lemma gives_atom (h : Atom s t d) : Gives s n [t] d :=
  fun forms rest _ => parse_emit (take?_atom h forms) rest

/-- A form is read when what stands inside it leads to a form that can be closed. -/
lemma gives_form {f : Form} {o : OpenForm κ} (hform : o.form = f)
    (hbody : ∀ forms rest, forms.length + (n + 1) = s.maxDepth →
      s.parse (.fresh f :: forms) (xs ++ rest) = s.parse (o :: forms) rest)
    (hclose : o.close s.home = .ok (.ok d)) :
    Gives s (n + 1) (.opener f :: (xs ++ [.closer f])) d := by
  intro forms rest hn
  have hopen : s.take? (.opener f) forms = some (.more (.fresh f :: forms)) := by
    rw [take?_opener, if_neg (by omega)]
  have hend : s.take? (.closer f) (o :: forms) = some (.emit d forms) := by
    simp [take?_closer, hform, hclose]
  rw [List.cons_append, parse_more hopen, List.append_assoc, hbody _ _ hn]
  exact parse_emit hend rest

lemma gives_list (h : Fills s n xs ds) :
    Gives s (n + 1) (.opener .list :: (xs ++ [.closer .list])) (.list ds) := by
  refine gives_form (o := (OpenForm.fresh .list).fill ds) rfl (fun forms rest hn => ?_) ?_
  · exact h _ _ _ hn
  · simp [OpenForm.close]

lemma gives_each (h : Fills s n xs ds) :
    Gives s (n + 1) (.opener .each :: (xs ++ [.closer .each])) (.each ds) := by
  refine gives_form (o := (OpenForm.fresh .each).fill ds) rfl (fun forms rest hn => ?_) ?_
  · exact h _ _ _ hn
  · simp [OpenForm.close]

lemma gives_program (h : Fills s n xs ds) :
    Gives s (n + 1) (.opener .program :: (xs ++ [.closer .program]))
      (.program s.home ds) := by
  refine gives_form (o := (OpenForm.fresh .program).fill ds) rfl (fun forms rest hn => ?_) ?_
  · exact h _ _ _ hn
  · simp [OpenForm.close]

lemma pairs_of_entries {es : List (Key × Datum κ)} (h : Entries ds es) :
    ds.length % 2 = 0 ∧ OpenForm.pairs ds = .ok es := by
  induction h with
  | nil => exact ⟨rfl, rfl⟩
  | cons hk _ ih =>
    obtain ⟨hlen, hpairs⟩ := ih
    refine ⟨by simp only [List.length_cons]; omega, ?_⟩
    rw [OpenForm.pairs, hk, hpairs]
    rfl

lemma gives_map {es : List (Key × Datum κ)} (h : Fills s n xs ds) (he : Entries ds es) :
    Gives s (n + 1) (.opener .map :: (xs ++ [.closer .map]))
      (.map (Table.ofList es).entries) := by
  obtain ⟨hlen, hpairs⟩ := pairs_of_entries he
  refine gives_form (o := (OpenForm.fresh .map).fill ds) rfl (fun forms rest hn => ?_) ?_
  · exact h _ _ _ hn
  · simp [OpenForm.close, hlen, hpairs, Except.map]

/-- A section is filled, and a divider starts the next one. -/
lemma parse_section {m : Divider} (h : Fills s n xs ds)
    (hdiv : (o.fill ds).divide m = .ok (o.fill ds).nextSection)
    (hn : os.length + (n + 1) = s.maxDepth) :
    s.parse (o :: os) (xs ++ .divider m :: rest) =
      s.parse ((o.fill ds).nextSection :: os) rest := by
  rw [h o os _ hn]
  exact parse_more (by simp [take?_divider, hdiv, Except.toOption])

lemma gives_loop {cs : List Token} {cond : List (Datum κ)} (hc : Fills s n cs cond)
    (h : Fills s n xs ds) :
    Gives s (n + 1)
      (.opener .loop :: ((cs ++ .divider .repeatPart :: xs) ++ [.closer .loop]))
      (.loop cond ds) := by
  refine gives_form (o := (((OpenForm.fresh .loop).fill cond).nextSection).fill ds) rfl
    (fun forms rest hn => ?_) ?_
  · rw [List.append_assoc, List.cons_append,
      parse_section hc rfl hn]
    exact h _ _ _ hn
  · simp [OpenForm.close]

lemma gives_branch {cs : List Token} {cond : List (Datum κ)} (hc : Fills s n cs cond)
    (h : Fills s n xs ds) :
    Gives s (n + 1)
      (.opener .branch :: ((cs ++ .divider .thenPart :: xs) ++ [.closer .branch]))
      (.branch cond ds []) := by
  refine gives_form (o := (((OpenForm.fresh .branch).fill cond).nextSection).fill ds) rfl
    (fun forms rest hn => ?_) ?_
  · rw [List.append_assoc, List.cons_append,
      parse_section hc rfl hn]
    exact h _ _ _ hn
  · simp [OpenForm.close]

lemma gives_branchElse {cs ys : List Token} {cond els : List (Datum κ)}
    (hc : Fills s n cs cond) (h : Fills s n xs ds) (he : Fills s n ys els) :
    Gives s (n + 1)
      (.opener .branch ::
        ((cs ++ .divider .thenPart :: (xs ++ .divider .elsePart :: ys)) ++ [.closer .branch]))
      (.branch cond ds els) := by
  refine gives_form
    (o := (((((OpenForm.fresh .branch).fill cond).nextSection).fill ds).nextSection).fill els) rfl
    (fun forms rest hn => ?_) ?_
  · rw [List.append_assoc, List.cons_append,
      parse_section hc rfl hn, List.append_assoc,
      List.cons_append, parse_section h rfl hn]
    exact he _ _ _ hn
  · simp [OpenForm.close]

end Setting

namespace Grammar

open Setting

/-- **Inside a form the values of the grammar are read one after the other.** -/
theorem Values.fills (h : Values s n ts ds) : Fills s n ts ds := by
  induction h with
  | nil => exact .nil
  | atom ha _ ih => exact .cons (gives_atom ha) ih
  | list _ _ hx ih => simpa using Fills.cons (gives_list hx) ih
  | map _ he _ hx ih => simpa using Fills.cons (gives_map hx he) ih
  | program _ _ hx ih => simpa using Fills.cons (gives_program hx) ih
  | branch _ _ _ hc hx ih => simpa using Fills.cons (gives_branch hc hx) ih
  | branchElse _ _ _ _ hc hx hy ih => simpa using Fills.cons (gives_branchElse hc hx hy) ih
  | each _ _ hx ih => simpa using Fills.cons (gives_each hx) ih
  | loop _ _ _ hc hx ih => simpa using Fills.cons (gives_loop hc hx) ih

/-- The first of the values is read off the front of the tokens. -/
theorem Values.split_first (h : Values s n ts (d :: ds)) :
    ∃ xs us, ts = xs ++ us ∧ Gives s n xs d ∧ Values s n us ds := by
  cases h with
  | atom ha h => exact ⟨[_], _, rfl, gives_atom ha, h⟩
  | list hx h => exact ⟨_, _, by simp, gives_list hx.fills, h⟩
  | map hx he h => exact ⟨_, _, by simp, gives_map hx.fills he, h⟩
  | program hx h => exact ⟨_, _, by simp, gives_program hx.fills, h⟩
  | branch hc hx h => exact ⟨_, _, by simp, gives_branch hc.fills hx.fills, h⟩
  | branchElse hc hx hy h =>
    exact ⟨_, _, by simp, gives_branchElse hc.fills hx.fills hy.fills, h⟩
  | each hx h => exact ⟨_, _, by simp, gives_each hx.fills, h⟩
  | loop hc hx h => exact ⟨_, _, by simp, gives_loop hc.fills hx.fills, h⟩

/-- At top level the first of the values is read, and the tokens after it are left. -/
theorem Values.parse_first (h : Values s s.maxDepth ts (d :: ds)) :
    ∃ us, s.parse [] ts = .value d us ∧ Values s s.maxDepth us ds := by
  obtain ⟨xs, us, rfl, hx, hus⟩ := h.split_first
  exact ⟨us, hx [] us (by simp), hus⟩

end Grammar

end ReversePolish

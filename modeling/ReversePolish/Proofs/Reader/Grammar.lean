import ReversePolish.Proofs.Reader.Tokens

/-!
The grammar of the language, over tokens.

    value ::= integer | string | None | word | EXIT
            | [ value* ] | { (key value)* } | << value* >>
            | IF value* THEN value* (ELSE value*)? ENDIF
            | FOR value* ENDFOR | WHILE value* REPEAT value* ENDWHILE

Keys are values that are integers or strings. `EXIT` is a value where a command of that name is
known.
-/

namespace ReversePolish

variable {κ : Type}

namespace Grammar

variable (s : Setting κ)

/-- Values of one token. -/
inductive Atom : Token → Datum κ → Prop where
  | int (n : Int64) : Atom (.int n) (.int n)
  | str (v : String) : Atom (.str v) (.str v)
  | none : Atom .none .none
  | word (w : String) : Atom (.word w) (s.resolve w)
  | exit {c : κ} : s.lookup Token.exitName = some c → Atom .exit (.command c false)

/-- Values in turn a key and what the key is bound to. -/
inductive Entries : List (Datum κ) → List (Key × Datum κ) → Prop where
  | nil : Entries [] []
  | cons {k v : Datum κ} {key : Key} {ds : List (Datum κ)} {es : List (Key × Datum κ)} :
      k.key = .ok key → Entries ds es → Entries (k :: v :: ds) ((key, v) :: es)

/-- `Values s n ts ds`: the tokens `ts` are the values `ds` one after the other, with forms nested at
most `n` deep. -/
inductive Values : Nat → List Token → List (Datum κ) → Prop where
  | nil {n : Nat} : Values n [] []
  | atom {n : Nat} {t : Token} {d : Datum κ} {ts : List Token} {ds : List (Datum κ)} :
      Atom s t d → Values n ts ds → Values n (t :: ts) (d :: ds)
  | list {n : Nat} {xs ts : List Token} {items ds : List (Datum κ)} :
      Values n xs items → Values (n + 1) ts ds →
        Values (n + 1) (.opener .list :: (xs ++ .closer .list :: ts)) (.list items :: ds)
  | map {n : Nat} {xs ts : List Token} {items ds : List (Datum κ)}
      {es : List (Key × Datum κ)} :
      Values n xs items → Entries items es → Values (n + 1) ts ds →
        Values (n + 1) (.opener .map :: (xs ++ .closer .map :: ts))
          (.map (Table.ofList es).entries :: ds)
  | program {n : Nat} {xs ts : List Token} {body ds : List (Datum κ)} :
      Values n xs body → Values (n + 1) ts ds →
        Values (n + 1) (.opener .program :: (xs ++ .closer .program :: ts))
          (.program s.home body :: ds)
  | branch {n : Nat} {cs xs ts : List Token} {cond thn ds : List (Datum κ)} :
      Values n cs cond → Values n xs thn → Values (n + 1) ts ds →
        Values (n + 1)
          (.opener .branch :: (cs ++ .divider .thenPart :: (xs ++ .closer .branch :: ts)))
          (.branch cond thn [] :: ds)
  | branchElse {n : Nat} {cs xs ys ts : List Token} {cond thn els ds : List (Datum κ)} :
      Values n cs cond → Values n xs thn → Values n ys els → Values (n + 1) ts ds →
        Values (n + 1)
          (.opener .branch :: (cs ++ .divider .thenPart ::
            (xs ++ .divider .elsePart :: (ys ++ .closer .branch :: ts))))
          (.branch cond thn els :: ds)
  | each {n : Nat} {xs ts : List Token} {body ds : List (Datum κ)} :
      Values n xs body → Values (n + 1) ts ds →
        Values (n + 1) (.opener .each :: (xs ++ .closer .each :: ts)) (.each body :: ds)
  | loop {n : Nat} {cs xs ts : List Token} {cond body ds : List (Datum κ)} :
      Values n cs cond → Values n xs body → Values (n + 1) ts ds →
        Values (n + 1)
          (.opener .loop :: (cs ++ .divider .repeatPart :: (xs ++ .closer .loop :: ts)))
          (.loop cond body :: ds)

/-- How many forms the tokens open. -/
def openers (ts : List Token) : Nat := ts.countP fun t => t matches .opener _

/-- How many forms the tokens close. -/
def closers (ts : List Token) : Nat := ts.countP fun t => t matches .closer _

/-- The tokens open more forms than they close. -/
def StopsInside (ts : List Token) : Prop := closers ts < openers ts

variable {s} {n : Nat} {ts us : List Token} {ds es : List (Datum κ)}

theorem Values.append (h : Values s n ts ds) (h' : Values s n us es) :
    Values s n (ts ++ us) (ds ++ es) := by
  induction h with
  | nil => exact h'
  | atom ha _ ih => exact .atom ha (ih h')
  | list hx _ _ ih => simpa using Values.list hx (ih h')
  | map hx he _ _ ih => simpa using Values.map hx he (ih h')
  | program hx _ _ ih => simpa using Values.program hx (ih h')
  | branch hc hx _ _ _ ih => simpa using Values.branch hc hx (ih h')
  | branchElse hc hx hy _ _ _ _ ih => simpa using Values.branchElse hc hx hy (ih h')
  | each hx _ _ ih => simpa using Values.each hx (ih h')
  | loop hc hx _ _ _ ih => simpa using Values.loop hc hx (ih h')

@[simp] lemma values_nil : Values s n [] ds ↔ ds = [] := by
  constructor
  · rintro ⟨⟩
    rfl
  · rintro rfl
    exact .nil

lemma Values.eq_nil (h : Values s n ts []) : ts = [] := by
  cases h
  rfl

lemma openers_cons (t : Token) (ts : List Token) :
    openers (t :: ts) = openers ts + if t matches .opener _ then 1 else 0 := List.countP_cons

lemma closers_cons (t : Token) (ts : List Token) :
    closers (t :: ts) = closers ts + if t matches .closer _ then 1 else 0 := List.countP_cons

@[simp] lemma openers_append (ts us : List Token) :
    openers (ts ++ us) = openers ts + openers us := List.countP_append

@[simp] lemma closers_append (ts us : List Token) :
    closers (ts ++ us) = closers ts + closers us := List.countP_append

lemma not_stopsInside_nil : ¬ StopsInside [] := by
  simp [StopsInside, openers, closers]

/-- Values close the forms that they open. -/
theorem Values.openers_eq_closers (h : Values s n ts ds) : openers ts = closers ts := by
  induction h with
  | nil => rfl
  | atom ha _ ih => cases ha <;> simpa [openers_cons, closers_cons] using ih
  | _ =>
    simp only [openers_cons, closers_cons, openers_append, closers_append, if_true, if_false,
      Bool.false_eq_true]
    omega

end Grammar

end ReversePolish

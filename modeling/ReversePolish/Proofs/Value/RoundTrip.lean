import ReversePolish.Machine
import ReversePolish.Proofs.Reader.Acceptance
import ReversePolish.Proofs.Registry
import ReversePolish.Proofs.Value.Shape

/-!
What is written is read back.

The lexemes of a value are tokens that the grammar makes a value of, and this value unfolds to the
same tree. Names are read back because a registry has no names that would be read as anything but
words, save `EXIT`, and none that end in `?`.
-/

namespace ReversePolish

open Grammar
open Datum hiding none

variable {s : Setting Command} {n : Nat} {ls ls' : List String} {ts ts' : List Token}
  {t : Token} {u : Shape} {us vs ws : List Shape}

/-! ### Names of commands -/

namespace Token

lemma getLast?_keyword {w : String} (h : (keyword? w).isSome) : w.toList.getLast? ≠ some '?' := by
  unfold keyword? at h
  split at h <;> first | decide | cases h

lemma eq_exitName {w : String} (h : keyword? w = some .exit) : w = exitName := by
  unfold keyword? at h
  split at h <;> first | rfl | cases h

lemma toList_asked (name : String) : (name ++ "?").toList = name.toList ++ ['?'] := by
  simp

lemma askedName?_asked (name : String) : askedName? (name ++ "?") = some name := by
  simp [askedName?]

lemma spelt_asked {name : String} (h : isWordText name = true) : Spelt (word (name ++ "?")) := by
  simp only [isWordText, Bool.and_eq_true, Bool.not_eq_true', List.isEmpty_eq_false_iff,
    List.all_eq_true] at h
  obtain ⟨⟨⟨hne, hhash⟩, hall⟩, -⟩ := h
  obtain ⟨c, cs, hcs⟩ := List.exists_cons_of_ne_nil hne
  have hnum : ∀ ds : List Char, isNumeral (ds ++ ['?']) = false := by
    intro ds
    simp [isNumeral, isDigit]
  have hint : integer? (c :: cs ++ ['?']) = Option.none := by
    by_cases hc : c = '-'
    · simp [integer?, hc, hnum]
    · have := hnum (c :: cs)
      simp only [List.cons_append] at this ⊢
      rw [integer?]
      · simp [this]
      · intro ds hds
        exact hc (List.cons.inj hds).1
  refine ⟨?_, ?_⟩
  · rw [hcs] at hhash hall
    simp only [isWordText, toList_asked, hcs, hint]
    simp only [List.cons_append, List.isEmpty_cons, List.head?_cons, Bool.not_false, Bool.true_and,
      Option.isNone_none, Bool.and_true, Bool.and_eq_true, List.all_eq_true]
    refine ⟨by simpa using hhash, fun d hd => ?_⟩
    rcases List.mem_append.mp (show d ∈ (c :: cs) ++ ['?'] from hd) with hd | hd
    · exact hall d hd
    · obtain rfl := List.mem_singleton.mp hd
      decide
  · cases hk : keyword? (name ++ "?") with
    | none => rfl
    | some t =>
      have hlast := getLast?_keyword (w := name ++ "?") (by rw [hk]; rfl)
      rw [toList_asked, List.getLast?_concat] at hlast
      exact (hlast rfl).elim

end Token

/-! ### Lexemes that are tokens -/

/-- These are the lexemes of the tokens, none of which imports anything. -/
structure Lexed (ls : List String) (ts : List Token) : Prop where
  spellings : ls = ts.map Token.spelling
  spelt : ∀ t ∈ ts, t.Spelt
  plain : .importing ∉ ts

namespace Lexed

lemma nil : Lexed [] [] := ⟨rfl, by simp, by simp⟩

lemma one (h : t.Spelt) (hne : t ≠ .importing) : Lexed [t.spelling] [t] :=
  ⟨rfl, by simpa using h, by simpa using hne.symm⟩

lemma append (h : Lexed ls ts) (h' : Lexed ls' ts') : Lexed (ls ++ ls') (ts ++ ts') := by
  refine ⟨by rw [h.spellings, h'.spellings, List.map_append], fun t ht => ?_, fun ht => ?_⟩
  · exact (List.mem_append.mp ht).elim (h.spelt t) (h'.spelt t)
  · exact (List.mem_append.mp ht).elim h.plain h'.plain

lemma cons (h : Lexed ls ts) (ht : t.Spelt) (hne : t ≠ .importing) :
    Lexed (t.spelling :: ls) (t :: ts) :=
  (one ht hne).append h

/-- Lexemes between an opener and a closer. -/
lemma enclose (f : Form) (h : Lexed ls ts) :
    Lexed (f.opening :: (ls ++ [f.closing])) (.opener f :: (ts ++ [.closer f])) :=
  (h.append (one (t := .closer f) trivial (by simp))).cons (t := .opener f) trivial (by simp)

/-- Lexemes on both sides of a divider. -/
lemma divide (d : Divider) (h : Lexed ls ts) (h' : Lexed ls' ts') :
    Lexed (ls ++ d.spelling :: ls') (ts ++ .divider d :: ts') :=
  h.append (h'.cons (t := .divider d) trivial (by simp))

end Lexed

/-! ### Lexemes that denote values -/

/-- The lexemes are read as a value that unfolds to this tree. -/
def Denotes (s : Setting Command) (n : Nat) (ls : List String) (u : Shape) : Prop :=
  ∃ ts d, Lexed ls ts ∧ Values s n ts [d] ∧ Stores n d u

def DenotesAll (s : Setting Command) (n : Nat) (ls : List String) (us : List Shape) : Prop :=
  ∃ ts ds, Lexed ls ts ∧ Values s n ts ds ∧ StoresAll n ds us

/-- The lexemes are read as the keys and values of a map. -/
def DenotesEntries (s : Setting Command) (n : Nat) (ls : List String)
    (ues : List (Key × Shape)) : Prop :=
  ∃ ts ds es, Lexed ls ts ∧ Values s n ts ds ∧ Entries ds es ∧
    es.map Prod.fst = ues.map Prod.fst ∧ StoresEntries n es ues

lemma denotesAll_nil : DenotesAll s n [] [] := ⟨[], [], .nil, .nil, storesAll_nil⟩

lemma DenotesAll.cons (h : Denotes s n ls u) (hs : DenotesAll s n ls' us) :
    DenotesAll s n (ls ++ ls') (u :: us) := by
  obtain ⟨ts, d, hlex, hval, hst⟩ := h
  obtain ⟨ts', ds, hlex', hval', hst'⟩ := hs
  exact ⟨_, _, hlex.append hlex', hval.append hval', storesAll_cons hst hst'⟩

lemma denotesEntries_nil : DenotesEntries s n [] [] :=
  ⟨[], [], [], .nil, .nil, .nil, rfl, storesEntries_nil⟩

lemma denotes_atom (ht : t.Spelt) (hne : t ≠ .importing) {d : Datum Command} (ha : Atom s t d)
    (hst : Stores n d u) : Denotes s n [t.spelling] u :=
  ⟨[t], d, .one ht hne, .atom ha .nil, hst⟩

/-- A key is written as the value that it is. -/
lemma DenotesEntries.cons {key : Key} {ues : List (Key × Shape)} (h : Denotes s n ls u)
    (hs : DenotesEntries s n ls' ues) :
    DenotesEntries s n (key.text :: ls ++ ls') ((key, u) :: ues) := by
  obtain ⟨ts, d, hlex, hval, hst⟩ := h
  obtain ⟨ts', ds, es, hlex', hval', hent, hkeys, hst'⟩ := hs
  have hvals := hval.append hval'
  have hlexs := hlex.append hlex'
  have hkeys' : ((key, d) :: es).map Prod.fst = ((key, u) :: ues).map Prod.fst := by simp [hkeys]
  cases key with
  | int i =>
    exact ⟨.int i :: (ts ++ ts'), .int i :: d :: ds, (.int i, d) :: es,
      hlexs.cons (t := .int i) trivial (by simp), .atom (.int i) hvals, .cons rfl hent, hkeys',
      storesEntries_cons hst hst'⟩
  | str v =>
    exact ⟨.str v :: (ts ++ ts'), .str v :: d :: ds, (.str v, d) :: es,
      hlexs.cons (t := .str v) trivial (by simp), .atom (.str v) hvals, .cons rfl hent, hkeys',
      storesEntries_cons hst hst'⟩

lemma denotes_list (h : DenotesAll s n ls us) :
    Denotes s (n + 1) ("[" :: ls ++ ["]"]) (.list us) := by
  obtain ⟨ts, ds, hlex, hval, hst⟩ := h
  exact ⟨_, _, hlex.enclose .list, .list hval .nil, stores_list hst⟩

lemma denotes_map {ues : List (Key × Shape)} (h : DenotesEntries s n ls ues)
    (hasc : Ascending ues) : Denotes s (n + 1) ("\x7b" :: ls ++ ["\x7d"]) (.map ues) := by
  obtain ⟨ts, ds, es, hlex, hval, hent, hkeys, hst⟩ := h
  have hasc' : Ascending es := by rwa [ascending_iff_keys, hkeys, ← ascending_iff_keys]
  refine ⟨_, _, hlex.enclose .map, .map hval hent .nil, ?_⟩
  rw [Table.entries_ofList hasc']
  exact stores_map hasc' hst

lemma denotes_program (h : DenotesAll s n ls us) :
    Denotes s (n + 1) ("<<" :: ls ++ [">>"]) (.program us) := by
  obtain ⟨ts, ds, hlex, hval, hst⟩ := h
  exact ⟨_, _, hlex.enclose .program, .program hval .nil, stores_program hst⟩

lemma denotes_each (h : DenotesAll s n ls us) :
    Denotes s (n + 1) ("FOR" :: ls ++ ["ENDFOR"]) (.each us) := by
  obtain ⟨ts, ds, hlex, hval, hst⟩ := h
  exact ⟨_, _, hlex.enclose .each, .each hval .nil, stores_each hst⟩

lemma denotes_loop (hc : DenotesAll s n ls vs) (h : DenotesAll s n ls' us) :
    Denotes s (n + 1) ("WHILE" :: ls ++ "REPEAT" :: ls' ++ ["ENDWHILE"]) (.loop vs us) := by
  obtain ⟨cs, conds, hclex, hcval, hcst⟩ := hc
  obtain ⟨ts, ds, hlex, hval, hst⟩ := h
  refine ⟨_, _, ?_, .loop hcval hval .nil, stores_loop hcst hst⟩
  simpa [Form.opening, Form.closing, Divider.spelling] using
    (hclex.divide .repeatPart hlex).enclose .loop

/-- A conditional without `ELSE` is one whose last section is empty. -/
lemma denotes_branch {es : List String} {ss : List String}
    (hc : DenotesAll s n ls vs) (ht : DenotesAll s n ls' ws) (he : DenotesAll s n es us)
    (hss : ss = if us.isEmpty then [] else "ELSE" :: es) :
    Denotes s (n + 1) ("IF" :: ls ++ "THEN" :: ls' ++ ss ++ ["ENDIF"]) (.branch vs ws us) := by
  obtain ⟨cs, conds, hclex, hcval, hcst⟩ := hc
  obtain ⟨ts, ds, hlex, hval, hst⟩ := ht
  cases us with
  | nil =>
    obtain rfl : ss = [] := by simpa using hss
    refine ⟨_, _, ?_, .branch hcval hval .nil, stores_branch hcst hst storesAll_nil⟩
    simpa [Form.opening, Form.closing, Divider.spelling] using
      (hclex.divide .thenPart hlex).enclose .branch
  | cons u us =>
    obtain rfl : ss = "ELSE" :: es := by simpa using hss
    obtain ⟨ts', ds', helex, heval, hest⟩ := he
    refine ⟨_, _, ?_, .branchElse hcval hval heval .nil, stores_branch hcst hst hest⟩
    simpa [Form.opening, Form.closing, Divider.spelling] using
      (hclex.divide .thenPart (hlex.divide .elsePart helex)).enclose .branch

/-- Written out, the lexemes are read as one value of this tree. -/
lemma Denotes.readAll (hden : Denotes s s.maxDepth ls u) :
    ∃ d, (Reader.ofText (" ".intercalate ls)).readAll s = .ok [d] ∧ Stores s.maxDepth d u := by
  obtain ⟨ts, d, hlex, hval, hst⟩ := hden
  have htokens : (Cursor.start (" ".intercalate ls)).lex = (ts, Option.none) := by
    rw [hlex.spellings]
    exact Cursor.lex_intercalate hlex.spelt
  exact ⟨d, (Reader.readAll_iff rfl htokens hlex.plain [d]).mpr hval, hst⟩

/-! ### Names that are registered -/

section

variable {reg : Registry} {name : String} {c : Command}

lemma lookup_asked (hreg : reg.WellNamed) (name : String) : reg.find? (name ++ "?") = none := by
  cases hf : reg.find? (name ++ "?") with
  | none => rfl
  | some c =>
    have hacc := (hreg.find? hf).2
    rw [Registry.accepts, Token.askedName?_asked] at hacc
    simp at hacc

/-- **A name that is registered is read as its command**, and with `?` as the help on it. -/
lemma denotes_command (hs : s.lookup = reg.find?) (hreg : reg.WellNamed)
    (hf : reg.find? name = some c) (help : Bool) :
    Denotes s (n + 1) [if help then name ++ "?" else name] (.command name help) := by
  obtain ⟨hname, hacc⟩ := hreg.find? hf
  have hst : Stores (n + 1) (.command c help) (.command name help) := by
    intro _ heap
    exact ⟨.refl heap, fun h' _ => by simp [store, Heap.shape?, hname]⟩
  simp only [Registry.accepts, Bool.and_eq_true] at hacc
  obtain ⟨⟨htext, -⟩, hkey⟩ := hacc
  cases help with
  | true =>
    have hres : s.resolve (name ++ "?") = .command c true := by
      simp [Setting.resolve, hs, lookup_asked hreg, Token.askedName?_asked, hf]
    have hatom := Atom.word (s := s) (name ++ "?")
    rw [hres] at hatom
    exact denotes_atom (t := .word (name ++ "?")) (Token.spelt_asked htext) (by simp) hatom hst
  | false =>
    cases hk : Token.keyword? name with
    | none =>
      have hres : s.resolve name = .command c false := by simp [Setting.resolve, hs, hf]
      have hatom := Atom.word (s := s) name
      rw [hres] at hatom
      exact denotes_atom (t := .word name) ⟨htext, hk⟩ (by simp) hatom hst
    | some t =>
      obtain rfl : t = .exit := by simpa [hk] using hkey
      obtain rfl := Token.eq_exitName hk
      have hatom : Atom s .exit (.command c false) := .exit (by rw [hs, hf])
      exact denotes_atom (t := .exit) trivial (by simp) hatom hst

end

/-! ### Values -/

/-- What holds of each value of a row holds of the row. -/
lemma denotesAll_flatMap {f : Value → Option Shape} {g : Value → List String} {xs : List Value}
    (hxs : xs.mapM f = some us)
    (h : ∀ v ∈ xs, ∀ u, f v = some u → Denotes s n (g v) u) :
    DenotesAll s n (xs.flatMap g) us := by
  induction mapM_eq_some_iff.mp hxs with
  | nil => exact denotesAll_nil
  | @cons v u xs us hv hall ih =>
    have hhead := h v List.mem_cons_self u hv
    exact .cons hhead (ih (mapM_eq_some_iff.mpr hall) fun w hw => h w (List.mem_cons_of_mem v hw))

lemma denotesEntries_flatMap {f : Value → Option Shape} {g : Value → List String}
    {es : List (Key × Value)} {ues : List (Key × Shape)}
    (hes : (es.mapM fun e => (f e.2).map (Prod.mk e.1)) = some ues)
    (h : ∀ e ∈ es, ∀ u, f e.2 = some u → Denotes s n (g e.2) u) :
    DenotesEntries s n (es.flatMap fun e => e.1.text :: g e.2) ues ∧
      ues.map Prod.fst = es.map Prod.fst := by
  induction mapM_eq_some_iff.mp hes with
  | nil => exact ⟨denotesEntries_nil, rfl⟩
  | @cons e ue es ues he hall ih =>
    obtain ⟨u, hu, rfl⟩ := Option.map_eq_some_iff.mp he
    have hhead := h e List.mem_cons_self u hu
    obtain ⟨htail, hkeys⟩ :=
      ih (mapM_eq_some_iff.mpr hall) fun e' he' => h e' (List.mem_cons_of_mem e he')
    exact ⟨DenotesEntries.cons hhead htail, by simp [hkeys]⟩

/-- The commands that are named are registered. -/
def AllKnown (reg : Registry) (names : List String) : Prop :=
  ∀ name ∈ names, (reg.find? name).isSome = true

lemma allKnown_append {reg : Registry} {xs ys : List String} :
    AllKnown reg (xs ++ ys) ↔ AllKnown reg xs ∧ AllKnown reg ys := List.forall_mem_append

namespace Heap

variable {reg : Registry} {h : Heap}

/-- **The lexemes of a value are read as a value of the same tree.** -/
theorem denotes_lexemes (hs : s.lookup = reg.find?) (hreg : reg.WellNamed) {v : Value}
    (hv : h.shape? n v = some u) (hnames : AllKnown reg (h.commandNames n v)) :
    Denotes s n (h.lexemes .unlimited n v) u := by
  induction n generalizing v u with
  | zero => cases hv
  | succ n ih =>
    have row : ∀ {xs : List Value} {us : List Shape}, xs.mapM (h.shape? n) = some us →
        AllKnown reg (xs.flatMap (h.commandNames n)) →
        DenotesAll s n (xs.flatMap (h.lexemes .unlimited n)) us := by
      intro xs us hxs hn
      refine denotesAll_flatMap hxs fun v hv u hu => ih hu fun name hname => ?_
      exact hn name (List.mem_flatMap.mpr ⟨v, hv, hname⟩)
    cases v with
    | int i =>
      cases hv
      exact denotes_atom (t := .int i) trivial (by simp) (.int i)
        fun _ heap => ⟨.refl heap, fun _ _ => rfl⟩
    | str v =>
      cases hv
      exact denotes_atom (t := .str v) trivial (by simp) (.str v)
        fun _ heap => ⟨.refl heap, fun _ _ => rfl⟩
    | none =>
      cases hv
      exact denotes_atom (t := .none) trivial (by simp) .none
        fun _ heap => ⟨.refl heap, fun _ _ => rfl⟩
    | list c =>
      obtain ⟨us, hus, rfl⟩ := Option.map_eq_some_iff.mp hv
      exact denotes_list (row hus hnames)
    | map c =>
      obtain ⟨ues, hues, rfl⟩ := Option.map_eq_some_iff.mp hv
      have hentries := denotesEntries_flatMap (s := s) hues fun e he u hu =>
        ih hu fun name hname => hnames name (List.mem_flatMap.mpr ⟨e, he, hname⟩)
      have hasc : Ascending ues := by
        rw [ascending_iff_keys, hentries.2, ← ascending_iff_keys]
        exact (h.entries c).ascending
      exact denotes_map hentries.1 hasc
    | program p =>
      obtain ⟨us, hus, rfl⟩ := Option.map_eq_some_iff.mp hv
      exact denotes_program (row hus hnames)
    | command c help =>
      cases hv
      obtain ⟨c', hc'⟩ := Option.isSome_iff_exists.mp (hnames c.name (by simp [commandNames]))
      exact denotes_command hs hreg hc' help
    | branch cond thn els =>
      obtain ⟨vs, hvs, hv⟩ := Option.bind_eq_some_iff.mp hv
      obtain ⟨ws, hws, hv⟩ := Option.bind_eq_some_iff.mp hv
      obtain ⟨us, hus, hv⟩ := Option.bind_eq_some_iff.mp hv
      cases hv
      obtain ⟨hnames, hels⟩ := allKnown_append.mp hnames
      obtain ⟨hcond, hthn⟩ := allKnown_append.mp hnames
      have hempty : els.isEmpty = us.isEmpty := by
        cases mapM_eq_some_iff.mp hus <;> rfl
      refine denotes_branch (row hvs hcond) (row hws hthn) (row hus hels) ?_
      rw [← hempty]
      rfl
    | each body =>
      obtain ⟨us, hus, rfl⟩ := Option.map_eq_some_iff.mp hv
      exact denotes_each (row hus hnames)
    | loop cond body =>
      obtain ⟨vs, hvs, hv⟩ := Option.bind_eq_some_iff.mp hv
      obtain ⟨us, hus, hv⟩ := Option.bind_eq_some_iff.mp hv
      cases hv
      obtain ⟨hcond, hbody⟩ := allKnown_append.mp hnames
      exact denotes_loop (row hvs hcond) (row hus hbody)

/-- **Reading undoes writing.** Take a value that does not reach the depth at which writing gives
up, whose commands name commands that are registered. Its written form is read as exactly one
value. Wherever that is stored, it unfolds to the same tree as the value that was written. -/
theorem readAll_render (reg : Registry) (hreg : reg.WellNamed) (h : Heap) (v : Value) (u : Shape)
    (hv : h.shape? renderDepth v = some u)
    (hnames : AllKnown reg (h.commandNames renderDepth v)) (home : String) (disk : Disk) :
    ∃ d, (Reader.ofText (h.render v)).readAll
          ⟨reg.find?, home, Loader.disabled disk, ({} : Limits).forms⟩ = .ok [d] ∧
      ∀ (around : Option Nat) (heap : Heap),
        (d.store around heap).2.shape? renderDepth (d.store around heap).1 = some u := by
  obtain ⟨ts, d, hlex, hval, hst⟩ := denotes_lexemes
    (s := ⟨reg.find?, home, Loader.disabled disk, ({} : Limits).forms⟩) rfl hreg hv hnames
  have htokens : (Cursor.start (h.render v)).lex = (ts, none) := by
    rw [render, renderWith, hlex.spellings]
    exact Cursor.lex_intercalate hlex.spelt
  refine ⟨d, (Reader.readAll_iff rfl htokens hlex.plain [d]).mpr hval, fun around heap => ?_⟩
  exact (hst around heap).2 _ (.refl _)

/-- A list that holds a negative number, a string with a line feed, and the help on a word. -/
theorem readAll_render_list :
    let reg : Registry := (∅ : Registry).insert "DUP" (.ofWord .dup)
    let h : Heap := ⟨#[#[.int (-7), .str "a\n", .command (.ofWord .dup) true]], #[], #[]⟩
    let u : Shape := .list [.int (-7), .str "a\n", .command "DUP" true]
    reg.WellNamed ∧ h.shape? renderDepth (.list 0) = some u ∧
      AllKnown reg (h.commandNames renderDepth (.list 0)) ∧
      ∃ d, (Reader.ofText (h.render (.list 0))).readAll
            ⟨reg.find?, "main", Loader.disabled default, ({} : Limits).forms⟩ = .ok [d] ∧
        ∀ (around : Option Nat) (heap : Heap),
        (d.store around heap).2.shape? renderDepth (d.store around heap).1 = some u := by
  intro reg h u
  have hreg : reg.WellNamed := Registry.wellNamed_empty.insert (c := .ofWord .dup) (by decide)
  have hv : h.shape? renderDepth (.list 0) = some u := rfl
  have hnames : AllKnown reg (h.commandNames renderDepth (.list 0)) := by
    intro name hname
    obtain rfl : name = "DUP" := List.mem_singleton.mp hname
    decide
  exact ⟨hreg, hv, hnames, readAll_render reg hreg h (.list 0) u hv hnames "main" default⟩

end Heap

end ReversePolish

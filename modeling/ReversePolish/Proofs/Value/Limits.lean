import ReversePolish.Proofs.Reader.Nesting
import ReversePolish.Proofs.Value.Depth

/-!
The limits of reading, of writing and of comparing.

A text may open 64 forms one inside the other, and so a value that is read can have values in it
that lie at depth 64. Writing and comparing go down to depth 63. What is read is therefore written
without an elision, and the same as what is read from the same text again, unless something stands
inside all of 64 forms.
-/

namespace ReversePolish

namespace Datum

variable {s : Setting Command} {d d₀ : Datum Command} {ds : List (Datum Command)}
  {es : List (Key × Datum Command)} {h h₁ h' : Heap} {v : Value} {n : Nat} {c : Command}
  {help : Bool} {around : Option Nat}

/-! ### What is read unfolds -/

lemma exists_storesAll (hds : ∀ d ∈ ds, ∃ u, Stores n d u) : ∃ us, StoresAll n ds us := by
  induction ds with
  | nil => exact ⟨[], storesAll_nil⟩
  | cons d ds ih =>
    obtain ⟨⟨u, hu⟩, hds⟩ := List.forall_mem_cons.mp hds
    obtain ⟨us, hus⟩ := ih hds
    exact ⟨u :: us, storesAll_cons hu hus⟩

lemma exists_storesEntries (hes : ∀ e ∈ es, ∃ u, Stores n e.2 u) :
    ∃ ues, StoresEntries n es ues := by
  induction es with
  | nil => exact ⟨[], storesEntries_nil⟩
  | cons e es ih =>
    obtain ⟨⟨u, hu⟩, hes⟩ := List.forall_mem_cons.mp hes
    obtain ⟨ues, hues⟩ := ih hes
    exact ⟨(e.1, u) :: ues, storesEntries_cons hu hues⟩

/-- **What has forms nested at most `n` deep** has no value in it that lies deeper than `n`. -/
theorem Made.stores (hd : d.Made s n) : ∃ u, Stores (n + 1) d u := by
  induction hd with
  | int i => exact ⟨.int i, fun _ h => ⟨.refl h, fun _ _ => rfl⟩⟩
  | str v => exact ⟨.str v, fun _ h => ⟨.refl h, fun _ _ => rfl⟩⟩
  | none => exact ⟨.none, fun _ h => ⟨.refl h, fun _ _ => rfl⟩⟩
  | @command _ _ c help _ => exact ⟨.command c.name help, fun _ h => ⟨.refl h, fun _ _ => rfl⟩⟩
  | list _ ih =>
    obtain ⟨us, hus⟩ := exists_storesAll ih
    exact ⟨_, stores_list hus⟩
  | map hasc _ ih =>
    obtain ⟨ues, hues⟩ := exists_storesEntries ih
    exact ⟨_, stores_map hasc hues⟩
  | program _ ih =>
    obtain ⟨us, hus⟩ := exists_storesAll ih
    exact ⟨_, stores_program hus⟩
  | branch _ _ _ ihc iht ihe =>
    obtain ⟨vs, hvs⟩ := exists_storesAll ihc
    obtain ⟨ws, hws⟩ := exists_storesAll iht
    obtain ⟨us, hus⟩ := exists_storesAll ihe
    exact ⟨_, stores_branch hvs hws hus⟩
  | each _ ih =>
    obtain ⟨us, hus⟩ := exists_storesAll ih
    exact ⟨_, stores_each hus⟩
  | loop _ _ ihc ih =>
    obtain ⟨vs, hvs⟩ := exists_storesAll ihc
    obtain ⟨us, hus⟩ := exists_storesAll ih
    exact ⟨_, stores_loop hvs hus⟩

lemma StoredAs.shape? {u : Shape} (hst : StoredAs around h h₁ d v) (hu : Stores n d u)
    (hx : h₁.Extends h') : h'.shape? n v = some u := by
  obtain ⟨h₀, -, hx₁, rfl⟩ := hst
  exact (hu around h₀).2 h' (hx₁.trans hx)

/-! ### Commands in what is read -/

/-- The parts of what has been read have been read, and so have theirs. -/
lemma Made.within (hd : d.Made s n) (hd₀ : Relation.ReflTransGen (fun a b => b ∈ a.parts) d d₀) :
    ∃ n, d₀.Made s n := by
  induction hd₀ with
  | refl => exact ⟨n, hd⟩
  | tail _ hpart ih =>
    obtain ⟨n, hmade⟩ := ih
    obtain ⟨n', -, hmade'⟩ := hmade.part hpart
    exact ⟨n', hmade'⟩

lemma StoredAs.command (hst : StoredAs around h h₁ d (.command c help)) : d = .command c help := by
  obtain ⟨h₀, -, -, hv⟩ := hst
  cases d <;> cases hv
  rfl

/-- **Commands in what has been read are those that words stand for.** -/
theorem Made.lookup (hd : d.Made s n) (hst : StoredAs around h h₁ d v) (hx : h₁.Extends h')
    (hlead : h'.Leads v (.command c help)) : ∃ name, s.lookup name = some c := by
  obtain ⟨d₀, _, hd₀, hst₀⟩ := hst.leads hx hlead
  obtain rfl := hst₀.command
  obtain ⟨n, hmade⟩ := hd.within hd₀
  cases hmade with
  | command _ hc => exact ⟨_, hc⟩

end Datum

namespace Heap

variable {h : Heap} {v : Value} {name : String} {n : Nat}

lemma leads_of_commandNames (hname : name ∈ h.commandNames n v) :
    ∃ c help, h.Leads v (.command c help) ∧ c.name = name := by
  induction n generalizing v with
  | zero => exact (List.not_mem_nil hname).elim
  | succ n ih =>
    have part {xs : List Value} (hxs : ∀ x ∈ xs, h.Holds v x)
        (hmem : name ∈ xs.flatMap (h.commandNames n)) :
        ∃ c help, h.Leads v (.command c help) ∧ c.name = name := by
      obtain ⟨x, hx, hnx⟩ := List.mem_flatMap.mp hmem
      obtain ⟨c, help, hlead, hc⟩ := ih hnx
      exact ⟨c, help, .head (hxs x hx) hlead, hc⟩
    cases v with
    | list c => exact part (fun x => .item) hname
    | map c =>
      obtain ⟨e, he, hname⟩ := List.mem_flatMap.mp hname
      obtain ⟨c, help, hlead, hc⟩ := ih hname
      exact ⟨c, help, .head (.entry he) hlead, hc⟩
    | program p => exact part (fun x => .body) hname
    | each body => exact part (fun x => .body) hname
    | command c help => exact ⟨c, help, .refl, (List.mem_singleton.mp hname).symm⟩
    | branch cond thn els =>
      simp only [commandNames, ← List.flatMap_append] at hname
      exact part (fun x => .body) hname
    | loop cond body =>
      simp only [commandNames, ← List.flatMap_append] at hname
      exact part (fun x => .body) hname
    | _ => exact (List.not_mem_nil hname).elim

end Heap

/-! ### Two readings of one text -/

/-- Reading with the core words, without imports, and to the depth that is the default. -/
def Setting.plain (home : String) (disk : Disk) : Setting Command :=
  ⟨Registry.core.find?, home, Loader.disabled disk, ({} : Limits).forms⟩

namespace Datum

variable {d : Datum Command} {ds : List (Datum Command)} {home : String} {disk : Disk}
  {h h₁ h₂ h₃ h' : Heap} {v w : Value} {n : Nat} {c : Command} {help : Bool}
  {around : Option Nat}

lemma Made.find?_core (hd : d.Made (.plain home disk) n) (hst : StoredAs around h h₁ d v)
    (hx : h₁.Extends h') (hlead : h'.Leads v (.command c help)) :
    Registry.core.find? c.name = some c := by
  obtain ⟨name, hname⟩ := hd.lookup hst hx hlead
  rwa [(Registry.wellNamed_core.find? hname).1]

lemma Made.plain (hd : d.Made (.plain home disk) n) (hst : StoredAs around h h₁ d v)
    (hx : h₁.Extends h') : h'.Plain v := by
  intro c help hlead hname
  have hcore := hd.find?_core hst hx hlead
  rw [hname, show Registry.core.find? elision = Option.none by decide +kernel] at hcore
  cases hcore

lemma Made.allKnown (hd : d.Made (.plain home disk) n) (hst : StoredAs around h h₁ d v)
    (hx : h₁.Extends h') (depth : Nat) :
    AllKnown Registry.core (h'.commandNames depth v) := by
  intro name hname
  obtain ⟨c, help, hlead, rfl⟩ := Heap.leads_of_commandNames hname
  rw [hd.find?_core hst hx hlead]
  rfl

/-- What was stored earlier has no cell in common with what was stored later. -/
lemma StoredAs.disjoint {d' : Datum Command} {around' : Option Nat} (hv : StoredAs around h h₁ d v)
    (hw : StoredAs around' h₂ h₃ d' w)
    (hx : h₁.Extends h₂) (hx' : h₂.Extends h₃) (hx₃ : h₃.Extends h') : h'.Disjoint v w := by
  intro x hcell hvx hwx
  have hearlier := (hv.cells (hx.trans (hx'.trans hx₃)) hvx hcell).2
  exact (hw.cells hx₃ hwx hcell).1 (hx.has hearlier)

/-- **What is stored twice** unfolds twice to one tree, which goes no deeper than a text can. To
write it is to elide what lies at the last depth, and to compare the two fails where something lies
there by lists and maps alone. -/
theorem Made.twice (hd : d.Made (.plain home disk) renderDepth)
    (hv : StoredAs around h h₁ d v) (hw : StoredAs around h₂ h₃ d w) (hx : h₁.Extends h₂)
    (hx' : h₂.Extends h₃) :
    (∃ u, h₃.shape? (renderDepth + 1) v = some u ∧ h₃.shape? (renderDepth + 1) w = some u) ∧
      (elision ∈ h₃.lexemes .unlimited renderDepth v ↔ h₃.shape? renderDepth v = Option.none) ∧
      h₃.equal? v w = some (if h₃.shallow compareDepth v then .ok true
        else .error (.failed (.comparisonTooDeep compareDepth))) := by
  obtain ⟨u, hu⟩ := hd.stores
  have hvu := hv.shape? hu (hx.trans hx')
  have hwu := hw.shape? hu (.refl h₃)
  exact ⟨⟨u, hvu, hwu⟩, Heap.elision_mem_lexemes (hd.plain hv (hx.trans hx')),
    Heap.equal?_of_shape? hvu hwu (hv.disjoint hw hx hx' (.refl h₃))⟩

/-- What unfolds within the depth of writing is read back from what is written of it. -/
theorem Made.read_written {u : Shape} (hd : d.Made (.plain home disk) n)
    (hv : StoredAs around h h₁ d v) (hx : h₁.Extends h') (hu : h'.shape? renderDepth v = some u)
    (home' : String) (disk' : Disk) :
    ∃ d', (Reader.ofText (h'.render v)).readAll (.plain home' disk') = .ok [d'] ∧
      ∀ (around : Option Nat) (heap : Heap),
        (d'.store around heap).2.shape? renderDepth (d'.store around heap).1 = some u := by
  have hden := Heap.denotes_lexemes (s := .plain home' disk') rfl Registry.wellNamed_core
    hu (hd.allKnown hv hx renderDepth)
  obtain ⟨d', hread, hstores⟩ := hden.readAll
  exact ⟨d', hread, fun around heap => (hstores around heap).2 _ (.refl _)⟩

/-! ### Lists in lists -/

/-- The number 1 inside so many lists. -/
def nested : Nat → Datum Command
  | 0 => .int 1
  | n + 1 => .list [nested n]

/-- The tokens of a number inside so many lists. -/
def nestedTokens : Nat → List Token
  | 0 => [.int 1]
  | n + 1 => .opener .list :: (nestedTokens n ++ [.closer .list])

/-- The text of a number inside so many lists, such as `[ [ 1 ] ]`. -/
def nestedText (n : Nat) : String := " ".intercalate ((nestedTokens n).map Token.spelling)

lemma values_nested {s : Setting Command} (m n : Nat) :
    Grammar.Values s (m + n) (nestedTokens n) [nested n] := by
  induction n with
  | zero => exact .atom (.int 1) .nil
  | succ n ih => exact .list ih .nil

lemma lexed_nested (n : Nat) : Lexed ((nestedTokens n).map Token.spelling) (nestedTokens n) := by
  induction n with
  | zero => exact .one (t := .int 1) trivial nofun
  | succ n ih => simpa [nestedTokens, Token.spelling] using ih.enclose .list

/-- **As many lists as forms are allowed are read.** -/
theorem readAll_nested {s : Setting Command} (hn : n ≤ s.maxDepth) :
    (Reader.ofText (nestedText n)).readAll s = .ok [nested n] := by
  obtain ⟨m, hm⟩ := Nat.exists_eq_add_of_le' hn
  have hlex := lexed_nested n
  refine (Reader.readAll_iff rfl (Cursor.lex_intercalate hlex.spelt) hlex.plain _).mpr ?_
  rw [hm]
  exact values_nested m n

lemma stores_nested (n : Nat) : ∃ u, Stores (n + 1) (nested n) u := by
  induction n with
  | zero => exact ⟨.int 1, fun _ h => ⟨.refl h, fun _ _ => rfl⟩⟩
  | succ n ih =>
    obtain ⟨u, hu⟩ := ih
    exact ⟨.list [u], stores_list (storesAll_cons hu storesAll_nil)⟩

/-- The number lies as deep as there are lists. -/
lemma deep_nested (hx : ((nested n).store around h).2.Extends h') :
    h'.shape? n ((nested n).store around h).1 = Option.none ∧
      h'.shallow n ((nested n).store around h).1 = false := by
  induction n generalizing h h' with
  | zero => exact ⟨rfl, rfl⟩
  | succ n ih =>
    obtain ⟨hshape, hshallow⟩ := ih ((Heap.extends_newList _ _).trans hx)
    have helements :
        h'.elements ((nested (n + 1)).store around h).1 = [((nested n).store around h).1] :=
      congrArg Array.toList (Heap.items_newList hx)
    have hmem : ((nested n).store around h).1 ∈ h'.elements ((nested (n + 1)).store around h).1 := by
      simp [helements]
    constructor
    · exact Heap.shape?_succ_eq_none_iff.mpr ⟨_, .item hmem, hshape⟩
    · rw [Heap.shallow, helements]
      simp [hshallow]

/-- As many lists as forms are allowed are one too many to be written and to be compared. -/
lemma twice_nested (hn : n = renderDepth) (around : Option Nat) (h : Heap) :
    let first := (nested n).store around h
    let second := (nested n).store around first.2
    (Reader.ofText (nestedText n)).readAll (.plain home disk) = .ok [nested n] ∧
      elision ∈ second.2.lexemes .unlimited renderDepth first.1 ∧
      second.2.equal? first.1 second.1 =
        some (.error (.failed (.comparisonTooDeep compareDepth))) := by
  intro first second
  have hds : (Reader.ofText (nestedText n)).readAll (.plain home disk) = .ok [nested n] :=
    readAll_nested (Nat.le_of_eq hn)
  have hmade := Reader.made_readAll _ _ hds (nested n) List.mem_cons_self
  have hgrown : first.2.Extends second.2 := extends_store (nested n) around first.2
  obtain ⟨-, helision, hequal⟩ :=
    hmade.twice (storedAs _ around h) (storedAs _ around first.2) (.refl first.2) hgrown
  have hdeep : second.2.shape? n first.1 = Option.none := (deep_nested hgrown).1
  have hshallow : second.2.shallow n first.1 = false := (deep_nested hgrown).2
  rw [hn] at hdeep hshallow
  refine ⟨hds, helision.mpr hdeep, ?_⟩
  rwa [show second.2.shallow compareDepth first.1 = false from hshallow] at hequal

end Datum

namespace Reader

open Datum hiding none

variable {text home : String} {disk : Disk} {ds : List (Datum Command)} {h h' : Heap} {i : Nat}
  {v w : Value} {around : Option Nat}

/-- **What is read is written and compared without loss unless it goes to the limit.** Take a text
that is read with the core words, and store what is read twice: the second time when the heap may
have grown since the first. The two values at each place unfold to one tree, and nothing in them
lies deeper than 64. When nothing lies at depth 64 either, the value is written without an elision,
what is written is read as a value that unfolds to that tree, and the two values are equal. When
something does, it is elided, and to compare the two fails if it lies there by lists and maps
alone. -/
theorem read_twice (hds : (Reader.ofText text).readAll (.plain home disk) = .ok ds)
    (hx : (storeAll ds around h).2.Extends h') (hv : (storeAll ds around h).1[i]? = some v)
    (hw : (storeAll ds around h').1[i]? = some w) :
    let heap := (storeAll ds around h').2
    ∃ u, heap.shape? (renderDepth + 1) v = some u ∧ heap.shape? (renderDepth + 1) w = some u ∧
      (heap.shape? renderDepth v = some u →
        elision ∉ heap.lexemes .unlimited renderDepth v ∧
        heap.equal? v w = some (.ok true) ∧
        ∀ home disk, ∃ d, (Reader.ofText (heap.render v)).readAll (.plain home disk) = .ok [d] ∧
          ∀ (around : Option Nat) (h : Heap),
            (d.store around h).2.shape? renderDepth (d.store around h).1 = some u) ∧
      (heap.shape? renderDepth v = none →
        elision ∈ heap.lexemes .unlimited renderDepth v ∧
        heap.equal? v w = some (if heap.shallow compareDepth v then .ok true
          else .error (.failed (.comparisonTooDeep compareDepth)))) := by
  intro heap
  obtain ⟨d, hd, hst⟩ := storedAs_getElem hv
  obtain ⟨d', hd', hst'⟩ := storedAs_getElem hw
  obtain rfl : d = d' := Option.some.inj (hd.symm.trans hd')
  have hmade := made_readAll _ _ hds d (List.mem_of_getElem? hd)
  have hgrown := extends_storeAll ds around h'
  obtain ⟨⟨u, hvu, hwu⟩, helision, hequal⟩ := hmade.twice hst hst' hx hgrown
  refine ⟨u, hvu, hwu, fun hu => ⟨?_, ?_, ?_⟩, fun hnone => ⟨helision.mpr hnone, hequal⟩⟩
  · rw [helision, hu]
    exact Option.some_ne_none u
  · have hshallow : heap.shallow compareDepth v = true :=
      Heap.shallow_of_shape? (show heap.shape? renderDepth v ≠ none by simp [hu])
    rwa [if_pos hshallow] at hequal
  · exact hmade.read_written hst (hx.trans hgrown) hu

/-- `[ 1 ]`, read twice. -/
theorem list_read_twice :
    let ds := [nested 1]
    let first := storeAll ds none .empty
    let second := storeAll ds none first.2
    (Reader.ofText (nestedText 1)).readAll (.plain "main" default) = .ok ds ∧
      first.1[0]? = some (.list 0) ∧ second.1[0]? = some (.list 1) ∧
      second.2.shape? renderDepth (.list 0) = some (.list [.int 1]) ∧
      elision ∉ second.2.lexemes .unlimited renderDepth (.list 0) ∧
      second.2.equal? (.list 0) (.list 1) = some (.ok true) := by
  intro ds first second
  have hds : (Reader.ofText (nestedText 1)).readAll (.plain "main" default) = .ok ds :=
    readAll_nested (by decide)
  have hu : second.2.shape? renderDepth (.list 0) = some (.list [.int 1]) := rfl
  obtain ⟨u, hvu, -, hwithin, -⟩ := read_twice (i := 0) (h := .empty) hds (.refl first.2) rfl rfl
  obtain rfl : u = .list [.int 1] := Option.some.inj (hvu.symm.trans (Heap.shape?_succ hu))
  obtain ⟨helision, hequal, -⟩ := hwithin hu
  exact ⟨hds, rfl, rfl, hu, helision, hequal⟩

/-- A number inside 64 lists, read twice. It is elided when the value is written, and the two values
are too deep to be compared. -/
theorem deepest_list_read_twice :
    let first := (nested 64).store none .empty
    let second := (nested 64).store none first.2
    (Reader.ofText (nestedText 64)).readAll (.plain "main" default) = .ok [nested 64] ∧
      elision ∈ second.2.lexemes .unlimited renderDepth first.1 ∧
      second.2.equal? first.1 second.1 =
        some (.error (.failed (.comparisonTooDeep compareDepth))) :=
  twice_nested rfl none .empty

end Reader

end ReversePolish

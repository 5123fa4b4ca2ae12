import ReversePolish.Machine
import ReversePolish.Proofs.Operator.Passing
import ReversePolish.Proofs.Reader.Made

/-!
Properties that values pass on to what they are made of. A program has such a property when it belongs
to a namespace of a certain kind, lies in a cell where it may, and all values in it have the property,
and a word that stands for a program has it when the program does. Whether a list or map has it is up
to its cell.

What is read has the property if it is read in such a namespace, if the words in it have it, and if
the cells have it that it is put into.
-/

namespace ReversePolish

section

variable (P : Value → Prop) (home : String → Prop)

/-- The program belongs to such a namespace, lies where one with the property may, and what it is made
of has the property. -/
structure Program.Carries (p : Program) : Prop where
  home : home p.home
  cell : ∀ c, p.cell = some c → Program.MayLie P c
  body : ∀ v ∈ p.body, P v

/-- The word stands for no program, or for one that carries the property. -/
def Command.Carries (c : Command) : Prop := ∀ p, c.behavior = .user p → p.Carries P home

/-- A value has the property exactly when what it is made of has it. This says nothing about lists and
maps. All names are names of such namespaces, save perhaps the empty one. -/
structure Value.Hereditary : Prop where
  int : ∀ n, P (.int n)
  str : ∀ s, P (.str s)
  none : P .none
  program : ∀ {p : Program}, P (.program p) ↔ p.Carries P home
  command : ∀ {c : Command} {help : Bool}, P (.command c help) ↔ c.Carries P home
  branch : ∀ {cond thn els : List Value},
    P (.branch cond thn els) ↔ (∀ v ∈ cond, P v) ∧ (∀ v ∈ thn, P v) ∧ ∀ v ∈ els, P v
  each : ∀ {body : List Value}, P (.each body) ↔ ∀ v ∈ body, P v
  loop : ∀ {cond body : List Value}, P (.loop cond body) ↔ (∀ v ∈ cond, P v) ∧ ∀ v ∈ body, P v
  named : ∀ name, name ≠ "" → home name

end

variable {P : Value → Prop} {home : String → Prop}

lemma Value.Hereditary.admits (hP : Value.Hereditary P home) : Value.Admits P where
  int := hP.int
  str := hP.str
  none := hP.none
  moved hp hc :=
    have hp := hP.program.mp hp
    hP.program.mpr ⟨hp.home, by rintro _ ⟨⟩; exact hc, hp.body⟩

lemma Program.MayLie.mono {Q : Value → Prop} {c : Nat} (hPQ : ∀ v, P v → Q v)
    (hc : Program.MayLie P c) : Program.MayLie Q c :=
  hc.imp fun _ hp => ⟨hp.1, hPQ _ hp.2⟩

lemma Command.carries_ofWord (w : Word) : (Command.ofWord w).Carries P home := nofun

lemma Command.carries_ofProgram (h : Heap) (name : String) {p : Program} (hp : p.Carries P home) :
    (Command.ofProgram h name p).Carries P home := by
  rintro _ ⟨⟩
  exact hp

lemma Program.Carries.mono {Q : Value → Prop} {p : Program} (hPQ : ∀ v, P v → Q v)
    (hp : p.Carries P home) : p.Carries Q home :=
  ⟨hp.home, fun c hc => (hp.cell c hc).mono hPQ, fun v hv => hPQ v (hp.body v hv)⟩

lemma Command.Carries.mono {Q : Value → Prop} {c : Command} (hPQ : ∀ v, P v → Q v)
    (hc : c.Carries P home) : c.Carries Q home :=
  fun p hp => (hc p hp).mono hPQ

lemma Value.Hereditary.ofKey (hP : Value.Hereditary P home) (k : Key) : P (.ofKey k) := by
  cases k with
  | int n => exact hP.int n
  | str s => exact hP.str s

/-! ### Storing what was read -/

namespace Datum

variable {d : Datum Command} {ds : List (Datum Command)} {es : List (Key × Datum Command)}
  {s : Setting Command} {n : Nat} {around : Option Nat} {h : Heap}

/-- Once stored, the datum has the property, if the cells have it that there are then. The program
around it lies where it may. -/
def Carries (P : Value → Prop) (d : Datum Command) : Prop :=
  ∀ (around : Option Nat) (h : Heap), (∀ e, around = some e → Program.MayLie P e) → h.AllHold P →
    (d.store around h).2.Fits P → P (d.store around h).1 ∧ (d.store around h).2.AllHold P

lemma carries_storeAll (hds : ∀ d ∈ ds, d.Carries P)
    (haround : ∀ e, around = some e → Program.MayLie P e) (hh : h.AllHold P)
    (hfits : (storeAll ds around h).2.Fits P) :
    (∀ v ∈ (storeAll ds around h).1, P v) ∧ (storeAll ds around h).2.AllHold P := by
  induction ds generalizing h with
  | nil => exact ⟨fun _ hv => (List.not_mem_nil hv).elim, hh⟩
  | cons d ds ih =>
    obtain ⟨hd, hds⟩ := List.forall_mem_cons.mp hds
    obtain ⟨hv, hh₁⟩ := hd around h haround hh ((extends_storeAll ds _ _).fits hfits)
    obtain ⟨hvs, hh₂⟩ := ih hds hh₁ hfits
    exact ⟨List.forall_mem_cons.mpr ⟨hv, hvs⟩, hh₂⟩

lemma carries_storeEntries (hes : ∀ e ∈ es, e.2.Carries P)
    (haround : ∀ e, around = some e → Program.MayLie P e) (hh : h.AllHold P)
    (hfits : (storeEntries es around h).2.Fits P) :
    (∀ e ∈ (storeEntries es around h).1, P e.2) ∧ (storeEntries es around h).2.AllHold P := by
  induction es generalizing h with
  | nil => exact ⟨fun _ hv => (List.not_mem_nil hv).elim, hh⟩
  | cons e es ih =>
    obtain ⟨he, hes⟩ := List.forall_mem_cons.mp hes
    obtain ⟨hv, hh₁⟩ := he around h haround hh ((extends_storeEntries es _ _).fits hfits)
    obtain ⟨hvs, hh₂⟩ := ih hes hh₁ hfits
    exact ⟨List.forall_mem_cons.mpr ⟨hv, hvs⟩, hh₂⟩

/-- **What is read carries the property** where the namespace is of the kind and the words carry it. -/
theorem Made.carries (hP : Value.Hereditary P home) (hd : d.Made s n) (hhome : home s.home)
    (hlookup : ∀ name c, s.lookup name = some c → c.Carries P home) : d.Carries P := by
  induction hd with
  | int i => exact fun _ h _ hh _ => ⟨hP.int i, hh⟩
  | str v => exact fun _ h _ hh _ => ⟨hP.str v, hh⟩
  | none => exact fun _ h _ hh _ => ⟨hP.none, hh⟩
  | command help hc => exact fun _ h _ hh _ => ⟨hP.command.mpr (hlookup _ _ hc), hh⟩
  | list _ ih =>
    intro around h haround hh hfits
    obtain ⟨hvs, hh₁⟩ := carries_storeAll ih haround hh ((Heap.extends_newList _ _).fits hfits)
    exact ⟨hfits.cells _ (Heap.has_newList _ _), hh₁.newList (by simpa using hvs)⟩
  | map _ _ ih =>
    intro around h haround hh hfits
    obtain ⟨hes, hh₁⟩ := carries_storeEntries ih haround hh ((Heap.extends_newMap _ _).fits hfits)
    exact ⟨hfits.cells _ (Heap.has_newMap _ _), hh₁.newMap (Table.forall_ofList hes)⟩
  | @program _ body _ ih =>
    intro around h haround hh hfits
    have hgrown := extends_storeAll body (some h.links.size) (h.newLink around).2
    have hcell : Program.MayLie P h.links.size :=
      (hgrown.fits hfits).programs _ (by simp [Heap.newLink])
    have haround' : ∀ e, some h.links.size = some e → Program.MayLie P e := by
      rintro _ ⟨⟩
      exact hcell
    obtain ⟨hvs, hh₁⟩ := carries_storeAll ih haround' (hh.newLink haround) hfits
    exact ⟨hP.program.mpr ⟨hhome, haround', hvs⟩, hh₁⟩
  | @branch _ cond thn els _ _ _ ihc iht ihe =>
    intro around h haround hh hfits
    have hfits₂ := (extends_storeAll els _ _).fits hfits
    obtain ⟨hcs, hh₁⟩ := carries_storeAll ihc haround hh ((extends_storeAll thn _ _).fits hfits₂)
    obtain ⟨hts, hh₂⟩ := carries_storeAll iht haround hh₁ hfits₂
    obtain ⟨hes, hh₃⟩ := carries_storeAll ihe haround hh₂ hfits
    exact ⟨hP.branch.mpr ⟨hcs, hts, hes⟩, hh₃⟩
  | each _ ih =>
    intro around h haround hh hfits
    obtain ⟨hvs, hh₁⟩ := carries_storeAll ih haround hh hfits
    exact ⟨hP.each.mpr hvs, hh₁⟩
  | @loop _ cond body _ _ ihc ih =>
    intro around h haround hh hfits
    obtain ⟨hcs, hh₁⟩ := carries_storeAll ihc haround hh ((extends_storeAll body _ _).fits hfits)
    obtain ⟨hvs, hh₂⟩ := carries_storeAll ih haround hh₁ hfits
    exact ⟨hP.loop.mpr ⟨hcs, hvs⟩, hh₂⟩

end Datum

end ReversePolish

import ReversePolish.Lifetime
import ReversePolish.Proofs.Reader.Made
import ReversePolish.Proofs.Value.Cells

/-!
Where a piece of a value that has been read lies. There is a limit to the number of forms around it,
whichever text they were written in, and the programs among them are linked, each to the next one
around it.
-/

namespace ReversePolish

namespace Value

/-- The form that the value is written as, unless one token is enough for it. -/
def form? : Value → Option Form
  | list _ => some .list
  | map _ => some .map
  | program _ => some .program
  | branch _ _ _ => some .branch
  | each _ => some .each
  | loop _ _ => some .loop
  | _ => Option.none

def program? : Value → Option Program
  | program p => some p
  | _ => Option.none

end Value

namespace Program

/-- The cell of the innermost of these programs. -/
def around? (ps : List Program) : Option Nat := ps.head?.bind (·.cell)

/-- The program is among what is there. -/
def isThere (there : List Cell) (p : Program) : Bool :=
  p.cell.any fun c => there.contains (.program c)

end Program

namespace Heap

variable {h h' h₁ : Heap} {u v w x : Value} {us : List Value} {p : Program} {ps : List Program}
  {there : List Cell}

/-- The value `w` lies in `v`, and these are the values around it there, the innermost first. -/
inductive Lies (h : Heap) (v : Value) : List Value → Value → Prop where
  | self : Lies h v [] v
  | part {us : List Value} {w x : Value} : Lies h v us w → h.Holds w x → Lies h v (w :: us) x

/-- Each of these programs was written in the next one, and the last one in none. A program that is
written in another one has a later cell. -/
inductive Linked (h : Heap) : List Program → Prop where
  | nil : Linked h []
  | cons {p : Program} {ps : List Program} {c : Nat} : p.cell = some c → c < h.links.size →
      h.link c = Program.around? ps → (∀ e, Program.around? ps = some e → e < c) →
      Linked h ps → Linked h (p :: ps)

lemma Linked.cell_of_mem (hl : h.Linked ps) (hp : p ∈ ps) : ∃ c, p.cell = some c := by
  induction hl with
  | nil => exact (List.not_mem_nil hp).elim
  | cons hcell _ _ _ _ ih =>
    rcases List.mem_cons.mp hp with rfl | hp
    · exact ⟨_, hcell⟩
    · exact ih hp

/-- All programs around the first one are counted, up to one that has gone. -/
theorem Linked.nestingDepth (hl : h.Linked (p :: ps)) :
    p.nestingDepth h there = (ps.takeWhile (·.isThere there)).length := by
  induction ps generalizing p with
  | nil =>
    cases hl with
    | @cons _ _ c hcell _ hlink _ _ =>
      have hnone : h.link c = none := hlink
      rw [Program.nestingDepth, hcell, Option.elim_some, Heap.nestingDepth, enclosing?, hnone]
      rfl
  | cons q ps ih =>
    cases hl with
    | @cons _ _ c hcell _ hlink hlt hrest =>
      have hdepth := ih hrest
      obtain ⟨e, he⟩ := hrest.cell_of_mem List.mem_cons_self
      have hlink : h.link c = some e := hlink.trans he
      have hlt : e < c := hlt e he
      rw [Program.nestingDepth, he, Option.elim_some] at hdepth
      rw [Program.nestingDepth, hcell, Option.elim_some, Heap.nestingDepth, enclosing?, hlink,
        List.takeWhile_cons, Program.isThere, he]
      by_cases hthere : Cell.program e ∈ there <;> simp [Option.filter, hthere, hlt, hdepth]

/-- Links that are there stay as they are while others are added. -/
lemma Linked.mono (hl : h.Linked ps) (hx : h.links.toList <+: h'.links.toList) : h'.Linked ps := by
  induction hl with
  | nil => exact .nil
  | @cons p ps c hcell hc hlink hlt _ ih =>
    have hlen : h.links.size ≤ h'.links.size := by simpa using hx.length_le
    exact .cons hcell (hc.trans_le hlen) ((link_of_isPrefix hx hc).trans hlink) hlt ih

/-- **A copy of a program** was written where the program was, and so it is in the same programs. -/
theorem Linked.copy {q : Program} {edit : Edit} (hl : h.Linked (p :: ps))
    (hcopy : h.copy (.program p) = .ok (.program q, edit)) : (h.apply edit).Linked (q :: ps) := by
  cases hcopy
  cases hl with
  | @cons _ _ c hcell hc hlink hlt hrest =>
    have hx := extends_newLink (p.cell.bind h.link) h
    have haround : (h.newLink (p.cell.bind h.link)).2.link h.links.size = Program.around? ps := by
      rw [link_newLink (.refl _), hcell]
      exact hlink
    have hsize : h.links.size < (h.newLink (p.cell.bind h.link)).2.links.size := by simp [newLink]
    exact .cons rfl hsize haround (fun e he => (hlt e he).trans hc) (hrest.mono hx.links)

end Heap

namespace Datum

variable {s : Setting Command} {n : Nat} {d : Datum Command} {h₁ : Heap} {v w x : Value}
  {us : List Value} {ps : List Program}

/-- What is made of parts leaves room for one form more around them. -/
lemma Made.part {κ : Type} {s : Setting κ} {d x : Datum κ} (h : d.Made s n) (hx : x ∈ d.parts) :
    ∃ n', n = n' + 1 ∧ x.Made s n' := by
  cases h with
  | int | str | none | command => exact (List.not_mem_nil hx).elim
  | list hitems => exact ⟨_, rfl, hitems x hx⟩
  | map _ hentries => exact ⟨_, rfl, List.forall_mem_map.mpr hentries x hx⟩
  | program hbody => exact ⟨_, rfl, hbody x hx⟩
  | branch hcond hthn hels =>
    rcases List.mem_append.mp hx with hx | hx
    · exact ⟨_, rfl, (List.mem_append.mp hx).elim (hcond x) (hthn x)⟩
    · exact ⟨_, rfl, hels x hx⟩
  | each hbody => exact ⟨_, rfl, hbody x hx⟩
  | loop hcond hbody => exact ⟨_, rfl, (List.mem_append.mp hx).elim (hcond x) (hbody x)⟩

/-- The datum was stored as this value inside these programs, the innermost first, before the heap
grew to `h₁`. -/
structure StoredIn (ps : List Program) (h₁ : Heap) (d : Datum Command) (v : Value) : Prop where
  linked : h₁.Linked ps
  stored : ∃ h₀ : Heap, (∀ e, Program.around? ps = some e → e < h₀.links.size) ∧
    (d.store (Program.around? ps) h₀).2.Extends h₁ ∧ (d.store (Program.around? ps) h₀).1 = v

lemma storedIn_nil (d : Datum Command) (h : Heap) :
    StoredIn [] (d.store Option.none h).2 d (d.store Option.none h).1 :=
  ⟨.nil, h, nofun, .refl _, rfl⟩

/-- A program that was stored is linked to the one that it was stored in. -/
lemma StoredIn.enter (hd : StoredIn ps h₁ d v) : h₁.Linked (v.program?.toList ++ ps) := by
  obtain ⟨hlinked, h₀, hlt, hx, rfl⟩ := hd
  cases d with
  | program home body =>
    have hx' : (h₀.newLink (Program.around? ps)).2.Extends h₁ :=
      (extends_storeAll body (some h₀.links.size) _).trans hx
    have hc : h₀.links.size < h₁.links.size := by
      refine Nat.lt_of_lt_of_le ?_ hx'.size_links
      simp [Heap.newLink]
    exact .cons rfl hc (Heap.link_newLink hx') hlt hlinked
  | _ => exact hlinked

/-- The parts of a stored value were stored in it. -/
lemma StoredIn.part (hd : StoredIn ps h₁ d v) (hholds : h₁.Holds v x) :
    ∃ d₀ ∈ d.parts, StoredIn (v.program?.toList ++ ps) h₁ d₀ x := by
  have hlinked := hd.enter
  obtain ⟨-, h₀, hlt, hx, rfl⟩ := hd
  obtain ⟨d₀, hd₀, h₂, hx₂, hx₁, hv⟩ := holds_store hx hholds
  have haround : (d.store (Program.around? ps) h₀).1.innermost (Program.around? ps) =
      Program.around? ((d.store (Program.around? ps) h₀).1.program?.toList ++ ps) := by
    cases d <;> rfl
  rw [haround] at hx₁ hv
  refine ⟨d₀, hd₀, hlinked, h₂, fun e he => ?_, hx₁.trans hx, hv⟩
  refine Nat.lt_of_lt_of_le ?_ hx₂.size_links
  cases d with
  | program home body =>
    obtain rfl : h₀.links.size = e := Option.some.inj he
    simp [entered, Heap.newLink]
  | _ => exact hlt e he

/-- **What lies in a value that has been read** was read itself: there is room for the forms around it,
and it was stored in the programs among them. -/
theorem Made.lies (hd : d.Made s n) (hst : StoredIn [] h₁ d v) (hw : h₁.Lies v us w) :
    ∃ n' d₀, n = n' + us.length ∧ d₀.Made s n' ∧ StoredIn (us.filterMap Value.program?) h₁ d₀ w := by
  induction hw with
  | self => exact ⟨n, d, rfl, hd, hst⟩
  | @part us w x _ hholds ih =>
    obtain ⟨n₁, d₁, hn₁, hmade, hst₁⟩ := ih
    obtain ⟨d₀, hd₀, hst₀⟩ := hst₁.part hholds
    obtain ⟨n', hn', hmade₀⟩ := hmade.part hd₀
    refine ⟨n', d₀, by rw [List.length_cons]; omega, hmade₀, ?_⟩
    have hprograms : (w :: us).filterMap Value.program? =
        w.program?.toList ++ us.filterMap Value.program? := by
      cases w <;> rfl
    rwa [hprograms]

/-- A form takes up room. -/
lemma Made.pos_of_form (hd : d.Made s n) (hst : StoredIn ps h₁ d v) (hform : v.form?.isSome) :
    0 < n := by
  obtain ⟨-, h₀, -, -, rfl⟩ := hst
  cases hd with
  | int | str | none | command => cases hform
  | _ => exact Nat.succ_pos _

/-- A program that was read belongs to the namespace that is read in. -/
lemma Made.home_eq {p : Program} (hd : d.Made s n) (hst : StoredIn ps h₁ d (.program p)) :
    p.home = s.home := by
  obtain ⟨-, h₀, -, -, hv⟩ := hst
  cases hd <;> cases hv
  rfl

end Datum

end ReversePolish

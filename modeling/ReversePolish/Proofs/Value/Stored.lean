import ReversePolish.Proofs.Value.Hereditary

/-!
Values in storage. A list or map is only a name of a cell, and a value is in storage when there is a
cell for each list, map and program in it. Values pass this on to what they are made of, and it holds of
all that is made on a machine: new lists, maps and programs come with their cells, and no cell goes
away.
-/

namespace ReversePolish

/-- All lists, maps and programs in the value are in the heap, also the programs that registered words
stand for and what is in them. -/
inductive Value.Stored (h : Heap) : Value → Prop where
  | cell {v : Value} : h.Has v → Stored h v
  | int (n : Int64) : Stored h (.int n)
  | str (s : String) : Stored h (.str s)
  | none : Stored h .none
  | program {p : Program} : (∀ c, p.cell = some c → c < h.links.size) → (∀ v ∈ p.body, Stored h v) →
      Stored h (.program p)
  | command {c : Command} {help : Bool} : 
      (∀ p, c.behavior = .user p → ∀ cell, p.cell = some cell → cell < h.links.size) →
      (∀ p, c.behavior = .user p → ∀ v ∈ p.body, Stored h v) → Stored h (.command c help)
  | branch {cond thn els : List Value} : (∀ v ∈ cond, Stored h v) → (∀ v ∈ thn, Stored h v) →
      (∀ v ∈ els, Stored h v) → Stored h (.branch cond thn els)
  | each {body : List Value} : (∀ v ∈ body, Stored h v) → Stored h (.each body)
  | loop {cond body : List Value} : (∀ v ∈ cond, Stored h v) → (∀ v ∈ body, Stored h v) →
      Stored h (.loop cond body)

/-- The word stands for no program, or for one that is in the heap with all that is in it. -/
abbrev Command.Stored (h : Heap) (c : Command) : Prop := c.Carries (Value.Stored h) fun _ => True

namespace Value

variable {h : Heap} {v : Value}

lemma Stored.has (hs : v.Stored h) (hv : v.IsCell) : h.Has v := by
  cases hs with
  | cell hhas => exact hhas
  | _ => simp [IsCell, kind] at hv

lemma mayLie_stored {c : Nat} : Program.MayLie (Stored h) c ↔ c < h.links.size := by
  constructor
  · rintro ⟨p, hp, hhas | _ | _ | _ | ⟨hcell, -⟩⟩
    · exact hhas.elim
    · exact hcell c hp
  · exact fun hc => ⟨⟨[], "main", some c⟩, rfl,
      .program (by rintro _ ⟨⟩; exact hc) fun _ hv => (List.not_mem_nil hv).elim⟩

theorem hereditary_stored (h : Heap) : Hereditary (Stored h) fun _ => True where
  int := .int
  str := .str
  none := .none
  program :=
    ⟨fun | .program hcell hbody => ⟨trivial, fun c hc => mayLie_stored.mpr (hcell c hc), hbody⟩,
      fun hp => .program (fun c hc => mayLie_stored.mp (hp.cell c hc)) hp.body⟩
  command :=
    ⟨fun | .command hcell hc => fun p hp =>
        ⟨trivial, fun cell h => mayLie_stored.mpr (hcell p hp cell h), hc p hp⟩,
      fun hc => .command (fun p hp cell h => mayLie_stored.mp ((hc p hp).cell cell h))
        fun p hp => (hc p hp).body⟩
  branch :=
    ⟨fun | .branch hcond hthn hels => ⟨hcond, hthn, hels⟩, fun hs => .branch hs.1 hs.2.1 hs.2.2⟩
  each := ⟨fun | .each hbody => hbody, .each⟩
  loop := ⟨fun | .loop hcond hbody => ⟨hcond, hbody⟩, fun hs => .loop hs.1 hs.2⟩
  named := fun _ _ => trivial

end Value

lemma Heap.fits_stored (h : Heap) : h.Fits (Value.Stored h) :=
  ⟨fun _ => .cell, fun _ => Value.mayLie_stored.mpr⟩

end ReversePolish

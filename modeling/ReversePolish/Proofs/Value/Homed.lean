import ReversePolish.Proofs.Value.Hereditary

/-!
Programs at home. A program belongs to the namespace that it was read in, and when that has a name,
so have the namespaces of all programs in what was read. Values pass this on to what they are made of.
-/

namespace ReversePolish

/-- All programs in the value, also those that registered words stand for, belong to a namespace
that has a name. -/
inductive Value.Homed : Value → Prop where
  | int (n : Int64) : Homed (.int n)
  | str (s : String) : Homed (.str s)
  | none : Homed .none
  | list (c : Nat) : Homed (.list c)
  | map (c : Nat) : Homed (.map c)
  | program {p : Program} : p.home ≠ "" → (∀ v ∈ p.body, Homed v) → Homed (.program p)
  | command {c : Command} {help : Bool} :
      (∀ p, c.behavior = .user p → p.home ≠ "") →
        (∀ p, c.behavior = .user p → ∀ v ∈ p.body, Homed v) → Homed (.command c help)
  | branch {cond thn els : List Value} : (∀ v ∈ cond, Homed v) → (∀ v ∈ thn, Homed v) →
      (∀ v ∈ els, Homed v) → Homed (.branch cond thn els)
  | each {body : List Value} : (∀ v ∈ body, Homed v) → Homed (.each body)
  | loop {cond body : List Value} : (∀ v ∈ cond, Homed v) → (∀ v ∈ body, Homed v) →
      Homed (.loop cond body)

/-- The word stands for no program, or for one in which all programs belong to namespaces with
names. -/
abbrev Command.Homed (c : Command) : Prop := c.Carries Value.Homed (· ≠ "")

lemma Command.homed_ofWord (w : Word) : (Command.ofWord w).Homed := carries_ofWord w

namespace Value

lemma mayLie_homed (c : Nat) : Program.MayLie Homed c :=
  ⟨⟨[], "main", some c⟩, rfl, .program (by simp) fun _ hv => (List.not_mem_nil hv).elim⟩

lemma homed_command {c : Command} {help : Bool} : (Value.command c help).Homed ↔ c.Homed := by
  constructor
  · rintro (_ | _ | _ | _ | _ | _ | ⟨hhome, hbody⟩)
    exact fun p hp => ⟨hhome p hp, fun c _ => mayLie_homed c, hbody p hp⟩
  · exact fun h => .command (fun p hp => (h p hp).home) fun p hp => (h p hp).body

theorem hereditary_homed : Hereditary Homed (· ≠ "") where
  int := .int
  str := .str
  none := .none
  program := ⟨fun | .program hhome hbody => ⟨hhome, fun c _ => mayLie_homed c, hbody⟩,
    fun h => .program h.home h.body⟩
  command := homed_command
  branch :=
    ⟨fun | .branch hcond hthn hels => ⟨hcond, hthn, hels⟩, fun h => .branch h.1 h.2.1 h.2.2⟩
  each := ⟨fun | .each hbody => hbody, .each⟩
  loop := ⟨fun | .loop hcond hbody => ⟨hcond, hbody⟩, fun h => .loop h.1 h.2⟩
  named := fun _ => id

end Value

/-- A list or map does not tell what is in it. -/
lemma Heap.fits_homed (h : Heap) : h.Fits Value.Homed where
  cells v hv := by
    cases v with
    | list c => exact .list c
    | map c => exact .map c
    | _ => exact hv.elim
  programs c _ := Value.mayLie_homed c

end ReversePolish

import ReversePolish.Proofs.Value.Stored

/-!
The same values in other cells. A renaming names another cell for each list, map and program. Under a
renaming all else stays as it is, but what is made of values changes along with them.
-/

namespace ReversePolish

/-- Another cell for each list, for each map and for each program. -/
structure Renaming where
  list : Nat → Nat
  map : Nat → Nat
  program : Nat → Nat

namespace Renaming

/-- Every cell keeps its name. -/
def refl : Renaming := ⟨id, id, id⟩

/-- One renaming after the other. -/
def trans (ρ σ : Renaming) : Renaming :=
  ⟨σ.list ∘ ρ.list, σ.map ∘ ρ.map, σ.program ∘ ρ.program⟩

/-- Both name the same cells for those that there are. -/
structure AgreeOn (h : Heap) (ρ σ : Renaming) : Prop where
  list : ∀ c < h.lists.size, ρ.list c = σ.list c
  map : ∀ c < h.maps.size, ρ.map c = σ.map c
  program : ∀ c < h.links.size, ρ.program c = σ.program c

end Renaming

mutual

/-- The value, with its lists, maps and programs in other cells. -/
def Value.rename (ρ : Renaming) : Value → Value
  | .int n => .int n
  | .str s => .str s
  | .none => .none
  | .list c => .list (ρ.list c)
  | .map c => .map (ρ.map c)
  | .program p => .program (p.rename ρ)
  | .command c help => .command (c.rename ρ) help
  | .branch cond thn els => .branch (renameAll ρ cond) (renameAll ρ thn) (renameAll ρ els)
  | .each body => .each (renameAll ρ body)
  | .loop cond body => .loop (renameAll ρ cond) (renameAll ρ body)

def Program.rename (ρ : Renaming) : Program → Program
  | ⟨body, home, cell⟩ => ⟨renameAll ρ body, home, cell.map ρ.program⟩

def Command.rename (ρ : Renaming) : Command → Command
  | ⟨name, category, help, behavior⟩ => ⟨name, category, help, behavior.rename ρ⟩

def Behavior.rename (ρ : Renaming) : Behavior → Behavior
  | .core w => .core w
  | .user p => .user (p.rename ρ)
  | .idle => .idle

def renameAll (ρ : Renaming) : List Value → List Value
  | [] => []
  | v :: vs => v.rename ρ :: renameAll ρ vs

end

variable {ρ σ : Renaming} {h : Heap} {v w : Value} {p : Program} {c : Command}

@[simp] lemma renameAll_eq_map (ρ : Renaming) (vs : List Value) :
    renameAll ρ vs = vs.map (Value.rename ρ) := by
  induction vs with
  | nil => rfl
  | cons v vs ih => rw [renameAll, ih, List.map_cons]

namespace Program

@[simp] lemma home_rename (ρ : Renaming) (p : Program) : (p.rename ρ).home = p.home := by
  cases p; rfl

@[simp] lemma cell_rename (ρ : Renaming) (p : Program) :
    (p.rename ρ).cell = p.cell.map ρ.program := by
  cases p; rfl

@[simp] lemma body_rename (ρ : Renaming) (p : Program) :
    (p.rename ρ).body = p.body.map (Value.rename ρ) := by
  cases p
  exact renameAll_eq_map ρ _

end Program

namespace Command

@[simp] lemma name_rename (ρ : Renaming) (c : Command) : (c.rename ρ).name = c.name := by
  cases c; rfl

@[simp] lemma category_rename (ρ : Renaming) (c : Command) :
    (c.rename ρ).category = c.category := by
  cases c; rfl

@[simp] lemma help_rename (ρ : Renaming) (c : Command) : (c.rename ρ).help = c.help := by
  cases c; rfl

@[simp] lemma behavior_rename (ρ : Renaming) (c : Command) :
    (c.rename ρ).behavior = c.behavior.rename ρ := by
  cases c; rfl

end Command

namespace Value

@[simp] lemma rename_int (n : Int64) : (int n).rename ρ = int n := rfl

@[simp] lemma rename_str (s : String) : (str s).rename ρ = str s := rfl

@[simp] lemma rename_none : none.rename ρ = none := rfl

@[simp] lemma rename_list (cell : Nat) : (list cell).rename ρ = list (ρ.list cell) := rfl

@[simp] lemma rename_map (cell : Nat) : (map cell).rename ρ = map (ρ.map cell) := rfl

@[simp] lemma rename_program (p : Program) : (program p).rename ρ = program (p.rename ρ) := rfl

@[simp] lemma rename_command (c : Command) (help : Bool) :
    (command c help).rename ρ = command (c.rename ρ) help := rfl

@[simp] lemma rename_branch (cond thn els : List Value) : (branch cond thn els).rename ρ =
    branch (cond.map (rename ρ)) (thn.map (rename ρ)) (els.map (rename ρ)) := by
  simp [rename]

@[simp] lemma rename_each (body : List Value) :
    (each body).rename ρ = each (body.map (rename ρ)) := by
  simp [rename]

@[simp] lemma rename_loop (cond body : List Value) :
    (loop cond body).rename ρ = loop (cond.map (rename ρ)) (body.map (rename ρ)) := by
  simp [rename]

@[simp] lemma kind_rename (ρ : Renaming) (v : Value) : (v.rename ρ).kind = v.kind := by
  cases v <;> simp [kind]

@[simp] lemma isData_rename : (v.rename ρ).IsData ↔ v.IsData := by simp [IsData]

@[simp] lemma key?_rename (ρ : Renaming) (v : Value) : (v.rename ρ).key? = v.key? := by
  cases v <;> simp [key?]

@[simp] lemma key_rename (ρ : Renaming) (v : Value) : (v.rename ρ).key = v.key := by simp [key]

@[simp] lemma rename_ofKey (k : Key) : (ofKey k).rename ρ = ofKey k := by cases k <;> rfl

end Value

/-! ### Laws -/

mutual

lemma Value.rename_refl : ∀ v : Value, v.rename .refl = v
  | .int _ | .str _ | .none | .list _ | .map _ => rfl
  | .program p => by rw [Value.rename, p.rename_refl]
  | .command c help => by rw [Value.rename, c.rename_refl]
  | .branch cond thn els => by
    rw [Value.rename, renameAll_refl cond, renameAll_refl thn, renameAll_refl els]
  | .each body => by rw [Value.rename, renameAll_refl body]
  | .loop cond body => by rw [Value.rename, renameAll_refl cond, renameAll_refl body]

lemma Program.rename_refl : ∀ p : Program, p.rename .refl = p
  | ⟨body, home, cell⟩ => by
    rw [Program.rename, renameAll_refl body, Renaming.refl, Option.map_id, id]

lemma Command.rename_refl : ∀ c : Command, c.rename .refl = c
  | ⟨name, category, help, behavior⟩ => by rw [Command.rename, behavior.rename_refl]

lemma Behavior.rename_refl : ∀ b : Behavior, b.rename .refl = b
  | .core _ | .idle => rfl
  | .user p => by rw [Behavior.rename, p.rename_refl]

lemma renameAll_refl : ∀ vs : List Value, renameAll .refl vs = vs
  | [] => rfl
  | v :: vs => by rw [renameAll, v.rename_refl, renameAll_refl vs]

end

mutual

lemma Value.rename_rename (ρ σ : Renaming) :
    ∀ v : Value, (v.rename ρ).rename σ = v.rename (ρ.trans σ)
  | .int _ | .str _ | .none | .list _ | .map _ => rfl
  | .program p => by simp only [Value.rename, p.rename_rename ρ σ]
  | .command c help => by simp only [Value.rename, c.rename_rename ρ σ]
  | .branch cond thn els => by
    simp only [Value.rename, renameAll_renameAll ρ σ cond, renameAll_renameAll ρ σ thn,
      renameAll_renameAll ρ σ els]
  | .each body => by simp only [Value.rename, renameAll_renameAll ρ σ body]
  | .loop cond body => by
    simp only [Value.rename, renameAll_renameAll ρ σ cond, renameAll_renameAll ρ σ body]

lemma Program.rename_rename (ρ σ : Renaming) :
    ∀ p : Program, (p.rename ρ).rename σ = p.rename (ρ.trans σ)
  | ⟨body, home, cell⟩ => by
    simp only [Program.rename, renameAll_renameAll ρ σ body, Renaming.trans, Option.map_map]

lemma Command.rename_rename (ρ σ : Renaming) :
    ∀ c : Command, (c.rename ρ).rename σ = c.rename (ρ.trans σ)
  | ⟨name, category, help, behavior⟩ => by simp only [Command.rename, behavior.rename_rename ρ σ]

lemma Behavior.rename_rename (ρ σ : Renaming) :
    ∀ b : Behavior, (b.rename ρ).rename σ = b.rename (ρ.trans σ)
  | .core _ | .idle => rfl
  | .user p => by simp only [Behavior.rename, p.rename_rename ρ σ]

lemma renameAll_renameAll (ρ σ : Renaming) :
    ∀ vs : List Value, renameAll σ (renameAll ρ vs) = renameAll (ρ.trans σ) vs
  | [] => rfl
  | v :: vs => by simp only [renameAll, v.rename_rename ρ σ, renameAll_renameAll ρ σ vs]

end

lemma Value.rename_refl_eq : Value.rename .refl = id := funext Value.rename_refl

lemma Value.rename_comp (ρ σ : Renaming) :
    Value.rename σ ∘ Value.rename ρ = Value.rename (ρ.trans σ) :=
  funext (Value.rename_rename ρ σ)

lemma Renaming.AgreeOn.option_map (hρσ : Renaming.AgreeOn h ρ σ) {cell : Option Nat}
    (hcell : ∀ c, cell = some c → c < h.links.size) : cell.map ρ.program = cell.map σ.program := by
  cases cell with
  | none => rfl
  | some c => exact congrArg some (hρσ.program c (hcell c rfl))

/-- **A value in storage is renamed alike** by what agrees on the cells that there are. -/
theorem Value.Stored.rename_congr (hv : v.Stored h) (hρσ : Renaming.AgreeOn h ρ σ) :
    v.rename ρ = v.rename σ := by
  induction hv with
  | @cell v hhas =>
    cases v with
    | list c => exact congrArg Value.list (hρσ.list c hhas)
    | map c => exact congrArg Value.map (hρσ.map c hhas)
    | _ => exact hhas.elim
  | int | str | none => rfl
  | @program p hcell _ ih =>
    obtain ⟨body, home, cell⟩ := p
    have hcell := hρσ.option_map hcell
    simpa [Program.rename, hcell] using ih
  | @command c help hcell _ ih =>
    obtain ⟨name, category, text, behavior⟩ := c
    cases behavior with
    | user p =>
      obtain ⟨body, home, cell⟩ := p
      have hcell := hρσ.option_map (hcell _ rfl)
      simpa [Command.rename, Behavior.rename, Program.rename, hcell] using ih _ rfl
    | _ => rfl
  | branch _ _ _ ihc iht ihe => simpa using ⟨ihc, iht, ihe⟩
  | each _ ih => simpa using ih
  | loop _ _ ihc ihb => simpa using ⟨ihc, ihb⟩

lemma Program.rename_congr (hp : p.Carries (Value.Stored h) fun _ => True)
    (hρσ : Renaming.AgreeOn h ρ σ) : p.rename ρ = p.rename σ :=
  Value.program.inj (((Value.hereditary_stored h).program.mpr hp).rename_congr hρσ)

lemma Command.Stored.rename_congr (hc : c.Stored h) (hρσ : Renaming.AgreeOn h ρ σ) :
    c.rename ρ = c.rename σ := by
  have hv : (Value.command c false).Stored h := (Value.hereditary_stored h).command.mpr hc
  exact (Value.command.inj (hv.rename_congr hρσ)).1

end ReversePolish

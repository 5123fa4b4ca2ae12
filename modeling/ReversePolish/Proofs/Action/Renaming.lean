import Mathlib.Tactic.Simps.Basic
import ReversePolish.Proofs.Stack
import ReversePolish.Proofs.Value.Placed

/-!
Machines with the same in other cells. The stack, the variables, the local variables of running programs
and the commands are renamed, and the heap is another one. To look something up in what has been renamed
gives what would have been found, renamed.
-/

namespace ReversePolish

variable {ρ : Renaming} {h h' k : Heap} {v : Value}

/-! ### The stack -/

namespace Stack

lemma push_rename (ρ : Renaming) (v : Value) (s : Stack) :
    push (v.rename ρ) (s.map (Value.rename ρ)) = (s.push v).map (List.map (Value.rename ρ)) := by
  cases v <;> simp [push, Except.map]

lemma require_rename (ρ : Renaming) (n : Nat) (s : Stack) :
    require n (s.map (Value.rename ρ)) = s.require n := by
  simp [require]

lemma peek_rename (ρ : Renaming) (n : Nat) (s : Stack) :
    peek n (s.map (Value.rename ρ)) = (s.peek n).map (Value.rename ρ) := by
  simp only [peek, List.getElem?_map, List.length_map]
  cases s[n]? <;> rfl

lemma expect_rename (ρ : Renaming) (n : Nat) (k : Kind) (s : Stack) :
    expect n k (s.map (Value.rename ρ)) = (s.expect n k).map (Value.rename ρ) := by
  simp only [expect, peek_rename]
  cases s.peek n with
  | error e => rfl
  | ok v =>
    show (if (v.rename ρ).kind = k then _ else _) = Except.map _ (if v.kind = k then _ else _)
    rw [Value.kind_rename]
    split <;> rfl

lemma top_rename (ρ : Renaming) (n : Nat) (s : Stack) :
    top n (s.map (Value.rename ρ)) = (s.top n).map (List.map (Value.rename ρ)) := by
  simp only [top, require_rename]
  cases s.require n with
  | error e => rfl
  | ok u => simp [bind, Except.bind, pure, Except.pure, Except.map, ← List.map_take]

lemma pop_rename (ρ : Renaming) (s : Stack) : pop (s.map (Value.rename ρ)) =
    s.pop.map (Prod.map (Value.rename ρ) (List.map (Value.rename ρ))) := by
  cases s <;> rfl

end Stack

/-! ### Variables -/

/-- Variables with their values in other cells. -/
abbrev Variables.rename (ρ : Renaming) (vars : Variables) : Variables := vars.map (Value.rename ρ)

def Activation.rename (ρ : Renaming) (a : Activation) : Activation :=
  ⟨a.program.rename ρ, Variables.rename ρ a.locals⟩

namespace Scope

variable {s : Scope}

@[simps] def rename (ρ : Renaming) (s : Scope) : Scope :=
  ⟨s.modules.map (Variables.rename ρ), s.current, s.frames.map (Activation.rename ρ)⟩

lemma create_rename (ρ : Renaming) (name : String) (s : Scope) :
    (s.rename ρ).create name = (s.create name).rename ρ := by
  simp only [create, rename_modules, Table.contains_map]
  split
  · rfl
  · have hmodules := Table.insert_map (Variables.rename ρ) s.modules name ∅
    rw [Variables.rename, Table.map_empty] at hmodules
    simp only [rename, hmodules]

lemma switch_rename (ρ : Renaming) (name : String) (s : Scope) :
    ((s.rename ρ).switch name).2 = (s.switch name).2.rename ρ := by
  simp only [switch, rename_current, create_rename]
  split <;> rfl

lemma module?_rename (ρ : Renaming) (name : String) (s : Scope) :
    (s.rename ρ).module? name = (s.module? name).map (Variables.rename ρ) := by
  simp [module?]

lemma resolve_rename (ρ : Renaming) (name : String) (s : Scope) :
    (s.rename ρ).resolve name = s.resolve name := rfl

lemma set_rename (ρ : Renaming) (m x : String) (v : Value) (s : Scope) :
    (s.rename ρ).set m x (v.rename ρ) = (s.set m x v).rename ρ := by
  have hvars : ((s.modules.find? m).map (Variables.rename ρ)).getD ∅ =
      Variables.rename ρ ((s.modules.find? m).getD ∅) := by
    cases s.modules.find? m <;> rfl
  simp only [set, rename, Table.find?_map, hvars, Table.insert_map]

lemma get_rename (ρ : Renaming) (m x : String) (s : Scope) :
    (s.rename ρ).get m x = (s.get m x).map (Value.rename ρ) := by
  simp only [get, rename_modules, Table.find?_map]
  cases s.modules.find? m with
  | none => rfl
  | some vars =>
    simp only [Option.map_some, Table.find?_map]
    cases vars.find? x <;> rfl

lemma store_rename (ρ : Renaming) (name : String) (v : Value) (s : Scope) :
    (s.rename ρ).store name (v.rename ρ) = (s.store name v).rename ρ :=
  set_rename ρ _ _ v s

lemma fetch_rename (ρ : Renaming) (name : String) (s : Scope) :
    (s.rename ρ).fetch name = (s.fetch name).map (Value.rename ρ) :=
  get_rename ρ _ _ s

lemma purge_rename (ρ : Renaming) (name : String) (s : Scope) : (s.rename ρ).purge name =
    (s.purge name).map (Prod.map (Value.rename ρ) (rename ρ)) := by
  simp only [purge, resolve_rename, rename_modules, Table.find?_map]
  cases s.modules.find? (s.resolve name).1 with
  | none => rfl
  | some vars =>
    simp only [Option.map_some, Option.bind_some, Table.find?_map]
    cases vars.find? (s.resolve name).2 with
    | none => rfl
    | some x =>
      simp [Except.map, rename, Table.erase_map, Table.insert_map]

lemma enter_rename (ρ : Renaming) (p : Program) (s : Scope) :
    (s.rename ρ).enter (p.rename ρ) = (s.enter p).rename ρ := rfl

lemma leave_rename (ρ : Renaming) (s : Scope) : (s.rename ρ).leave = s.leave.rename ρ := by
  simp [leave, rename]

lemma setLocal_rename (ρ : Renaming) (name : String) (v : Value) (s : Scope) :
    (s.rename ρ).setLocal name (v.rename ρ) = (s.setLocal name v).map (rename ρ) := by
  obtain ⟨modules, current, frames⟩ := s
  cases frames with
  | nil => rfl
  | cons f fs => simp [setLocal, rename, Activation.rename, Except.map, Table.insert_map]

lemma getLocal_rename (ρ : Renaming) (name : String) (s : Scope) :
    (s.rename ρ).getLocal name = (s.getLocal name).map (Value.rename ρ) := by
  obtain ⟨modules, current, frames⟩ := s
  cases frames with
  | nil => rfl
  | cons f fs =>
    simp only [getLocal, rename, List.map_cons, Activation.rename, Table.find?_map]
    cases f.locals.find? name <;> rfl

end Scope

/-! ### Commands -/

lemma Command.ofProgram_rename (hh : h.Renamed ρ h' k) (name : String) (p : Program) :
    Command.ofProgram h' name (p.rename ρ) = (Command.ofProgram h name p).rename ρ := by
  have hrender := hh.render_eq (.program p)
  rw [Value.rename_program] at hrender
  simp [ofProgram, hrender, Command.rename, Behavior.rename]

namespace Registry

abbrev rename (ρ : Renaming) (r : Registry) : Registry := r.map (Command.rename ρ)

lemma register_rename (ρ : Renaming) (c : Command) (r : Registry) :
    (r.rename ρ).register (c.rename ρ) = (r.register c).map (rename ρ) := by
  simp only [register, Command.name_rename]
  split
  · simp [Except.map, Table.insert_map]
  · rfl

lemma categories_rename (ρ : Renaming) (r : Registry) :
    (r.rename ρ).categories = r.categories := by
  simp [categories, List.foldr_map]

end Registry

/-! ### The machine -/

namespace Machine

/-- The machine with another heap, and with all that is in cells renamed. -/
@[simps] def rename (ρ : Renaming) (h' : Heap) (m : Machine) : Machine :=
  { m with
    stack := m.stack.map (Value.rename ρ)
    heap := h'
    scope := m.scope.rename ρ
    registry := m.registry.rename ρ }

variable {m : Machine}

@[simp] lemma stopped_rename (ρ : Renaming) (h' : Heap) (m : Machine) :
    (m.rename ρ h').stopped = m.stopped := rfl

lemma setting_rename (ρ : Renaming) (h' : Heap) (m : Machine) :
    (m.rename ρ h').setting = m.setting.translate (Command.rename ρ) := by
  simp [setting, Setting.translate, funext_iff]

lemma parse_rename (ρ : Renaming) (h' : Heap) (m : Machine) (text : String) :
    (m.rename ρ h').parse text = (m.parse text).map (List.map (Datum.rename ρ)) := by
  rw [parse, setting_rename, Reader.readAll_translate]
  rfl

lemma shown_rename (hh : m.heap.Renamed ρ h' k) (v : Value) :
    (m.rename ρ h').shown (v.rename ρ) = m.shown v :=
  hh.renderWith_eq _ v

lemma printLine_rename (ρ : Renaming) (h' : Heap) (line : String) (m : Machine) :
    (m.rename ρ h').printLine line = (m.printLine line).rename ρ h' := rfl

lemma helpLine_rename (ρ : Renaming) (c : Command) : helpLine (c.rename ρ) = helpLine c := by
  simp [helpLine]

end Machine

end ReversePolish

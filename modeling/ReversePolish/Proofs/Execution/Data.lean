import ReversePolish.Proofs.Execution.Steps
import ReversePolish.Proofs.Scope

/-!
Commands never become data. On every machine that can be reached, no command lies on the stack,
and none is the value of a variable.
-/

namespace ReversePolish

namespace Scope

/-- No variable is a command, neither in a module nor in a program that runs. -/
abbrev HoldsData (s : Scope) : Prop := s.Holds Value.IsData

end Scope

namespace Machine

/-- Commands are nowhere where data belongs. -/
structure HoldsData (m : Machine) : Prop where
  stack : ∀ v ∈ m.stack, v.IsData
  scope : m.scope.HoldsData

/-- Words keep commands from where data belongs. -/
lemma Changes.holdsData {m₀ m : Machine} (h : m₀.Changes m) (hm₀ : m₀.HoldsData) :
    m.HoldsData := by
  induction h with
  | refl => exact hm₀
  | stack _ hs ih => exact ⟨fun v hv => (hs v hv).elim (ih.stack v) id, ih.scope⟩
  | store name _ hv ih => exact ⟨ih.stack, ih.scope.store (ih.stack _ hv)⟩
  | purge _ hs ih => exact ⟨ih.stack, ih.scope.purge hs⟩
  | setLocal _ hv hs ih => exact ⟨ih.stack, ih.scope.setLocal (ih.stack _ hv) hs⟩
  | switch _ _ ih => exact ⟨ih.stack, ih.scope.switch⟩
  | heap _ _ ih | register _ _ ih | unregister _ _ ih | disk _ _ ih | output _ _ ih =>
    exact ⟨ih.stack, ih.scope⟩
  | interrupt _ ih | exit _ ih => exact ⟨ih.stack, ih.scope⟩

end Machine

namespace Execution

variable {p : Execution}

/-- A step keeps commands from where data belongs. -/
theorem holdsData_step (h : p.machine.HoldsData) : p.step.machine.HoldsData :=
  keeps_step (fun _ _ hm => hm.holdsData) (fun _ g h => ⟨h.stack, h.scope.switch.enter g⟩)
    (fun _ _ h => ⟨h.stack, h.scope.leave.switch⟩) h

end Execution

/-- Machines that can be reached: from one on which nothing has run, by steps of whatever is to be
done, and by changes from outside that spare the stack and the variables. -/
inductive Machine.Reachable : Machine → Prop where
  | initial (home : String) (registry : Registry) (loader : Loader) (disk : Disk)
      (output : Sink) (limits : Limits) (display : Display) :
      Reachable (.initial home registry loader disk output limits display)
  | step {p : Execution} : Reachable p.machine → Reachable p.step.machine
  | outside {m m' : Machine} : Reachable m → m'.stack = m.stack → m'.scope = m.scope → Reachable m'

/-- **Commands never become data.** -/
theorem Machine.Reachable.holdsData {m : Machine} (h : m.Reachable) : m.HoldsData := by
  induction h with
  | initial home =>
    exact ⟨fun _ hv => (List.not_mem_nil hv).elim, Scope.holds_initial home⟩
  | step _ ih => exact Execution.holdsData_step ih
  | outside _ hstack hscope ih => exact ⟨hstack ▸ ih.stack, hscope ▸ ih.scope⟩

lemma Machine.Reachable.iterate {p : Execution} (h : p.machine.Reachable) (n : Nat) :
    (Execution.step^[n] p).machine.Reachable :=
  Execution.Reaches.keeps (P := fun p => p.machine.Reachable) (fun _ => .step) ⟨n, rfl⟩ h

end ReversePolish

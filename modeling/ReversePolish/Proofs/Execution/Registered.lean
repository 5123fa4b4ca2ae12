import ReversePolish.Proofs.Execution.Steps
import ReversePolish.Proofs.Registry

/-!
Every registry that a run comes to is well named, if the one it began with is.
-/

namespace ReversePolish

/-- All commands of the machine can be called by their names. -/
def Machine.WellNamed (m : Machine) : Prop := m.registry.WellNamed

/-- Words keep the registry well named. -/
lemma Machine.Changes.wellNamed {m₀ m : Machine} (h : m₀.Changes m) (hm₀ : m₀.WellNamed) :
    m.WellNamed := by
  induction h with
  | refl => exact hm₀
  | register _ hr ih => exact Registry.WellNamed.register ih hr
  | unregister name _ ih => exact Registry.WellNamed.erase ih name
  | _ => assumption

namespace Execution

variable {p q : Execution} {n : Nat}

/-- **A step keeps the registry well named.** -/
theorem wellNamed_step (h : p.machine.WellNamed) : p.step.machine.WellNamed :=
  keeps_step (fun _ _ hm => hm.wellNamed) (fun _ _ h => h) (fun _ _ h => h) h

/-- **A run keeps the registry well named.** -/
theorem wellNamed_run (h : p.machine.WellNamed) (hrun : p.run n = some q) :
    q.machine.WellNamed :=
  keeps_run (fun _ => wellNamed_step) h hrun

end Execution

end ReversePolish

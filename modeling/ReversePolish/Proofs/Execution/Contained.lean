import ReversePolish.Proofs.Execution.Carrying
import ReversePolish.Proofs.Value.Reordering

/-!
Executions that contain all that they speak of: there is a cell for each list, map and program on the
machine and in what is to be done, save for programs that came from outside without one. No step takes a
cell away, so this stays.
-/

namespace ReversePolish

/-- All that has a cell on the machine is in storage, also in the programs that are running. -/
def Machine.Contained (m : Machine) : Prop := m.Carries (Value.Stored m.heap) fun _ => True

namespace Execution

variable {m : Machine} {p q : Execution} {v : Value}

/-- All that is on the machine and all that is to be done is in storage. -/
def Contained (p : Execution) : Prop := p.Carries (Value.Stored p.machine.heap) fun _ => True

lemma heap_within_step (p : Execution) : p.machine.heap.Within p.step.machine.heap :=
  ⟨size_lists_step p, size_maps_step p, size_links_step p⟩

lemma Contained.step (hp : p.Contained) : p.step.Contained :=
  carries_step (Value.hereditary_stored _) (hp.mono fun _ => (heap_within_step p).stored)
    (Heap.fits_stored _)

/-- **A value has been run** on a machine that contains it. -/
lemma contained_after (hm : m.Contained) (hv : v.Stored m.heap)
    (hreach : (runValue v m []).Reaches q) : q.machine.Contained ∧ m.heap.Within q.machine.heap := by
  have hbegin : (ofTasks m [.run v]).Contained := ⟨hm, List.forall_mem_singleton.mpr hv⟩
  have hrun : (ofTasks m [.run v]).Reaches q := .head (step_run v m [] ▸ hreach)
  have hcontained : q.Contained := hrun.keeps (P := Contained) (fun _ => Contained.step) hbegin
  have hwithin : m.heap.Within q.machine.heap :=
    hrun.keeps (P := fun p => m.heap.Within p.machine.heap)
      (fun p hp => hp.trans (heap_within_step p)) ⟨le_rfl, le_rfl, le_rfl⟩
  exact ⟨Carries.machine hcontained, hwithin⟩

end Execution

end ReversePolish

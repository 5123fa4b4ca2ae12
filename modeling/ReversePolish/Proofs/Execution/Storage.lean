import Mathlib
import ReversePolish.Proofs.Execution.Edits

/-!
What a run does to lists and maps. All that steps do to the heap beside their edits is to add cells,
so a collection holds what it held, changed by what was written to it since.

A list or map in a program is no exception: to run it is to push that very collection, and what is
then written to it is found there when the program is run again.
-/

namespace ReversePolish

namespace Execution

variable {m : Machine} {ts : List Task} {p : Execution} {v : Value} {c n : Nat}

/-- A list or map that is run in a sequence goes onto the stack as it is. -/
lemma step_cell {vs : List Value} (hm : m.stopped = false) (hv : v.IsCell) :
    step (ofTasks m (.sequence (v :: vs) :: ts)) =
      ofTasks { m with stack := v :: m.stack } (.sequence vs :: ts) := by
  cases v with
  | list c | map c =>
    simp only [step, ofTasks, hm]
    rfl
  | _ => simp [Value.IsCell, Value.kind] at hv

/-! ### Runs -/

/-- A list holds the items that it held, changed by the edits of the run, one after the other. -/
theorem items_iterate (hc : c < p.machine.heap.lists.size) (n : Nat) :
    (step^[n] p).machine.heap.items c =
      (List.iterate step p n).foldl (fun xs q => q.edit.onItems c xs) (p.machine.heap.items c) := by
  induction n generalizing p with
  | zero => rfl
  | succ n ih =>
    rw [Function.iterate_succ_apply, ih (hc.trans_le (size_lists_step p)), items_step hc]
    rfl

theorem entries_iterate (hc : c < p.machine.heap.maps.size) (n : Nat) :
    (step^[n] p).machine.heap.entries c =
      (List.iterate step p n).foldl (fun t q => q.edit.onEntries c t)
        (p.machine.heap.entries c) := by
  induction n generalizing p with
  | zero => rfl
  | succ n ih =>
    rw [Function.iterate_succ_apply, ih (hc.trans_le (size_maps_step p)), entries_step hc]
    rfl

lemma sameAt_iterate (hv : v.IsCell → p.machine.heap.Has v)
    (hedits : ∀ q ∈ List.iterate step p n, q.edit.target? ≠ some v) :
    p.machine.heap.SameAt (step^[n] p).machine.heap v := by
  induction n generalizing p with
  | zero => exact (Heap.Extends.refl _).sameAt hv
  | succ n ih =>
    obtain ⟨hedit, hedits⟩ := List.forall_mem_cons.mp hedits
    exact (sameAt_step hv hedit).trans (ih (fun hcell => heap_has_step (hv hcell)) hedits)

/-- What has been read unfolds to the same as long as nothing is written to a collection that it
leads to. -/
lemma shape?_iterate {d : Datum Command} {around : Option Nat} {h : Heap}
    (hp : (d.store around h).2.Extends p.machine.heap)
    (hedits : ∀ q ∈ List.iterate step p n, ∀ w, q.edit.target? = some w →
      ¬ (d.store around h).2.Leads (d.store around h).1 w)
    (hv : (d.store around h).2.Leads (d.store around h).1 v) (k : Nat) :
    (step^[n] p).machine.heap.shape? k v = (d.store around h).2.shape? k v := by
  refine Heap.shape?_congr (fun w hw => ?_) k
  have hlead := hv.trans hw
  have hcell : w.IsCell → (d.store around h).2.Has w := fun hcell =>
    ((d.storedAs around h).cells (.refl _) hlead hcell).2
  refine (hp.sameAt hcell).trans (sameAt_iterate (fun h => hp.has (hcell h)) fun q hq htarget => ?_)
  exact hedits q hq w htarget hlead

/-- **Code changes by what is written to it.** Take what has just been read, and whatever is then
run, for any number of steps. Each list and map there was at first holds what it held, changed by
the edits made since; and a step that edits one runs `PUT`, `APPEND` or `INSERT` on it. A list or
map that is run as an element of a body goes onto the stack as it is. So as long as no edit is made
to a collection that is part of what was read, all of it unfolds to what was read, and what is
pushed with it. -/
theorem code_changes_by_writes {d : Datum Command} {around : Option Nat} {h : Heap}
    {p : Execution}
    (hp : (d.store around h).2.Extends p.machine.heap) (n : Nat) :
    (∀ c < p.machine.heap.lists.size, (step^[n] p).machine.heap.items c =
      (List.iterate step p n).foldl (fun xs q => q.edit.onItems c xs)
        (p.machine.heap.items c)) ∧
    (∀ c < p.machine.heap.maps.size, (step^[n] p).machine.heap.entries c =
      (List.iterate step p n).foldl (fun t q => q.edit.onEntries c t)
        (p.machine.heap.entries c)) ∧
    (∀ q ∈ List.iterate step p n, ∀ v, q.edit.target? = some v → q.WritesTo v) ∧
    (∀ m v vs ts, m.stopped = false → v.IsCell →
      step (ofTasks m (.sequence (v :: vs) :: ts)) =
        ofTasks { m with stack := v :: m.stack } (.sequence vs :: ts)) ∧
    ((∀ q ∈ List.iterate step p n, ∀ v, q.edit.target? = some v →
        ¬ (d.store around h).2.Leads (d.store around h).1 v) →
      ∀ v, (d.store around h).2.Leads (d.store around h).1 v → ∀ k,
        (step^[n] p).machine.heap.shape? k v = (d.store around h).2.shape? k v) := by
  exact ⟨fun c hc => items_iterate hc n, fun c hc => entries_iterate hc n,
    fun q _ v => writesTo_of_target, fun m v vs ts => step_cell,
    fun hedits v hv => shape?_iterate hp hedits hv⟩

/-- A program that appends to a copy of a list in it. Run twice, it is what was read. -/
theorem literal_kept_by_clone :
    let word (w : Word) : Value := .command (.ofWord w) false
    let d : Datum Command := .program "main" [.list [.int 7], .command (.ofWord .clone) false,
      .none, .command (.ofWord .append) false]
    let v := (d.store none .empty).1
    let h := (d.store none .empty).2
    let p := ofTasks { Machine.initial "main" ∅ Loader.disabled default .empty {} {} with heap := h }
      [.sequence [v, word .eval, v, word .eval]]
    (step^[18] p).tasks = [] ∧ (step^[18] p).machine.stack = [.list 2, .list 1] ∧
      (step^[18] p).machine.heap.items 2 = #[.int 7, .none] ∧
      (step^[18] p).machine.heap.shape? 3 v = h.shape? 3 v := by
  intro word d v h p
  have htargets : (List.iterate step p 18).filterMap (fun q => q.edit.target?) =
      [.list 1, .list 2] := by cbv
  have hedits : ∀ q ∈ List.iterate step p 18, ∀ w, q.edit.target? = some w → ¬ h.Leads v w := by
    intro q hq w hw hlead
    have hmem : w ∈ [.list 1, .list 2] :=
      htargets ▸ List.mem_filterMap.mpr ⟨q, hq, hw⟩
    have hhas (hcell : w.IsCell) : h.Has w := ((d.storedAs none .empty).cells (.refl h) hlead hcell).2
    have hsize : h.lists.size = 1 := by cbv
    rcases List.mem_pair.mp hmem with rfl | rfl <;>
      exact absurd (hhas (.inl rfl)) (by simp [Heap.Has, hsize])
  obtain ⟨-, -, -, -, hkept⟩ := code_changes_by_writes (p := p) (Heap.Extends.refl h) 18
  exact ⟨by cbv, by cbv, by cbv, hkept hedits v .refl 3⟩

/-- A program that appends to a list in it. Each run finds there what the runs before it have
appended, and the program is no longer what was read. -/
theorem literal_grows_with_each_run :
    let word (w : Word) : Value := .command (.ofWord w) false
    let d : Datum Command :=
      .program "main" [.list [], .int 1, .command (.ofWord .append) false]
    let v := (d.store none .empty).1
    let h := (d.store none .empty).2
    let p := ofTasks { Machine.initial "main" ∅ Loader.disabled default .empty {} {} with heap := h }
      [.sequence [v, word .eval, v, word .eval]]
    h.shape? 3 v = some (.program [.list [], .int 1, .command "APPEND" false]) ∧
      ∃ q, p.run 16 = some q ∧ q.machine.heap.shape? 3 v =
          some (.program [.list [.int 1, .int 1], .int 1, .command "APPEND" false]) ∧
        q.machine.stack.mapM (q.machine.heap.shape? 2) =
          some [.list [.int 1, .int 1], .list [.int 1, .int 1]] := by
  intro word d v h p
  exact ⟨by cbv, _, run_eq_some_iff.mpr ⟨rfl, by cbv⟩, by cbv, by cbv⟩

end Execution

end ReversePolish

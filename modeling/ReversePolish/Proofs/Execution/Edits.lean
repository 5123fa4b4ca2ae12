import ReversePolish.Proofs.Action.Storage
import ReversePolish.Proofs.Execution.Stop
import ReversePolish.Proofs.Operator.Writing

/-!
What a step does to the heap. It writes to one collection at most, and only where it runs `PUT`,
`APPEND` or `INSERT`. All else that it does is to add cells.
-/

namespace ReversePolish

/-- What running the word now would change in the heap, save for new cells. -/
def Word.edit (w : Word) (m : Machine) : Heap.Edit :=
  match w.meaning with
  | .operator op =>
    match op.apply m.stack m.heap with
    | .results _ _ edit => edit
    | _ => .keep
  | _ => .keep

/-- A word that writes finds the collection on the stack. -/
lemma Word.target_edit {w : Word} {m : Machine} {v : Value}
    (h : (w.edit m).target? = some v) : ∃ i, w.collection? = some i ∧ m.stack[i]? = some v := by
  unfold edit at h
  split at h
  · next op hw =>
    split at h
    · next hop => exact Operator.target_meaning hw hop h
    · cases h
  · cases h

namespace Execution

variable {m : Machine} {w : Word} {t : Task} {ts : List Task} {p q : Execution} {v : Value}
  {c n : Nat} {α : Type}

/-- What the next step changes in the heap, save for new cells. -/
def edit (p : Execution) : Heap.Edit := p.word?.elim .keep fun w => w.edit p.machine

/-- The next step runs a word that writes, and this is the collection that it is given. -/
def WritesTo (v : Value) (p : Execution) : Prop :=
  ∃ w i, p.Runs w ∧ w.collection? = some i ∧ p.machine.stack[i]? = some v

lemma writesTo_of_target (h : p.edit.target? = some v) : p.WritesTo v := by
  unfold edit at h
  cases hw : p.word? with
  | none =>
    rw [hw] at h
    cases h
  | some w =>
    rw [hw] at h
    obtain ⟨i, hi, hv⟩ := Word.target_edit h
    exact ⟨w, i, runs_of_word? hw, hi, hv⟩

/-! ### Single steps -/

lemma extends_after {a : Action α} (ha : Action.OnlyAdds m.heap a) (f : α → List Task) :
    m.heap.Extends (after a m ts f).machine.heap := by
  have ha := ha m (.refl _)
  unfold after
  split <;> next hr => rwa [hr] at ha

lemma extends_act {a : Action Unit} (ha : Action.OnlyAdds m.heap a) :
    m.heap.Extends (act a m ts).machine.heap := extends_after ha _

@[simp] lemma heap_invoke (g : Program) : (invoke g m ts).machine.heap = m.heap := by
  unfold invoke
  split <;> rfl

@[simp] lemma heap_call (name : String) : (call name m ts).machine.heap = m.heap := by
  rcases call_cases name m ts with ⟨g, h⟩ | ⟨v, -, h⟩ | ⟨e, h⟩ <;> rw [h]
  · exact heap_invoke g
  · rfl
  · rfl

@[simp] lemma heap_callTop : (callTop m ts).machine.heap = m.heap := by
  rcases callTop_cases m ts with ⟨name, s, -, h⟩ | ⟨e, h⟩ <;> rw [h]
  · exact heap_call name
  · rfl

@[simp] lemma heap_evaluateTop : (evaluateTop m ts).machine.heap = m.heap := by
  rcases evaluateTop_cases m ts with ⟨g, h⟩ | ⟨e, h⟩ <;> rw [h]
  · exact heap_invoke g
  · rfl

@[simp] lemma heap_attemptTop : (attemptTop m ts).machine.heap = m.heap := by
  rcases attemptTop_cases m ts with ⟨g, handler, h⟩ | ⟨e, h⟩ <;> rw [h]
  · exact heap_invoke g
  · rfl

lemma extends_operate (op : Operator) (again : Task) (hw : w.meaning = .operator op) :
    (m.heap.apply (w.edit m)).Extends (operate op again m ts).machine.heap := by
  unfold operate Word.edit
  simp only [hw]
  cases op.apply m.stack m.heap with
  | results below vs edit =>
    exact extends_act (m := { m with stack := below, heap := m.heap.apply edit })
      (Action.keeps_forM Action.onlyAdds_push)
  | failed e => exact .refl _
  | endless => exact .refl _

lemma onlyAdds_takeItems {h₀ : Heap} : Action.OnlyAdds h₀ takeItems := by
  refine (Action.keeps_demand _).bind fun v => ?_
  split
  · exact (Action.onlyAdds_drop 1).bind fun _ => Action.keeps_ask _
  · refine (Action.onlyAdds_drop 1).bind fun _ => (Action.keeps_ask _).bind fun es => ?_
    exact Action.keeps_mapM fun e => Action.onlyAdds_newList _
  · exact Action.keeps_throw _

lemma onlyAdds_takeTruth {h₀ : Heap} : Action.OnlyAdds h₀ takeTruth :=
  Action.onlyAdds_pop.bind fun _ => Action.keeps_demand _

/-- A word changes the heap by its edit and by adding cells. -/
lemma extends_word {c : Command} (hc : c.behavior = .core w) (m : Machine) (ts : List Task) :
    (m.heap.apply (w.edit m)).Extends (runValue (.command c false) m ts).machine.heap := by
  cases hw : w.meaning <;> simp only [runValue, hc, hw]
  case operator op => exact extends_operate op _ hw
  all_goals
    have hkeep : m.heap.apply (w.edit m) = m.heap := by simp only [Word.edit, hw]; rfl
    rw [hkeep]
  case action a => exact extends_act (Action.onlyAdds_meaning hw)
  case eval => rw [heap_evaluateTop]; exact .refl _
  case call => rw [heap_callTop]; exact .refl _
  case tryCatch => rw [heap_attemptTop]; exact .refl _

/-- To run anything but a word only adds cells. -/
lemma extends_runValue (hv : ∀ c w, v = .command c false → c.behavior ≠ .core w) (m : Machine)
    (ts : List Task) : m.heap.Extends (runValue v m ts).machine.heap := by
  cases v with
  | branch cond thn els => exact .refl _
  | each body => exact extends_after onlyAdds_takeItems _
  | loop cond body => exact .refl _
  | command c help =>
    cases help with
    | true => exact extends_act (Action.keeps_printLine fun _ h => h)
    | false =>
      cases hb : c.behavior with
      | core w => exact (hv c w rfl hb).elim
      | user g =>
        simp only [runValue, hb, heap_invoke]
        exact .refl _
      | idle =>
        simp only [runValue, hb]
        exact .refl _
  | _ => exact extends_act (Action.onlyAdds_push _)

lemma extends_perform (hy : (m.stopped && t.yields) = false)
    (hword : ∀ w, ¬ (ofTasks m (t :: ts)).Runs w) :
    m.heap.Extends (perform t m ts).machine.heap := by
  have hgoes (ht : t.yields = true) : m.stopped = false := by simpa [ht] using hy
  cases t with
  | run v =>
    refine extends_runValue (fun c w hv hb => hword w ?_) m ts
    subst hv
    exact .value hb
  | sequence vs =>
    cases vs with
    | nil => exact .refl _
    | cons v vs =>
      refine extends_runValue (fun c w hv hb => hword w ?_) m _
      subst hv
      exact .sequence (hgoes rfl) hb
  | source r =>
    cases hr : r.next m.setting with
    | value d r' =>
      simp only [perform, hr]
      refine (Datum.extends_store d none m.heap).trans
        (extends_runValue (fun c w hv hb => hword w ?_) { m with heap := (d.store none m.heap).2 } _)
      -- Only a command is a command when stored.
      cases d <;> cases hv
      exact .source (hgoes rfl) hr hb
    | ended r' =>
      simp only [perform, hr]
      exact .refl _
    | failed e r' =>
      simp only [perform, hr]
      exact .refl _
  | choose thn els => exact extends_after onlyAdds_takeTruth _
  | iterate items body =>
    cases items with
    | nil => exact .refl _
    | cons v vs => exact extends_after (Action.onlyAdds_push v) _
  | round begun cond body =>
    simp only [perform]
    split <;> exact .refl _
  | test begun cond body => exact extends_after onlyAdds_takeTruth _
  | _ => exact .refl _

lemma extends_unwind (t : Task) (e : Error) (m : Machine) (ts : List Task) :
    m.heap.Extends (unwind t e m ts).machine.heap := by
  cases t with
  | rescue handler =>
    simp only [unwind, heap_invoke]
    exact .refl _
  | _ => exact .refl _

/-- A step that runs no word only adds cells. -/
lemma extends_of_no_word (hword : ∀ w, ¬ p.Runs w) :
    p.machine.heap.Extends p.step.machine.heap := by
  obtain ⟨m, tasks, error⟩ := p
  cases tasks with
  | nil => exact .refl _
  | cons t ts =>
    cases error with
    | some e => exact extends_unwind t e m ts
    | none =>
      cases hy : m.stopped && t.yields with
      | true =>
        simp only [step, hy]
        exact .refl _
      | false =>
        simp only [step, hy]
        exact extends_perform hy hword

/-- **A step makes its edit and adds cells**, and that is all that it does to the heap. -/
theorem extends_step (p : Execution) :
    (p.machine.heap.apply p.edit).Extends p.step.machine.heap := by
  unfold edit
  cases hw : p.word? with
  | none =>
    refine extends_of_no_word fun w hruns => ?_
    rw [hruns.word?] at hw
    cases hw
  | some w =>
    obtain ⟨c, ts, hc, hstep, -⟩ := step_of_runs (runs_of_word? hw)
    rw [hstep]
    exact extends_word hc p.machine ts

lemma size_lists_step (p : Execution) :
    p.machine.heap.lists.size ≤ p.step.machine.heap.lists.size :=
  (Heap.size_lists_apply_le _ _).trans (extends_step p).size_lists

lemma size_maps_step (p : Execution) :
    p.machine.heap.maps.size ≤ p.step.machine.heap.maps.size :=
  (Heap.size_maps_apply_le _ _).trans (extends_step p).size_maps

/-- Links are added, and those that are there stay. -/
lemma links_step (p : Execution) :
    p.machine.heap.links.toList <+: p.step.machine.heap.links.toList :=
  (Heap.links_apply _ _).trans (extends_step p).links

lemma size_links_step (p : Execution) :
    p.machine.heap.links.size ≤ p.step.machine.heap.links.size :=
  (Heap.size_links_apply_le _ _).trans (extends_step p).size_links

lemma items_step (hc : c < p.machine.heap.lists.size) :
    p.step.machine.heap.items c = p.edit.onItems c (p.machine.heap.items c) := by
  rw [(extends_step p).items (hc.trans_le (Heap.size_lists_apply_le _ _)), Heap.items_apply _ hc]

lemma entries_step (hc : c < p.machine.heap.maps.size) :
    p.step.machine.heap.entries c = p.edit.onEntries c (p.machine.heap.entries c) := by
  rw [(extends_step p).entries (hc.trans_le (Heap.size_maps_apply_le _ _)), Heap.entries_apply _ hc]

/-- A collection that is not written to stays the same. -/
lemma sameAt_step (hv : v.IsCell → p.machine.heap.Has v) (hedit : p.edit.target? ≠ some v) :
    p.machine.heap.SameAt p.step.machine.heap v := by
  cases v with
  | list c => exact (items_step (hv (.inl rfl))).trans (Heap.Edit.onItems_of_ne hedit _)
  | map c => exact (entries_step (hv (.inr rfl))).trans (Heap.Edit.onEntries_of_ne hedit _)
  | _ => trivial

lemma heap_has_step (hv : p.machine.heap.Has v) : p.step.machine.heap.Has v :=
  (extends_step p).has (Heap.has_apply hv _)

/-- To run a value makes an edit, if at all, and adds cells. -/
lemma extends_runValue_apply (v : Value) (m : Machine) (ts : List Task) :
    ∃ edit, (m.heap.apply edit).Extends (runValue v m ts).machine.heap := by
  by_cases hv : ∃ c w, v = .command c false ∧ c.behavior = .core w
  · obtain ⟨c, w, rfl, hc⟩ := hv
    exact ⟨_, extends_word hc m ts⟩
  · exact ⟨.keep, extends_runValue (fun c w heq hc => hv ⟨c, w, heq, hc⟩) m ts⟩

end Execution

end ReversePolish

import ReversePolish.Proofs.Action.Renamed
import ReversePolish.Proofs.Execution.Operators

/-!
Running does not see the names of cells. Steps that start from the same in other cells lead to the
same in other cells, so such runs end together, with the same error if there is one, and the other
cells of the second heap are as they were.
-/

namespace ReversePolish

/-- The task, with the values in it that lie in other cells. -/
def Task.rename (ρ : Renaming) : Task → Task
  | run v => run (v.rename ρ)
  | sequence vs => sequence (vs.map (Value.rename ρ))
  | source r => source r
  | leave home => leave home
  | report => report
  | rescue handler => rescue (handler.rename ρ)
  | choose thn els => choose (thn.map (Value.rename ρ)) (els.map (Value.rename ρ))
  | iterate items body => iterate (items.map (Value.rename ρ)) (body.map (Value.rename ρ))
  | round begun cond body => round begun (cond.map (Value.rename ρ)) (body.map (Value.rename ρ))
  | test begun cond body => test begun (cond.map (Value.rename ρ)) (body.map (Value.rename ρ))

@[simp] lemma Task.yields_rename (ρ : Renaming) (t : Task) : (t.rename ρ).yields = t.yields := by
  cases t <;> rfl

namespace Execution

variable {ρ : Renaming} {k h' : Heap} {m : Machine} {t : Task} {ts : List Task} {p p' q q' : Execution}
  {α β : Type}

/-- The second execution is the first one in other cells. -/
inductive Renamed (ρ : Renaming) (k : Heap) : Execution → Execution → Prop where
  | intro {m : Machine} {h' : Heap} (ts : List Task) (e : Option Error) :
      m.heap.Renamed ρ h' k → Renamed ρ k ⟨m, ts, e⟩ ⟨m.rename ρ h', ts.map (Task.rename ρ), e⟩

lemma Renamed.tasks_iff (hp : Renamed ρ k p p') : p'.tasks = [] ↔ p.tasks = [] := by
  cases hp
  exact List.map_eq_nil_iff

lemma renamed_ofTasks (hh : m.heap.Renamed ρ h' k) (ts : List Task) :
    Renamed ρ k (ofTasks m ts) (ofTasks (m.rename ρ h') (ts.map (Task.rename ρ))) :=
  .intro ts none hh

lemma renamed_ofError (hh : m.heap.Renamed ρ h' k) (ts : List Task) (e : Error) :
    Renamed ρ k (ofError m ts e) (ofError (m.rename ρ h') (ts.map (Task.rename ρ)) e) :=
  .intro ts (some e) hh

lemma renamed_after {a : Action α} {b : Action β} {g : α → β} {f : α → List Task}
    {f' : β → List Task} (ha : Action.Renames ρ k g a b) (hh : m.heap.Renamed ρ h' k)
    (ts : List Task) (hf : ∀ x, f' (g x) = (f x).map (Task.rename ρ)) :
    Renamed ρ k (after a m ts f) (after b (m.rename ρ h') (ts.map (Task.rename ρ)) f') := by
  have hab := ha m h' hh
  unfold after
  generalize a.run m = x at hab ⊢
  generalize b.run (m.rename ρ h') = y at hab ⊢
  cases hab with
  | @ok x _ _ hm =>
    simp only [hf, ← List.map_append]
    exact renamed_ofTasks hm _
  | error hm => exact renamed_ofError hm ts _

lemma renamed_act {a b : Action Unit} (ha : Action.Renames ρ k id a b)
    (hh : m.heap.Renamed ρ h' k) (ts : List Task) :
    Renamed ρ k (act a m ts) (act b (m.rename ρ h') (ts.map (Task.rename ρ))) :=
  renamed_after ha hh ts fun _ => rfl

lemma renamed_operate {op : Operator} (again : Task) (hh : m.heap.Renamed ρ h' k)
    (hop : op.Renames ρ m.heap h') (ts : List Task) :
    Renamed ρ k (operate op again m ts)
      (operate op (again.rename ρ) (m.rename ρ h') (ts.map (Task.rename ρ))) := by
  unfold operate
  rw [Machine.rename_stack, Machine.rename_heap, hop]
  cases op.apply m.stack m.heap with
  | results below vs edit =>
    have hpush : Action.Renames ρ k id (vs.forM Action.push)
        ((vs.map (Value.rename ρ)).forM Action.push) :=
      Action.renames_forM Action.renames_push
    exact renamed_act (m := { m with stack := below, heap := m.heap.apply edit }) hpush
      (hh.apply edit) ts
  | failed e => exact renamed_ofError hh ts e
  | endless => exact renamed_ofTasks hh (again :: ts)

/-! ### Programs -/

lemma renamed_invoke (g : Program) (hh : m.heap.Renamed ρ h' k) (ts : List Task) :
    Renamed ρ k (invoke g m ts) (invoke (g.rename ρ) (m.rename ρ h') (ts.map (Task.rename ρ))) := by
  unfold invoke
  rw [Machine.rename_limits, Machine.rename_calls]
  split
  · exact renamed_ofError hh ts _
  · have hscope : ((m.rename ρ h').scope.switch (g.rename ρ).home).2.enter (g.rename ρ) =
        ((m.scope.switch g.home).2.enter g).rename ρ := by
      rw [Machine.rename_scope, Program.home_rename, Scope.switch_rename, Scope.enter_rename]
    simp only [hscope, Program.body_rename, Scope.saved_switch]
    exact renamed_ofTasks (m := { m with
      scope := (m.scope.switch g.home).2.enter g, calls := m.calls + 1 }) hh
      (.sequence g.body :: .leave m.scope.current :: ts)

lemma leave_rename (ρ : Renaming) (h' : Heap) (home : String) (m : Machine) :
    leave home (m.rename ρ h') = (leave home m).rename ρ h' := by
  simp only [leave, Machine.rename, Scope.leave_rename, Scope.switch_rename]

lemma callee?_rename (ρ : Renaming) (h' : Heap) (name : String) (m : Machine) :
    callee? name (m.rename ρ h') =
      (callee? name m).map (Sum.map (Program.rename ρ) (Value.rename ρ)) := by
  simp only [callee?, Machine.rename_scope, Machine.rename_registry, Scope.fetch_rename,
    Table.find?_map]
  cases m.scope.fetch name with
  | ok v => cases v <;> rfl
  | error e =>
    simp only [Except.map, Option.map_map]
    rfl

lemma renamed_call (name : String) (hh : m.heap.Renamed ρ h' k) (ts : List Task) :
    Renamed ρ k (call name m ts) (call name (m.rename ρ h') (ts.map (Task.rename ρ))) := by
  unfold call
  rw [callee?_rename]
  cases callee? name m with
  | none => exact renamed_ofError hh ts _
  | some x =>
    cases x with
    | inl g => exact renamed_invoke g hh ts
    | inr v => exact renamed_ofTasks hh (.run v :: ts)

/-- What is found on top of the stack is taken off. -/
lemma rename_drop (ρ : Renaming) (h' : Heap) (n : Nat) (m : Machine) :
    { m.rename ρ h' with stack := (m.rename ρ h').stack.drop n } =
      ({ m with stack := m.stack.drop n } : Machine).rename ρ h' := by
  simp [Machine.rename, List.map_drop]

lemma renamed_callTop (hh : m.heap.Renamed ρ h' k) (ts : List Task) :
    Renamed ρ k (callTop m ts) (callTop (m.rename ρ h') (ts.map (Task.rename ρ))) := by
  have hpeek : Action.Renames ρ k id (Action.peekString 0) (Action.peekString 0) :=
    Action.renames_peekString 0
  have hpeek := hpeek m h' hh
  unfold callTop
  generalize (Action.peekString 0).run m = x at hpeek ⊢
  generalize (Action.peekString 0).run (m.rename ρ h') = y at hpeek ⊢
  cases hpeek with
  | @ok name m h' hm =>
    simp only [callee?_rename, rename_drop, id]
    cases callee? name m with
    | none => exact renamed_ofError hm ts _
    | some x => exact renamed_call (m := { m with stack := m.stack.drop 1 }) name hm ts
  | error hm => exact renamed_ofError hm ts _

lemma renamed_evaluateTop (hh : m.heap.Renamed ρ h' k) (ts : List Task) :
    Renamed ρ k (evaluateTop m ts) (evaluateTop (m.rename ρ h') (ts.map (Task.rename ρ))) := by
  have hpeek : Action.Renames ρ k (Program.rename ρ) (Action.peekProgram 0)
      (Action.peekProgram 0) := Action.renames_peekProgram 0
  have hpeek := hpeek m h' hh
  unfold evaluateTop
  generalize (Action.peekProgram 0).run m = x at hpeek ⊢
  generalize (Action.peekProgram 0).run (m.rename ρ h') = y at hpeek ⊢
  cases hpeek with
  | @ok g m h' hm =>
    simp only [rename_drop]
    exact renamed_invoke (m := { m with stack := m.stack.drop 1 }) g hm ts
  | error hm => exact renamed_ofError hm ts _

lemma renamed_attemptTop (hh : m.heap.Renamed ρ h' k) (ts : List Task) :
    Renamed ρ k (attemptTop m ts) (attemptTop (m.rename ρ h') (ts.map (Task.rename ρ))) := by
  have hpeek : Action.Renames ρ k (Prod.map (Program.rename ρ) (Program.rename ρ))
      (do return (← Action.peekProgram 1, ← Action.peekProgram 0))
      (do return (← Action.peekProgram 1, ← Action.peekProgram 0)) :=
    (Action.renames_peekProgram 1).bind fun g => (Action.renames_peekProgram 0).bind fun g' =>
      Action.renames_pure (g, g')
  have hpeek := hpeek m h' hh
  unfold attemptTop
  generalize (do return (← Action.peekProgram 1, ← Action.peekProgram 0) :
    Action (Program × Program)).run m = x at hpeek ⊢
  generalize (do return (← Action.peekProgram 1, ← Action.peekProgram 0) :
    Action (Program × Program)).run (m.rename ρ h') = y at hpeek ⊢
  cases hpeek with
  | @ok g m h' hm =>
    simp only [rename_drop]
    exact renamed_invoke (m := { m with stack := m.stack.drop 2 }) g.1 hm (.rescue g.2 :: ts)
  | error hm => exact renamed_ofError hm ts _

/-! ### Steps -/

lemma renames_takeTruth : Action.Renames ρ k id takeTruth takeTruth :=
  Action.renames_pop.bind fun v =>
    Action.renames_demand_same fun _ _ hh => hh.truth_eq v

lemma renames_takeItems :
    Action.Renames ρ k (List.map (Value.rename ρ)) takeItems takeItems := by
  refine (Action.renames_peek 0).bind fun v => ?_
  cases v with
  | list c =>
    refine (Action.renames_drop 1).bindSame fun _ => Action.renames_ask fun m h' hh => ?_
    rw [Machine.rename_heap, hh.items, Array.toList_map]
  | map c =>
    refine (Action.renames_drop 1).bindSame fun _ => ?_
    have hentries : Action.Renames ρ k (List.map fun e => (e.1, e.2.rename ρ))
        (Action.ask fun m => (m.heap.entries c).entries)
        (Action.ask fun m => (m.heap.entries (ρ.map c)).entries) :=
      Action.renames_ask fun m h' hh => by
        rw [Machine.rename_heap, hh.entries, Table.entries_map]
    refine hentries.bind fun es => Action.renames_mapM fun e => ?_
    have hnew : Action.Renames ρ k (Value.rename ρ)
        (Action.onHeap (Heap.newList #[.ofKey e.1, e.2]))
        (Action.onHeap (Heap.newList (#[.ofKey e.1, e.2].map (Value.rename ρ)))) :=
      Action.renames_newList _
    simpa using hnew
  | _ => exact Action.renames_throw _

lemma renamed_runValue (v : Value) (hh : m.heap.Renamed ρ h' k) (ts : List Task) :
    Renamed ρ k (runValue v m ts)
      (runValue (v.rename ρ) (m.rename ρ h') (ts.map (Task.rename ρ))) := by
  cases v with
  | branch cond thn els =>
    rw [Value.rename_branch]
    exact renamed_ofTasks hh (.sequence cond :: .choose thn els :: .report :: ts)
  | each body =>
    rw [Value.rename_each]
    exact renamed_after renames_takeItems hh (.report :: ts) fun items => rfl
  | loop cond body =>
    rw [Value.rename_loop]
    exact renamed_ofTasks hh (.round 0 cond body :: .report :: ts)
  | command c help =>
    rw [Value.rename_command]
    cases help with
    | true =>
      simp only [runValue, Machine.helpLine_rename]
      exact renamed_act (Action.renames_printLine _) hh ts
    | false =>
      simp only [runValue, Command.behavior_rename]
      cases c.behavior with
      | user g => exact renamed_invoke g hh ts
      | idle => exact renamed_ofTasks hh ts
      | core w =>
        simp only [Behavior.rename]
        cases hw : w.meaning with
        | operator op =>
          exact renamed_operate (.run (.command c false)) hh (Operator.renames_meaning hh hw) ts
        | action a => exact renamed_act (Action.renames_meaning hw) hh ts
        | eval => exact renamed_evaluateTop hh ts
        | call => exact renamed_callTop hh ts
        | tryCatch => exact renamed_attemptTop hh ts
  | _ => exact renamed_act (Action.renames_push _) hh ts

lemma renamed_perform (t : Task) (hh : m.heap.Renamed ρ h' k) (ts : List Task) :
    Renamed ρ k (perform t m ts)
      (perform (t.rename ρ) (m.rename ρ h') (ts.map (Task.rename ρ))) := by
  cases t with
  | run v => exact renamed_runValue v hh ts
  | sequence vs =>
    cases vs with
    | nil => exact renamed_ofTasks hh ts
    | cons v vs => exact renamed_runValue v hh (.sequence vs :: ts)
  | source r =>
    simp only [Task.rename, perform, Machine.setting_rename, Reader.next_translate]
    cases r.next m.setting with
    | value d r' =>
      obtain ⟨hv, hg⟩ := d.placed_store none m.heap h' hh.toMatched
      simp only [Reading.translate, Machine.rename_heap]
      rw [Option.map_none] at hv hg
      rw [hv]
      exact renamed_runValue (m := { m with heap := (d.store none m.heap).2 }) _ (hh.grow hg)
        (.source r' :: ts)
    | ended r' => exact renamed_ofTasks hh ts
    | failed e r' => exact renamed_ofError hh ts e
  | leave home =>
    simp only [Task.rename, perform, leave_rename]
    exact renamed_ofTasks (m := leave home m) hh ts
  | report => exact renamed_ofTasks hh ts
  | rescue handler => exact renamed_ofTasks hh ts
  | choose thn els =>
    exact renamed_after renames_takeTruth hh ts fun b => by cases b <;> rfl
  | iterate items body =>
    cases items with
    | nil => exact renamed_ofTasks hh ts
    | cons v vs => exact renamed_after (Action.renames_push v) hh ts fun _ => rfl
  | round begun cond body =>
    have hused : roundsUsed (m.rename ρ h') begun = roundsUsed m begun := rfl
    simp only [Task.rename, perform, hused]
    split
    · exact renamed_ofTasks hh ts
    · exact renamed_ofTasks hh (.sequence cond :: .test begun cond body :: ts)
  | test begun cond body =>
    exact renamed_after renames_takeTruth hh ts fun b => by cases b <;> rfl

lemma renamed_unwind (t : Task) (e : Error) (hh : m.heap.Renamed ρ h' k) (ts : List Task) :
    Renamed ρ k (unwind t e m ts)
      (unwind (t.rename ρ) e (m.rename ρ h') (ts.map (Task.rename ρ))) := by
  cases t with
  | leave home =>
    simp only [Task.rename, unwind, leave_rename]
    exact renamed_ofError (m := leave home m) hh ts e
  | report => exact renamed_ofTasks (m := m.report e) hh ts
  | rescue handler =>
    exact renamed_invoke (m := { m with stack := .str e.message :: m.stack }) handler hh ts
  | _ => exact renamed_ofError hh ts e

/-- **A step does not see the names of cells.** -/
theorem Renamed.step (hp : Renamed ρ k p p') : Renamed ρ k p.step p'.step := by
  obtain ⟨ts, e, hh⟩ := hp
  cases ts with
  | nil => exact .intro [] e hh
  | cons t ts =>
    cases e with
    | some e => exact renamed_unwind t e hh ts
    | none =>
      simp only [List.map_cons, Execution.step, Machine.stopped_rename, Task.yields_rename]
      split
      · exact renamed_ofTasks hh ts
      · exact renamed_perform t hh ts

lemma Renamed.iterate (hp : Renamed ρ k p p') (n : Nat) :
    Renamed ρ k (Execution.step^[n] p) (Execution.step^[n] p') := by
  induction n with
  | zero => exact hp
  | succ n ih =>
    rw [Function.iterate_succ_apply', Function.iterate_succ_apply']
    exact ih.step

end Execution

end ReversePolish

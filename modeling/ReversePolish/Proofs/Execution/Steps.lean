import ReversePolish.Proofs.Action.Changes
import ReversePolish.Proofs.Execution.Below
import ReversePolish.Proofs.Operator

/-!
What a step does. Either it leaves a program, or it changes the machine in the way of words and
goes on with tasks of its own, and it may then enter a program.
-/

namespace ReversePolish

namespace Task

/-- To leave a program. -/
def leaves : Task → Bool
  | .leave _ => true
  | _ => false

/-- To run a value, also after a stop has been asked for. -/
def insists : Task → Bool
  | .run _ => true
  | _ => false

end Task

namespace Execution

variable {m m' : Machine} {t u : Task} {ts new : List Task} {p q : Execution} {n : Nat}

/-- Tasks that a step brings in. They leave no program, and only the first may be to run a value. -/
def Fresh (new : List Task) : Prop :=
  (∀ u ∈ new, u.leaves = false) ∧ ∀ u ∈ new.tail, u.insists = false

/-- What a step makes of a machine and a task on top of others. -/
inductive Proceeds (m : Machine) (ts : List Task) : Execution → Prop where
  | works {m' : Machine} {new : List Task} {e : Option Error} :
      m.Changes m' → Fresh new → Proceeds m ts ⟨m', new ++ ts, e⟩
  | enters {m' : Machine} {p : Program} {handlers : List Task} :
      m.Changes m' → m'.scope = m.scope →
        (∀ u ∈ handlers, u.leaves = false ∧ u.insists = false) →
        Proceeds m ts (invoke p m' (handlers ++ ts))

lemma fresh_nil : Fresh [] := by simp [Fresh]

lemma Fresh.concat (h : Fresh new) (hu : u.leaves = false ∧ u.insists = false) :
    Fresh (new ++ [u]) := by
  refine ⟨fun w hw => ?_, fun w hw => ?_⟩
  · rcases List.mem_append.mp hw with hw | hw
    · exact h.1 w hw
    · obtain rfl := List.mem_singleton.mp hw
      exact hu.1
  · cases new with
    | nil => simp at hw
    | cons v vs =>
      rcases List.mem_append.mp hw with hw | hw
      · exact h.2 w hw
      · obtain rfl := List.mem_singleton.mp hw
        exact hu.2

/-- A task on top of the others may count as brought in. -/
lemma Proceeds.of_cons (h : Proceeds m (u :: ts) p) (hu : u.leaves = false ∧ u.insists = false) :
    Proceeds m ts p := by
  cases h with
  | @works m' new e hm hnew =>
    rw [← List.singleton_append, ← List.append_assoc]
    exact .works hm (hnew.concat hu)
  | @enters m' p handlers hm hscope hh =>
    rw [← List.singleton_append, ← List.append_assoc]
    refine .enters hm hscope fun w hw => ?_
    rcases List.mem_append.mp hw with hw | hw
    · exact hh w hw
    · obtain rfl := List.mem_singleton.mp hw
      exact hu

lemma Proceeds.of_changes (h : Proceeds m' ts p) (hm : m.Changes m') (hscope : m'.scope = m.scope) :
    Proceeds m ts p := by
  cases h with
  | works hm' hnew => exact .works (hm.trans hm') hnew
  | enters hm' hscope' hh => exact .enters (hm.trans hm') (hscope'.trans hscope) hh

/-! ### Single steps -/

lemma proceeds_ofTasks (new : List Task) (hm : m.Changes m') (hnew : Fresh new) :
    Proceeds m ts (ofTasks m' (new ++ ts)) := .works hm hnew

lemma proceeds_ofError (hm : m.Changes m') (e : Error) : Proceeds m ts (ofError m' ts e) :=
  .works hm fresh_nil

lemma proceeds_invoke (p : Program) (hm : m.Changes m') (hscope : m'.scope = m.scope) :
    Proceeds m ts (invoke p m' ts) :=
  @Proceeds.enters m ts m' p [] hm hscope (by simp)

lemma proceeds_after {α : Type} {a : Action α} (ha : Action.Keeps m.Changes a)
    (hm : m.Changes m') {f : α → List Task} (hf : ∀ x, Fresh (f x)) :
    Proceeds m ts (after a m' ts f) := by
  have ha := ha m' hm
  unfold after
  split
  · next hr =>
    rw [hr] at ha
    exact proceeds_ofTasks _ ha (hf _)
  · next hr =>
    rw [hr] at ha
    exact proceeds_ofError ha _

lemma proceeds_act {a : Action Unit} (ha : Action.Keeps m.Changes a) (hm : m.Changes m') :
    Proceeds m ts (act a m' ts) :=
  proceeds_after ha hm fun _ => fresh_nil

lemma proceeds_operate (op : Operator) (v : Value) : Proceeds m ts (operate op (.run v) m ts) := by
  unfold operate
  split
  · next below vs edit hop =>
    obtain ⟨-, rfl⟩ := Operator.below_of_apply hop
    have hm : m.Changes
        { m with stack := m.stack.drop op.arity, heap := m.heap.apply edit } :=
      (Machine.Changes.refl.drop op.arity).heap _
    exact proceeds_act (Action.keeps_forM Action.changes_push) hm
  · exact proceeds_ofError .refl _
  · exact proceeds_ofTasks [.run v] .refl (by simp [Fresh, Task.leaves])

/-! ### Words that run programs -/

/-- `EVAL` takes a program and enters it. -/
lemma evaluateTop_cases (m : Machine) (ts : List Task) :
    (∃ g, evaluateTop m ts = invoke g { m with stack := m.stack.drop 1 } ts) ∨
      ∃ e, evaluateTop m ts = ofError m ts e := by
  unfold evaluateTop
  split
  · next g _ hr =>
    obtain rfl := Action.eq_of_ok (Action.keeps_peekProgram 0) hr
    exact .inl ⟨g, rfl⟩
  · next e _ hr =>
    obtain rfl := Action.eq_of_error (Action.keeps_peekProgram 0) hr
    exact .inr ⟨e, rfl⟩

/-- What a name calls is entered if it is a program. Otherwise it is run: the value of a variable or
a command. -/
lemma call_cases (name : String) (m : Machine) (ts : List Task) :
    (∃ g, call name m ts = invoke g m ts) ∨
      (∃ v, (m.scope.fetch name = .ok v ∨ ∃ c, v = .command c false) ∧
        call name m ts = ofTasks m (.run v :: ts)) ∨
      ∃ e, call name m ts = ofError m ts e := by
  unfold call
  split
  · next g _ => exact .inl ⟨g, rfl⟩
  · next v hv =>
    refine .inr (.inl ⟨v, ?_, rfl⟩)
    unfold callee? at hv
    split at hv
    · cases hv
    · next hfetch =>
      cases hv
      exact .inl hfetch
    · obtain ⟨c, -, hc⟩ := Option.map_eq_some_iff.mp hv
      cases hc
      exact .inr ⟨c, rfl⟩
  · exact .inr (.inr ⟨_, rfl⟩)

/-- `CALL` takes a name and calls it. -/
lemma callTop_cases (m : Machine) (ts : List Task) :
    (∃ name s, m.stack = .str name :: s ∧ callTop m ts = call name { m with stack := s } ts) ∨
      ∃ e, callTop m ts = ofError m ts e := by
  unfold callTop
  split
  · next name _ hr =>
    obtain ⟨s, hs⟩ := Action.stack_of_peekString hr
    obtain rfl := Action.eq_of_ok (Action.keeps_peekString 0) hr
    split
    · exact .inl ⟨name, s, hs, by rw [hs, List.drop_one, List.tail_cons]⟩
    · exact .inr ⟨_, rfl⟩
  · next e _ hr =>
    obtain rfl := Action.eq_of_error (Action.keeps_peekString 0) hr
    exact .inr ⟨e, rfl⟩

/-- `TRYCATCH` takes two programs and enters one of them. -/
lemma attemptTop_cases (m : Machine) (ts : List Task) :
    (∃ attempt handler, attemptTop m ts =
        invoke attempt { m with stack := m.stack.drop 2 } (.rescue handler :: ts)) ∨
      ∃ e, attemptTop m ts = ofError m ts e := by
  have hpeek : ∀ P, Action.Keeps P
      (do return (← Action.peekProgram 1, ← Action.peekProgram 0) : Action (Program × Program)) :=
    fun _ => (Action.keeps_peekProgram 1).bind fun p =>
      (Action.keeps_peekProgram 0).bind fun q => Action.keeps_pure (p, q)
  unfold attemptTop
  split
  · next attempt handler _ hr =>
    obtain rfl := Action.eq_of_ok (hpeek _) hr
    exact .inl ⟨attempt, handler, rfl⟩
  · next e _ hr =>
    obtain rfl := Action.eq_of_error (hpeek _) hr
    exact .inr ⟨e, rfl⟩

lemma proceeds_call (name : String) (hm : m.Changes m') (hscope : m'.scope = m.scope) :
    Proceeds m ts (call name m' ts) := by
  rcases call_cases name m' ts with ⟨g, h⟩ | ⟨v, -, h⟩ | ⟨e, h⟩ <;> rw [h]
  · exact proceeds_invoke g hm hscope
  · exact proceeds_ofTasks [.run v] hm (by simp [Fresh, Task.leaves])
  · exact proceeds_ofError hm e

lemma proceeds_evaluateTop : Proceeds m ts (evaluateTop m ts) := by
  rcases evaluateTop_cases m ts with ⟨g, h⟩ | ⟨e, h⟩ <;> rw [h]
  · exact proceeds_invoke g (Machine.Changes.refl.drop 1) rfl
  · exact proceeds_ofError .refl e

lemma proceeds_callTop : Proceeds m ts (callTop m ts) := by
  rcases callTop_cases m ts with ⟨name, s, hs, h⟩ | ⟨e, h⟩ <;> rw [h]
  · exact proceeds_call name (Machine.Changes.refl.stack fun v hv => .inl (by simp [hs, hv])) rfl
  · exact proceeds_ofError .refl e

lemma proceeds_attemptTop : Proceeds m ts (attemptTop m ts) := by
  rcases attemptTop_cases m ts with ⟨attempt, handler, h⟩ | ⟨e, h⟩ <;> rw [h]
  · exact @Proceeds.enters m ts _ attempt [.rescue handler] (Machine.Changes.refl.drop 2) rfl
      (by simp [Task.leaves, Task.insists])
  · exact proceeds_ofError .refl e

/-! ### All steps -/

lemma changes_takeItems : Action.Keeps m.Changes takeItems := by
  refine (Action.keeps_demand _).bind fun v => ?_
  split
  · exact (Action.changes_drop 1).bind fun _ => Action.keeps_ask _
  · refine (Action.changes_drop 1).bind fun _ => (Action.keeps_ask _).bind fun es => ?_
    exact Action.keeps_mapM fun e => Action.changes_onHeap _
  · exact Action.keeps_throw _

lemma changes_takeTruth : Action.Keeps m.Changes takeTruth :=
  Action.changes_pop.bind fun _ => Action.keeps_demand _

lemma proceeds_runValue (v : Value) (m : Machine) (ts : List Task) :
    Proceeds m ts (runValue v m ts) := by
  cases v with
  | branch cond thn els =>
    exact proceeds_ofTasks [.sequence cond, .choose thn els, .report] .refl
      (by simp [Fresh, Task.leaves, Task.insists])
  | each body =>
    refine Proceeds.of_cons (u := .report) ?_ ⟨rfl, rfl⟩
    exact proceeds_after changes_takeItems .refl fun items => by simp [Fresh, Task.leaves]
  | loop cond body =>
    exact proceeds_ofTasks [.round 0 cond body, .report] .refl
      (by simp [Fresh, Task.leaves, Task.insists])
  | command c help =>
    cases help with
    | true => exact proceeds_act (Action.changes_printLine _) .refl
    | false =>
      cases hb : c.behavior with
      | core w =>
        cases hw : w.meaning <;> simp only [runValue, hb, hw]
        case operator op => exact proceeds_operate op _
        case action a => exact proceeds_act (Action.changes_meaning hw) .refl
        case eval => exact proceeds_evaluateTop
        case call => exact proceeds_callTop
        case tryCatch => exact proceeds_attemptTop
      | user p =>
        simp only [runValue, hb]
        exact proceeds_invoke p .refl rfl
      | idle =>
        simp only [runValue, hb]
        exact proceeds_ofTasks [] .refl fresh_nil
  | _ => exact proceeds_act (Action.changes_push _) .refl

lemma proceeds_perform (ht : t.leaves = false) : Proceeds m ts (perform t m ts) := by
  cases t with
  | run v => exact proceeds_runValue v m ts
  | sequence vs =>
    cases vs with
    | nil => exact proceeds_ofTasks [] .refl fresh_nil
    | cons v vs => exact (proceeds_runValue v m _).of_cons ⟨rfl, rfl⟩
  | source r =>
    cases hr : r.next m.setting with
    | value d r' =>
      simp only [perform, hr]
      have hrun := (proceeds_runValue (d.store none m.heap).1 { m with heap := (d.store none m.heap).2 }
        (.source r' :: ts)).of_cons ⟨rfl, rfl⟩
      exact hrun.of_changes (Machine.Changes.refl.heap _) rfl
    | ended r' =>
      simp only [perform, hr]
      exact proceeds_ofTasks [] .refl fresh_nil
    | failed e r' =>
      simp only [perform, hr]
      exact proceeds_ofError .refl e
  | leave home => simp [Task.leaves] at ht
  | choose thn els =>
    exact proceeds_after changes_takeTruth .refl fun b => by simp [Fresh, Task.leaves]
  | iterate items body =>
    cases items with
    | nil => exact proceeds_ofTasks [] .refl fresh_nil
    | cons v vs =>
      exact proceeds_after (Action.changes_push v) .refl fun _ => by
        simp [Fresh, Task.leaves, Task.insists]
  | round begun cond body =>
    simp only [perform]
    split
    · exact proceeds_ofTasks [] .refl fresh_nil
    · exact proceeds_ofTasks [.sequence cond, .test begun cond body] .refl
        (by simp [Fresh, Task.leaves, Task.insists])
  | test begun cond body =>
    refine proceeds_after changes_takeTruth .refl fun b => ?_
    cases b <;> simp [Fresh, Task.leaves, Task.insists]
  | _ => exact proceeds_ofTasks [] .refl fresh_nil

lemma proceeds_unwind (ht : t.leaves = false) (e : Error) : Proceeds m ts (unwind t e m ts) := by
  cases t with
  | leave home => simp [Task.leaves] at ht
  | report => exact proceeds_ofTasks [] (Machine.Changes.refl.output _) fresh_nil
  | rescue handler =>
    refine proceeds_invoke handler (Machine.Changes.refl.stack fun v hv => ?_) rfl
    rcases List.mem_cons.mp hv with rfl | hv
    · exact .inr (by simp [Value.IsData, Value.kind])
    · exact .inl hv
  | _ => exact proceeds_ofError .refl e

/-- A program is left with an error or without. -/
lemma step_leave (home : String) (m : Machine) (ts : List Task) (e : Option Error) :
    step ⟨m, .leave home :: ts, e⟩ = ⟨leave home m, ts, e⟩ := by
  cases e <;> simp [step, unwind, perform, Task.yields, ofTasks, ofError]

lemma step_run (v : Value) (m : Machine) (ts : List Task) :
    step (ofTasks m (.run v :: ts)) = runValue v m ts := by
  simp [step, ofTasks, Task.yields, perform]

/-- **What a step does.** -/
theorem step_cases (m : Machine) (t : Task) (ts : List Task) (e : Option Error) :
    (∃ home, t = .leave home ∧ step ⟨m, t :: ts, e⟩ = ⟨leave home m, ts, e⟩) ∨
      t.leaves = false ∧ Proceeds m ts (step ⟨m, t :: ts, e⟩) := by
  cases ht : t.leaves with
  | true =>
    cases t <;> simp [Task.leaves] at ht
    exact .inl ⟨_, rfl, step_leave _ m ts e⟩
  | false =>
    refine .inr ⟨rfl, ?_⟩
    cases e with
    | some e => exact proceeds_unwind ht e
    | none =>
      simp only [step]
      split
      · exact proceeds_ofTasks [] .refl fresh_nil
      · exact proceeds_perform ht

/-! ### What every step keeps -/

/-- What words keep, and entering a program, is kept by whatever works on a task. -/
lemma Proceeds.keeps {P : Machine → Prop} (hp : Proceeds m ts p)
    (hchanges : ∀ m m', m.Changes m' → P m → P m')
    (henter : ∀ (m : Machine) (p : Program), P m →
      P { m with scope := (m.scope.switch p.home).2.enter p, calls := m.calls + 1 })
    (h : P m) : P p.machine := by
  cases hp with
  | works hm _ => exact hchanges _ _ hm h
  | enters hm _ _ =>
    have h' := hchanges _ _ hm h
    unfold invoke
    split
    · exact h'
    · exact henter _ _ h'

/-- What words keep, and entering and leaving a program, is kept by every step. -/
theorem keeps_step {P : Machine → Prop} (hchanges : ∀ m m', m.Changes m' → P m → P m')
    (henter : ∀ (m : Machine) (p : Program), P m →
      P { m with scope := (m.scope.switch p.home).2.enter p, calls := m.calls + 1 })
    (hleave : ∀ m home, P m → P (leave home m)) (h : P p.machine) : P p.step.machine := by
  obtain ⟨m, tasks, e⟩ := p
  cases tasks with
  | nil => exact h
  | cons t ts =>
    rcases step_cases m t ts e with ⟨home, -, hstep⟩ | ⟨-, hp⟩
    · rw [hstep]
      exact hleave m home h
    · exact hp.keeps hchanges henter h

theorem keeps_run {P : Machine → Prop}
    (hstep : ∀ p : Execution, P p.machine → P p.step.machine) (h : P p.machine)
    (hrun : p.run n = some q) : P q.machine :=
  (reaches_of_run hrun).1.keeps (P := fun p => P p.machine) hstep h

end Execution

end ReversePolish

import Mathlib.Data.List.Iterate
import Mathlib.Tactic.IntervalCases
import ReversePolish.Proofs.Action.Onto
import ReversePolish.Proofs.Execution.Stop

/-!
Runs are local to what they find on the stack. As long as there are enough values and nothing asks
for the whole stack, a run comes to the same with more values at the bottom, which it leaves there.
-/

namespace ReversePolish

namespace Operator

variable {base s : Stack} {h : Heap} {op : Operator}

/-- What applying comes to, with more values at the bottom of the stack. -/
def Applied.onto (base : Stack) : Applied → Applied
  | results below vs edit => results (below ++ base) vs edit
  | failed e => failed e
  | endless => endless

lemma Applied.of_onto (base s : Stack) (x : Except Error (List Value × Heap.Edit)) :
    Applied.of (s ++ base) x = (Applied.of s x).onto base := by
  cases x <;> rfl

/-- An operator sees its operands only. -/
lemma apply_onto (base : Stack) (op : Operator) (s : Stack) (h : Heap) :
    (∃ e, op.apply s h = .failed e ∧ e.isUnderflow = true) ∨
      op.apply (s ++ base) h = (op.apply s h).onto base := by
  match op, s with
  | .unary f, [] | .binary f, [] | .ternary f, [] | .equality answer, [] =>
    exact .inl ⟨_, rfl, rfl⟩
  | .binary f, [_] | .ternary f, [_] | .equality answer, [_] => exact .inl ⟨_, rfl, rfl⟩
  | .ternary f, [_, _] => exact .inl ⟨_, rfl, rfl⟩
  | .unary f, a :: s => exact .inr (Applied.of_onto base s _)
  | .binary f, b :: a :: s => exact .inr (Applied.of_onto base s _)
  | .ternary f, c :: b :: a :: s => exact .inr (Applied.of_onto base s _)
  | .equality answer, b :: a :: s =>
    refine .inr ?_
    simp only [apply, List.cons_append]
    cases h.equal? a b with
    | some r => exact Applied.of_onto base s _
    | none => rfl

end Operator

namespace Execution

variable {base : Stack} {m : Machine} {t : Task} {ts : List Task} {p q : Execution} {n : Nat}
  {v : Value} {α : Type}

/-- The execution with more values at the bottom of its stack. -/
def onto (base : Stack) (p : Execution) : Execution := { p with machine := p.machine.onto base }

/-- The error that is being passed on is that there were too few values. -/
def Short (p : Execution) : Prop := ∃ e, p.error = some e ∧ e.isUnderflow = true

/-- Where the one execution comes to, the other one comes to with more values at the bottom of its
stack, unless there were too few. -/
def Stands (base : Stack) (p p' : Execution) : Prop := p.Short ∨ p' = p.onto base

/-! ### Steps -/

lemma stands_ofTasks (m : Machine) (ts : List Task) :
    Stands base (ofTasks m ts) (ofTasks (m.onto base) ts) := .inr rfl

lemma stands_ofError (m : Machine) (ts : List Task) (e : Error) :
    Stands base (ofError m ts e) (ofError (m.onto base) ts e) := .inr rfl

lemma stands_after {a : Action α} (ha : Action.Local base m a) (ts : List Task)
    (f : α → List Task) : Stands base (after a m ts f) (after a (m.onto base) ts f) := by
  rcases ha with ⟨e, m', hr, he⟩ | ha
  · exact .inl ⟨e, by simp [after, hr, ofError], he⟩
  · refine .inr ?_
    simp only [after, ha]
    cases a.run m <;> rfl

lemma stands_act {a : Action Unit} (ha : Action.Local base m a) (ts : List Task) :
    Stands base (act a m ts) (act a (m.onto base) ts) :=
  stands_after ha ts _

lemma stands_operate (op : Operator) (again : Task) (m : Machine) (ts : List Task) :
    Stands base (operate op again m ts) (operate op again (m.onto base) ts) := by
  have hop := Operator.apply_onto base op m.stack m.heap
  unfold operate
  change _ ∨ op.apply (m.onto base).stack (m.onto base).heap = _ at hop
  rcases hop with ⟨e, hop, he⟩ | hop
  · exact .inl ⟨e, by simp [hop, ofError], he⟩
  · rw [hop]
    cases op.apply m.stack m.heap with
    | results below vs edit =>
      exact stands_act (m := { m with stack := below, heap := m.heap.apply edit })
        (Action.local_forM fun v _ => Action.local_push v) ts
    | failed e => exact stands_ofError m ts e
    | endless => exact stands_ofTasks m _

lemma stands_invoke (g : Program) (m : Machine) (ts : List Task) :
    Stands base (invoke g m ts) (invoke g (m.onto base) ts) := by
  by_cases h : m.limits.calls ≤ m.calls <;>
    exact .inr (by simp [invoke, Machine.onto, h, onto, ofError, ofTasks])

lemma stands_call (name : String) (m : Machine) (ts : List Task) :
    Stands base (call name m ts) (call name (m.onto base) ts) := by
  have hcallee : callee? name (m.onto base) = callee? name m := rfl
  unfold call
  rw [hcallee]
  cases callee? name m with
  | none => exact stands_ofError m ts _
  | some x =>
    cases x with
    | inl g => exact stands_invoke g m ts
    | inr v => exact stands_ofTasks m _

lemma onto_drop {k : Nat} (hk : k ≤ m.stack.length) :
    ({ m.onto base with stack := (m.onto base).stack.drop k } : Machine) =
      ({ m with stack := m.stack.drop k } : Machine).onto base := by
  simp [Machine.onto, List.drop_append_of_le_length hk]

lemma stands_evaluateTop (m : Machine) (ts : List Task) :
    Stands base (evaluateTop m ts) (evaluateTop (m.onto base) ts) := by
  rcases (Action.local_peekProgram 0 : Action.Local base m _) with ⟨e, m', hr, he⟩ | hr
  · exact .inl ⟨e, by simp [evaluateTop, hr, ofError], he⟩
  · unfold evaluateTop
    rw [hr]
    cases hg : (Action.peekProgram 0).run m with
    | error e m' => exact stands_ofError m' ts e
    | ok g m' =>
      have hk := Action.length_of_peekProgram hg
      obtain rfl := Action.eq_of_ok (Action.keeps_peekProgram 0) hg
      simp only [Action.ontoResult]
      rw [onto_drop hk]
      exact stands_invoke g _ ts

lemma stands_callTop (m : Machine) (ts : List Task) :
    Stands base (callTop m ts) (callTop (m.onto base) ts) := by
  rcases (Action.local_peekString 0 : Action.Local base m _) with ⟨e, m', hr, he⟩ | hr
  · exact .inl ⟨e, by simp [callTop, hr, ofError], he⟩
  · unfold callTop
    rw [hr]
    cases hg : (Action.peekString 0).run m with
    | error e m' => exact stands_ofError m' ts e
    | ok name m' =>
      have hk := Action.length_of_peekString hg
      obtain rfl := Action.eq_of_ok (Action.keeps_peekString 0) hg
      simp only [Action.ontoResult]
      have hcallee : callee? name (m'.onto base) = callee? name m' := rfl
      rw [onto_drop hk, hcallee]
      cases callee? name m' with
      | none => exact stands_ofError m' ts _
      | some x => exact stands_call name _ ts

/-- The two programs that `TRYCATCH` takes. -/
lemma stands_attemptTop (m : Machine) (ts : List Task) :
    Stands base (attemptTop m ts) (attemptTop (m.onto base) ts) := by
  have hlocal : Action.Local base m
      (do return (← Action.peekProgram 1, ← Action.peekProgram 0) : Action (Program × Program)) :=
    .peekProgram_bind fun g _ => (Action.local_peekProgram 0).bind fun g' _ _ =>
      Action.local_pure (g, g')
  rcases hlocal with ⟨e, m', hr, he⟩ | hr
  · exact .inl ⟨e, by rw [attemptTop, hr]; rfl, he⟩
  · unfold attemptTop
    rw [hr]
    cases hg : (do return (← Action.peekProgram 1, ← Action.peekProgram 0) :
        Action (Program × Program)).run m with
    | error e m' => exact stands_ofError m' ts e
    | ok x m' =>
      obtain ⟨hk, rfl⟩ : 1 < m.stack.length ∧ m' = m := by
        cases hg₁ : (Action.peekProgram 1).run m with
        | error e m₁ =>
          rw [Action.run_bind_error hg₁] at hg
          cases hg
        | ok g m₁ =>
          obtain rfl := Action.eq_of_ok (Action.keeps_peekProgram 1) hg₁
          rw [Action.run_bind_ok hg₁] at hg
          exact ⟨Action.length_of_peekProgram hg₁, Action.eq_of_ok
            ((Action.keeps_peekProgram 0).bind fun g' => Action.keeps_pure (g, g')) hg⟩
      simp only [Action.ontoResult]
      rw [onto_drop hk]
      exact stands_invoke x.1 _ _

lemma local_takeTruth : Action.Local base m takeTruth :=
  Action.local_pop.bind fun _ _ _ => Action.local_demand rfl

lemma local_takeItems : Action.Local base m takeItems := by
  refine .peek_bind fun v hv => ?_
  split
  · refine (Action.local_drop hv).bind fun _ _ _ => Action.local_ask rfl
  · refine (Action.local_drop hv).bind fun _ _ _ => (Action.local_ask rfl).bind fun es _ _ => ?_
    exact Action.local_mapM fun e m => Action.local_onHeap _
  · exact Action.local_throw _

/-- The value is a command that looks at the whole stack. -/
def Surveys (v : Value) : Prop :=
  ∃ c w, v = .command c false ∧ c.behavior = .core w ∧ (w = .depth ∨ w = .clear)

lemma stands_runValue (hv : ¬ Surveys v) (m : Machine) (ts : List Task) :
    Stands base (runValue v m ts) (runValue v (m.onto base) ts) := by
  cases v with
  | branch cond thn els => exact stands_ofTasks m _
  | each body => exact stands_after local_takeItems _ _
  | loop cond body => exact stands_ofTasks m _
  | command c help =>
    cases help with
    | true => exact stands_act (Action.local_printLine _) ts
    | false =>
      cases hb : c.behavior with
      | user g => simpa only [runValue, hb] using stands_invoke g m ts
      | idle => simpa only [runValue, hb] using stands_ofTasks m ts
      | core w =>
        have hdepth : w ≠ .depth := fun h => hv ⟨c, w, rfl, hb, .inl h⟩
        have hclear : w ≠ .clear := fun h => hv ⟨c, w, rfl, hb, .inr h⟩
        cases hw : w.meaning <;> simp only [runValue, hb, hw]
        case operator op => exact stands_operate op _ m ts
        case action a => exact stands_act (Action.local_meaning hw hdepth hclear) ts
        case eval => exact stands_evaluateTop m ts
        case call => exact stands_callTop m ts
        case tryCatch => exact stands_attemptTop m ts
  | _ => exact stands_act (Action.local_push _) ts

lemma stands_perform (hm : (m.stopped && t.yields) = false)
    (hwords : ∀ w, w = .depth ∨ w = .clear → ¬ (ofTasks m (t :: ts)).Runs w) :
    Stands base (perform t m ts) (perform t (m.onto base) ts) := by
  cases t with
  | run v =>
    exact stands_runValue (fun ⟨c, w, hv, hc, hw⟩ => hwords w hw (hv ▸ .value hc)) m ts
  | sequence vs =>
    cases vs with
    | nil => exact stands_ofTasks m ts
    | cons v vs =>
      have hstop : m.stopped = false := by simpa [Task.yields] using hm
      exact stands_runValue (fun ⟨c, w, hv, hc, hw⟩ => hwords w hw (hv ▸ .sequence hstop hc)) m _
  | source r =>
    have hstop : m.stopped = false := by simpa [Task.yields] using hm
    have hsetting : (m.onto base).setting = m.setting := rfl
    cases hr : r.next m.setting with
    | value d r' =>
      have hv : ¬ Surveys (d.store none m.heap).1 := by
        rintro ⟨c, w, hv, hc, hw⟩
        -- Only a command is stored as a command.
        cases d <;> cases hv
        exact hwords w hw (.source hstop hr hc)
      simp only [perform, hsetting, hr]
      exact stands_runValue hv { m with heap := (d.store none m.heap).2 } _
    | ended r' => simpa only [perform, hsetting, hr] using stands_ofTasks m ts
    | failed e r' => simpa only [perform, hsetting, hr] using stands_ofError m ts e
  | leave home => exact stands_ofTasks (leave home m) ts
  | choose thn els => exact stands_after local_takeTruth ts _
  | iterate items body =>
    cases items with
    | nil => exact stands_ofTasks m ts
    | cons v vs => exact stands_after (Action.local_push v) ts _
  | round begun cond body =>
    have hused : roundsUsed (m.onto base) begun = roundsUsed m begun := rfl
    simp only [perform, hused]
    split
    · exact stands_ofTasks m ts
    · exact stands_ofTasks m _
  | test begun cond body => exact stands_after local_takeTruth ts _
  | _ => exact stands_ofTasks m ts

lemma stands_unwind (t : Task) (e : Error) (m : Machine) (ts : List Task) :
    Stands base (unwind t e m ts) (unwind t e (m.onto base) ts) := by
  cases t with
  | leave home => exact stands_ofError (leave home m) ts e
  | report => exact stands_ofTasks (m.report e) ts
  | rescue handler => exact stands_invoke handler { m with stack := .str e.message :: m.stack } ts
  | _ => exact stands_ofError m ts e

/-- What a step needs so as not to see the bottom of the stack: it does not ask for the whole stack,
and it finds enough values. -/
structure Shallow (p : Execution) : Prop where
  words : ¬ p.Runs .depth ∧ ¬ p.Runs .clear
  enough : ∀ needed depth, p.step.error ≠ some (.underflow needed depth)

/-- **A step sees no further down the stack than it reaches.** -/
theorem step_onto (base : Stack) (h : p.Shallow) : (p.onto base).step = p.step.onto base := by
  have hshort : ¬ p.step.Short := by
    rintro ⟨e, he, hu⟩
    cases e <;> first | exact h.enough _ _ he | cases hu
  suffices hs : Stands base p.step (p.onto base).step from hs.resolve_left hshort
  obtain ⟨m, tasks, error⟩ := p
  cases tasks with
  | nil => exact .inr rfl
  | cons t ts =>
    cases error with
    | some e => exact stands_unwind t e m ts
    | none =>
      cases hy : m.stopped && t.yields with
      | true =>
        have hy' : ((m.onto base).stopped && t.yields) = true := hy
        simpa [step, onto, hy, hy'] using stands_ofTasks m ts
      | false =>
        have hy' : ((m.onto base).stopped && t.yields) = false := hy
        simp only [step, onto, hy, hy']
        refine stands_perform hy fun w hw hruns => ?_
        rcases hw with rfl | rfl
        · exact h.words.1 hruns
        · exact h.words.2 hruns

/-! ### Runs -/

lemma iterate_onto (base : Stack) (h : ∀ p', p.Reaches p' → p'.Shallow) (n : Nat) :
    step^[n] (p.onto base) = (step^[n] p).onto base := by
  induction n generalizing p with
  | zero => rfl
  | succ n ih =>
    rw [Function.iterate_succ_apply, Function.iterate_succ_apply, step_onto base (h p ⟨0, rfl⟩)]
    exact ih fun p' hp' => h p' hp'.head

/-- **Runs are local to the values they find.** A sequence of values that runs to its end, that
never runs `DEPTH` or `CLEAR`, and that never comes upon too few values, not even where a control
form or `TRYCATCH` would take care of the error, runs to the same end with more values at the bottom
of the stack, in as many steps, and leaves these where they are. -/
theorem sequence_onto {vs : List Value} {m : Machine} {n : Nat} {q : Execution} (base : Stack)
    (hrun : (ofTasks m [.sequence vs]).run n = some q)
    (hwords : ∀ p, (ofTasks m [.sequence vs]).Reaches p → ¬ p.Runs .depth ∧ ¬ p.Runs .clear)
    (henough : ∀ p, (ofTasks m [.sequence vs]).Reaches p →
      ∀ needed depth, p.error ≠ some (.underflow needed depth)) :
    (ofTasks (m.onto base) [.sequence vs]).run n = some (q.onto base) := by
  obtain ⟨hq, hdone⟩ := run_eq_some_iff.mp hrun
  have hshallow : ∀ p, (ofTasks m [.sequence vs]).Reaches p → p.Shallow := fun p hp =>
    ⟨hwords p hp, henough p.step (hp.trans ⟨1, rfl⟩)⟩
  refine run_eq_some_iff.mpr ⟨?_, hdone⟩
  rw [← hq]
  exact iterate_onto base hshallow n

/-- What holds up to the end of a run holds of all that the run comes to. -/
lemma forall_reaches {P : Execution → Prop} (h : p.run n = some q)
    (hP : ∀ k ≤ n, P (step^[k] p)) (p' : Execution) (hp' : p.Reaches p') : P p' := by
  obtain ⟨k, rfl⟩ := hp'
  rcases Nat.le_total k n with hk | hk
  · exact hP k hk
  · obtain ⟨j, rfl⟩ := Nat.exists_eq_add_of_le' hk
    obtain ⟨hq, hdone⟩ := run_eq_some_iff.mp h
    have hn := hP n (Nat.le_refl n)
    rwa [Function.iterate_add_apply, hq, Function.iterate_fixed (step_of_finished hdone), ← hq]

/-- To see that certain words are not run, it is enough to look at each step of the run. -/
lemma not_runs_of_trace {P : Word → Bool} (h : p.run n = some q)
    (htrace : (List.iterate step p (n + 1)).all (fun p' => !p'.word?.any P) = true)
    (p' : Execution) (hp' : p.Reaches p') (w : Word) (hw : P w = true) : ¬ p'.Runs w := by
  refine forall_reaches h (P := fun p' => ¬ p'.Runs w) (fun k hk hruns => ?_) p' hp'
  have hk := List.all_eq_true.mp htrace _ (List.mem_iterate.mpr ⟨k, Nat.lt_succ_of_le hk, rfl⟩)
  simp [hruns.word?, hw] at hk

/-- A division by zero inside `IF`, with two more values at the bottom of the stack. The error is
reported, and what follows runs. -/
theorem failed_division_onto_two_values :
    let p (s : Stack) : Execution :=
      ofTasks { Machine.initial "main" ∅ Loader.disabled default .empty {} {} with stack := s }
        [.sequence [.int 0, .branch [.int 1] [.command (.ofWord .div) false] [],
          .command (.ofWord .drop) false]]
    ∃ q, (p [.int 3]).run 11 = some q ∧ q.machine.stack = [.int 3] ∧
      q.machine.output.text = "Error: " ++ Error.message (.failed .divisionByZero) ++ "\n" ∧
      (p [.int 3, .int 8, .int 9]).run 11 = some (q.onto [.int 8, .int 9]) := by
  intro p
  have hrun : (p [.int 3]).run 11 = some (step^[11] (p [.int 3])) := rfl
  refine ⟨_, hrun, rfl, rfl, sequence_onto [.int 8, .int 9] hrun ?_ ?_⟩
  · refine forall_reaches hrun fun k hk => ?_
    interval_cases k
    all_goals
      constructor
      all_goals
        rintro (⟨hc⟩ | ⟨-, hc⟩ | ⟨-, -, hc⟩)
        all_goals cases hc
  · refine forall_reaches hrun fun k hk => ?_
    interval_cases k <;> rintro _ _ ⟨⟩

end Execution

end ReversePolish

import Mathlib.Logic.Function.Iterate
import Mathlib.Tactic.Lemma
import ReversePolish.Execution

/-!
Tasks that lie below others. They wait until all tasks above them are done, so tasks run on top of
others as they run by themselves.
-/

namespace ReversePolish

namespace Execution

variable {m : Machine} {t : Task} {ts below : List Task} {p q q' : Execution} {n : Nat}

/-- The execution with more to do when it is done. -/
def above (p : Execution) (below : List Task) : Execution :=
  { p with tasks := p.tasks ++ below }

@[simp] lemma above_ofTasks (m : Machine) (ts below : List Task) :
    (ofTasks m ts).above below = ofTasks m (ts ++ below) := rfl

@[simp] lemma above_ofError (m : Machine) (ts below : List Task) (e : Error) :
    (ofError m ts e).above below = ofError m (ts ++ below) e := rfl

/-! ### Steps -/

@[simp] lemma above_after {α : Type} (a : Action α) (m : Machine) (ts : List Task)
    (f : α → List Task) (below : List Task) :
    (after a m ts f).above below = after a m (ts ++ below) f := by
  unfold after
  cases a.run m <;> simp

@[simp] lemma above_act (a : Action Unit) (m : Machine) (ts below : List Task) :
    (act a m ts).above below = act a m (ts ++ below) := above_after a m ts _ below

@[simp] lemma above_operate (op : Operator) (again : Task) (m : Machine) (ts below : List Task) :
    (operate op again m ts).above below = operate op again m (ts ++ below) := by
  unfold operate
  split <;> simp

@[simp] lemma above_invoke (p : Program) (m : Machine) (ts below : List Task) :
    (invoke p m ts).above below = invoke p m (ts ++ below) := by
  unfold invoke
  split <;> simp

@[simp] lemma above_call (name : String) (m : Machine) (ts below : List Task) :
    (call name m ts).above below = call name m (ts ++ below) := by
  unfold call
  split <;> simp

@[simp] lemma above_callTop (m : Machine) (ts below : List Task) :
    (callTop m ts).above below = callTop m (ts ++ below) := by
  unfold callTop
  split
  · split <;> simp
  · simp

@[simp] lemma above_evaluateTop (m : Machine) (ts below : List Task) :
    (evaluateTop m ts).above below = evaluateTop m (ts ++ below) := by
  unfold evaluateTop
  split <;> simp

@[simp] lemma above_attemptTop (m : Machine) (ts below : List Task) :
    (attemptTop m ts).above below = attemptTop m (ts ++ below) := by
  unfold attemptTop
  split <;> simp

@[simp] lemma above_runValue (v : Value) (m : Machine) (ts below : List Task) :
    (runValue v m ts).above below = runValue v m (ts ++ below) := by
  cases v with
  | command c help =>
    cases help with
    | true => simp [runValue]
    | false =>
      cases hb : c.behavior with
      | core w => cases hw : w.meaning <;> simp [runValue, hb, hw]
      | user p => simp [runValue, hb]
      | idle => simp [runValue, hb]
  | _ => simp [runValue]

@[simp] lemma above_perform (t : Task) (m : Machine) (ts below : List Task) :
    (perform t m ts).above below = perform t m (ts ++ below) := by
  cases t with
  | sequence vs => cases vs <;> simp [perform]
  | source r => cases hr : r.next m.setting <;> simp [perform, hr]
  | iterate items body => cases items <;> simp [perform]
  | round begun cond body => by_cases hu : roundsUsed m begun <;> simp [perform, hu]
  | _ => simp [perform]

@[simp] lemma above_unwind (t : Task) (e : Error) (m : Machine) (ts below : List Task) :
    (unwind t e m ts).above below = unwind t e m (ts ++ below) := by
  cases t <;> simp [unwind]

/-- **A step leaves the tasks below alone.** -/
theorem step_above (h : p.tasks ≠ []) (below : List Task) :
    (p.above below).step = p.step.above below := by
  obtain ⟨m, tasks, error⟩ := p
  cases tasks with
  | nil => exact (h rfl).elim
  | cons t ts =>
    cases error with
    | none =>
      by_cases hy : (m.stopped && t.yields) = true
      · simp [above, step, hy, ofTasks]
      · have := (above_perform t m ts below).symm
        simpa [above, step, hy] using this
    | some e => exact (above_unwind t e m ts below).symm

/-! ### Runs -/

/-- Some number of steps leads from one execution to the other. -/
def Reaches (p q : Execution) : Prop := ∃ n, step^[n] p = q

lemma Reaches.trans (h : p.Reaches q) (h' : q.Reaches q') : p.Reaches q' := by
  obtain ⟨n, rfl⟩ := h
  obtain ⟨n', rfl⟩ := h'
  exact ⟨n' + n, Function.iterate_add_apply step n' n p⟩

lemma Reaches.head (h : p.step.Reaches q) : p.Reaches q := by
  obtain ⟨n, rfl⟩ := h
  exact ⟨n + 1, rfl⟩

lemma Reaches.tail (h : p.Reaches q) (hne : p ≠ q) : p.step.Reaches q := by
  obtain ⟨n, hn⟩ := h
  cases n with
  | zero => exact (hne hn).elim
  | succ n => exact ⟨n, hn⟩

/-- What every step keeps holds wherever steps lead. -/
lemma Reaches.keeps {P : Execution → Prop} (hstep : ∀ p, P p → P p.step) (hreach : p.Reaches q)
    (h : P p) : P q := by
  obtain ⟨n, rfl⟩ := hreach
  induction n generalizing p with
  | zero => exact h
  | succ n ih => exact ih (hstep p h)

lemma step_of_finished (h : p.tasks = []) : p.step = p := by
  obtain ⟨m, tasks, error⟩ := p
  obtain rfl : tasks = [] := h
  rfl

lemma finished_iff : p.finished = true ↔ p.tasks = [] := List.isEmpty_iff

lemma run_of_finished (h : p.tasks = []) (n : Nat) : p.run n = some p := by
  cases n <;> exact if_pos (finished_iff.mpr h)

lemma run_zero (h : p.tasks ≠ []) : p.run 0 = none := if_neg (mt finished_iff.mp h)

lemma run_succ (h : p.tasks ≠ []) (n : Nat) : p.run (n + 1) = p.step.run n :=
  if_neg (mt finished_iff.mp h)

/-- Running is stepping, since an execution that has finished stays as it is. -/
theorem run_eq_some_iff : p.run n = some q ↔ step^[n] p = q ∧ q.tasks = [] := by
  induction n generalizing p with
  | zero =>
    show _ ↔ p = q ∧ q.tasks = []
    by_cases hp : p.tasks = []
    · rw [run_of_finished hp, Option.some.injEq]
      exact ⟨fun h => ⟨h, h ▸ hp⟩, And.left⟩
    · rw [run_zero hp]
      exact ⟨fun h => (nomatch h), fun h => (hp (h.1 ▸ h.2)).elim⟩
  | succ n ih =>
    by_cases hp : p.tasks = []
    · rw [run_of_finished hp, Function.iterate_fixed (step_of_finished hp), Option.some.injEq]
      exact ⟨fun h => ⟨h, h ▸ hp⟩, And.left⟩
    · rw [run_succ hp, ih]
      rfl

lemma reaches_of_run (h : p.run n = some q) : p.Reaches q ∧ q.tasks = [] :=
  ⟨⟨n, (run_eq_some_iff.mp h).1⟩, (run_eq_some_iff.mp h).2⟩

lemma run_of_reaches (h : p.Reaches q) (hq : q.tasks = []) : ∃ n, p.run n = some q := by
  obtain ⟨n, hn⟩ := h
  exact ⟨n, run_eq_some_iff.mpr ⟨hn, hq⟩⟩

/-- Whatever a run comes to, it goes on from there to its end. -/
lemma Reaches.toEnd (h : p.Reaches q) (h' : p.Reaches q') (hq' : q'.tasks = []) :
    q.Reaches q' := by
  obtain ⟨n, rfl⟩ := h
  obtain ⟨n', rfl⟩ := h'
  rcases Nat.le_total n n' with hle | hle
  · obtain ⟨k, rfl⟩ := Nat.exists_eq_add_of_le' hle
    exact ⟨k, (Function.iterate_add_apply step k n p).symm⟩
  · obtain ⟨k, rfl⟩ := Nat.exists_eq_add_of_le' hle
    rw [Function.iterate_add_apply, Function.iterate_fixed (step_of_finished hq')]
    exact ⟨0, rfl⟩

/-- Runs end in one way only. -/
lemma eq_of_reaches (h : p.Reaches q) (hq : q.tasks = []) (h' : p.Reaches q')
    (hq' : q'.tasks = []) : q = q' := by
  obtain ⟨n, hn⟩ := h.toEnd h' hq'
  rwa [Function.iterate_fixed (step_of_finished hq)] at hn

/-- **Tasks run on top of others as by themselves.** -/
theorem reaches_above (h : p.run n = some q) (below : List Task) :
    (p.above below).Reaches ⟨q.machine, below, q.error⟩ := by
  induction n generalizing p with
  | zero =>
    obtain ⟨hpq, hq⟩ := run_eq_some_iff.mp h
    obtain rfl : p = q := hpq
    exact ⟨0, by simp [above, hq]⟩
  | succ n ih =>
    by_cases hp : p.tasks = []
    · obtain rfl := Option.some.inj ((run_of_finished hp _).symm.trans h)
      exact ⟨0, by simp [above, hp]⟩
    · rw [run_succ hp] at h
      refine Reaches.head ?_
      rw [step_above hp]
      exact ih h

/-- What ends with tasks below ends without them. -/
lemma run_of_above (h : (p.above below).run n = some q) : ∃ q', p.run n = some q' := by
  induction n generalizing p with
  | zero =>
    have hp : (p.above below).tasks = [] := by
      obtain ⟨hpq, hq⟩ := run_eq_some_iff.mp h
      obtain rfl : p.above below = q := hpq
      exact hq
    exact ⟨p, run_of_finished (List.append_eq_nil_iff.mp hp).1 0⟩
  | succ n ih =>
    by_cases hp : p.tasks = []
    · exact ⟨p, run_of_finished hp _⟩
    · rw [run_succ (by simp [above, hp]), step_above hp] at h
      rw [run_succ hp]
      exact ih h

/-- A run with tasks below is a run without them, and then a run of these. -/
lemma run_split (h : (p.above below).run n = some q) :
    ∃ q₁, (∃ k, p.run k = some q₁) ∧
      ∃ k, (⟨q₁.machine, below, q₁.error⟩ : Execution).run k = some q := by
  obtain ⟨hreach, hq⟩ := reaches_of_run h
  obtain ⟨q₁, h₁⟩ := run_of_above h
  exact ⟨q₁, ⟨n, h₁⟩, run_of_reaches ((reaches_above h₁ below).toEnd hreach hq) hq⟩

lemma run_step (hp : p.tasks ≠ []) (h : p.run n = some q) : ∃ k, p.step.run k = some q := by
  cases n with
  | zero => rw [run_zero hp] at h; cases h
  | succ n => exact ⟨n, run_succ hp n ▸ h⟩

/-! ### Ends -/

/-- The run comes to its end. -/
def Ends (p : Execution) : Prop := ∃ n q, p.run n = some q

lemma ends_of_finished (h : p.tasks = []) : p.Ends := ⟨0, p, run_of_finished h 0⟩

lemma ends_iff_reaches : p.Ends ↔ ∃ q, p.Reaches q ∧ q.tasks = [] := by
  constructor
  · rintro ⟨n, q, h⟩
    exact ⟨q, reaches_of_run h⟩
  · rintro ⟨q, hreach, hq⟩
    obtain ⟨n, hn⟩ := run_of_reaches hreach hq
    exact ⟨n, q, hn⟩

lemma Ends.of_reaches (h : q.Ends) (hreach : p.Reaches q) : p.Ends := by
  obtain ⟨e, he, htasks⟩ := ends_iff_reaches.mp h
  exact ends_iff_reaches.mpr ⟨e, hreach.trans he, htasks⟩

lemma Ends.of_step (h : p.step.Ends) : p.Ends := h.of_reaches ⟨1, rfl⟩

lemma Ends.step (h : p.Ends) : p.step.Ends := by
  obtain ⟨n, q, hq⟩ := h
  by_cases hp : p.tasks = []
  · rw [step_of_finished hp]
    exact ends_of_finished hp
  · obtain ⟨k, hk⟩ := run_step hp hq
    exact ⟨k, q, hk⟩

lemma Ends.reaches (h : p.Ends) (hreach : p.Reaches q) : q.Ends :=
  hreach.keeps (fun _ => Ends.step) h

/-- What lies above other tasks runs to its end, and then these do. -/
lemma ends_above (h : p.Ends)
    (hbelow : ∀ m e, (p.above below).Reaches ⟨m, below, e⟩ → (⟨m, below, e⟩ : Execution).Ends) :
    (p.above below).Ends := by
  obtain ⟨n, q, hq⟩ := h
  have hreach := reaches_above hq below
  exact (hbelow _ _ hreach).of_reaches hreach

/-- What steps lead to, they lead to with other tasks below. -/
lemma Reaches.above (h : p.Reaches q) (below : List Task) :
    (p.above below).Reaches (q.above below) := by
  obtain ⟨n, rfl⟩ := h
  induction n generalizing p with
  | zero => exact ⟨0, rfl⟩
  | succ n ih =>
    by_cases hp : p.tasks = []
    · rw [Function.iterate_fixed (step_of_finished hp)]
      exact ⟨0, rfl⟩
    · refine .head ?_
      rw [step_above hp]
      exact ih

end Execution

end ReversePolish

import ReversePolish.Proofs.Execution.Failures
import ReversePolish.Proofs.Session.Feeding

/-!
No error is lost, and none is handled twice: neither in a sequence that is run nor in a line that is
fed. What is printed are the lines of words, and one line for each error that is reported.
-/

namespace ReversePolish

namespace Execution

variable {m : Machine} {p q : Execution} {n : Nat} {e : Error}

/-! ### What the events tell -/

/-- An error comes about where a step without one ends with it. A handler that is run for an error
counts as such a step. -/
lemma failed_mem_events : .failed e ∈ p.events ↔ p.step.error = some e ∧
    (p.error = none ∨ ∃ handler ts, p.tasks = .rescue handler :: ts) ∧ p.tasks ≠ [] := by
  obtain ⟨m, tasks, error⟩ := p
  cases tasks with
  | nil => simp [events]
  | cons t ts =>
    cases error with
    | none =>
      by_cases hy : (m.stopped && t.yields) = true
      · simp [events, step, hy]
      · simp [events, step, hy, error_perform]
    | some e' => cases t <;> simp [events, step, unwind, Machine.callFailure?]

/-- An error is caught where a program is entered to handle it, with its message on the stack. -/
lemma caught_mem_events : .caught e ∈ p.events ↔
    ∃ m handler ts, p = ofError m (.rescue handler :: ts) e ∧
      p.step = invoke handler { m with stack := .str e.message :: m.stack } ts := by
  obtain ⟨m, tasks, error⟩ := p
  cases tasks with
  | nil => simp [events, ofError]
  | cons t ts =>
    cases error with
    | none =>
      by_cases hy : (m.stopped && t.yields) = true <;> simp [events, ofError, hy]
    | some e' =>
      cases t with
      | rescue handler =>
        constructor
        · intro h
          obtain rfl : e = e' := by simpa [events] using h
          exact ⟨m, handler, ts, rfl, rfl⟩
        · rintro ⟨m, handler, ts, hp, -⟩
          cases hp
          exact List.mem_cons_self
      | _ => simp [events, ofError]

/-- An error is reported where a line with its message is printed, and nothing else is done. -/
lemma reported_mem_events : .reported e ∈ p.events ↔
    ∃ m ts, p = ofError m (.report :: ts) e ∧ p.step = ofTasks (m.report e) ts := by
  obtain ⟨m, tasks, error⟩ := p
  cases tasks with
  | nil => simp [events, ofError]
  | cons t ts =>
    cases error with
    | none =>
      by_cases hy : (m.stopped && t.yields) = true <;> simp [events, ofError, hy]
    | some e' =>
      cases t with
      | report =>
        constructor
        · intro h
          obtain rfl : e = e' := by simpa [events] using h
          exact ⟨m, ts, rfl, rfl⟩
        · rintro ⟨m, ts, hp, -⟩
          cases hp
          exact List.mem_cons_self
      | _ => simp [events, ofError]

/-- What is reported leaves no error. -/
lemma error_of_report (h : (p.above [.report]).run n = some q) : q.error = none := by
  obtain ⟨q₁, -, k, hk⟩ := run_split h
  obtain ⟨k', hk'⟩ := run_step (by simp) hk
  have hstep : (step ⟨q₁.machine, [.report], q₁.error⟩).tasks = [] ∧
      (step ⟨q₁.machine, [.report], q₁.error⟩).error = none := by
    cases q₁.error <;> simp [step, perform, unwind, ofTasks, Task.yields]
  rw [run_of_finished hstep.1] at hk'
  obtain rfl := Option.some.inj hk'
  exact hstep.2

end Execution

namespace Session

variable {fuel : Nat} {r r' : Reader} {m : Machine} {hs : List Mishap} {said : Feed} {s : Session}

/-- What is printed and happens to errors while a reader's text is fed. The text itself may be in error,
which ends it; that a form is still open is none. -/
def eventsFrom (fuel : Nat) (r : Reader) (m : Machine) : List Event :=
  if m.stopped then []
  else
    match _h : r.next m.setting with
    | .value d r' =>
      (Execution.ofDatum d m [.report]).eventsIn fuel ++
        match (Execution.ofDatum d m [.report]).run fuel with
        | some p => eventsFrom fuel r' p.machine
        | none => []
    | .ended _ => []
    | .failed e _ => if e.isIncomplete then [] else [.failed e, .reported e]
termination_by r
decreasing_by exact Reader.smaller_of_next _h

/-- What is printed and happens to errors while a line is fed. -/
def events (fuel : Nat) (line : String) (s : Session) : List Event :=
  eventsFrom fuel (.ofText (s.continued line)) s.cleared

lemma eventsFrom_stopped (hm : m.stopped = true) : eventsFrom fuel r m = [] := by
  rw [eventsFrom, if_pos hm]

lemma eventsFrom_value {d : Datum Command} {p : Execution} (hm : m.stopped = false)
    (hr : r.next m.setting = .value d r')
    (hp : (Execution.ofDatum d m [.report]).run fuel = some p) :
    eventsFrom fuel r m =
      (Execution.ofDatum d m [.report]).eventsIn fuel ++ eventsFrom fuel r' p.machine := by
  rw [eventsFrom, if_neg (by simp [hm])]
  split <;> simp_all

lemma eventsFrom_ended (hm : m.stopped = false) (hr : r.next m.setting = .ended r') :
    eventsFrom fuel r m = [] := by
  rw [eventsFrom, if_neg (by simp [hm])]
  split <;> simp_all

lemma eventsFrom_failed {e : Error} (hm : m.stopped = false)
    (hr : r.next m.setting = .failed e r') :
    eventsFrom fuel r m = if e.isIncomplete then [] else [.failed e, .reported e] := by
  rw [eventsFrom, if_neg (by simp [hm])]
  split <;> simp_all

/-- Value after value, each of which is run with its errors reported. -/
lemma Feeds.handled (h : Feeds fuel r m hs said s) : Event.Handled (eventsFrom fuel r m) none := by
  induction h with
  | exit hexit =>
    rw [eventsFrom_stopped (by simp [Machine.stopped, hexit])]
    exact .nil
  | interrupted _ hint =>
    rw [eventsFrom_stopped (by simp [Machine.stopped, hint])]
    exact .nil
  | @value r r' m d p _ _ _ hm hr hp _ ih =>
    have hunit := Execution.handled_run hp rfl
    have habove : ((Execution.ofDatum d m []).above [.report]).run fuel = some p := hp
    rw [Execution.error_of_report habove] at hunit
    rw [eventsFrom_value hm hr hp]
    exact hunit.append ih
  | ended hm hr =>
    rw [eventsFrom_ended hm hr]
    exact .nil
  | opened hm hr he =>
    rw [eventsFrom_failed hm hr, if_pos he]
    exact .nil
  | @refused _ _ _ e hm hr he =>
    rw [eventsFrom_failed hm hr, if_neg (by simp [he])]
    exact (Event.Handled.nil.failed e).reported

/-- Value after value, each of which prints what its steps print. -/
lemma Feeds.output (h : Feeds fuel r m hs said s) :
    s.machine.output = m.output.offerAll ((eventsFrom fuel r m).filterMap Event.line?) := by
  induction h with
  | exit hexit =>
    rw [eventsFrom_stopped (by simp [Machine.stopped, hexit])]
    rfl
  | interrupted _ hint =>
    rw [eventsFrom_stopped (by simp [Machine.stopped, hint])]
    rfl
  | value hm hr hp _ ih =>
    rw [eventsFrom_value hm hr hp, ih, Execution.output_run hp, List.filterMap_append,
      Sink.offerAll_append]
    rfl
  | ended hm hr =>
    rw [eventsFrom_ended hm hr]
    rfl
  | opened hm hr he =>
    rw [eventsFrom_failed hm hr, if_pos he]
    rfl
  | refused hm hr he =>
    rw [eventsFrom_failed hm hr, if_neg (by simp [he])]
    rfl

end Session

end ReversePolish

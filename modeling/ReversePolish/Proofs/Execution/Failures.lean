import ReversePolish.Proofs.Action.Output
import ReversePolish.Proofs.Execution.Below

/-!
Where errors come from and where they end.

What fails is told apart from the steps: a word by itself, the check of the call depth, a value that
a control form needs, a push, a text, a line that is refused. An error that a step meets in this way
is followed until a control form reports it, a handler catches it, or the run ends with it. What is
printed besides is told apart too, so that all of the output is accounted for.
-/

namespace ReversePolish

namespace Action

variable {α : Type}

/-- The error that the action fails with on a machine. -/
def failure? (a : Action α) (m : Machine) : Option Error :=
  match a.run m with
  | .ok _ _ => none
  | .error e _ => some e

end Action

namespace Machine

/-- The error where too many programs run one inside the other to enter another one. -/
def callFailure? (m : Machine) : Option Error :=
  if m.limits.calls ≤ m.calls then some (.failed (.invocationsTooDeep m.limits.calls)) else none

end Machine

/-- How applying an operator fails: on its operands, or by a result that cannot be pushed. -/
def Operator.failure? (op : Operator) (m : Machine) : Option Error :=
  match op.apply m.stack m.heap with
  | .results below vs edit =>
    Action.failure? (vs.forM Action.push) { m with stack := below, heap := m.heap.apply edit }
  | .failed e => some e
  | .endless => none

/-- How a word fails before anything else runs. -/
def Word.failure? (w : Word) (m : Machine) : Option Error :=
  match w.meaning with
  | .operator op => op.failure? m
  | .action a => a.failure? m
  | .eval => ((Action.peekProgram 0).failure? m).or m.callFailure?
  | .call =>
    match (Action.peekString 0).run m with
    | .ok name _ =>
      match Execution.callee? name m with
      | some (.inl _) => m.callFailure?
      | some (.inr _) => none
      | none => some (.notFound name)
    | .error e _ => some e
  | .tryCatch =>
    (((Action.peekProgram 1).failure? m).or ((Action.peekProgram 0).failure? m)).or m.callFailure?

/-- How running a value fails before anything in it runs. -/
def Value.failure? (v : Value) (m : Machine) : Option Error :=
  match v with
  | .branch _ _ _ | .loop _ _ => Option.none
  | .each _ => Execution.takeItems.failure? m
  | .command c true => (Action.printLine (Machine.helpLine c)).failure? m
  | .command c false =>
    match c.behavior with
    | .user _ => m.callFailure?
    | .idle => Option.none
    | .core w => w.failure? m
  | v => (Action.push v).failure? m

/-- How beginning to work on a task fails. -/
def Task.failure? (t : Task) (m : Machine) : Option Error :=
  match t with
  | .run v | .sequence (v :: _) => v.failure? m
  | .source r =>
    match r.next m.setting with
    | .value d _ => (d.store none m.heap).1.failure? { m with heap := (d.store none m.heap).2 }
    | .ended _ => none
    | .failed e _ => some e
  | .choose _ _ | .test _ _ _ => Execution.takeTruth.failure? m
  | .iterate (v :: _) _ => (Action.push v).failure? m
  | _ => none

/-- The lines that running a value prints before anything in it runs. -/
def Value.prints (v : Value) (m : Machine) : List String :=
  match v with
  | .command c true => [Machine.helpLine c]
  | .command c false =>
    match c.behavior with
    | .core w => w.prints m
    | _ => []
  | _ => []

/-- The lines that beginning to work on a task prints. -/
def Task.prints (t : Task) (m : Machine) : List String :=
  match t with
  | .run v | .sequence (v :: _) => v.prints m
  | .source r =>
    match r.next m.setting with
    | .value d _ => (d.store none m.heap).1.prints { m with heap := (d.store none m.heap).2 }
    | _ => []
  | _ => []

/-- Something that happens to an error, or that is printed by a word. -/
inductive Event where
  /-- A word prints a line. -/
  | printed (line : String)
  /-- An error comes about. -/
  | failed (e : Error)
  /-- A handler is run for it. -/
  | caught (e : Error)
  /-- A control form, or a session, reports it. -/
  | reported (e : Error)
  deriving DecidableEq

namespace Event

/-- The line that goes to the output. -/
def line? : Event → Option String
  | printed l => some l
  | reported e => some (Machine.reportLine e)
  | _ => none

def isFailed : Event → Bool
  | failed _ => true
  | _ => false

def isCaught : Event → Bool
  | caught _ => true
  | _ => false

def isReported : Event → Bool
  | reported _ => true
  | _ => false

/-- Each error that comes about is caught or reported, once and before the next one comes about.
The last one may be left over. -/
inductive Handled : List Event → Option Error → Prop where
  | nil : Handled [] none
  | printed {es : List Event} (l : String) : Handled es none → Handled (es ++ [.printed l]) none
  | failed {es : List Event} (e : Error) : Handled es none → Handled (es ++ [.failed e]) (some e)
  | caught {es : List Event} {e : Error} : Handled es (some e) → Handled (es ++ [.caught e]) none
  | reported {es : List Event} {e : Error} :
      Handled es (some e) → Handled (es ++ [.reported e]) none

variable {es es' : List Event} {e : Option Error}

lemma Handled.failures (h : Handled es none) (e : Option Error) :
    Handled (es ++ (e.map Event.failed).toList) e := by
  cases e with
  | none => simpa using h
  | some e => exact h.failed e

lemma Handled.prints (h : Handled es none) (ls : List String) :
    Handled (es ++ ls.map Event.printed) none := by
  induction ls generalizing es with
  | nil => simpa using h
  | cons l ls ih => simpa using ih (h.printed l)

lemma Handled.append (h : Handled es none) (h' : Handled es' e) : Handled (es ++ es') e := by
  induction h' with
  | nil => simpa using h
  | printed l _ ih => simpa using ih.printed l
  | failed e _ ih => simpa using ih.failed e
  | caught _ ih => simpa using ih.caught
  | reported _ ih => simpa using ih.reported

/-- As many errors are caught or reported or left over as come about. -/
lemma Handled.count (h : Handled es e) :
    es.countP isFailed = es.countP isReported + es.countP isCaught + e.toList.length := by
  induction h with
  | nil => rfl
  | printed l _ ih => simpa [isFailed, isReported, isCaught] using ih
  | failed e _ ih => simpa [isFailed, isReported, isCaught] using ih
  | caught _ ih =>
    simp only [Option.toList_some, List.length_singleton] at ih
    simp [isFailed, isReported, isCaught, ih]
    omega
  | reported _ ih =>
    simp only [Option.toList_some, List.length_singleton] at ih
    simp [isFailed, isReported, isCaught, ih]
    omega

end Event

namespace Execution

variable {m : Machine} {t : Task} {ts : List Task} {p q : Execution} {n : Nat} {e : Error}

/-- What the next step prints and does about errors. -/
def events : Execution → List Event
  | ⟨_, [], _⟩ => []
  | ⟨_, .report :: _, some e⟩ => [.reported e]
  | ⟨m, .rescue _ :: _, some e⟩ => .caught e :: (m.callFailure?.map Event.failed).toList
  | ⟨_, _ :: _, some _⟩ => []
  | ⟨m, t :: _, none⟩ =>
    if m.stopped && t.yields then []
    else (t.prints m).map .printed ++ ((t.failure? m).map Event.failed).toList

/-- What so many steps print and do about errors. -/
def eventsIn : Nat → Execution → List Event
  | 0, _ => []
  | n + 1, p => p.events ++ eventsIn n p.step

/-! ### The errors that steps meet -/

@[simp] lemma error_ofTasks (m : Machine) (ts : List Task) : (ofTasks m ts).error = none := rfl

@[simp] lemma error_ofError (m : Machine) (ts : List Task) (e : Error) :
    (ofError m ts e).error = some e := rfl

@[simp] lemma error_after {α : Type} (a : Action α) (m : Machine) (ts : List Task)
    (f : α → List Task) : (after a m ts f).error = a.failure? m := by
  unfold after Action.failure?
  cases a.run m <;> rfl

@[simp] lemma error_act (a : Action Unit) (m : Machine) (ts : List Task) :
    (act a m ts).error = a.failure? m := error_after a m ts _

@[simp] lemma error_invoke (g : Program) (m : Machine) (ts : List Task) :
    (invoke g m ts).error = m.callFailure? := by
  unfold invoke Machine.callFailure?
  split <;> rfl

lemma error_operate (op : Operator) (again : Task) (m : Machine) (ts : List Task) :
    (operate op again m ts).error = op.failure? m := by
  unfold operate Operator.failure?
  cases op.apply m.stack m.heap with
  | results below vs edit => exact error_act _ _ ts
  | failed e => rfl
  | endless => rfl

lemma error_evaluateTop (m : Machine) (ts : List Task) :
    (evaluateTop m ts).error = ((Action.peekProgram 0).failure? m).or m.callFailure? := by
  unfold evaluateTop Action.failure?
  cases hr : (Action.peekProgram 0).run m with
  | ok g m' =>
    obtain rfl := Action.eq_of_ok (Action.keeps_peekProgram 0) hr
    exact error_invoke g _ ts
  | error e m' => rfl

/-- What `CALL` finds under a name. -/
lemma error_callTop (m : Machine) (ts : List Task) :
    (callTop m ts).error =
      match (Action.peekString 0).run m with
      | .ok name _ =>
        match callee? name m with
        | some (.inl _) => m.callFailure?
        | some (.inr _) => none
        | none => some (.notFound name)
      | .error e _ => some e := by
  unfold callTop
  cases hr : (Action.peekString 0).run m with
  | ok name m' =>
    obtain rfl := Action.eq_of_ok (Action.keeps_peekString 0) hr
    cases hc : callee? name m' with
    | none => simp only [hc, error_ofError]
    | some callee =>
      -- What the name calls does not hang on the stack.
      have hc' : callee? name { m' with stack := m'.stack.drop 1 } = some callee := hc
      simp only [hc, call, hc']
      cases callee with
      | inl g => exact error_invoke g _ ts
      | inr v => rfl
  | error e m' => rfl

lemma error_attemptTop (m : Machine) (ts : List Task) :
    (attemptTop m ts).error =
      (((Action.peekProgram 1).failure? m).or ((Action.peekProgram 0).failure? m)).or
        m.callFailure? := by
  unfold attemptTop
  cases h₁ : (Action.peekProgram 1).run m with
  | error e m' =>
    rw [Action.run_bind_error h₁]
    simp [Action.failure?, h₁]
  | ok attempt m' =>
    obtain rfl := Action.eq_of_ok (Action.keeps_peekProgram 1) h₁
    rw [Action.run_bind_ok h₁]
    cases h₀ : (Action.peekProgram 0).run m' with
    | error e m'' =>
      rw [Action.run_bind_error h₀]
      simp [Action.failure?, h₁, h₀]
    | ok handler m'' =>
      obtain rfl := Action.eq_of_ok (Action.keeps_peekProgram 0) h₀
      rw [Action.run_bind_ok h₀]
      simp [Action.failure?, h₁, h₀]
      rfl

lemma error_runValue (v : Value) (m : Machine) (ts : List Task) :
    (runValue v m ts).error = v.failure? m := by
  cases v with
  | branch cond thn els => rfl
  | each body => exact error_after _ _ _ _
  | loop cond body => rfl
  | command c help =>
    cases help with
    | true => exact error_act _ m ts
    | false =>
      cases hb : c.behavior with
      | user g => simp only [runValue, Value.failure?, hb, error_invoke]
      | idle => simp only [runValue, Value.failure?, hb, error_ofTasks]
      | core w =>
        simp only [runValue, Value.failure?, Word.failure?, hb]
        cases w.meaning with
        | operator op => exact error_operate op _ m ts
        | action a => exact error_act a m ts
        | eval => exact error_evaluateTop m ts
        | call => exact error_callTop m ts
        | tryCatch => exact error_attemptTop m ts
  | _ => exact error_act _ _ _

lemma error_perform (t : Task) (m : Machine) (ts : List Task) :
    (perform t m ts).error = t.failure? m := by
  cases t with
  | run v => exact error_runValue v m ts
  | sequence vs =>
    cases vs with
    | nil => rfl
    | cons v vs => exact error_runValue v m _
  | source r =>
    simp only [perform, Task.failure?]
    cases r.next m.setting with
    | value d r' => exact error_runValue _ _ _
    | ended r' => rfl
    | failed e r' => rfl
  | choose thn els => exact error_after _ _ _ _
  | iterate items body =>
    cases items with
    | nil => rfl
    | cons v vs => exact error_after _ _ _ _
  | round begun cond body =>
    simp only [perform]
    split <;> rfl
  | test begun cond body => exact error_after _ _ _ _
  | _ => rfl

/-! ### The lines that steps print -/

@[simp] lemma output_invoke (g : Program) (m : Machine) (ts : List Task) :
    (invoke g m ts).machine.output = m.output := by
  unfold invoke
  split <;> rfl

lemma machine_after {α : Type} (a : Action α) (m : Machine) (ts : List Task) (f : α → List Task) :
    (after a m ts f).machine = Action.machine (a.run m) := by
  unfold after
  cases a.run m <;> rfl

lemma output_act (a : Action Unit) (m : Machine) (ts : List Task) :
    (act a m ts).machine.output = (Action.machine (a.run m)).output :=
  congrArg Machine.output (machine_after a m ts _)

/-- What does not print leaves the output as it is. -/
lemma output_after {α : Type} {a : Action α} (ha : Action.Keeps (fun m' => m'.output = m.output) a)
    (ts : List Task) (f : α → List Task) : (after a m ts f).machine.output = m.output := by
  rw [machine_after]
  exact ha m rfl

lemma output_operate (op : Operator) (again : Task) (m : Machine) (ts : List Task) :
    (operate op again m ts).machine.output = m.output := by
  unfold operate
  split
  · exact (output_after (Action.keeps_forM (Action.aloof_output _).push) ts _).trans rfl
  · rfl
  · rfl

lemma output_takeItems (m : Machine) (ts : List Task) (f : List Value → List Task) :
    (after takeItems m ts f).machine.output = m.output := by
  have haloof := Action.aloof_output m.output
  refine output_after ((Action.keeps_demand _).bind fun v => ?_) ts f
  split
  · exact (haloof.drop 1).bind fun _ => Action.keeps_ask _
  · refine (haloof.drop 1).bind fun _ => (Action.keeps_ask _).bind fun es => ?_
    exact Action.keeps_mapM fun e => haloof.newList _
  · exact Action.keeps_throw _

lemma output_takeTruth (m : Machine) (ts : List Task) (f : Bool → List Task) :
    (after takeTruth m ts f).machine.output = m.output :=
  output_after ((Action.aloof_output m.output).pop.bind fun _ => Action.keeps_demand _) ts f

lemma output_evaluateTop (m : Machine) (ts : List Task) :
    (evaluateTop m ts).machine.output = m.output := by
  unfold evaluateTop
  split
  · next hr =>
    obtain rfl := Action.eq_of_ok (Action.keeps_peekProgram 0) hr
    simp
  · next hr =>
    obtain rfl := Action.eq_of_error (Action.keeps_peekProgram 0) hr
    rfl

lemma output_callTop (m : Machine) (ts : List Task) :
    (callTop m ts).machine.output = m.output := by
  unfold callTop
  split
  · next name m' hr =>
    obtain rfl := Action.eq_of_ok (Action.keeps_peekString 0) hr
    split
    · unfold call
      split
      · simp
      · rfl
      · rfl
    · rfl
  · next hr =>
    obtain rfl := Action.eq_of_error (Action.keeps_peekString 0) hr
    rfl

lemma output_attemptTop (m : Machine) (ts : List Task) :
    (attemptTop m ts).machine.output = m.output := by
  have hlooks : Action.Keeps (· = m)
      (do return (← Action.peekProgram 1, ← Action.peekProgram 0) : Action _) :=
    (Action.keeps_peekProgram 1).bind fun _ => (Action.keeps_peekProgram 0).bind fun _ =>
      Action.keeps_pure _
  unfold attemptTop
  split
  · next hr =>
    obtain rfl := Action.eq_of_ok hlooks hr
    simp
  · next hr =>
    obtain rfl := Action.eq_of_error hlooks hr
    rfl

lemma output_runValue (v : Value) (m : Machine) (ts : List Task) :
    (runValue v m ts).machine.output = m.output.offerAll (v.prints m) := by
  cases v with
  | branch cond thn els => rfl
  | each body => exact output_takeItems m _ _
  | loop cond body => rfl
  | command c help =>
    cases help with
    | true =>
      simp only [runValue, output_act, Action.run_printLine]
      split <;> rfl
    | false =>
      cases hb : c.behavior with
      | user g => simp only [runValue, Value.prints, hb, output_invoke, Sink.offerAll_nil]
      | idle => simp only [runValue, Value.prints, hb, ofTasks, Sink.offerAll_nil]
      | core w =>
        have hsilent (h : ∀ a, w.meaning ≠ .action a) : w.prints m = [] :=
          Word.prints_eq_nil (by rintro rfl; exact h _ rfl) (by rintro rfl; exact h _ rfl)
        cases hw : w.meaning with
        | action a =>
          simp only [runValue, Value.prints, hb, hw, output_act, Action.output_meaning hw]
        | operator op =>
          simp only [runValue, Value.prints, hb, hw, output_operate, hsilent (by simp [hw]),
            Sink.offerAll_nil]
        | eval =>
          simp only [runValue, Value.prints, hb, hw, output_evaluateTop, hsilent (by simp [hw]),
            Sink.offerAll_nil]
        | call =>
          simp only [runValue, Value.prints, hb, hw, output_callTop, hsilent (by simp [hw]),
            Sink.offerAll_nil]
        | tryCatch =>
          simp only [runValue, Value.prints, hb, hw, output_attemptTop, hsilent (by simp [hw]),
            Sink.offerAll_nil]
  | _ => exact output_after ((Action.aloof_output m.output).push _) ts _

lemma output_perform (t : Task) (m : Machine) (ts : List Task) :
    (perform t m ts).machine.output = m.output.offerAll (t.prints m) := by
  cases t with
  | run v => exact output_runValue v m ts
  | sequence vs =>
    cases vs with
    | nil => rfl
    | cons v vs => exact output_runValue v m _
  | source r =>
    simp only [perform, Task.prints]
    cases r.next m.setting with
    | value d r' => exact output_runValue _ _ _
    | ended r' => rfl
    | failed e r' => rfl
  | choose thn els => exact output_takeTruth m ts _
  | iterate items body =>
    cases items with
    | nil => rfl
    | cons v vs => exact output_after ((Action.aloof_output m.output).push v) ts _
  | round begun cond body =>
    simp only [perform]
    split <;> rfl
  | test begun cond body => exact output_takeTruth m ts _
  | _ => rfl

/-- **A step prints what its words print, and one line for the error that it reports.** -/
theorem output_step (p : Execution) :
    p.step.machine.output = p.machine.output.offerAll (p.events.filterMap Event.line?) := by
  obtain ⟨m, tasks, error⟩ := p
  cases tasks with
  | nil => rfl
  | cons t ts =>
    cases error with
    | none =>
      by_cases hy : (m.stopped && t.yields) = true
      · simp [events, step, hy, ofTasks]
      · have hprinted : (((t.prints m).map Event.printed) ++
            ((t.failure? m).map Event.failed).toList).filterMap Event.line? = t.prints m := by
          cases t.failure? m <;> simp [Event.line?, List.filterMap_map, Function.comp_def]
        simp only [events, step, hy, Bool.false_eq_true, if_false, output_perform, hprinted]
    | some e =>
      cases t with
      | rescue handler =>
        cases hc : m.callFailure? <;> simp [events, step, unwind, hc, Event.line?, List.filterMap]
      | _ => rfl

/-- By induction on the number of steps. -/
theorem output_iterate (p : Execution) (n : Nat) :
    (step^[n] p).machine.output =
      p.machine.output.offerAll ((p.eventsIn n).filterMap Event.line?) := by
  induction n generalizing p with
  | zero => rfl
  | succ n ih =>
    rw [Function.iterate_succ_apply, ih, output_step, eventsIn, List.filterMap_append,
      Sink.offerAll_append]

lemma output_run (h : p.run n = some q) :
    q.machine.output = p.machine.output.offerAll ((p.eventsIn n).filterMap Event.line?) := by
  obtain ⟨rfl, -⟩ := run_eq_some_iff.mp h
  exact output_iterate p n

/-! ### Errors along a run -/

/-- **A step handles errors**: what it fails with is new, and what it reports or catches is the
error that was passed on to it. -/
theorem handled_step {es : List Event} (h : Event.Handled es p.error) :
    Event.Handled (es ++ p.events) p.step.error := by
  obtain ⟨m, tasks, error⟩ := p
  cases tasks with
  | nil => simpa [events, step] using h
  | cons t ts =>
    cases error with
    | none =>
      simp only [events, step]
      split
      · simpa using h
      · rw [error_perform, ← List.append_assoc]
        exact (h.prints _).failures _
    | some e =>
      cases t with
      | report => exact h.reported
      | rescue handler =>
        have hcaught := h.caught.failures (m.callFailure?)
        simpa [events, step, unwind, Machine.callFailure?] using hcaught
      | _ => simpa [events, step, unwind] using h

/-- By induction on the number of steps. -/
theorem handled_iterate {es : List Event} (h : Event.Handled es p.error) (n : Nat) :
    Event.Handled (es ++ p.eventsIn n) (step^[n] p).error := by
  induction n generalizing p es with
  | zero => simpa [eventsIn] using h
  | succ n ih =>
    rw [eventsIn, ← List.append_assoc]
    exact ih (handled_step h)

lemma handled_run (h : p.run n = some q) (hp : p.error = none) :
    Event.Handled (p.eventsIn n) q.error := by
  have hnil : Event.Handled [] p.error := hp ▸ .nil
  obtain ⟨rfl, -⟩ := run_eq_some_iff.mp h
  exact handled_iterate hnil n

end Execution

end ReversePolish

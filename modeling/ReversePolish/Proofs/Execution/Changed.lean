import ReversePolish.Proofs.Action.Commuting
import ReversePolish.Proofs.Execution.Stop
import ReversePolish.Proofs.Scope

/-!
Steps on a machine that has been changed in something that they do not look at. What they lead to
is then what they would have led to, with its machine changed in the same way.
-/

namespace ReversePolish

namespace Execution

variable {T : Machine → Machine} {m : Machine} {ts : List Task} {p : Execution} {α : Type}

/-- The execution on a changed machine. -/
def on (T : Machine → Machine) (p : Execution) : Execution := { p with machine := T p.machine }

/-! ### Actions and operators -/

lemma after_on {a : Action α} (ha : Action.Commutes T m a) (ts : List Task)
    (f : α → List Task) : after a (T m) ts f = (after a m ts f).on T := by
  unfold after
  rw [ha]
  cases a.run m <;> rfl

lemma act_on {a : Action Unit} (ha : Action.Commutes T m a) (ts : List Task) :
    act a (T m) ts = (act a m ts).on T := after_on ha ts _

lemma operate_on (hT : Action.Beside T) (op : Operator) (again : Task) (m : Machine)
    (ts : List Task) : operate op again (T m) ts = (operate op again m ts).on T := by
  unfold operate
  rw [hT.stack, hT.heap]
  cases op.apply m.stack m.heap with
  | results below vs edit =>
    have hmachine : { T m with stack := below, heap := m.heap.apply edit } =
        T { m with stack := below, heap := m.heap.apply edit } := by
      have hheap := hT.withHeap { m with stack := below } (m.heap.apply edit)
      rwa [← hT.withStack] at hheap
    simp only [hmachine]
    exact act_on (Action.commutes_forM fun v _ => hT.push v) ts
  | failed e => rfl
  | endless => rfl

lemma commutes_takeTruth (hT : Action.Beside T) : Action.Commutes T m takeTruth :=
  hT.pop.bind fun _ _ _ => Action.commutes_demand (by rw [hT.heap])

lemma commutes_takeItems (hT : Action.Beside T) : Action.Commutes T m takeItems := by
  refine (hT.stack_demand _).look_bind (Action.keeps_demand _) fun v => ?_
  split
  · exact (hT.drop 1).bind fun _ _ _ => Action.commutes_ask (by rw [hT.heap])
  · refine (hT.drop 1).bind fun _ _ _ => ?_
    refine (Action.commutes_ask (by rw [hT.heap])).bind fun es _ _ => ?_
    exact Action.commutes_mapM fun e m => hT.onHeap _
  · exact Action.commutes_throw _

/-! ### Runs -/

/-- Where every step is the same, runs come to the same. -/
lemma run_on {T : Machine → Machine} (h : ∀ n, step^[n] (p.on T) = (step^[n] p).on T) (n : Nat) :
    (p.on T).run n = (p.run n).map (on T) := by
  induction n generalizing p with
  | zero =>
    by_cases hp : p.tasks = []
    · rw [run_of_finished (p := p.on T) hp, run_of_finished hp]
      rfl
    · rw [run_zero (p := p.on T) hp, run_zero hp]
      rfl
  | succ n ih =>
    by_cases hp : p.tasks = []
    · rw [run_of_finished (p := p.on T) hp, run_of_finished hp]
      rfl
    · have hstep : (p.on T).step = p.step.on T := h 1
      rw [run_succ (p := p.on T) hp, run_succ hp, hstep]
      refine ih fun k => ?_
      rw [← hstep]
      exact h (k + 1)

/-! ### Programs -/

/-- The change is to nothing that is looked at when a program is entered, or to see whether a stop
has been asked for. -/
structure Apart (T : Machine → Machine) : Prop extends Action.Beside T where
  stopped : ∀ m, (T m).stopped = m.stopped
  limits : ∀ m, (T m).limits = m.limits
  calls : ∀ m, (T m).calls = m.calls
  current : ∀ m, (T m).scope.current = m.scope.current
  enter : ∀ m (g : Program),
    { T m with scope := ((T m).scope.switch g.home).2.enter g, calls := m.calls + 1 } =
      T { m with scope := (m.scope.switch g.home).2.enter g, calls := m.calls + 1 }

variable (hT : Apart T)

include hT

lemma invoke_on (g : Program) (m : Machine) (ts : List Task) :
    invoke g (T m) ts = (invoke g m ts).on T := by
  unfold invoke
  simp only [congrArg Limits.calls (hT.limits m), hT.calls m, Scope.saved_switch, hT.current m,
    hT.enter m g]
  split <;> rfl

lemma evaluateTop_on (m : Machine) (ts : List Task) :
    evaluateTop (T m) ts = (evaluateTop m ts).on T := by
  have hpeek : Action.Commutes T m (Action.peekProgram 0) := hT.peekProgram 0
  unfold evaluateTop
  rw [hpeek]
  cases (Action.peekProgram 0).run m with
  | error e m' => rfl
  | ok g m' =>
    simp only [Action.resultOn, hT.stack, hT.withStack]
    exact invoke_on hT g _ ts

lemma attemptTop_on (m : Machine) (ts : List Task) :
    attemptTop (T m) ts = (attemptTop m ts).on T := by
  have hpeek : Action.Commutes T m
      (do return (← Action.peekProgram 1, ← Action.peekProgram 0) : Action (Program × Program)) :=
    (hT.peekProgram 1).bind fun g _ _ => (hT.peekProgram 0).bind fun g' _ _ =>
      Action.commutes_pure (g, g')
  unfold attemptTop
  rw [hpeek]
  cases (do return (← Action.peekProgram 1, ← Action.peekProgram 0) :
      Action (Program × Program)).run m with
  | error e m' => rfl
  | ok x m' =>
    simp only [Action.resultOn, hT.stack, hT.withStack]
    exact invoke_on hT x.1 _ (.rescue x.2 :: ts)

/-! ### Steps -/

omit hT in
/-- The word does on the changed machine as it does on this one. -/
structure Alike (T : Machine → Machine) (m : Machine) (w : Word) : Prop where
  action : ∀ a, w.meaning = .action a → Action.Commutes T m a
  call : w.meaning = .call → ∀ ts, callTop (T m) ts = (callTop m ts).on T

lemma runValue_on (v : Value) (m : Machine) (ts : List Task)
    (hw : ∀ c w, v = .command c false → c.behavior = .core w → Alike T m w) :
    runValue v (T m) ts = (runValue v m ts).on T := by
  cases v with
  | branch cond thn els => rfl
  | each body => exact after_on (commutes_takeItems hT.toBeside) _ _
  | loop cond body => rfl
  | command c help =>
    cases help with
    | true => exact act_on (hT.printLine _) ts
    | false =>
      cases hb : c.behavior with
      | user g => simpa only [runValue, hb] using invoke_on hT g m ts
      | idle => simp only [runValue, hb, on, ofTasks]
      | core w =>
        have halike := hw c w rfl hb
        cases hm : w.meaning <;> simp only [runValue, hb, hm]
        case operator op => exact operate_on hT.toBeside op _ m ts
        case action a => exact act_on (halike.action a hm) ts
        case eval => exact evaluateTop_on hT m ts
        case call => exact halike.call hm ts
        case tryCatch => exact attemptTop_on hT m ts
  | _ => exact act_on (hT.push _) ts

lemma unwind_on (hleave : ∀ home, leave home (T m) = T (leave home m)) (t : Task) (e : Error)
    (ts : List Task) : unwind t e (T m) ts = (unwind t e m ts).on T := by
  cases t with
  | leave home =>
    simp only [unwind, hleave]
    rfl
  | report =>
    simp only [unwind, Machine.report, hT.withLine]
    rfl
  | rescue handler =>
    simp only [unwind, hT.stack, hT.withStack]
    exact invoke_on hT handler _ ts
  | _ => rfl

/-- **A step does not see the change**, where the word that it runs does not, and where programs are
left and texts are read as on the machine that has not been changed. -/
theorem step_on (hleave : ∀ home, leave home (T p.machine) = T (leave home p.machine))
    (hread : ∀ r ts, p.tasks = .source r :: ts → (T p.machine).setting = p.machine.setting)
    (hword : ∀ w, p.Runs w → Alike T p.machine w) : (p.on T).step = p.step.on T := by
  obtain ⟨m, tasks, error⟩ := p
  cases tasks with
  | nil => rfl
  | cons t ts =>
    cases error with
    | some e => exact unwind_on hT hleave t e ts
    | none =>
      simp only [step, on, hT.stopped]
      cases hy : m.stopped && t.yields with
      | true => rfl
      | false =>
        have hgoes (ht : t.yields = true) : m.stopped = false := by simpa [ht] using hy
        show perform t (T m) ts = (perform t m ts).on T
        cases t with
        | run v =>
          refine runValue_on hT v m ts fun c w hv hb => hword w ?_
          subst hv
          exact .value hb
        | sequence vs =>
          cases vs with
          | nil => rfl
          | cons v vs =>
            refine runValue_on hT v m _ fun c w hv hb => hword w ?_
            subst hv
            exact .sequence (hgoes rfl) hb
        | source r =>
          simp only [perform, hread r ts rfl]
          cases hr : r.next m.setting with
          | value d r' =>
            simp only [hT.heap, hT.withHeap]
            refine runValue_on hT _ _ _ fun c w hv hb => ?_
            -- Only a command is a command when stored, and it needs no storage.
            cases d <;> cases hv
            exact hword w (.source (hgoes rfl) hr hb)
          | ended r' => rfl
          | failed e r' => rfl
        | leave home =>
          simp only [perform, hleave]
          rfl
        | choose thn els => exact after_on (commutes_takeTruth hT.toBeside) ts _
        | iterate items body =>
          cases items with
          | nil => rfl
          | cons v vs => exact after_on (hT.push v) ts _
        | round begun cond body =>
          have hused : roundsUsed (T m) begun = roundsUsed m begun := by
            unfold roundsUsed
            rw [hT.limits]
          simp only [perform, hused]
          split <;> rfl
        | test begun cond body => exact after_on (commutes_takeTruth hT.toBeside) ts _
        | _ => rfl

end Execution

end ReversePolish

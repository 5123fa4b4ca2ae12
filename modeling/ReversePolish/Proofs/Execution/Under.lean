import ReversePolish.Proofs.Action.Under
import ReversePolish.Proofs.Execution.Changed
import ReversePolish.Proofs.Execution.Ground

/-!
A program does not see where it was invoked from. It runs in its own namespace and with local
variables of its own, whatever programs run outside it, and only when it is left does its caller
come into view again.
-/

namespace ReversePolish

namespace Execution

variable {fs : List Activation} {m m' : Machine} {t : Task} {ts : List Task}
  {p q : Execution} {n : Nat}

/-! ### Steps with more programs running outside -/

/-- The execution with more programs running, outside those that run. -/
abbrev under (fs : List Activation) (p : Execution) : Execution := p.on (Machine.under fs)

lemma apart_under (fs : List Activation) : Apart (Machine.under fs) where
  toBeside := Action.beside_under fs
  stopped _ := rfl
  limits _ := rfl
  calls _ := rfl
  current _ := rfl
  enter m g := by simp [Machine.under]

lemma leave_under (hm : m.scope.frames ≠ []) (home : String) :
    leave home (m.under fs) = (leave home m).under fs := by
  simp [leave, Machine.under, Scope.leave_under hm]

/-- What a name calls is looked for in the current namespace. -/
lemma callee?_under (name : String) (m : Machine) : callee? name (m.under fs) = callee? name m :=
  rfl

lemma call_under (name : String) (m : Machine) (ts : List Task) :
    call name (m.under fs) ts = (call name m ts).under fs := by
  unfold call
  rw [callee?_under]
  cases callee? name m with
  | none => rfl
  | some x =>
    cases x with
    | inl g => exact invoke_on (apart_under fs) g m ts
    | inr v => rfl

lemma callTop_under (m : Machine) (ts : List Task) :
    callTop (m.under fs) ts = (callTop m ts).under fs := by
  have hpeek : Action.Commutes (Machine.under fs) m (Action.peekString 0) :=
    (Action.beside_under fs).peekString 0
  unfold callTop
  rw [hpeek]
  cases (Action.peekString 0).run m with
  | error e m' => rfl
  | ok name m' =>
    simp only [Action.resultOn, callee?_under]
    cases callee? name m' with
    | none => rfl
    | some x => exact call_under name { m' with stack := m'.stack.drop 1 } ts

/-- **Inside a program, a step sees no program that runs outside.** -/
theorem step_under (hp : p.machine.scope.frames ≠ []) : (p.under fs).step = p.step.under fs :=
  step_on (apart_under fs) (leave_under hp) (fun _ _ _ => rfl) fun _ _ =>
    { action := fun _ hw => Action.inside_meaning hw hp
      call := fun _ ts => callTop_under p.machine ts }

/-! ### Runs from different callers -/

lemma Level.frames_ne_nil (h : Level 1 p) : p.machine.scope.frames ≠ [] := by
  unfold Level at h
  exact List.ne_nil_of_length_pos (by omega)

/-- The end of a run inside a program, once that has been left for its caller. -/
def leftFor (home : String) (fs : List Activation) (q : Execution) : Execution :=
  ⟨leave home (q.machine.under fs), [], q.error⟩

lemma run_leftFor_of_finished (hp : p.tasks = []) (home : String) (n : Nat) :
    ((p.under fs).above [.leave home]).run (n + 1) = (p.run n).map (leftFor home fs) := by
  have habove : (p.under fs).above [.leave home] =
      ⟨p.machine.under fs, [.leave home], p.error⟩ := by
    simp [above, on, hp]
  rw [habove, run_succ (by simp), step_leave, run_of_finished rfl, run_of_finished hp]
  rfl

/-- A program runs the same whatever runs outside it, up to the step that leaves it for its
caller. -/
lemma run_leftFor (h : Level 1 p) (home : String) (n : Nat) :
    ((p.under fs).above [.leave home]).run (n + 1) = (p.run n).map (leftFor home fs) := by
  induction n generalizing p with
  | zero =>
    by_cases hp : p.tasks = []
    · exact run_leftFor_of_finished hp home 0
    · rw [run_succ (by simp [above]), step_above (p := p.under fs) hp, run_zero hp,
        run_zero (by simp [above])]
      rfl
  | succ n ih =>
    by_cases hp : p.tasks = []
    · exact run_leftFor_of_finished hp home (n + 1)
    · rw [run_succ (by simp [above]), step_above (p := p.under fs) hp,
        step_under h.frames_ne_nil, run_succ hp]
      exact ih (level_step h)

end Execution

namespace Machine

/-- The machine as another caller stands on it: in this namespace, and inside these programs with
their local variables. -/
def seenFrom (current : String) (frames : List Activation) (m : Machine) : Machine :=
  { m with scope := { m.scope with current := current, frames := frames } }

/-- The machine on which the body of a program runs, with no other program. -/
def entered (g : Program) (m : Machine) : Machine :=
  { m with
    scope := { (m.scope.switch g.home).2 with frames := [{ program := g }] }
    calls := m.calls + 1 }

end Machine

namespace Execution

variable {m m' : Machine} {q : Execution} {g : Program}

/-- The execution as another caller stands on its machine. -/
abbrev seenFrom (current : String) (frames : List Activation) (q : Execution) : Execution :=
  q.on (Machine.seenFrom current frames)

lemma invoke_eq_under (g : Program) (hm : ¬ m.limits.calls ≤ m.calls) :
    invoke g m [] = ((ofTasks (m.entered g) [.sequence g.body]).under m.scope.frames).above
      [.leave m.scope.current] := by
  simp [invoke, hm, above, on, ofTasks, Machine.under, Machine.entered, Scope.under, Scope.enter]

/-- Where both namespaces have their modules, the body runs on the same machine. -/
lemma entered_seenFrom {current : String} {frames : List Activation} (hm : m.scope.Grounded)
    (hm' : (m.seenFrom current frames).scope.Grounded) (g : Program) :
    (m.seenFrom current frames).entered g = m.entered g := by
  have hmodules : ((m.seenFrom current frames).scope.switch g.home).2.modules =
      (m.scope.switch g.home).2.modules := by
    rw [Scope.modules_switch hm', Scope.modules_switch hm]
    exact Scope.modules_create_congr rfl
  simp only [Machine.entered, Scope.current_switch, hmodules]
  rfl

lemma level_entered (g : Program) (ts : List Task) (hts : depth ts = 0) :
    Level 1 (ofTasks (m.entered g) ts) := by
  simp [Level, ofTasks, Machine.entered, hts]

/-- Going back to a namespace that has a module changes no modules. -/
lemma leftFor_eq {current : String} (hq : Level 1 q) (hdone : q.tasks = [])
    (hhas : q.machine.scope.Has current) :
    leftFor current fs q =
      ⟨{ q.machine.seenFrom current fs with calls := q.machine.calls - 1 }, [], q.error⟩ := by
  have hlength : q.machine.scope.frames.length = 1 := by simpa [Level, hdone, depth] using hq
  obtain ⟨f, hf⟩ := List.length_eq_one_iff.mp hlength
  have hunder : (q.machine.scope.under fs).leave.Has current := hhas
  simp only [leftFor, leave, Machine.under, Scope.switch_of_has hunder]
  simp [Machine.seenFrom, Scope.leave, Scope.under, hf]

/-- Runs of one body that is left for different callers. -/
lemma leftFor_seenFrom {current : String} {frames : List Activation} (hm : m.scope.Grounded)
    (hcurrent : m.scope.Has current)
    (hrun : (ofTasks (m.entered g) [.sequence g.body]).run n = some q) :
    leftFor current frames q =
      (leftFor m.scope.current m.scope.frames q).seenFrom current frames := by
  obtain ⟨hreach, hdone⟩ := reaches_of_run hrun
  have hlevel : Level 1 q := hreach.keeps (fun _ => level_step) (level_entered g _ rfl)
  have hstays {name : String} (h : m.scope.Has name) : q.machine.scope.Has name :=
    hreach.has (h.switch (m := g.home))
  rw [leftFor_eq hlevel hdone (hstays hcurrent), leftFor_eq hlevel hdone (hstays hm)]
  rfl

/-- What invoking a program comes to, seen from another caller. -/
lemma run_invoke_seenFrom {current : String} {frames : List Activation} (hm : m.scope.Grounded)
    (hm' : (m.seenFrom current frames).scope.Grounded) (g : Program) (n : Nat) :
    (invoke g (m.seenFrom current frames) []).run n =
      ((invoke g m []).run n).map (seenFrom current frames) := by
  by_cases hdeep : m.limits.calls ≤ m.calls
  · have hdeep' : (m.seenFrom current frames).limits.calls ≤ (m.seenFrom current frames).calls :=
      hdeep
    rw [invoke, if_pos hdeep', invoke, if_pos hdeep, run_of_finished rfl, run_of_finished rfl]
    rfl
  · rw [invoke_eq_under g hdeep, invoke_eq_under (m := m.seenFrom current frames) g hdeep,
      entered_seenFrom hm hm']
    cases n with
    | zero =>
      rw [run_zero (by simp [above]), run_zero (by simp [above])]
      rfl
    | succ n =>
      have hlevel := level_entered (m := m) g [.sequence g.body] rfl
      rw [run_leftFor hlevel, run_leftFor hlevel, Option.map_map]
      cases hrun : (ofTasks (m.entered g) [.sequence g.body]).run n with
      | none => rfl
      | some q => exact congrArg some (leftFor_seenFrom hm hm' hrun)

/-- **A program does not see where it is invoked from.** Two machines that can be reached may differ
in the current namespace, and in the programs that are running with their local variables. Invoked
on either of them, a program runs for as many steps and comes to the same: to the same error or
none, and to machines that differ in nothing else. Each caller finds its own namespace and its own
programs with their local variables again. -/
theorem invoke_seenFrom (hm : m.Reachable) (hm' : m'.Reachable)
    (h : m' = m.seenFrom m'.scope.current m'.scope.frames) (g : Program) (n : Nat) :
    (invoke g m' []).run n =
        ((invoke g m []).run n).map (seenFrom m'.scope.current m'.scope.frames) ∧
      (∀ q, (invoke g m []).run n = some q →
        q.machine.scope.current = m.scope.current ∧ q.machine.scope.frames = m.scope.frames) ∧
      ∀ q', (invoke g m' []).run n = some q' →
        q'.machine.scope.current = m'.scope.current ∧
          q'.machine.scope.frames = m'.scope.frames := by
  have hback {m : Machine} {q : Execution} (hrun : (invoke g m []).run n = some q) :
      q.machine.scope.current = m.scope.current ∧ q.machine.scope.frames = m.scope.frames := by
    have hstanding := standing_of_invoke hrun
    exact ⟨congrArg Standing.current hstanding, congrArg Standing.frames hstanding⟩
  refine ⟨?_, fun _ => hback, fun _ => hback⟩
  have hground := hm'.grounded
  rw [h] at hground
  calc (invoke g m' []).run n
      = (invoke g (m.seenFrom m'.scope.current m'.scope.frames) []).run n := by rw [← h]
    _ = _ := run_invoke_seenFrom hm.grounded hground g n

/-- A program that asks for its namespace and for a local variable that only its caller has. It is
invoked from two programs, each of which has set that variable. -/
theorem local_of_caller_not_found :
    let word (w : Word) : Value := .command (.ofWord w) false
    let caller (home : String) (n : Int64) : Value :=
      .command ⟨"", "", "", .user ⟨[.int n, .str "x", word .lsto], home, none⟩⟩ false
    let begun (home other : String) (n : Int64) : Machine :=
      (step^[4] (ofTasks (.initial home ∅ Loader.disabled default .empty {} {})
        [.run (caller other n)])).machine
    let g : Program := ⟨[word .ns, .str "x", word .lrcl], "c", none⟩
    let m := begun "a" "b" 1
    let m' := begun "b" "a" 2
    ∃ q q', (invoke g m []).run 10 = some q ∧ (invoke g m' []).run 10 = some q' ∧
      q.error = some (.notFound "local `x`") ∧ q.machine.stack = [.str "x", .str "c"] ∧
      q' = q.seenFrom "a" m'.scope.frames ∧ q'.machine.scope.current = "a" := by
  intro word caller begun g m m'
  have hreachable (home other : String) (n : Int64) : (begun home other n).Reachable :=
    .iterate (.initial home ∅ Loader.disabled default .empty {} {}) 4
  have hm' : m' = m.seenFrom m'.scope.current m'.scope.frames := by
    simp only [m, m', begun, caller, word]
    rfl
  obtain ⟨hrun', -, hback⟩ := invoke_seenFrom (hreachable "a" "b" 1) (hreachable "b" "a" 2) hm' g 10
  obtain ⟨q, hrun, herror⟩ :
      ∃ q, (invoke g m []).run 10 = some q ∧ q.error = some (.notFound "local `x`") ∧
        q.machine.stack = [.str "x", .str "c"] := ⟨_, rfl, rfl, rfl⟩
  rw [hrun] at hrun'
  exact ⟨q, _, hrun, hrun', herror.1, herror.2, rfl, (hback _ hrun').1⟩

end Execution

end ReversePolish

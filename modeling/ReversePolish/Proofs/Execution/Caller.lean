import ReversePolish.Proofs.Execution.Steps
import ReversePolish.Proofs.Scope

/-!
What a program gives back to its caller when it has run: the namespace, the call depth, and the
running programs with their local variables.
-/

namespace ReversePolish

/-- Where a machine stands: in which namespace, and inside which programs. -/
structure Standing where
  current : String
  frames : List Activation
  calls : Nat

def Machine.standing (m : Machine) : Standing := ⟨m.scope.current, m.scope.frames, m.calls⟩

/-- Words do not touch the programs below the innermost one. -/
lemma Machine.Changes.tail_frames {m₀ m : Machine} (h : m₀.Changes m) :
    m.scope.frames.tail = m₀.scope.frames.tail := by
  induction h with
  | refl => rfl
  | store name _ _ ih => simpa using ih
  | purge _ hs ih => rw [← ih, Scope.frames_of_purge hs]
  | setLocal _ _ hs ih => rw [← ih, Scope.tail_frames_of_setLocal hs]
  | switch _ _ ih => simpa using ih
  | _ => assumption

namespace Execution

variable {m m' : Machine} {t : Task} {ts new handlers : List Task} {p q : Execution} {n : Nat}
  {fs : List Activation} {calls : Nat}

/-- How many programs are to be left. -/
def depth (ts : List Task) : Nat := ts.countP Task.leaves

/-- What runs lies inside a program that was entered from these programs, at this call depth. -/
structure Within (fs : List Activation) (calls : Nat) (p : Execution) : Prop where
  frames : p.machine.scope.frames.tail.drop (depth p.tasks) = fs
  calls : p.machine.calls = calls + 1 + depth p.tasks

lemma depth_cons (h : t.leaves = false) : depth (t :: ts) = depth ts := by
  simp [depth, h]

lemma depth_append (h : ∀ u ∈ new, u.leaves = false) : depth (new ++ ts) = depth ts := by
  have hnew : new.countP Task.leaves = 0 := List.countP_eq_zero.mpr fun u hu => by simp [h u hu]
  simp [depth, hnew]

@[simp] lemma depth_leave (home : String) (ts : List Task) :
    depth (.leave home :: ts) = depth ts + 1 :=
  List.countP_cons_of_pos rfl

/-- To work on a task is to enter a program, or it leaves the call depth as it is. -/
lemma Proceeds.callDepth (hp : Proceeds m ts p) :
    (p.machine.calls = m.calls ∧ depth p.tasks = depth ts) ∨
    (m.calls < m.limits.calls ∧ p.machine.calls = m.calls + 1 ∧
      depth p.tasks = depth ts + 1) := by
  cases hp with
  | works hm hnew => exact .inl ⟨hm.calls, depth_append hnew.1⟩
  | @enters m' g handlers hm _ hh =>
    have hd : depth (handlers ++ ts) = depth ts := depth_append fun u hu => (hh u hu).1
    unfold invoke
    split
    · exact .inl ⟨hm.calls, hd⟩
    · next hlt =>
      rw [hm.calls, hm.limits] at hlt
      refine .inr ⟨Nat.lt_of_not_le hlt, ?_, ?_⟩
      · simp only [ofTasks, hm.calls]
      · have hbody : (Task.sequence g.body).leaves = false := rfl
        simp only [ofTasks, depth_cons hbody, depth_leave, hd]

/-- A step enters a program, leaves one, or does neither. -/
lemma calls_step (p : Execution) :
    (p.step.machine.calls = p.machine.calls ∧ depth p.step.tasks = depth p.tasks) ∨
    (p.machine.calls < p.machine.limits.calls ∧ p.step.machine.calls = p.machine.calls + 1 ∧
      depth p.step.tasks = depth p.tasks + 1) ∨
    (p.step.machine.calls = p.machine.calls - 1 ∧ depth p.tasks = depth p.step.tasks + 1) := by
  obtain ⟨m, tasks, e⟩ := p
  cases tasks with
  | nil => exact .inl ⟨rfl, rfl⟩
  | cons t ts =>
    rcases step_cases m t ts e with ⟨home, rfl, hstep⟩ | ⟨ht, hp⟩
    · rw [hstep]
      exact .inr (.inr ⟨rfl, depth_leave home ts⟩)
    · rw [depth_cons ht]
      exact hp.callDepth.imp_right .inl

lemma limits_step (p : Execution) : p.step.machine.limits = p.machine.limits :=
  keeps_step (P := fun m => m.limits = p.machine.limits) (fun _ _ hm h => hm.limits.trans h)
    (fun _ _ h => h) (fun _ _ h => h) rfl

lemma limits_iterate (p : Execution) (n : Nat) :
    (step^[n] p).machine.limits = p.machine.limits := by
  induction n generalizing p with
  | zero => rfl
  | succ n ih => exact (ih p.step).trans (limits_step p)

/-- Programs never run one inside the other deeper than the limit allows, nor than they did. -/
lemma calls_iterate_le (p : Execution) (n : Nat) :
    (step^[n] p).machine.calls ≤ max p.machine.calls p.machine.limits.calls := by
  induction n with
  | zero => exact Nat.le_max_left _ _
  | succ n ih =>
    have hcalls := calls_step (step^[n] p)
    rw [limits_iterate] at hcalls
    rw [Function.iterate_succ_apply']
    omega

/-- The frames of the programs that are not to be left stay. -/
lemma frames_step (h : p.machine.scope.frames.tail.drop (depth p.tasks) = fs) :
    p.step.machine.scope.frames.tail.drop (depth p.step.tasks) = fs := by
  obtain ⟨m, tasks, e⟩ := p
  cases tasks with
  | nil => exact h
  | cons t ts =>
    rcases step_cases m t ts e with ⟨home, rfl, hstep⟩ | ⟨ht, hp⟩
    · rw [hstep]
      simp only [depth_leave] at h
      simpa [leave, Scope.leave, List.drop_tail] using h
    · generalize step ⟨m, t :: ts, e⟩ = q at hp ⊢
      simp only [depth_cons ht] at h
      cases hp with
      | works hm hnew =>
        rw [depth_append hnew.1, hm.tail_frames]
        exact h
      | @enters m' g handlers hm hscope hh =>
        have hd : depth (handlers ++ ts) = depth ts := depth_append fun u hu => (hh u hu).1
        unfold invoke
        split
        · simpa [ofError, hd, hscope] using h
        · have hbody : (Task.sequence g.body).leaves = false := rfl
          simp only [ofTasks, depth_cons hbody, depth_leave, hd]
          simpa [Scope.enter, hscope, List.drop_tail] using h

/-- Within a program, a step stays within it: a program that it enters is to be left again. -/
lemma within_step (h : Within fs calls p) : Within fs calls p.step where
  frames := frames_step h.frames
  calls := by
    have hcalls := calls_step p
    have hwithin := h.calls
    omega

lemma within_run (h : Within fs calls p) (hrun : p.run n = some q) : Within fs calls q :=
  (reaches_of_run hrun).1.keeps (fun _ => within_step) h

/-! ### Callers -/

/-- A program that has run leaves the machine standing where it was entered. -/
lemma standing_of_invoke {g : Program} (h : (invoke g m []).run n = some q) :
    q.machine.standing = m.standing := by
  unfold invoke at h
  split at h
  · obtain rfl := Option.some.inj ((run_of_finished rfl n).symm.trans h)
    rfl
  · have habove : ((ofTasks
        { m with scope := (m.scope.switch g.home).2.enter g, calls := m.calls + 1 }
        [.sequence g.body]).above [.leave (m.scope.switch g.home).1]).run n = some q := h
    rw [Scope.saved_switch] at habove
    obtain ⟨⟨m₁, ts₁, e₁⟩, ⟨k, h₁⟩, k', h₂⟩ := run_split habove
    obtain ⟨-, hts⟩ := reaches_of_run h₁
    obtain rfl : ts₁ = [] := hts
    have hin : Within m.scope.frames m.calls
        (ofTasks { m with scope := (m.scope.switch g.home).2.enter g, calls := m.calls + 1 }
          [.sequence g.body]) := by
      refine ⟨?_, ?_⟩ <;> simp [ofTasks, depth, Task.leaves, Scope.enter]
    obtain ⟨hfs, hcalls⟩ := within_run hin h₁
    obtain ⟨k'', h₃⟩ := run_step (by simp) h₂
    rw [step_leave, run_of_finished rfl] at h₃
    obtain rfl := Option.some.inj h₃
    simp only [depth, List.countP_nil, List.drop_zero] at hfs hcalls
    simp [Machine.standing, leave, Scope.leave, hfs, hcalls]

lemma standing_of_ofError {e : Error} (h : (ofError m [] e).run n = some q) :
    q.machine.standing = m.standing := by
  obtain rfl := Option.some.inj ((run_of_finished rfl n).symm.trans h)
  rfl

/-- The handler of an error begins where the program that failed was entered. -/
lemma standing_of_attempt {g handler : Program}
    (h : (invoke g m [.rescue handler]).run n = some q) : q.machine.standing = m.standing := by
  have habove : ((invoke g m []).above [.rescue handler]).run n = some q := by simpa using h
  obtain ⟨⟨m₁, ts₁, e₁⟩, ⟨k, h₁⟩, k', h₂⟩ := run_split habove
  have hm₁ := standing_of_invoke h₁
  obtain ⟨k'', h₃⟩ := run_step (by simp) h₂
  cases e₁ with
  | none =>
    have hstep : step ⟨m₁, [.rescue handler], none⟩ = ofTasks m₁ [] := by
      simp [step, perform, Task.yields]
    rw [hstep, run_of_finished rfl] at h₃
    obtain rfl := Option.some.inj h₃
    exact hm₁
  | some e => exact (standing_of_invoke h₃).trans hm₁

/-- A program is about to run: one that is invoked, or one that is run by `EVAL`, by `CALL` of a
variable, by `TRYCATCH`, or by a registered word. -/
inductive Invoking (m : Machine) : Execution → Prop where
  | program (g : Program) : Invoking m (invoke g m [])
  | eval {c : Command} : c.behavior = .core .eval → Invoking m (runValue (.command c false) m [])
  | call {c : Command} {name : String} {s : Stack} {g : Program} : c.behavior = .core .call →
      m.stack = .str name :: s → m.scope.fetch name = .ok (.program g) →
      Invoking m (runValue (.command c false) m [])
  | tryCatch {c : Command} : c.behavior = .core .tryCatch →
      Invoking m (runValue (.command c false) m [])
  | user {c : Command} {g : Program} : c.behavior = .user g →
      Invoking m (runValue (.command c false) m [])

/-- **A program gives its caller back where it stands.** However the run ends, and whatever it has
done to namespaces and local variables, the namespace, the call depth and the running programs
with all their local variables are afterwards what they were before. Where other tasks lie below,
these go on from there. -/
theorem caller_restored (hp : Invoking m p) (hrun : p.run n = some q) :
    q.machine.standing = m.standing ∧
      ∀ below, (p.above below).Reaches ⟨q.machine, below, q.error⟩ := by
  refine ⟨?_, reaches_above hrun⟩
  cases hp with
  | program g => exact standing_of_invoke hrun
  | eval hc =>
    simp only [runValue, hc, Word.meaning] at hrun
    rcases evaluateTop_cases m [] with ⟨g, hg⟩ | ⟨e, he⟩
    · rw [hg] at hrun
      exact (standing_of_invoke hrun).trans rfl
    · rw [he] at hrun
      exact standing_of_ofError hrun
  | @call c name s g hc hs hname =>
    have hcallee : callee? name m = some (.inl g) := by simp [callee?, hname]
    have hcall : callTop m [] = invoke g { m with stack := m.stack.drop 1 } [] := by
      simp only [callTop, Action.run_peekString hs, hcallee]
      simp [call, callee?, hname]
    simp only [runValue, hc, Word.meaning, hcall] at hrun
    exact (standing_of_invoke hrun).trans rfl
  | tryCatch hc =>
    simp only [runValue, hc, Word.meaning] at hrun
    rcases attemptTop_cases m [] with ⟨attempt, handler, hg⟩ | ⟨e, he⟩
    · rw [hg] at hrun
      exact (standing_of_attempt hrun).trans rfl
    · rw [he] at hrun
      exact standing_of_ofError hrun
  | user hc =>
    simp only [runValue, hc] at hrun
    exact standing_of_invoke hrun

/-- A program that goes to another namespace, sets a local variable and fails, and a handler that
goes to a third one. -/
theorem caller_restored_after_failure :
    let word (w : Word) : Value := .command (.ofWord w) false
    let attempt : Program :=
      ⟨[.str "b", word .setNs, .int 1, .str "x", word .lsto, .str "y", word .lrcl], "a", none⟩
    let handler : Program := ⟨[.str "c", word .setNs], "a", none⟩
    let m : Machine := { Machine.initial "main" ∅ Loader.disabled default .empty {} {} with
      stack := [.program handler, .program attempt]
      scope := (Scope.initial "main").enter ⟨[], "main", none⟩
      calls := 1 }
    ∃ q, (runValue (word .tryCatch) m []).run 20 = some q ∧ q.error = none ∧
      q.machine.stack = [.str (Error.notFound "local `y`").message, .str "y"] ∧
      q.machine.standing = m.standing := by
  refine ⟨_, rfl, rfl, rfl, ?_⟩
  exact (caller_restored (n := 20) (.tryCatch (c := .ofWord .tryCatch) rfl) rfl).1

end Execution

end ReversePolish

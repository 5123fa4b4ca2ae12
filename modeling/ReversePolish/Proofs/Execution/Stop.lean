import ReversePolish.Proofs.Execution.Steps
import ReversePolish.Proofs.Table

/-!
Stops. When a stop has been asked for, every task that is left is given up, and the programs that
are running are left; nothing else happens any more.

This holds because only the task that comes first can be to run a value come what may: a step that
brings in such a task does it last, and what lies below waits behind a check.
-/

namespace ReversePolish

namespace Scope

variable {s : Scope} {home name : String}

/-- The value of a variable that belongs to a module. -/
def global? (home name : String) (s : Scope) : Option Value :=
  (s.modules.find? home).bind (·.find? name)

/-- Going to another namespace may add a module, but no variable. -/
@[simp] lemma global?_switch (home' : String) :
    (s.switch home').2.global? home name = s.global? home name := by
  unfold switch create
  split
  · rfl
  · split
    · rfl
    · next hnew =>
      by_cases hh : home' = home
      · subst hh
        have hnone : s.modules.find? home' = none := by
          simpa [Table.contains] using hnew
        simp [global?, hnone]
      · simp [global?, Table.find?_insert_of_ne hh]

@[simp] lemma global?_leave : s.leave.global? home name = s.global? home name := rfl

end Scope

namespace Machine

variable {m m' m'' : Machine}

/-- The machines differ in nothing but where they stand: in the current namespace, the running
programs and the call depth. All variables of all modules are the same. -/
def SameBesideStanding (m m' : Machine) : Prop :=
  ∃ scope calls, m' = { m with scope := scope, calls := calls } ∧
    ∀ home name, scope.global? home name = m.scope.global? home name

lemma SameBesideStanding.refl (m : Machine) : m.SameBesideStanding m :=
  ⟨m.scope, m.calls, rfl, fun _ _ => rfl⟩

lemma SameBesideStanding.trans (h : m.SameBesideStanding m') (h' : m'.SameBesideStanding m'') :
    m.SameBesideStanding m'' := by
  obtain ⟨scope, calls, rfl, hs⟩ := h
  obtain ⟨scope', calls', rfl, hs'⟩ := h'
  exact ⟨scope', calls', rfl, fun home name => (hs' home name).trans (hs home name)⟩

lemma SameBesideStanding.stopped (h : m.SameBesideStanding m') : m'.stopped = m.stopped := by
  obtain ⟨scope, calls, rfl, -⟩ := h
  rfl

lemma sameBesideStanding_leave (home : String) : m.SameBesideStanding (Execution.leave home m) :=
  ⟨(m.scope.leave.switch home).2, m.calls - 1, rfl, fun _ _ => by simp⟩

end Machine

/-- The core word that the command does. -/
def Command.word? (c : Command) : Option Word :=
  match c.behavior with
  | .core w => some w
  | _ => none

namespace Execution

variable {m : Machine} {w : Word} {a : Action Unit} {t : Task} {ts : List Task}
  {p p' : Execution}

/-! ### Giving up tasks -/

/-- A task is given up, and if it was to leave a program, then the program is left. -/
lemma step_of_stopped (hm : m.stopped = true) (ht : t.insists = false) (ts : List Task) :
    ∃ m', step (ofTasks m (t :: ts)) = ofTasks m' ts ∧ m.SameBesideStanding m' := by
  cases t with
  | run v => cases ht
  | leave home => exact ⟨leave home m, step_leave home m ts none, m.sameBesideStanding_leave home⟩
  | _ => exact ⟨m, by simp [step, ofTasks, hm, Task.yields, perform], .refl m⟩

/-- One step for each task, and the run has ended. -/
lemma run_of_stopped (hm : m.stopped = true) (hts : ∀ u ∈ ts, u.insists = false) :
    ∃ m', (ofTasks m ts).run ts.length = some (ofTasks m' []) ∧ m.SameBesideStanding m' := by
  induction ts generalizing m with
  | nil => exact ⟨m, run_of_finished rfl 0, .refl m⟩
  | cons t ts ih =>
    obtain ⟨ht, hts⟩ := List.forall_mem_cons.mp hts
    obtain ⟨m₁, hstep, h₁⟩ := step_of_stopped hm ht ts
    obtain ⟨m₂, hrun, h₂⟩ := ih (h₁.stopped.trans hm) hts
    refine ⟨m₂, ?_, h₁.trans h₂⟩
    rw [List.length_cons, run_succ (by simp [ofTasks]), hstep]
    exact hrun

/-! ### What waits -/

/-- No task but the first is to run a value come what may. -/
def Waits (p : Execution) : Prop := ∀ u ∈ p.tasks.tail, u.insists = false

lemma waits_append {new : List Task} (hnew : ∀ u ∈ new.tail, u.insists = false)
    (hts : ∀ u ∈ ts, u.insists = false) : ∀ u ∈ (new ++ ts).tail, u.insists = false := by
  intro u hu
  cases new with
  | nil => exact hts u (List.mem_of_mem_tail hu)
  | cons v vs => exact (List.mem_append.mp hu).elim (hnew u) (hts u)

/-- A step that brings in a task to run a value puts it in the first place. -/
theorem waits_step (h : p.Waits) : p.step.Waits := by
  obtain ⟨m, tasks, e⟩ := p
  cases tasks with
  | nil => exact h
  | cons t ts =>
    have hts : ∀ u ∈ ts, u.insists = false := h
    rcases step_cases m t ts e with ⟨home, -, hstep⟩ | ⟨-, hp⟩
    · rw [hstep]
      exact fun u hu => hts u (List.mem_of_mem_tail hu)
    · generalize step ⟨m, t :: ts, e⟩ = q at hp ⊢
      cases hp with
      | works _ hnew => exact waits_append hnew.2 hts
      | @enters m' g handlers _ _ hh =>
        -- The body of the program comes first, and even that is given up when a stop is asked for.
        have hall : ∀ u ∈ handlers ++ ts, u.insists = false := fun u hu =>
          (List.mem_append.mp hu).elim (fun hu => (hh u hu).2) (hts u)
        unfold invoke
        split
        · exact fun u hu => hall u (List.mem_of_mem_tail hu)
        · intro u hu
          rcases List.mem_cons.mp hu with rfl | hu
          · rfl
          · exact hall u hu

/-! ### Words that ask for a stop -/

/-- The next step runs this word: as a value that is called, as an element of a sequence, or as the
next value of a text. -/
inductive Runs (w : Word) : Execution → Prop where
  | value {m : Machine} {c : Command} {ts : List Task} : c.behavior = .core w →
      Runs w (ofTasks m (.run (.command c false) :: ts))
  | sequence {m : Machine} {c : Command} {vs : List Value} {ts : List Task} :
      m.stopped = false → c.behavior = .core w →
      Runs w (ofTasks m (.sequence (.command c false :: vs) :: ts))
  | source {m : Machine} {c : Command} {r r' : Reader} {ts : List Task} : m.stopped = false →
      r.next m.setting = .value (.command c false) r' → c.behavior = .core w →
      Runs w (ofTasks m (.source r :: ts))

/-- The word that the next step runs, if any. -/
def word? : Execution → Option Word
  | ⟨_, .run (.command c false) :: _, none⟩ => c.word?
  | ⟨m, .sequence (.command c false :: _) :: _, none⟩ => if m.stopped then none else c.word?
  | ⟨m, .source r :: _, none⟩ =>
    if m.stopped then none
    else
      match r.next m.setting with
      | .value (.command c false) _ => c.word?
      | _ => none
  | _ => none

lemma Runs.word? (h : p.Runs w) : p.word? = some w := by
  cases h with
  | value hc => simp [Execution.word?, ofTasks, Command.word?, hc]
  | sequence hm hc => simp [Execution.word?, ofTasks, Command.word?, hm, hc]
  | source hm hr hc => simp [Execution.word?, ofTasks, Command.word?, hm, hr, hc]

lemma runs_of_word? (h : p.word? = some w) : p.Runs w := by
  have hcore {c : Command} (hc : c.word? = some w) : c.behavior = .core w := by
    unfold Command.word? at hc
    split at hc <;> cases hc
    assumption
  unfold Execution.word? at h
  split at h
  · exact .value (hcore h)
  · split at h
    · cases h
    · next hm => exact .sequence (by simpa using hm) (hcore h)
  · split at h
    · cases h
    · next hm =>
      split at h
      · next hr => exact .source (by simpa using hm) hr (hcore h)
      · cases h
  · cases h

/-- The step begins to run the word. What comes after it waits. -/
lemma step_of_runs (h : p.Runs w) :
    ∃ c ts, c.behavior = .core w ∧ p.step = runValue (.command c false) p.machine ts ∧
      (p.Waits → ∀ u ∈ ts, u.insists = false) := by
  cases h with
  | @value m c ts hc => exact ⟨c, ts, hc, step_run _ m ts, id⟩
  | @sequence m c vs ts hm hc =>
    refine ⟨c, .sequence vs :: ts, hc, ?_, fun hp => List.forall_mem_cons.mpr ⟨rfl, hp⟩⟩
    simp [step, ofTasks, hm, perform]
  | @source m c r r' ts hm hr hc =>
    refine ⟨c, .source r' :: ts, hc, ?_, fun hp => List.forall_mem_cons.mpr ⟨rfl, hp⟩⟩
    simp [step, ofTasks, hm, perform, hr, Datum.store]

lemma step_of_runs_action (h : p.Runs w) (hp : p.Waits) (hw : w.meaning = .action a) :
    ∃ ts, p.step = act a p.machine ts ∧ ∀ u ∈ ts, u.insists = false := by
  obtain ⟨c, ts, hc, hstep, hts⟩ := step_of_runs h
  exact ⟨ts, by simp only [hstep, runValue, hc, hw], hts hp⟩

/-- The word asks for a stop and does nothing else. -/
lemma step_of_stop (h : p.Runs w) (hp : p.Waits) (hw : w = .interrupt ∨ w = .exit) :
    ∃ m ts, p.step = ofTasks m ts ∧ (∀ u ∈ ts, u.insists = false) ∧ m.stopped = true ∧
      (w = .interrupt → m.interrupted = true) ∧ (w = .exit → m.exiting = true) := by
  rcases hw with rfl | rfl
  · obtain ⟨ts, hstep, hts⟩ := step_of_runs_action h hp rfl
    exact ⟨{ p.machine with interrupted := true }, ts, hstep, hts, by simp [Machine.stopped],
      fun _ => rfl, nofun⟩
  · obtain ⟨ts, hstep, hts⟩ := step_of_runs_action h hp rfl
    exact ⟨{ p.machine with exiting := true }, ts, hstep, hts, by simp [Machine.stopped],
      nofun, fun _ => rfl⟩

/-- Something is about to be run: a sequence of values, a program, a text, or a single value whose
errors are reported. -/
inductive Begun (m : Machine) : Execution → Prop where
  | sequence (vs : List Value) : Begun m (ofTasks m [.sequence vs])
  | program (g : Program) : Begun m (invoke g m [])
  | source (text : String) : Begun m (ofTasks m [.source (.ofText text)])
  | unit (v : Value) : Begun m (ofTasks m [.run v, .report])

lemma Begun.waits (h : Begun m p) : p.Waits := by
  cases h with
  | program g =>
    unfold invoke
    split <;> simp [Waits, ofError, ofTasks, Task.insists]
  | _ => simp [Waits, ofTasks, Task.insists]

/-- **A stop takes effect at once.** Whatever is run, and wherever in it `INTERRUPT` or `EXIT` is
run, the run then comes to its end without an error. When it has, the machine is as the word left
it, save that the programs that were running have been left, and the stop is still asked for. -/
theorem stop_at_once (hp : Begun m p) (hreach : p.Reaches p') (hruns : p'.Runs w)
    (hw : w = .interrupt ∨ w = .exit) :
    ∃ n q, p.run n = some q ∧ q.error = none ∧
      p'.step.machine.SameBesideStanding q.machine ∧
      (w = .interrupt → q.machine.interrupted = true) ∧
      (w = .exit → q.machine.exiting = true) := by
  obtain ⟨m₁, ts, hstep, hts, hstopped, hint, hexit⟩ :=
    step_of_stop hruns (hreach.keeps (fun _ => waits_step) hp.waits) hw
  obtain ⟨m₂, hrun, hsame⟩ := run_of_stopped hstopped hts
  have hend : p'.Reaches (ofTasks m₂ []) := .head (hstep ▸ (reaches_of_run hrun).1)
  obtain ⟨n, hn⟩ := run_of_reaches (hreach.trans hend) rfl
  rw [hstep]
  refine ⟨n, ofTasks m₂ [], hn, rfl, hsame, ?_⟩
  obtain ⟨scope, calls, rfl, -⟩ := hsame
  exact ⟨hint, hexit⟩

/-- `INTERRUPT` in a loop in a program that `TRYCATCH` runs. -/
theorem interrupt_in_loop_under_tryCatch :
    let word (w : Word) : Value := .command (.ofWord w) false
    let attempt : Program := ⟨[.loop [.int 1] [.int 5, word .interrupt, .int 6], .int 7], "a", none⟩
    let handler : Program := ⟨[.int 8], "a", none⟩
    let m : Machine := .initial "main" ∅ Loader.disabled default .empty {} {}
    let p := ofTasks m [.sequence [.program attempt, .program handler, word .tryCatch, .int 9]]
    ∃ n q, p.run n = some q ∧ q.error = none ∧ q.machine.stack = [.int 5] ∧
      q.machine.interrupted = true := by
  intro word attempt handler m p
  have hreach : p.Reaches (step^[9] p) := ⟨9, rfl⟩
  have hruns : (step^[9] p).Runs .interrupt := .sequence (c := .ofWord .interrupt) rfl rfl
  obtain ⟨n, q, hrun, herr, hsame, hflag, -⟩ := stop_at_once (.sequence _) hreach hruns (.inl rfl)
  obtain ⟨scope, calls, hq, -⟩ := hsame
  exact ⟨n, q, hrun, herr, by rw [hq]; rfl, hflag rfl⟩

end Execution

end ReversePolish

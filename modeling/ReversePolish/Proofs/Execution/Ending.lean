import ReversePolish.Proofs.Execution.Caller
import ReversePolish.Proofs.Execution.Equality
import ReversePolish.Proofs.Execution.Stop

/-!
Runs that end. Where loops are cut off, where no control form is called out of a variable and where
every test of equality is answered, every run ends.

The proof goes by how many more programs may be entered, and for each number by the values that are
run: what lies inside a value is smaller than the value, only entering a program can bring back
values of any size, and entering one uses up a call. A call of a command takes a name off the stack.
-/

namespace ReversePolish

/-- Control forms are run wherever they stand. -/
def Value.isForm : Value → Bool
  | .branch _ _ _ | .each _ | .loop _ _ => true
  | _ => false

namespace Execution

variable {k r : Nat} {m m' : Machine} {t : Task} {ts us below : List Task} {p q : Execution}
  {w : Word} {v : Value} {vs : List Value} {c : Command}

/-- The next step is to call a variable that holds a control form. -/
def CallsForm (p : Execution) : Prop :=
  p.Runs .call ∧ ∃ name s v, p.machine.stack = .str name :: s ∧
    p.machine.scope.fetch name = .ok v ∧ v.isForm = true

/-- The next step is a test of equality that is never answered. -/
def Unanswered (p : Execution) : Prop :=
  ∃ w answer b a s, p.Runs w ∧ w.meaning = .operator (.equality answer) ∧
    p.machine.stack = b :: a :: s ∧ p.machine.heap.equal? a b = none

/-! ### Runs that cannot but end -/

/-- From here on, loops are cut off after `k` rounds, no control form is called out of a variable,
and every test of equality is answered. -/
structure Quiet (k : Nat) (p : Execution) : Prop where
  rounds : p.machine.limits.rounds = some k
  forms : ∀ q, p.Reaches q → ¬ q.CallsForm
  answers : ∀ q, p.Reaches q → ¬ q.Unanswered

/-- Outside the programs that are still to be left, at most `r` more may be entered one inside the
other. -/
structure Bounded (k r : Nat) (p : Execution) : Prop extends Quiet k p where
  calls : p.machine.limits.calls + depth p.tasks ≤ r + p.machine.calls

lemma Quiet.bounded (h : Quiet k p) : Bounded k (p.machine.limits.calls + depth p.tasks) p :=
  ⟨h, Nat.le_add_right _ _⟩

lemma Quiet.step (h : Quiet k p) : Quiet k p.step where
  rounds := by rw [limits_step, h.rounds]
  forms q hq := h.forms q hq.head
  answers q hq := h.answers q hq.head

lemma Bounded.step (h : Bounded k r p) : Bounded k r p.step where
  toQuiet := h.toQuiet.step
  calls := by
    have hcalls := calls_step p
    have hle := h.calls
    rw [limits_step]
    omega

lemma Bounded.reaches (h : Bounded k r p) (hreach : p.Reaches q) : Bounded k r q :=
  hreach.keeps (fun _ => Bounded.step) h

lemma Runs.above (h : p.Runs w) (below : List Task) : (p.above below).Runs w := by
  cases h with
  | value hc => exact .value hc
  | sequence hm hc => exact .sequence hm hc
  | source hm hr hc => exact .source hm hr hc

lemma Quiet.of_above (h : Quiet k (p.above below)) : Quiet k p where
  rounds := h.rounds
  forms _ hq := fun ⟨hruns, hform⟩ => h.forms _ (hq.above below) ⟨hruns.above below, hform⟩
  answers _ hq := fun ⟨w, answer, b, a, s, hruns, hw, hstack, hnone⟩ =>
    h.answers _ (hq.above below) ⟨w, answer, b, a, s, hruns.above below, hw, hstack, hnone⟩

/-- Tasks below that leave programs hold as many calls. -/
lemma Bounded.of_above {r' : Nat} (h : Bounded k r' (p.above below)) (hr : r' ≤ r + depth below) :
    Bounded k r p where
  toQuiet := h.toQuiet.of_above
  calls := by
    have hcalls : p.machine.limits.calls + depth (p.tasks ++ below) ≤ r' + p.machine.calls :=
      h.calls
    rw [depth, List.countP_append] at hcalls
    unfold depth at hr ⊢
    omega

/-- What goes on in the same way, and runs no other words, ends as well. -/
lemma Bounded.of_step_eq (h : Bounded k r p) (hstep : q.step = p.step)
    (hlimits : q.machine.limits = p.machine.limits) (hcalls : q.machine.calls = p.machine.calls)
    (hdepth : depth q.tasks = depth p.tasks)
    (hruns : ∀ w, q.Runs w → p.Runs w ∧ q.machine = p.machine) : Bounded k r q where
  rounds := by rw [hlimits, h.rounds]
  forms q' hq' := by
    obtain ⟨n, rfl⟩ := hq'
    cases n with
    | zero =>
      rintro ⟨hcall, hform⟩
      obtain ⟨hp, hm⟩ := hruns _ hcall
      have hform' := hm ▸ hform
      exact h.forms p ⟨0, rfl⟩ ⟨hp, hform'⟩
    | succ n =>
      rw [Function.iterate_succ_apply, hstep]
      exact h.forms _ ⟨n + 1, rfl⟩
  answers q' hq' := by
    obtain ⟨n, rfl⟩ := hq'
    cases n with
    | zero =>
      rintro ⟨w, answer, b, a, s, hq, hw, hstack, hnone⟩
      obtain ⟨hp, hm⟩ := hruns _ hq
      exact h.answers p ⟨0, rfl⟩ ⟨w, answer, b, a, s, hp, hw, hm ▸ hstack, hm ▸ hnone⟩
    | succ n =>
      rw [Function.iterate_succ_apply, hstep]
      exact h.answers _ ⟨n + 1, rfl⟩
  calls := by rw [hlimits, hcalls, hdepth]; exact h.calls

/-- Tasks that run to their end on every machine, with an error to pass on or without. -/
def Settles (k r : Nat) (ts : List Task) : Prop :=
  ∀ m e, Bounded k r ⟨m, ts, e⟩ → (⟨m, ts, e⟩ : Execution).Ends

lemma settles_nil : Settles k r [] := fun _ _ _ => ends_of_finished rfl

lemma Settles.append (hts : Settles k r ts) (hus : Settles k r us) : Settles k r (ts ++ us) := by
  intro m e h
  have habove : Bounded k r ((⟨m, ts, e⟩ : Execution).above us) := h
  have hends : (⟨m, ts, e⟩ : Execution).Ends := hts m e (habove.of_above (Nat.le_add_right _ _))
  exact ends_above hends fun m' e' hreach => hus m' e' (habove.reaches hreach)

/-- A task that errors undo settles if it does so where it is performed. -/
lemma settles_of_perform (hunwind : ∀ e m, (unwind t e m []).tasks = [])
    (hperform : ∀ m, (m.stopped && t.yields) = false → Bounded k r (ofTasks m [t]) →
      Bounded k r (perform t m []) → (perform t m []).Ends) : Settles k r [t] := by
  intro m e h
  refine Ends.of_step ?_
  cases e with
  | some e => exact ends_of_finished (hunwind e m)
  | none =>
    have hstep := h.step
    simp only [step] at hstep ⊢
    split
    · exact ends_of_finished rfl
    · next hgo =>
      rw [if_neg hgo] at hstep
      exact hperform m (Bool.eq_false_iff.mpr hgo) h hstep

lemma ends_after {α : Type} {a : Action α} {f : α → List Task}
    (hf : ∀ x, Settles k r (f x ++ ts)) (hts : Settles k r ts) (h : Bounded k r (after a m ts f)) :
    (after a m ts f).Ends := by
  unfold after at h ⊢
  split
  · next hr =>
    rw [hr] at h
    exact hf _ _ _ h
  · next hr =>
    rw [hr] at h
    exact hts _ _ h

lemma ends_act (a : Action Unit) (m : Machine) : (act a m []).Ends :=
  ends_of_finished (tasks_act a m [])

/-! ### What lies inside values -/

lemma settles_report : Settles k r [.report] :=
  settles_of_perform (fun _ _ => rfl) fun _ _ _ _ => ends_of_finished rfl

lemma settles_sequence_nil : Settles k r [.sequence []] :=
  settles_of_perform (fun _ _ => rfl) fun _ _ _ _ => ends_of_finished rfl

/-- The first value of a sequence is run as by itself. -/
lemma settles_sequence_cons (hv : Settles k r [.run v]) (hvs : Settles k r [.sequence vs]) :
    Settles k r [.sequence (v :: vs)] := by
  refine settles_of_perform (fun _ _ => rfl) fun m hgo h _ => ?_
  have hm : m.stopped = false := by simpa [Task.yields] using hgo
  have hstep : (ofTasks m [.run v, .sequence vs]).step =
      (ofTasks m [.sequence (v :: vs)]).step := by
    rw [step_run]
    simp [step, ofTasks, hm, perform]
  have hboth : Bounded k r (ofTasks m [.run v, .sequence vs]) := by
    refine h.of_step_eq hstep rfl rfl rfl fun w hruns => ?_
    cases hruns with
    | value hc => exact ⟨.sequence hm hc, rfl⟩
  have hends : (ofTasks m [.run v, .sequence vs]).Ends := hv.append hvs m none hboth
  have hrest := hends.step
  rw [step_run] at hrest
  exact hrest

/-- What is read is run as by itself, and less is left to read. -/
lemma settles_source (hrun : ∀ v, Settles k r [.run v]) (rd : Reader) :
    Settles k r [.source rd] := by
  refine settles_of_perform (fun _ _ => rfl) fun m hgo h _ => ?_
  have hm : m.stopped = false := by simpa [Task.yields] using hgo
  cases hr : rd.next m.setting with
  | ended rd' =>
    simp only [perform, hr]
    exact ends_of_finished rfl
  | failed e rd' =>
    simp only [perform, hr]
    exact ends_of_finished rfl
  | value d rd' =>
    simp only [perform, hr]
    have hrest := settles_source hrun rd'
    let m' : Machine := { m with heap := (d.store none m.heap).2 }
    have hstep : (ofTasks m' [.run (d.store none m.heap).1, .source rd']).step =
        (ofTasks m [.source rd]).step := by
      rw [step_run]
      simp [step, ofTasks, hm, perform, hr, m']
    have hboth : Bounded k r (ofTasks m' [.run (d.store none m.heap).1, .source rd']) := by
      refine h.of_step_eq hstep rfl rfl rfl fun w hruns => ?_
      generalize hv : (d.store none m.heap).1 = v at hruns
      cases hruns with
      | value hc =>
        -- Only a command is stored as a command, and that leaves the heap as it is.
        cases d <;> cases hv
        exact ⟨.source hm hr hc, rfl⟩
    have hends : (ofTasks m' [.run (d.store none m.heap).1, .source rd']).Ends :=
      (hrun _).append hrest m' none hboth
    exact step_run _ m' _ ▸ hends.step
termination_by rd
decreasing_by exact Reader.smaller_of_next hr

lemma settles_choose {thn els : List Value} (hthn : Settles k r [.sequence thn])
    (hels : Settles k r [.sequence els]) : Settles k r [.choose thn els] := by
  refine settles_of_perform (fun _ _ => rfl) fun m _ _ hp => ends_after (fun b => ?_) settles_nil hp
  cases b with
  | true => exact hthn
  | false => exact hels

/-- The items that are iterated were taken once and for all. -/
lemma settles_iterate {body : List Value} (hbody : Settles k r [.sequence body])
    (items : List Value) : Settles k r [.iterate items body] := by
  induction items with
  | nil => exact settles_of_perform (fun _ _ => rfl) fun _ _ _ _ => ends_of_finished rfl
  | cons v items ih =>
    refine settles_of_perform (fun _ _ => rfl) fun m _ _ hp => ?_
    exact ends_after (fun _ => hbody.append ih) settles_nil hp

lemma settles_test {begun : Nat} {cond body : List Value} (hbody : Settles k r [.sequence body])
    (hround : Settles k r [.round (begun + 1) cond body]) :
    Settles k r [.test begun cond body] := by
  refine settles_of_perform (fun _ _ => rfl) fun m _ _ hp => ends_after (fun b => ?_) settles_nil hp
  cases b with
  | true => exact hbody.append hround
  | false => exact settles_nil

/-- A loop ends, by induction on the rounds that are left until it is cut off. -/
lemma settles_round {cond body : List Value} (hcond : Settles k r [.sequence cond])
    (hbody : Settles k r [.sequence body]) (left : Nat) :
    ∀ begun, k ≤ begun + left → Settles k r [.round begun cond body] := by
  induction left with
  | zero =>
    refine fun begun hleft => settles_of_perform (fun _ _ => rfl) fun m _ h _ => ?_
    have hused : roundsUsed m begun = true := by
      have hrounds : m.limits.rounds = some k := h.rounds
      simpa [roundsUsed, hrounds] using hleft
    simp only [perform, hused]
    exact ends_of_finished rfl
  | succ left ih =>
    refine fun begun hleft => settles_of_perform (fun _ _ => rfl) fun m _ _ hp => ?_
    simp only [perform] at hp ⊢
    split
    · exact ends_of_finished rfl
    · next hused =>
      rw [if_neg hused] at hp
      have htest := settles_test hbody (ih (begun + 1) (by omega))
      exact hcond.append htest m none hp

/-! ### Values of any size -/

mutual

/-- A control form settles if what is no control form does. -/
lemma settles_run (hplain : ∀ v : Value, v.isForm = false → Settles k r [.run v]) :
    (v : Value) → Settles k r [.run v]
  | .branch cond thn els => by
    have hchoose := settles_choose (settles_sequence hplain thn) (settles_sequence hplain els)
    refine settles_of_perform (fun _ _ => rfl) fun m _ _ hp => ?_
    exact (settles_sequence hplain cond).append (hchoose.append settles_report) m none hp
  | .each body => by
    have hiterate := settles_iterate (settles_sequence hplain body)
    refine settles_of_perform (fun _ _ => rfl) fun m _ _ hp => ?_
    exact ends_after (fun items => (hiterate items).append settles_report) settles_report hp
  | .loop cond body => by
    have hround := settles_round (settles_sequence hplain cond) (settles_sequence hplain body) k 0
    refine settles_of_perform (fun _ _ => rfl) fun m _ _ hp => ?_
    exact (hround (Nat.le_add_left k 0)).append settles_report m none hp
  | .int _ | .str _ | .none | .list _ | .map _ | .program _ | .command _ _ =>
    hplain _ rfl

lemma settles_sequence (hplain : ∀ v : Value, v.isForm = false → Settles k r [.run v]) :
    (vs : List Value) → Settles k r [.sequence vs]
  | [] => settles_sequence_nil
  | v :: vs => settles_sequence_cons (settles_run hplain v) (settles_sequence hplain vs)

end

/-! ### Data and commands -/

/-- An operator is applied in one step, unless it waits for an answer that never comes. -/
lemma ends_operate {op : Operator} (hc : c.behavior = .core w) (hw : w.meaning = .operator op)
    (h : Bounded k r (ofTasks m [.run (.command c false)])) :
    (operate op (.run (.command c false)) m []).Ends := by
  cases hop : op.apply m.stack m.heap with
  | results below vs edit =>
    unfold operate
    rw [hop]
    exact ends_act _ _
  | failed e =>
    rw [operate_failed hop]
    exact ends_of_finished rfl
  | endless =>
    obtain ⟨answer, b, a, s, rfl, hstack, hnone⟩ := Operator.equality_of_endless hop
    exact (h.answers _ ⟨0, rfl⟩ ⟨w, answer, b, a, s, .value hc, hw, hstack, hnone⟩).elim

lemma ends_of_not_form (hv : v.isForm = false)
    (hcommand : ∀ c, v = .command c false → (runValue v m []).Ends) : (runValue v m []).Ends := by
  cases v with
  | branch cond thn els => cases hv
  | each body => cases hv
  | loop cond body => cases hv
  | command c help =>
    cases help with
    | true => exact ends_act _ _
    | false => exact hcommand c rfl
  | _ => exact ends_act _ _

section

/-! Programs that are entered are assumed to run to their end here. -/

variable (hinvoke : ∀ g m, Bounded k r (invoke g m []) → (invoke g m []).Ends)
include hinvoke

lemma settles_rescue (handler : Program) : Settles k r [.rescue handler] := by
  intro m e h
  have hstep := h.step
  refine Ends.of_step ?_
  cases e with
  | some e => exact hinvoke handler _ hstep
  | none =>
    refine ends_of_finished ?_
    simp [step, perform, Task.yields, ofTasks]

lemma ends_evaluateTop (h : Bounded k r (evaluateTop m [])) : (evaluateTop m []).Ends := by
  rcases evaluateTop_cases m [] with ⟨g, hg⟩ | ⟨e, he⟩
  · rw [hg] at h ⊢
    exact hinvoke g _ h
  · rw [he]
    exact ends_of_finished rfl

lemma ends_attemptTop (h : Bounded k r (attemptTop m [])) : (attemptTop m []).Ends := by
  rcases attemptTop_cases m [] with ⟨attempt, handler, hg⟩ | ⟨e, he⟩
  · rw [hg, ← List.nil_append [Task.rescue handler], ← above_invoke] at h ⊢
    have hattempt := hinvoke attempt _ (h.of_above (Nat.le_add_right _ _))
    refine ends_above hattempt fun m' e hreach => ?_
    exact settles_rescue hinvoke handler m' e (h.reaches hreach)
  · rw [he]
    exact ends_of_finished rfl

/-- A command that is called finds a lower stack, as its name has been taken. -/
lemma ends_callTop (hc : c.behavior = .core .call)
    (h : Bounded k r (ofTasks m [.run (.command c false)])) (hstep : Bounded k r (callTop m []))
    (hcommand : ∀ (c : Command) (m' : Machine), m'.stack.length < m.stack.length →
      Bounded k r (ofTasks m' [.run (.command c false)]) →
      (runValue (.command c false) m' []).Ends) : (callTop m []).Ends := by
  rcases callTop_cases m [] with ⟨name, s, hs, htop⟩ | ⟨e, htop⟩ <;> rw [htop] at hstep ⊢
  · have hlower : ({ m with stack := s } : Machine).stack.length < m.stack.length := by simp [hs]
    rcases call_cases name { m with stack := s } [] with
      ⟨g, hcall⟩ | ⟨v, hv, hcall⟩ | ⟨e, hcall⟩ <;> rw [hcall] at hstep ⊢
    · exact hinvoke g _ hstep
    · refine Ends.of_step (step_run v _ [] ▸ ends_of_not_form ?_ fun c' hv' => ?_)
      · rcases hv with hfetch | ⟨c', rfl⟩
        · refine Bool.eq_false_iff.mpr fun hform => ?_
          exact h.forms _ ⟨0, rfl⟩ ⟨.value hc, name, s, v, hs, hfetch, hform⟩
        · rfl
      · subst hv'
        exact hcommand c' _ hlower hstep
    · exact ends_of_finished rfl
  · exact ends_of_finished rfl

/-- A command ends, by induction on the height of the stack. -/
lemma ends_command (h : Bounded k r (ofTasks m [.run (.command c false)])) :
    (runValue (.command c false) m []).Ends := by
  induction hn : m.stack.length using Nat.strong_induction_on generalizing c m with
  | _ n ih =>
    have hstep : Bounded k r (runValue (.command c false) m []) := step_run _ m [] ▸ h.step
    cases hb : c.behavior with
    | user g =>
      simp only [runValue, hb] at hstep ⊢
      exact hinvoke g m hstep
    | idle =>
      simp only [runValue, hb]
      exact ends_of_finished rfl
    | core w =>
      cases hw : w.meaning with
      | operator op =>
        simp only [runValue, hb, hw]
        exact ends_operate hb hw h
      | action a =>
        simp only [runValue, hb, hw]
        exact ends_act a m
      | eval =>
        simp only [runValue, hb, hw] at hstep ⊢
        exact ends_evaluateTop hinvoke hstep
      | tryCatch =>
        simp only [runValue, hb, hw] at hstep ⊢
        exact ends_attemptTop hinvoke hstep
      | call =>
        obtain rfl : w = .call := by cases w <;> first | rfl | cases hw
        simp only [runValue, hb, hw] at hstep ⊢
        exact ends_callTop hinvoke hb h hstep fun c' m' hlower h' => ih _ (hn ▸ hlower) h' rfl

lemma settles_plain (hv : v.isForm = false) : Settles k r [.run v] := by
  refine settles_of_perform (fun _ _ => rfl) fun m _ h _ => ends_of_not_form hv fun c hc => ?_
  subst hc
  exact ends_command hinvoke h

end

/-! ### All tasks -/

/-- A program runs to its end if its body does, for which one call less is left. -/
lemma ends_invoke_of_body {g : Program}
    (hbody : ∀ r' < r, ∀ vs, Settles k r' [.sequence vs]) (h : Bounded k r (invoke g m [])) :
    (invoke g m []).Ends := by
  unfold invoke at h ⊢
  split
  · exact ends_of_finished rfl
  · next hlt =>
    rw [if_neg hlt] at h
    have hcalls : m.limits.calls + 1 ≤ r + (m.calls + 1) := h.calls
    obtain ⟨r', rfl⟩ : ∃ r', r = r' + 1 := ⟨r - 1, by omega⟩
    let inside : Execution :=
      ofTasks { m with scope := (m.scope.switch g.home).2.enter g, calls := m.calls + 1 }
        [.sequence g.body]
    have habove : Bounded k (r' + 1) (inside.above [.leave (m.scope.switch g.home).1]) := h
    have hinside : inside.Ends :=
      hbody r' (Nat.lt_succ_self r') g.body _ none (habove.of_above (Nat.le_refl _))
    refine ends_above hinside fun m' e _ => Ends.of_step ?_
    rw [step_leave]
    exact ends_of_finished rfl

/-- A program that is entered runs to its end, by induction on the calls that are left. -/
lemma ends_invoke (k r : Nat) (g : Program) (m : Machine) (h : Bounded k r (invoke g m [])) :
    (invoke g m []).Ends := by
  induction r using Nat.strong_induction_on generalizing g m with
  | _ r ih =>
    have hbody : ∀ r' < r, ∀ vs, Settles k r' [.sequence vs] := fun r' hr' =>
      settles_sequence fun v => settles_plain (ih r' hr')
    exact ends_invoke_of_body hbody h

/-- Every task settles, whatever program it is to run. -/
lemma settles_task (k r : Nat) (t : Task) : Settles k r [t] := by
  have hplain : ∀ v : Value, v.isForm = false → Settles k r [.run v] :=
    fun v => settles_plain (ends_invoke k r)
  have hsequence := settles_sequence hplain
  cases t with
  | run v => exact settles_run hplain v
  | sequence vs => exact hsequence vs
  | source rd => exact settles_source (settles_run hplain) rd
  | leave home =>
    refine fun m e _ => Ends.of_step ?_
    rw [step_leave]
    exact ends_of_finished rfl
  | report => exact settles_report
  | rescue handler => exact settles_rescue (ends_invoke k r) handler
  | choose thn els => exact settles_choose (hsequence thn) (hsequence els)
  | iterate items body => exact settles_iterate (hsequence body) items
  | round begun cond body =>
    exact settles_round (hsequence cond) (hsequence body) k begun (Nat.le_add_left k begun)
  | test begun cond body =>
    have hround := settles_round (hsequence cond) (hsequence body) k (begun + 1)
    exact settles_test (hsequence body) (hround (Nat.le_add_left k _))

lemma settles_tasks (k r : Nat) (ts : List Task) : Settles k r ts := by
  induction ts with
  | nil => exact settles_nil
  | cons t ts ih => exact (settles_task k r t).append ih

/-- **Runs end.** Where loops are cut off, no control form is called out of a variable and every
test of equality is answered, a run ends. -/
theorem ends_of_quiet (h : Quiet k p) : p.Ends :=
  settles_tasks k _ p.tasks p.machine p.error h.bounded

end Execution

end ReversePolish

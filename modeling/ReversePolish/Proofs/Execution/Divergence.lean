import Mathlib.Tactic.IntervalCases
import ReversePolish.Proofs.Execution.Data
import ReversePolish.Proofs.Execution.Ending

/-!
Runs that go on for ever. Where loops are cut off and tests of equality are answered, there is one
way left to go on for ever: to call control forms out of variables, again and again. Such a call is
no invocation of a program, so that the call depth does not bound it.
-/

namespace ReversePolish

/-- What has been stored is found. -/
lemma Scope.fetch_store (s : Scope) (name : String) (v : Value) :
    (s.store name v).fetch name = .ok v := by
  have hresolve : (s.store name v).resolve name = s.resolve name := rfl
  unfold fetch
  rw [hresolve]
  simp [store, set, get]

/-- The machine on which every loop is cut off after `k` rounds. -/
def Machine.cutOff (k : Nat) (m : Machine) : Machine :=
  { m with limits := { m.limits with rounds := some k } }

namespace Execution

variable {k : Nat} {m : Machine} {ts : List Task} {p : Execution} {w : Word} {name : String}
  {s : Stack} {v : Value}

def cutOff (k : Nat) (p : Execution) : Execution := { p with machine := p.machine.cutOff k }

/-- A control form that is called is run like any other, and no call is counted. -/
lemma callTop_of_form (hs : m.stack = .str name :: s) (hname : m.scope.fetch name = .ok v)
    (hv : v.isForm = true) : callTop m ts = ofTasks { m with stack := s } (.run v :: ts) := by
  have hcallee : ∀ stack, callee? name { m with stack := stack } = some (.inr v) := by
    intro stack
    unfold callee?
    rw [hname]
    cases v with
    | branch | each | loop => rfl
    | _ => cases hv
  simp [callTop, Action.run_peekString hs, hcallee m.stack, call, hcallee, hs]

lemma not_runs_of_finished (h : p.tasks = []) : ¬ p.Runs w := by
  rintro (_ | _ | _) <;> cases h

/-- The test is made again and again. -/
lemma not_ends_of_unanswered (h : p.Unanswered) : ¬ p.Ends := by
  obtain ⟨w, answer, b, a, s, hruns, hw, hstack, hnone⟩ := h
  obtain ⟨c, ts, hc, hstep, -⟩ := step_of_runs hruns
  have hagain : runValue (.command c false) p.machine ts =
      ofTasks p.machine (.run (.command c false) :: ts) :=
    runValue_unanswered hc hw hstack hnone
  have hstuck : p.step.step = p.step := by
    rw [hstep, hagain, step_run, hagain]
  have hne : p.step.tasks ≠ [] := by
    rw [hstep, hagain]
    exact List.cons_ne_nil _ _
  rintro ⟨n, q, hrun⟩
  rw [run_of_stuck ⟨1, rfl⟩ hstuck hne n] at hrun
  cases hrun

/-- **What goes on for ever.** Let loops be cut off after `k` rounds. Whatever there is to do, on
whatever machine and with whatever limit on the call depth, the run ends exactly if control forms
are called out of variables only finitely many times in it, and every test of equality is answered.
In either case programs never run one inside the other deeper than the limit allows, or than they
did at the start. -/
theorem ends_iff_calls_forms_finitely (k : Nat) (p : Execution) :
    let p := p.cutOff k
    (p.Ends ↔ (∃ n, ∀ n' ≥ n, ¬ (step^[n'] p).CallsForm) ∧ ∀ n, ¬ (step^[n] p).Unanswered) ∧
      ∀ n, (step^[n] p).machine.calls ≤ max p.machine.calls p.machine.limits.calls := by
  intro p
  refine ⟨⟨?_, ?_⟩, calls_iterate_le p⟩
  · rintro ⟨n, q, hrun⟩
    obtain ⟨hq, hdone⟩ := run_eq_some_iff.mp hrun
    constructor
    · refine ⟨n, fun n' hn hform => ?_⟩
      obtain ⟨j, rfl⟩ := Nat.exists_eq_add_of_le' hn
      rw [Function.iterate_add_apply, hq, Function.iterate_fixed (step_of_finished hdone)] at hform
      exact not_runs_of_finished hdone hform.1
    · exact fun j hj => not_ends_of_unanswered hj (Ends.reaches ⟨n, q, hrun⟩ ⟨j, rfl⟩)
  · rintro ⟨⟨n, hforms⟩, hanswers⟩
    have hquiet : Quiet k (step^[n] p) := by
      refine ⟨?_, ?_, ?_⟩
      · rw [limits_iterate]
        rfl
      · rintro q ⟨j, rfl⟩
        rw [← Function.iterate_add_apply]
        exact hforms _ (Nat.le_add_left n j)
      · rintro q ⟨j, rfl⟩
        rw [← Function.iterate_add_apply]
        exact hanswers _
    exact (ends_of_quiet hquiet).of_reaches ⟨n, rfl⟩

/-- What holds in all states of a round, and where it leads back to more tasks of the same kind,
holds for ever. -/
lemma forall_iterate_of_rounds {P : Execution → Prop} {state : List Task → Execution} {n : Nat}
    (hround : ∀ ts, ∃ us, step^[n + 1] (state ts) = state us)
    (hP : ∀ ts, ∀ j ≤ n, P (step^[j] (state ts))) (ts : List Task) (j : Nat) :
    P (step^[j] (state ts)) := by
  induction j using Nat.strong_induction_on generalizing ts with
  | _ j ih =>
    rcases Nat.lt_or_ge n j with hj | hj
    · obtain ⟨i, rfl⟩ := Nat.exists_eq_add_of_le' hj
      obtain ⟨us, hus⟩ := hround ts
      rw [Function.iterate_add_apply, hus]
      exact ih i (by omega) us
    · exact hP ts j hj

lemma not_ends_of_rounds {state : List Task → Execution} {n : Nat}
    (hround : ∀ ts, ∃ us, step^[n + 1] (state ts) = state us)
    (hne : ∀ ts, ∀ j ≤ n, (step^[j] (state ts)).tasks ≠ []) (ts : List Task) :
    ¬ (state ts).Ends := by
  rintro ⟨j, q, hrun⟩
  obtain ⟨rfl, hdone⟩ := run_eq_some_iff.mp hrun
  exact forall_iterate_of_rounds (P := fun q => q.tasks ≠ []) hround hne ts j hdone

/-- A test of equality needs two values. -/
lemma not_unanswered_of_tail (h : p.machine.stack.tail = []) : ¬ p.Unanswered := by
  rintro ⟨w, answer, b, a, s, -, -, hstack, -⟩
  rw [hstack] at h
  cases h

/-- `[ IF 1 THEN "x" CALL ENDIF ] 0 GET "x" STO "x" CALL`. There is no loop at all in it and no test
of equality, and no program is ever entered. -/
theorem form_that_calls_itself_never_ends :
    let word (w : Word) : Datum Command := .command (.ofWord w) false
    let form : Datum Command := .branch [.int 1] [.str "x", word .call] []
    let m := Machine.initial "main" ∅ Loader.disabled default .empty {} {}
    let stored := Datum.storeAll
      [.list [form], .int 0, word .get, .str "x", word .sto, .str "x", word .call] none m.heap
    let p := (ofTasks { m with heap := stored.2 } [.sequence stored.1]).cutOff 0
    p.machine.Reachable ∧ (∀ n, ¬ (step^[n] p).Unanswered) ∧ ¬ p.Ends := by
  intro word form m stored p
  have hm : m.Reachable := .initial _ _ _ _ _ _ _
  let run (w : Word) : Value := .command (.ofWord w) false
  let thn : List Value := [.str "x", run .call]
  let m' : Machine :=
    { m.cutOff 0 with
      heap := ⟨#[#[.branch [.int 1] thn []]], #[], #[]⟩
      scope := m.scope.store "x" (.branch [.int 1] thn []) }
  let state (ts : List Task) : Execution := ofTasks m' (.run (.branch [.int 1] thn []) :: ts)
  let calling (ts : List Task) : Execution :=
    ofTasks { m' with stack := [.str "x"] } (.sequence [run .call] :: ts)
  have hx : m'.scope.fetch "x" = .ok (.branch [.int 1] thn []) := Scope.fetch_store _ _ _
  have hcall (ts : List Task) : step (calling ts) = state (.sequence [] :: ts) := by
    have hs : ({ m' with stack := [.str "x"] } : Machine).stack = [.str "x"] := rfl
    exact callTop_of_form hs hx rfl
  -- A round: the branch is taken, and the form is called once more.
  have hbranch (ts : List Task) : step^[5] (state ts) = calling (.report :: ts) := rfl
  have hround (ts : List Task) : ∃ us, step^[6] (state ts) = state us :=
    ⟨.sequence [] :: .report :: ts, by rw [Function.iterate_succ_apply', hbranch, hcall]⟩
  -- Before the first round, the form is taken out of the list and stored.
  have hstored : step^[6] p = calling [] := rfl
  have hstart : step^[7] p = state [.sequence []] := by
    rw [Function.iterate_succ_apply', hstored, hcall]
  have hbefore : ∀ n < 7, ¬ (step^[n] p).Unanswered := by
    intro n hn
    interval_cases n
    case «2» | «4» =>
      rintro ⟨w, answer, b, a, s, ⟨hc⟩ | ⟨-, hc⟩ | ⟨-, -, hc⟩, hw, -, -⟩
      all_goals
        cases hc
        cases hw
    all_goals exact not_unanswered_of_tail rfl
  have hafter : ∀ j, ¬ (step^[j] (state [.sequence []])).Unanswered := by
    refine forall_iterate_of_rounds (P := fun q => ¬ q.Unanswered) hround (fun ts j hj => ?_) _
    interval_cases j
    all_goals exact not_unanswered_of_tail rfl
  refine ⟨.outside hm rfl rfl, fun n => ?_, fun hends => ?_⟩
  · rcases Nat.lt_or_ge n 7 with hn | hn
    · exact hbefore n hn
    · obtain ⟨j, rfl⟩ := Nat.exists_eq_add_of_le' hn
      rw [Function.iterate_add_apply, hstart]
      exact hafter j
  · refine not_ends_of_rounds hround (fun ts j hj => ?_) _ (hends.reaches ⟨7, hstart⟩)
    interval_cases j
    all_goals exact List.cons_ne_nil _ _

end Execution

end ReversePolish

import ReversePolish.Proofs.Execution.Operators
import ReversePolish.Proofs.Value.Comparison

/-!
Tests of equality in runs. A test is answered at once, or it is never answered and the run does not
end.
-/

namespace ReversePolish

open Verdict

namespace Heap

/-- **When comparisons return.** Both tests of equality, the one of the language and the one inside
bodies, answer exactly where the comparison does not come back, at some depth, to two values that it
is still comparing. It comes back only if both values lead to a program or a control form that
contains itself; cycles through lists and maps alone do no harm. -/
theorem comparison_returns_iff (h : Heap) (v w : Value) :
    ((∃ answer, h.equal? v w = some answer) ↔ ¬ h.ComesBack v w) ∧
    (h.looselyEqual v w ≠ endless ↔ ¬ h.ComesBack v w) ∧
    (h.ComesBack v w → h.HoldsKnot v ∧ h.HoldsKnot w) := by
  refine ⟨?_, ?_, ComesBack.holdsKnot⟩
  · rw [← equal?_eq_none_iff]
    cases h.equal? v w <;> simp
  · rw [← verdict_eq_endless_iff_comesBack, looselyEqual, Ne, decided_eq_endless, verdict]

end Heap

namespace Execution

variable {m : Machine} {ts : List Task} {p q : Execution} {c : Command} {w : Word}
  {answer : Bool → Bool} {a b : Value} {s : Stack}

lemma run_of_stuck (hpq : p.Reaches q) (hq : q.step = q) (hts : q.tasks ≠ []) (fuel : Nat) :
    p.run fuel = none := by
  cases hrun : p.run fuel with
  | none => rfl
  | some e =>
    obtain ⟨hpe, he⟩ := reaches_of_run hrun
    obtain ⟨n, hn⟩ := hpq.toEnd hpe he
    rw [Function.iterate_fixed hq] at hn
    exact (hts (hn ▸ he)).elim

lemma tasks_act (a : Action Unit) (m : Machine) (ts : List Task) : (act a m ts).tasks = ts := by
  unfold act after
  split <;> rfl

/-- A test that has no answer is made again. -/
lemma runValue_unanswered (hc : c.behavior = .core w)
    (hw : w.meaning = .operator (.equality answer)) (hstack : m.stack = b :: a :: s)
    (hnone : m.heap.equal? a b = none) :
    runValue (.command c false) m ts = ofTasks m (.run (.command c false) :: ts) := by
  have happly : (Operator.equality answer).apply m.stack m.heap = .endless := by
    rw [hstack, Operator.apply, hnone]
  rw [runValue_operator hc hw, operate_endless happly]

/-- **A test of equality is answered in one step, or the run never ends.** -/
theorem equality_ends_or_never (hc : c.behavior = .core w)
    (hw : w.meaning = .operator (.equality answer)) (hstack : m.stack = b :: a :: s) :
    let p := ofTasks m (.run (.command c false) :: ts)
    (¬ m.heap.ComesBack a b → p.step.tasks = ts) ∧
      (m.heap.ComesBack a b → ∀ fuel, p.run fuel = none) := by
  intro p
  have hstep : p.step = runValue (.command c false) m ts := step_run _ m ts
  rw [← Heap.equal?_eq_none_iff]
  constructor
  · intro hanswer
    obtain ⟨r, hr⟩ := Option.ne_none_iff_exists'.mp hanswer
    have happly : (Operator.equality answer).apply m.stack m.heap =
        .of s (r.map fun same => ([.ofBool (answer same)], .keep)) := by
      rw [hstack, Operator.apply, hr]
    rw [hstep, runValue_operator hc hw]
    cases r with
    | error e =>
      rw [operate_failed happly]
      rfl
    | ok same =>
      unfold operate
      rw [happly]
      exact tasks_act _ _ _
  · intro hnone
    have hagain : p.step = p := hstep.trans (runValue_unanswered hc hw hstack hnone)
    exact run_of_stuck ⟨0, rfl⟩ hagain (List.cons_ne_nil _ _)

/-- `<< [ ] >> DUP EVAL OVER APPEND DROP`, twice over, and `EQ`. Each program is appended to the
list in its own body, and the comparison of the two is never answered. -/
theorem self_holding_programs_never_compare :
    let word (w : Word) : Datum Command := .command (.ofWord w) false
    let knot : List (Datum Command) := [.program "main" [.list []], word .dup, word .eval,
      word .copyOver, word .append, word .drop]
    let m := Machine.initial "main" ∅ Loader.disabled default .empty {} {}
    let stored := Datum.storeAll (knot ++ knot ++ [word .eq]) none m.heap
    let p := ofTasks { m with heap := stored.2 } [.sequence stored.1]
    p.machine.Reachable ∧
      (∃ q a b, p.Reaches q ∧ q.machine.stack = [b, a] ∧ q.machine.heap.equal? a b = none) ∧
      ∀ fuel, p.run fuel = none := by
  intro word knot m stored p
  have hm : m.Reachable := .initial _ _ _ _ _ _ _
  let program (cell : Nat) : Value := .program ⟨[.list cell], "main", some cell⟩
  let run (w : Word) : Value := .command (.ofWord w) false
  let before (cell : Nat) (vs : List Value) : List Value :=
    program cell :: run .dup :: run .eval :: run .copyOver :: run .append :: run .drop :: vs
  let state (s : Stack) (first second : Array Value) (vs : List Value) : Execution :=
    ofTasks { m with stack := s, heap := ⟨#[first, second], #[], #[none, none]⟩ } [.sequence vs]
  let tie (vs : List Value) : List Value := run .copyOver :: run .append :: run .drop :: vs
  -- Each program pushes the list in its body, and is then appended to it.
  have h₁ : step^[6] p =
    state [.list 0, program 0] #[] #[] (tie (before 1 [run .eq])) := rfl
  have h₂ : step^[3] (state [.list 0, program 0] #[] #[] (tie (before 1 [run .eq]))) =
    state [program 0] #[program 0] #[] (before 1 [run .eq]) := rfl
  have h₃ : step^[6] (state [program 0] #[program 0] #[] (before 1 [run .eq])) =
    state [.list 1, program 1, program 0] #[program 0] #[] (tie [run .eq]) := rfl
  have h₄ : step^[3] (state [.list 1, program 1, program 0] #[program 0] #[] (tie [run .eq])) =
    state [program 1, program 0] #[program 0] #[program 1] [run .eq] := rfl
  let heap : Heap := ⟨#[#[program 0], #[program 1]], #[], #[none, none]⟩
  have hask₁ (depth : Nat) (hd : depth = 0 ∨ depth = 1) :
      heap.Asks ⟨depth, program 0, program 1⟩ ⟨0, .list 0, .list 1⟩ := by
    rcases hd with rfl | rfl <;> exact ⟨[], [], rfl, by simp⟩
  have hask₂ : heap.Asks ⟨0, .list 0, .list 1⟩ ⟨1, program 0, program 1⟩ := ⟨[], [], rfl, by simp⟩
  have hback : heap.ComesBack (program 0) (program 1) :=
    ⟨_, .single (hask₁ 0 (.inl rfl)), .tail (.single hask₂) (hask₁ 1 (.inr rfl))⟩
  let stuck := ofTasks { m with stack := [program 1, program 0], heap := heap }
    [.run (run .eq), .sequence []]
  have hanswer : heap.equal? (program 0) (program 1) = none := Heap.equal?_eq_none_iff.mpr hback
  have happly : (Operator.equality fun same => same).apply [program 1, program 0] heap =
      .endless := by
    rw [Operator.apply, hanswer]
  have h₅ : step^[1] (state [program 1, program 0] #[program 0] #[program 1] [run .eq]) = stuck :=
    operate_endless happly
  have hstuck : stuck.step = stuck := operate_endless happly
  have hreach : p.Reaches stuck :=
    .trans ⟨6, h₁⟩ (.trans ⟨3, h₂⟩ (.trans ⟨6, h₃⟩ (.trans ⟨3, h₄⟩ ⟨1, h₅⟩)))
  exact ⟨.outside hm rfl rfl, ⟨stuck, _, _, hreach, rfl, hanswer⟩,
    run_of_stuck hreach hstuck (List.cons_ne_nil _ _)⟩

end Execution

end ReversePolish

import Mathlib
import ReversePolish.Proofs.Action.Binding
import ReversePolish.Proofs.Execution.Changed
import ReversePolish.Proofs.Execution.Onto

/-!
Registration is never retroactive. What has been read keeps the meaning that its words had when it
was read, so running it comes to the same whatever is registered by then, unless it asks.

A text that is still to be read would ask, but running what has been read never begins to read one.
-/

namespace ReversePolish

namespace Task

/-- To read a text. -/
def reads : Task → Bool
  | .source _ => true
  | _ => false

end Task

namespace Execution

variable {m : Machine} {t : Task} {ts : List Task} {p q : Execution} {r : Registry}

/-! ### No text comes in -/

/-- Nothing is still to be read. -/
def Read (p : Execution) : Prop := ∀ t ∈ p.tasks, t.reads = false

lemma read_after {α : Type} {a : Action α} {f : α → List Task}
    (hf : ∀ x, ∀ t ∈ f x, t.reads = false) (hts : ∀ t ∈ ts, t.reads = false) :
    (after a m ts f).Read := by
  unfold after
  split
  · exact List.forall_mem_append.mpr ⟨hf _, hts⟩
  · exact hts

lemma read_act {a : Action Unit} (hts : ∀ t ∈ ts, t.reads = false) : (act a m ts).Read :=
  read_after (fun _ _ ht => (List.not_mem_nil ht).elim) hts

lemma read_operate {op : Operator} {again : Task} (hagain : again.reads = false)
    (hts : ∀ t ∈ ts, t.reads = false) : (operate op again m ts).Read := by
  unfold operate
  split
  · exact read_act hts
  · exact hts
  · exact List.forall_mem_cons.mpr ⟨hagain, hts⟩

lemma read_invoke (g : Program) (hts : ∀ t ∈ ts, t.reads = false) : (invoke g m ts).Read := by
  unfold invoke
  split
  · exact hts
  · exact List.forall_mem_cons.mpr ⟨rfl, List.forall_mem_cons.mpr ⟨rfl, hts⟩⟩

lemma read_callTop (hts : ∀ t ∈ ts, t.reads = false) : (callTop m ts).Read := by
  rcases callTop_cases m ts with ⟨name, s, -, h⟩ | ⟨e, h⟩ <;> rw [h]
  · rcases call_cases name { m with stack := s } ts with ⟨g, h⟩ | ⟨v, -, h⟩ | ⟨e, h⟩ <;> rw [h]
    · exact read_invoke g hts
    · exact List.forall_mem_cons.mpr ⟨rfl, hts⟩
    · exact hts
  · exact hts

lemma read_runValue (v : Value) (hts : ∀ t ∈ ts, t.reads = false) : (runValue v m ts).Read := by
  cases v with
  | branch cond thn els => simpa [Read, runValue, ofTasks, Task.reads] using hts
  | each body =>
    refine read_after (fun _ _ ht => ?_) (List.forall_mem_cons.mpr ⟨rfl, hts⟩)
    rw [List.mem_singleton.mp ht]
    rfl
  | loop cond body => simpa [Read, runValue, ofTasks, Task.reads] using hts
  | command c help =>
    cases help with
    | true => exact read_act hts
    | false =>
      cases hb : c.behavior with
      | user g => simpa only [runValue, hb] using read_invoke g hts
      | idle =>
        simp only [runValue, hb]
        exact hts
      | core w =>
        cases hw : w.meaning <;> simp only [runValue, hb, hw]
        case operator op => exact read_operate rfl hts
        case action a => exact read_act hts
        case eval =>
          rcases evaluateTop_cases m ts with ⟨g, h⟩ | ⟨e, h⟩ <;> rw [h]
          · exact read_invoke g hts
          · exact hts
        case call => exact read_callTop hts
        case tryCatch =>
          rcases attemptTop_cases m ts with ⟨g, handler, h⟩ | ⟨e, h⟩ <;> rw [h]
          · exact read_invoke g (List.forall_mem_cons.mpr ⟨rfl, hts⟩)
          · exact hts
  | _ => exact read_act hts

lemma read_perform (ht : t.reads = false) (hts : ∀ t ∈ ts, t.reads = false) :
    (perform t m ts).Read := by
  cases t with
  | run v => exact read_runValue v hts
  | sequence vs =>
    cases vs with
    | nil => exact hts
    | cons v vs => exact read_runValue v (List.forall_mem_cons.mpr ⟨rfl, hts⟩)
  | source r => cases ht
  | choose thn els => exact read_after (fun b => by simp [Task.reads]) hts
  | iterate items body =>
    cases items with
    | nil => exact hts
    | cons v vs => exact read_after (fun _ => by simp [Task.reads]) hts
  | round begun cond body =>
    simp only [perform]
    split
    · exact hts
    · simpa [Read, ofTasks, Task.reads] using hts
  | test begun cond body => exact read_after (fun b => by cases b <;> simp [Task.reads]) hts
  | _ => exact hts

/-- A step begins to read no text. -/
theorem read_step (h : p.Read) : p.step.Read := by
  obtain ⟨m, tasks, error⟩ := p
  cases tasks with
  | nil => exact h
  | cons t ts =>
    obtain ⟨ht, hts⟩ := List.forall_mem_cons.mp h
    cases error with
    | some e =>
      cases t with
      | rescue handler => exact read_invoke handler hts
      | _ => exact hts
    | none =>
      simp only [step]
      split
      · exact hts
      · exact read_perform ht hts

/-! ### Steps with other commands registered -/

lemma apart_withRegistry (r : Registry) : Apart (Machine.withRegistry r) where
  toBeside := Action.beside_withRegistry r
  stopped _ := rfl
  limits _ := rfl
  calls _ := rfl
  current _ := rfl
  enter _ _ := rfl

/-- What a step needs so as not to see what is registered: it reads no text, and it runs no word
that asks. -/
structure Bound (p : Execution) : Prop where
  read : p.Read
  words : ∀ w, w.asksRegistry = true → ¬ p.Runs w

/-- **A step that does not ask does not see what is registered.** -/
theorem step_withRegistry (r : Registry) (h : p.Bound) :
    (p.on (Machine.withRegistry r)).step = p.step.on (Machine.withRegistry r) := by
  refine step_on (apart_withRegistry r) (fun _ => rfl) (fun reader ts hp => ?_) fun w hruns => ?_
  · have hreads := h.read (.source reader) (by simp [hp])
    cases hreads
  · have hasks : w.asksRegistry = false := by
      by_contra hw
      exact h.words w (by simpa using hw) hruns
    refine ⟨fun a hw => Action.unasking_meaning hw hasks, fun hw => ?_⟩
    cases w <;> cases hw
    cases hasks

/-! ### Runs -/

lemma iterate_withRegistry (r : Registry) (h : ∀ p', p.Reaches p' → p'.Bound) (n : Nat) :
    step^[n] (p.on (Machine.withRegistry r)) = (step^[n] p).on (Machine.withRegistry r) := by
  induction n generalizing p with
  | zero => rfl
  | succ n ih =>
    rw [Function.iterate_succ_apply, Function.iterate_succ_apply,
      step_withRegistry r (h p ⟨0, rfl⟩)]
    exact ih fun p' hp' => h p' hp'.head

/-- **Registration is never retroactive.** Two machines may differ in what is registered. Values
that have been read and that, run on one of them, never run a word that asks for the registry, do on
the other step by step what they do on this one, with the same end, if any. What is registered
stays as it is on both. -/
theorem sequence_unseen_registry {m m' : Machine} {vs : List Value}
    (hm : m' = m.withRegistry m'.registry)
    (hwords : ∀ p, (ofTasks m [.sequence vs]).Reaches p →
      ∀ w, w.asksRegistry = true → ¬ p.Runs w) (n : Nat) :
    step^[n] (ofTasks m' [.sequence vs]) =
        (step^[n] (ofTasks m [.sequence vs])).on (Machine.withRegistry m'.registry) ∧
      (ofTasks m' [.sequence vs]).run n =
        ((ofTasks m [.sequence vs]).run n).map (on (Machine.withRegistry m'.registry)) ∧
      (step^[n] (ofTasks m [.sequence vs])).machine.registry = m.registry := by
  have hread : (ofTasks m [.sequence vs]).Read := by simp [Read, ofTasks, Task.reads]
  have hbound : ∀ p, (ofTasks m [.sequence vs]).Reaches p → p.Bound := fun p hp =>
    ⟨hp.keeps (fun _ => read_step) hread, hwords p hp⟩
  have hon : ofTasks m' [.sequence vs] =
      (ofTasks m [.sequence vs]).on (Machine.withRegistry m'.registry) := by
    rw [hm]
    rfl
  have hiterate (r : Registry) (k : Nat) := iterate_withRegistry r hbound k
  refine ⟨?_, ?_, ?_⟩
  · rw [hon]
    exact hiterate m'.registry n
  · rw [hon]
    exact run_on (hiterate m'.registry) n
  · -- With the registry put in that is there anyway, the run is itself.
    have hself := congrArg (·.machine.registry) (hiterate m.registry n)
    exact hself

/-- A word of the user's in what is run, and in a program that a variable keeps. On the other
machine the same name stands for a program that does nothing. -/
theorem squares_after_redefinition :
    let word (w : Word) : Value := .command (.ofWord w) false
    let square : Command := ⟨"SQ", userCategory, "", .user ⟨[word .dup, word .mul], "main", none⟩⟩
    let other : Command := ⟨"SQ", userCategory, "", .user ⟨[], "main", none⟩⟩
    let m (c : Command) : Machine :=
      .initial "main" (Table.empty.insert "SQ" c) Loader.disabled default .empty {} {}
    let p (c : Command) : Execution :=
      ofTasks (m c) [.sequence [.program ⟨[.command square false], "main", none⟩, .str "f", word .sto,
        .int 3, .command square false, .str "f", word .rcl, word .eval]]
    ∃ q, (p square).run 20 = some q ∧ q.machine.stack = [.int 81] ∧
      (p other).run 20 = some (q.on (Machine.withRegistry (m other).registry)) := by
  intro word square other m p
  have hrun : (p square).run 20 = some (step^[20] (p square)) :=
    run_eq_some_iff.mpr ⟨rfl, by cbv⟩
  have htrace : (List.iterate step (p square) 21).all (fun p' => !p'.word?.any Word.asksRegistry) =
      true := by cbv
  have hwords := not_runs_of_trace hrun htrace
  have hsame : (p other).run 20 = _ := (sequence_unseen_registry rfl hwords 20).2.1
  exact ⟨_, hrun, by cbv, by rw [hsame, hrun]; rfl⟩

end Execution

end ReversePolish

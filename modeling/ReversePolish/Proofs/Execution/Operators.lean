import ReversePolish.Proofs.Execution.Atomic

/-!
Operators that fail. Operands are looked at before any is taken, and results are pushed only when
the operands are gone. Pushing fails on a command alone, and the one operator that can give a
command is `GET`: where it finds one, its operands are lost.
-/

namespace ReversePolish

namespace Execution

variable {m : Machine} {c k : Command} {w : Word} {op : Operator} {ts : List Task} {again : Task}
  {below : Stack} {vs : List Value} {edit : Heap.Edit} {e : Error}

/-- `GET` finds this command in a list or a map. -/
def GetsCommand (m : Machine) (k : Command) : Prop :=
  ∃ help, Operator.get.apply m.stack m.heap = .results (m.stack.drop 2) [.command k help] .keep

lemma operator_get (hw : Word.get.meaning = .operator op) : op = .get := by
  cases hw
  rfl

/-! ### What comes of applying an operator -/

lemma operate_results (hop : op.apply m.stack m.heap = .results below vs edit)
    (hvs : ∀ v ∈ vs, v.IsData) :
    operate op again m ts =
      ofTasks { m with stack := vs.reverse ++ below, heap := m.heap.apply edit } ts := by
  simp only [operate, hop, act, after]
  rw [Action.run_forM_push hvs]
  rfl

lemma operate_failed (hop : op.apply m.stack m.heap = .failed e) :
    operate op again m ts = ofError m ts e := by
  simp only [operate, hop]

lemma operate_endless (hop : op.apply m.stack m.heap = .endless) :
    operate op again m ts = ofTasks m (again :: ts) := by
  simp only [operate, hop]

/-- The operands are gone when pushing the command fails. -/
lemma operate_getsCommand (hk : GetsCommand m k) :
    operate .get again m ts = ofError { m with stack := m.stack.drop 2 } ts
      (.mismatch ("a data value (`" ++ k.name ++ "` must be invoked, not pushed)") .command) := by
  obtain ⟨help, hop⟩ := hk
  simp only [operate, hop]
  rfl

/-- What an operator gives is data, unless `GET` finds a command. -/
lemma isData_or_getsCommand (h : m.HoldsData) (hw : w.meaning = .operator op)
    (hop : op.apply m.stack m.heap = .results below vs edit) :
    (∀ v ∈ vs, v.IsData) ∨ w = .get ∧ ∃ k, GetsCommand m k := by
  by_cases hget : w = .get
  · subst hget
    obtain rfl := operator_get hw
    obtain ⟨-, rfl⟩ := Operator.below_of_apply hop
    obtain ⟨v, rfl, rfl⟩ := Operator.results_get hop
    by_cases hv : v.IsData
    · exact .inl (by simpa using hv)
    · obtain ⟨k, help, rfl⟩ := Value.not_isData_iff.mp hv
      exact .inr ⟨rfl, k, help, hop⟩
  · exact .inl (Operator.givesData_meaning hw hget _ _ _ _ _ h.stack hop)

/-! ### Words that are operators -/

lemma runValue_operator (hc : c.behavior = .core w) (hw : w.meaning = .operator op) :
    runValue (.command c false) m ts = operate op (.run (.command c false)) m ts := by
  simp only [runValue, hc, hw]

/-- An operator that fails has changed nothing, unless `GET` finds a command. -/
lemma eq_ofError_of_failed_operator (h : m.HoldsData) (hw : w.meaning = .operator op)
    (hget : w = .get → ∀ k, ¬ GetsCommand m k) (he : (operate op again m ts).error = some e) :
    operate op again m ts = ofError m ts e := by
  cases hop : op.apply m.stack m.heap with
  | results below vs edit =>
    rcases isData_or_getsCommand h hw hop with hvs | ⟨hw, k, hk⟩
    · rw [operate_results hop hvs] at he
      cases he
    · exact (hget hw k hk).elim
  | failed e' =>
    rw [operate_failed hop] at he ⊢
    obtain rfl : e' = e := Option.some.inj he
    rfl
  | endless =>
    rw [operate_endless hop] at he
    cases he

/-- An operator that succeeds leaves what lies below its operands. -/
lemma machine_of_operate (h : m.HoldsData) (hw : w.meaning = .operator op)
    (he : (operate op again m ts).error = none) (hts : (operate op again m ts).tasks = ts) :
    op.arity ≤ m.stack.length ∧ ∃ vs edit,
      op.apply m.stack m.heap = .results (m.stack.drop op.arity) vs edit ∧
      (operate op again m ts).machine =
        { m with
          stack := vs.reverse ++ m.stack.drop op.arity
          heap := m.heap.apply edit } := by
  cases hop : op.apply m.stack m.heap with
  | results below vs edit =>
    obtain ⟨hlen, rfl⟩ := Operator.below_of_apply hop
    rcases isData_or_getsCommand h hw hop with hvs | ⟨rfl, k, hk⟩
    · exact ⟨hlen, vs, edit, rfl, by rw [operate_results hop hvs]; rfl⟩
    · obtain rfl := operator_get hw
      rw [operate_getsCommand hk] at he
      cases he
  | failed e' =>
    rw [operate_failed hop] at he
    cases he
  | endless =>
    rw [operate_endless hop] at hts
    exact (List.cons_ne_self _ _ hts).elim

/-- **What comes of an operator**, on a machine that can be reached. If it fails, then nothing has
changed, unless it is `GET` and finds a command. There it always fails, and just its two operands
are gone. If it succeeds, then its results have come in place of its operands, and beside the
change of the heap that it asks for nothing else has changed. -/
theorem operator_outcome (hm : m.Reachable) (hc : c.behavior = .core w)
    (hw : w.meaning = .operator op) :
    let p := runValue (.command c false) m ts
    (∀ e, p.error = some e → (w = .get → ∀ k, ¬ GetsCommand m k) → p = ofError m ts e) ∧
    (w = .get → ∀ k, GetsCommand m k → ∃ e, p = ofError { m with stack := m.stack.drop 2 } ts e) ∧
    (p.error = none → p.tasks = ts → op.arity ≤ m.stack.length ∧ ∃ vs edit,
      op.apply m.stack m.heap = .results (m.stack.drop op.arity) vs edit ∧
      p.machine =
        { m with
          stack := vs.reverse ++ m.stack.drop op.arity
          heap := m.heap.apply edit }) := by
  intro p
  rw [show p = _ from runValue_operator hc hw]
  refine ⟨fun e he hget => ?_, ?_, ?_⟩
  · exact eq_ofError_of_failed_operator hm.holdsData hw hget he
  · rintro rfl k hk
    obtain rfl := operator_get hw
    exact ⟨_, operate_getsCommand hk⟩
  · exact machine_of_operate hm.holdsData hw

/-- `GET` behind the end of a list of one number. -/
theorem get_behind_end_changes_nothing :
    let word (w : Word) : Value := .command (.ofWord w) false
    let p := ofTasks (.initial "main" ∅ Loader.disabled default .empty {} {})
      [.sequence [.int 7, .int 1, word .list, .int 5]]
    let m := p.step.step.step.step.machine
    m.stack = [.int 5, .list 0] ∧ (m.heap.items 0).toList = [.int 7] ∧
      runValue (word .get) m [] = ofError m [] (.failed (.indexOutOfRange 5 1)) := by
  intro word p m
  have hm : m.Reachable := .step (.step (.step (.step (.initial _ _ _ _ _ _ _))))
  have hget : ∀ k, ¬ GetsCommand m k := by
    rintro k ⟨help, hop⟩
    cases hop
  exact ⟨rfl, rfl, (operator_outcome hm rfl rfl).1 _ rfl fun _ => hget⟩

/-- `[ DUP ] 0 GET` finds a command, and the list and the index are gone. -/
theorem get_of_command_takes_operands :
    let p := ofTasks
      (.initial "main" (Table.empty.insert "DUP" (.ofWord .dup)) Loader.disabled default .empty {} {})
      [.source (.ofText "[ DUP ] 0")]
    let m := p.step.step.machine
    m.Reachable ∧ m.stack = [.int 0, .list 0] ∧
      runValue (.command (.ofWord .get) false) m [] = ofError { m with stack := [] } []
        (.mismatch "a data value (`DUP` must be invoked, not pushed)" .command) := by
  intro p m
  have hm : m.Reachable := .step (.step (.initial _ _ _ _ _ _ _))
  let m₀ := p.machine
  let reader (before after : String) (unit : Cursor) : Reader :=
    ⟨⟨before.toList.reverse, after.toList⟩, [], by decide, unit⟩
  let start : Cursor := .start "[ DUP ] 0"
  let zero : Cursor := ⟨" ] PUD [".toList, ['0']⟩
  let dup : Datum Command := .command (.ofWord .dup) false
  let o (vs : List (Datum Command)) : OpenForm Command := ⟨.list, some start, [], vs⟩
  -- The list is read off the text, and `DUP` in it stands for its command.
  have hlist : (Reader.ofText "[ DUP ] 0").next m₀.setting =
      .value (.list [dup]) (reader "[ DUP ]" " 0" start) := by
    have h₁ : (Reader.ofText "[ DUP ] 0").startUnit.advance m₀.setting.load =
        .token (.opener .list) start (reader "[" " DUP ] 0" start) := rfl
    have h₂ : (reader "[" " DUP ] 0" start).advance m₀.setting.load =
        .token (.word "DUP") ⟨" [".toList, "DUP ] 0".toList⟩ (reader "[ DUP" " ] 0" start) := rfl
    have h₃ : (reader "[ DUP" " ] 0" start).advance m₀.setting.load =
        .token (.closer .list) ⟨" PUD [".toList, "] 0".toList⟩ (reader "[ DUP ]" " 0" start) := rfl
    rw [Reader.next, Reader.readInside_token h₁]
    show Reader.readInside m₀.setting [o []] _ = _
    rw [Reader.readInside_token h₂]
    show Reader.readInside m₀.setting [o [dup]] _ = _
    rw [Reader.readInside_token h₃]
    rfl
  let m₁ : Machine := { m₀ with
    stack := [.list 0]
    heap := ⟨#[#[.command (.ofWord .dup) false]], #[], #[]⟩ }
  have hstep : p.step = ofTasks m₁ [.source (reader "[ DUP ]" " 0" start)] := by
    show perform (.source (.ofText "[ DUP ] 0")) m₀ [] = _
    simp only [perform, hlist]
    rfl
  have hzero : (reader "[ DUP ]" " 0" start).next m₁.setting =
      .value (.int 0) (reader "[ DUP ] 0" "" zero) := by
    have h₄ : (reader "[ DUP ]" " 0" start).startUnit.advance m₁.setting.load =
        .token (.int 0) zero (reader "[ DUP ] 0" "" zero) := rfl
    rw [Reader.next, Reader.readInside_token h₄]
    rfl
  have hm₂ : m = { m₁ with stack := [.int 0, .list 0] } := by
    show p.step.step.machine = _
    rw [hstep]
    show (perform (.source (reader "[ DUP ]" " 0" start)) m₁ []).machine = _
    simp only [perform, hzero]
    rfl
  refine ⟨hm, ?_, ?_⟩
  · rw [hm₂]
  · rw [hm₂]
    rfl

end Execution

namespace Word

open Execution

variable {h : Heap} {w : Word} {operands : List Value} {v : Value}

/-- Run in this heap with these operands on top of the stack, the last one topmost, the word puts the
value in their place and leaves the other heap. Nothing else changes. -/
def GivesIn (h : Heap) (w : Word) (operands : List Value) (v : Value) (h' : Heap) : Prop :=
  ∀ (c : Command) (m : Machine) (below : Stack) (ts : List Task), c.behavior = .core w →
    m.heap = h → m.stack = operands.reverse ++ below →
    runValue (.command c false) m ts = ofTasks { m with stack := v :: below, heap := h' } ts

/-- Run in this heap with these operands on top of the stack, the word fails. -/
def FailsIn (h : Heap) (w : Word) (operands : List Value) : Prop :=
  ∀ (c : Command) (m : Machine) (below : Stack) (ts : List Task), c.behavior = .core w →
    m.heap = h → m.stack = operands.reverse ++ below →
    ∃ m' e, runValue (.command c false) m ts = ofError m' ts e

lemma givesIn_of_apply (op : Operator) (edit : Heap.Edit) (hw : w.meaning = .operator op)
    (hv : v.IsData)
    (hop : ∀ below, op.apply (operands.reverse ++ below) h = .results below [v] edit) :
    w.GivesIn h operands v (h.apply edit) := by
  rintro c m below ts hc rfl hs
  exact (runValue_operator hc hw).trans (operate_results (hs ▸ hop below) (by simpa using hv))

lemma failsIn_of_apply (op : Operator) (e : Error) (hw : w.meaning = .operator op)
    (hop : ∀ below, op.apply (operands.reverse ++ below) h = .failed e) : w.FailsIn h operands := by
  rintro c m below ts hc rfl hs
  exact ⟨m, e, (runValue_operator hc hw).trans (operate_failed (hs ▸ hop below))⟩

end Word

end ReversePolish

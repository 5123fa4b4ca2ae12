import ReversePolish.Proofs.Action
import ReversePolish.Proofs.Stack

/-!
What words do to the machine. Whatever a word does is made of small changes, one after the other,
so what each of them keeps is kept by every word.
-/

namespace ReversePolish

/-- The machine comes to this by what words do, save that programs are entered and left. -/
inductive Machine.Changes (m₀ : Machine) : Machine → Prop where
  | refl : Changes m₀ m₀
  /-- Values leave the stack, and data comes to it. -/
  | stack {m : Machine} {s : Stack} : Changes m₀ m → (∀ v ∈ s, v ∈ m.stack ∨ v.IsData) →
      Changes m₀ { m with stack := s }
  | heap {m : Machine} (h : Heap) : Changes m₀ m → Changes m₀ { m with heap := h }
  /-- A value on the stack becomes a variable. -/
  | store {m : Machine} {v : Value} (name : String) : Changes m₀ m → v ∈ m.stack →
      Changes m₀ { m with scope := m.scope.store name v }
  | purge {m : Machine} {name : String} {v : Value} {s : Scope} : Changes m₀ m →
      m.scope.purge name = .ok (v, s) → Changes m₀ { m with scope := s }
  | setLocal {m : Machine} {name : String} {v : Value} {s : Scope} : Changes m₀ m → v ∈ m.stack →
      m.scope.setLocal name v = .ok s → Changes m₀ { m with scope := s }
  | switch {m : Machine} {name : String} : Changes m₀ m → name.isEmpty = false →
      Changes m₀ { m with scope := (m.scope.switch name).2 }
  | register {m : Machine} {c : Command} {r : Registry} : Changes m₀ m →
      m.registry.register c = .ok r → Changes m₀ { m with registry := r }
  | unregister {m : Machine} (name : String) : Changes m₀ m →
      Changes m₀ { m with registry := m.registry.erase name }
  | disk {m : Machine} (d : Disk) : Changes m₀ m → Changes m₀ { m with disk := d }
  | output {m : Machine} (o : Sink) : Changes m₀ m → Changes m₀ { m with output := o }
  | interrupt {m : Machine} : Changes m₀ m → Changes m₀ { m with interrupted := true }
  | exit {m : Machine} : Changes m₀ m → Changes m₀ { m with exiting := true }

namespace Machine.Changes

variable {m m' m₀ : Machine}

lemma trans (h : m₀.Changes m) (h' : m.Changes m') : m₀.Changes m' := by
  induction h' with
  | refl => exact h
  | stack _ hs ih => exact ih.stack hs
  | heap h _ ih => exact ih.heap h
  | store name _ hv ih => exact ih.store name hv
  | purge _ hs ih => exact ih.purge hs
  | setLocal _ hv hs ih => exact ih.setLocal hv hs
  | switch _ hne ih => exact ih.switch hne
  | register _ hr ih => exact ih.register hr
  | unregister name _ ih => exact ih.unregister name
  | disk d _ ih => exact ih.disk d
  | output o _ ih => exact ih.output o
  | interrupt _ ih => exact ih.interrupt
  | exit _ ih => exact ih.exit

lemma drop (h : m₀.Changes m) (n : Nat) : m₀.Changes { m with stack := m.stack.drop n } :=
  h.stack fun _ hv => .inl (List.mem_of_mem_drop hv)

/-- No word runs another program inside the one that runs. -/
lemma calls (h : m₀.Changes m) : m.calls = m₀.calls := by
  induction h with
  | refl => rfl
  | _ => assumption

lemma limits (h : m₀.Changes m) : m.limits = m₀.limits := by
  induction h with
  | refl => rfl
  | _ => assumption

end Machine.Changes

/-! ### Words -/

namespace Action

variable {α : Type} {m₀ : Machine}

lemma changes_push (v : Value) : Keeps m₀.Changes (push v) := by
  refine keeps_demand_bind fun m s h hs => h.stack ?_
  obtain ⟨hv, rfl⟩ := Stack.push_eq_ok_iff.mp hs
  intro w hw
  rcases List.mem_cons.mp hw with rfl | hw
  · exact .inr hv
  · exact .inl hw

lemma changes_drop (n : Nat) : Keeps m₀.Changes (drop n) := keeps_modify fun _ h => h.drop n

lemma changes_onHeap (f : Heap → α × Heap) : Keeps m₀.Changes (onHeap f) := fun _ h => h.heap _

lemma changes_store (ds : List (Datum Command)) : Keeps m₀.Changes (store ds) := changes_onHeap _

lemma changes_printLine (line : String) : Keeps m₀.Changes (printLine line) :=
  keeps_printLine fun _ h => h.output _

lemma changes_pop : Keeps m₀.Changes pop := by
  refine keeps_demand_bind fun m x h hx => ?_
  obtain ⟨v, s⟩ := x
  have hs : m.stack = v :: s := Stack.pop_eq_ok_iff.mp hx
  exact h.stack fun w hw => .inl (by simp [hs, hw])

/-- Only what lay on the stack is stored. -/
lemma changes_storeVariable : Keeps m₀.Changes storeVariable := by
  refine (keeps_peekString 0).bind fun name => (keeps_demand _).bind fun _ => ?_
  refine (changes_drop 1).bind fun _ => ?_
  intro m h
  cases hs : m.stack with
  | nil =>
    rw [run_bind_error (run_pop_nil hs)]
    exact h
  | cons v s =>
    rw [run_bind_ok (run_pop_cons hs)]
    have hv : v ∈ m.stack := by simp [hs]
    exact (h.store name hv).stack fun w hw => .inl (by simp [hs, hw])

/-- Only what lies on the stack becomes a local variable. -/
lemma changes_storeLocal : Keeps m₀.Changes storeLocal := by
  refine (keeps_peekString 0).bind fun name => ?_
  refine keeps_demand_bind fun m v h hv => ?_
  have hv : v ∈ m.stack := Stack.mem_of_peek hv
  cases hs : m.scope.setLocal name v with
  | error e =>
    rw [run_bind_error (run_demand_error hs)]
    exact h
  | ok s =>
    rw [run_bind_ok (run_demand_ok hs)]
    exact (h.setLocal hv hs).drop 2

lemma changes_purgeVariable : Keeps m₀.Changes purgeVariable := by
  refine (keeps_peekString 0).bind fun name => ?_
  refine keeps_demand_bind fun m x h hx => ?_
  exact (h.purge hx).drop 1

lemma changes_setNamespace : Keeps m₀.Changes setNamespace := by
  refine (keeps_peekString 0).bind fun name => keeps_guard fun hne => ?_
  exact (changes_drop 1).bind fun _ => keeps_modify fun _ h => h.switch (by simpa using hne)

/-- Only a command that passes the check is added. -/
lemma changes_registerProgram : Keeps m₀.Changes registerProgram := by
  refine (keeps_peekString 0).bind fun name => (keeps_peekProgram 1).bind fun p => ?_
  refine keeps_demand_bind fun m r h hr => ?_
  exact (h.register hr).drop 2

lemma changes_unregister : Keeps m₀.Changes unregister := by
  refine (keeps_peekString 0).bind fun name => (keeps_ask _).bind fun known => ?_
  refine keeps_guard fun _ => ?_
  exact (keeps_modify fun m h => h.unregister name).bind fun _ => changes_drop 1

lemma changes_print : Keeps m₀.Changes print := by
  refine (keeps_demand _).bind fun v => ?_
  cases v with
  | str s => exact (changes_printLine s).bind fun _ => changes_drop 1
  | _ => exact ((keeps_ask _).bind fun s => changes_printLine s).bind fun _ => changes_drop 1

lemma changes_save : Keeps m₀.Changes save := by
  refine (keeps_peekString 0).bind fun path => (keeps_demand _).bind fun v => ?_
  refine keeps_guard fun _ => keeps_get.bind fun m => keeps_get.bind fun m' => ?_
  split
  · exact (keeps_modify fun _ h => h.disk _).bind fun _ => changes_drop 2
  · exact keeps_throw_bind _

lemma changes_restore : Keeps m₀.Changes restore := by
  refine (keeps_peekString 0).bind fun path => keeps_get.bind fun m => ?_
  cases m.disk.read path with
  | error fault => exact keeps_throw _
  | ok text =>
    refine (keeps_demand _).bind fun ds => keeps_guard fun _ => ?_
    exact (changes_drop 1).bind fun _ => (changes_store ds).bind fun vs => keeps_forM changes_push

/-- **What a word does is made of small changes**, whether it succeeds or fails. -/
theorem changes_meaning {w : Word} {a : Action Unit} (h : w.meaning = .action a) :
    Keeps m₀.Changes a := by
  cases w <;> cases h
  case depth => exact (keeps_demand _).bind fun n => changes_push (.int n)
  case clear => exact keeps_modify fun _ h => h.stack fun _ hv => (List.not_mem_nil hv).elim
  case pick =>
    refine (keeps_peekInt 0).bind fun index => (keeps_natural _ _).bind fun n => ?_
    exact (keeps_demand _).bind fun v => (changes_drop 1).bind fun _ => changes_push v
  case list =>
    refine (keeps_peekInt 0).bind fun count => (keeps_natural _ _).bind fun n => ?_
    refine (keeps_demand _).bind fun _ => (changes_drop 1).bind fun _ => ?_
    refine (keeps_demand _).bind fun vs => (changes_drop n).bind fun _ => ?_
    exact (changes_onHeap _).bind fun v => changes_push v
  case sto => exact changes_storeVariable
  case rcl =>
    refine (keeps_peekString 0).bind fun name => (keeps_demand _).bind fun v => ?_
    exact (changes_drop 1).bind fun _ => changes_push v
  case purge => exact changes_purgeVariable
  case lsto => exact changes_storeLocal
  case lrcl =>
    refine (keeps_peekString 0).bind fun name => (keeps_demand _).bind fun v => ?_
    exact (changes_drop 1).bind fun _ => changes_push v
  case setNs => exact changes_setNamespace
  case ns => exact (keeps_ask _).bind fun name => changes_push (.str name)
  case vars =>
    exact (keeps_ask _).bind fun names => (changes_onHeap _).bind fun v => changes_push v
  case register => exact changes_registerProgram
  case unregister => exact changes_unregister
  case print => exact changes_print
  case help =>
    refine (keeps_ask _).bind fun groups => ?_
    exact (keeps_forM fun g => changes_printLine _).bind fun _ => changes_printLine _
  case parse =>
    refine (keeps_peekString 0).bind fun text => (keeps_demand _).bind fun ds => ?_
    refine (changes_drop 1).bind fun _ => (changes_store ds).bind fun body => ?_
    refine (keeps_ask _).bind fun home => (changes_onHeap _).bind fun cell => ?_
    exact changes_push (.program ⟨body, home, some cell⟩)
  case save => exact changes_save
  case restore => exact changes_restore
  case exit => exact keeps_modify fun _ h => h.exit
  case interrupt => exact keeps_modify fun _ h => h.interrupt

end Action

end ReversePolish

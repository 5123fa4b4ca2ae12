import Mathlib
import ReversePolish.Proofs.Execution.Atomic
import ReversePolish.Proofs.Session.Driver

/-!
Commands never become data, whatever is asked of a machine. They move about freely inside lists,
maps, programs and control forms, but at no moment is one of them by itself on the stack or in a
variable. So a name that is called gives the command that is registered or none, and a value that is
recalled can always be pushed.
-/

namespace ReversePolish

namespace Machine

variable {m : Machine} {name : String} {c : Command} {help : Bool}

lemma holdsData_initial (home : String) (registry : Registry) (loader : Loader) (disk : Disk)
    (output : Sink) (limits : Limits) (display : Display) :
    (initial home registry loader disk output limits display).HoldsData :=
  ⟨List.forall_mem_nil _, Scope.holds_initial home⟩

/-- A command that a name calls is the one registered under it, and no variable has that name. -/
lemma HoldsData.of_callee (h : m.HoldsData)
    (hc : Execution.callee? name m = some (.inr (.command c help))) :
    (∃ e, m.scope.fetch name = .error e) ∧ m.registry.find? name = some c ∧ help = false := by
  unfold Execution.callee? at hc
  split at hc
  · cases hc
  · next v _ hv =>
    cases hc
    exact (h.scope.fetch hv rfl).elim
  · next e he =>
    obtain ⟨c', hfind, heq⟩ := Option.map_eq_some_iff.mp hc
    cases heq
    exact ⟨⟨e, he⟩, hfind, rfl⟩

end Machine

namespace Action

variable {m : Machine} {name : String} {v : Value} {s : Stack}

/-- A value that is found for the name on top of the stack takes the place of the name. -/
lemma run_recall {g : String → Machine → Except Error Value} (hs : m.stack = .str name :: s)
    (hv : g name m = .ok v) (hdata : v.IsData) :
    (do
      let name ← peekString 0
      let v ← demand (g name)
      drop 1
      push v : Action Unit).run m = .ok () { m with stack := v :: s } := by
  have hdrop : (drop 1).run m = .ok () { m with stack := m.stack.drop 1 } := rfl
  rw [hs] at hdrop
  calc _ = (do drop 1; push v : Action Unit).run m :=
        (run_bind_ok (run_peekString hs)).trans (run_bind_ok (run_demand_ok hv))
    _ = (push v).run { m with stack := s } := run_bind_ok hdrop
    _ = _ := run_push hdata

end Action

namespace Driver

variable {P : Value → Prop} {d d' : Driver} {m : Machine}

lemma holdsData_turn (hm : m.HoldsData) (r : Reader) : (turn r m).machine.HoldsData := by
  unfold turn
  split
  · exact ⟨hm.stack, hm.scope⟩
  · split
    · exact ⟨hm.stack, hm.scope⟩
    · exact ⟨hm.stack, hm.scope⟩
    · split <;> exact ⟨hm.stack, hm.scope⟩

/-- **Whatever is asked of a machine keeps commands from where data belongs**, whichever values are
given to it to run. -/
theorem holdsData_next (hd : d.machine.HoldsData) (h : Step P d d') : d'.machine.HoldsData := by
  cases h with
  | ask _ hasked =>
    exact hasked.proceeds.keeps (fun _ _ hm => hm.holdsData)
      (fun _ g h => ⟨h.stack, h.scope.switch.enter g⟩) hd
  | line text _ => exact ⟨hd.stack, hd.scope⟩
  | step => exact Execution.holdsData_step hd
  | turn => exact holdsData_turn hd _
  | outside => exact ⟨hd.stack, hd.scope⟩
  | cancel => exact hd

lemma holdsData_of_leads (h : Leads P d d') (hd : d.machine.HoldsData) :
    d'.machine.HoldsData := by
  induction h with
  | refl => exact hd
  | tail _ hstep ih => exact holdsData_next ih hstep

/-- **Commands never become data.** At every moment, whatever is asked of a machine and whatever is
registered on it, no command is on the stack, in a variable of a module or in a local variable. So
when a name calls a command, it is the registered one, and no variable has that name; and when there
is a variable of the name on top of the stack, recalling it succeeds. -/
theorem commands_never_data {home : String} {registry : Registry} {loader : Loader} {disk : Disk}
    {output : Sink} {limits : Limits} {display : Display}
    (hd : Leads P (waiting (.start (.initial home registry loader disk output limits display))) d) :
    (∀ v ∈ d.machine.stack, v.IsData) ∧
    (∀ e ∈ d.machine.scope.modules.entries, ∀ x ∈ e.2.entries, x.2.IsData) ∧
    (∀ f ∈ d.machine.scope.frames, ∀ x ∈ f.locals.entries, x.2.IsData) ∧
    (∀ name c help, Execution.callee? name d.machine = some (.inr (.command c help)) →
      (∃ e, d.machine.scope.fetch name = .error e) ∧ d.machine.registry.find? name = some c ∧
        help = false) ∧
    (∀ name v s, d.machine.stack = .str name :: s → d.machine.scope.fetch name = .ok v →
      Action.recallVariable.run d.machine = .ok () { d.machine with stack := v :: s }) ∧
    (∀ name v s, d.machine.stack = .str name :: s → d.machine.scope.getLocal name = .ok v →
      Action.recallLocal.run d.machine = .ok () { d.machine with stack := v :: s }) := by
  have hdata : d.machine.HoldsData :=
    holdsData_of_leads hd (Machine.holdsData_initial home registry loader disk output limits display)
  refine ⟨hdata.stack, hdata.scope.modules, hdata.scope.locals, fun name c help => hdata.of_callee,
    fun name v s hs hv => ?_, fun name v s hs hv => ?_⟩
  · exact Action.run_recall hs hv (hdata.scope.fetch hv)
  · exact Action.run_recall hs hv (hdata.scope.getLocal hv)

/-- A list of commands is kept in a variable, and the variable is about to be recalled. -/
theorem list_of_commands_recalled :
    let m : Machine := .initial "main" .core Loader.disabled default .empty {} {}
    let p := Execution.ofTasks m [.source (.ofText "[ DUP ] \"x\" STO \"x\"")]
    let after (n : Nat) : Driver := ⟨Execution.step^[n] p, none, ""⟩
    (after 4).machine.heap.items 0 = #[.command (.ofWord .dup) false] ∧
      (∀ v ∈ (after 4).machine.stack, v.IsData) ∧
      Action.recallVariable.run (after 4).machine =
        .ok () { (after 4).machine with stack := [.list 0] } := by
  intro m p after
  have hsteps : Leads (fun _ => False) (waiting (.start m)) (after 4) :=
    .head (.ask ⟨rfl, rfl⟩ (.source _)) (steps_of_reaches ⟨4, rfl⟩)
  have hafter : ((after 4).machine.stack, (after 4).machine.scope.fetch "x",
      (after 4).machine.heap.items 0) =
        ([.str "x"], .ok (.list 0), #[.command (.ofWord .dup) false]) := by cbv
  obtain ⟨hstack, hfetch, hitems⟩ : _ ∧ _ ∧ _ := by simpa only [Prod.mk.injEq] using hafter
  obtain ⟨hdata, -, -, -, hrecall, -⟩ := commands_never_data hsteps
  exact ⟨hitems, hdata, hrecall "x" (.list 0) [] hstack hfetch⟩

end Driver

end ReversePolish

import ReversePolish.Proofs.Action.Output
import ReversePolish.Proofs.Execution.Data

/-!
Words that work on the machine itself look at everything first, and change the machine only when
nothing can go wrong any more. Words that print can still be refused a line then, and drop nothing
before they have printed. So one of them that fails has changed nothing but the output.
-/

namespace ReversePolish

namespace Action

variable {α β : Type} {m m' : Machine} {a : Action α} {f : α → Action β} {x : α} {v : Value}
  {vs : List Value} {e : Error}

/-- If the action fails on this machine, then it has changed nothing but the output. -/
def Atomic (m : Machine) (a : Action α) : Prop :=
  ∀ e m', a.run m = .error e m' → m' = { m with output := m'.output }

/-- The action does not fail on this machine. -/
def Succeeds (m : Machine) (a : Action α) : Prop := ∃ x m', a.run m = .ok x m'

/-! ### Looking first -/

lemma atomic_of_keeps (ha : Keeps (· = m) a) : Atomic m a := fun _ _ h => by
  rw [eq_of_error ha h]

/-- What follows a look at the machine starts from the same machine. -/
lemma Atomic.bind (ha : Keeps (· = m) a) (hf : ∀ x, a.run m = .ok x m → Atomic m (f x)) :
    Atomic m (a >>= f) := by
  intro e m' h
  cases hr : a.run m with
  | ok x m₁ =>
    obtain rfl := eq_of_ok ha hr
    rw [run_bind_ok hr] at h
    exact hf x hr e m' h
  | error e₁ m₁ =>
    rw [run_bind_error hr] at h
    cases h
    exact atomic_of_keeps ha _ _ hr

lemma Atomic.demand_bind {g : Machine → Except Error α}
    (hf : ∀ x, g m = .ok x → Atomic m (f x)) : Atomic m (demand g >>= f) :=
  .bind (keeps_demand g) fun x hx => hf x (eq_ok_of_run_demand hx)

lemma Atomic.guard {c : Prop} [Decidable c] {b : PUnit → Action β}
    (hb : ¬ c → Atomic m (b ⟨⟩)) : Atomic m (if c then throw e >>= b else b ⟨⟩) := by
  split
  · exact atomic_of_keeps (keeps_throw_bind e)
  · next hc => exact hb hc

/-! ### What cannot fail -/

lemma Succeeds.atomic (h : Succeeds m a) : Atomic m a := by
  obtain ⟨x, m₁, hok⟩ := h
  intro e m' herr
  rw [hok] at herr
  cases herr

lemma Succeeds.bind (ha : a.run m = .ok x m') (hf : Succeeds m' (f x)) : Succeeds m (a >>= f) := by
  obtain ⟨y, m'', hy⟩ := hf
  exact ⟨y, m'', (run_bind_ok ha).trans hy⟩

/-- Data goes onto the stack. -/
lemma run_push (hv : v.IsData) : (push v).run m = .ok () { m with stack := v :: m.stack } := by
  have hpush : (demand fun m => m.stack.push v).run m = .ok (v :: m.stack) m :=
    run_demand_ok (Stack.push_eq_ok_iff.mpr ⟨hv, rfl⟩)
  exact run_bind_ok hpush

lemma succeeds_push (hv : v.IsData) : Succeeds m (push v) := ⟨_, _, run_push hv⟩

lemma run_forM_push (hvs : ∀ v ∈ vs, v.IsData) :
    (vs.forM push).run m = .ok () { m with stack := vs.reverse ++ m.stack } := by
  induction vs generalizing m with
  | nil => rfl
  | cons v vs ih =>
    obtain ⟨hv, hvs⟩ := List.forall_mem_cons.mp hvs
    show (push v >>= fun _ => vs.forM push).run m = _
    rw [run_bind_ok (run_push hv), ih hvs]
    simp

/-- What has storage is of the same kind as what was read. -/
lemma kind_store (d : Datum Command) (around : Option Nat) (h : Heap) :
    (d.store around h).1.kind = d.kind := by
  cases d <;> rfl

lemma isData_of_mem_storeAll {ds : List (Datum Command)} (hds : ∀ d ∈ ds, d.kind ≠ .command)
    (around : Option Nat) (h : Heap) : ∀ v ∈ (Datum.storeAll ds around h).1, v.IsData := by
  induction ds generalizing h with
  | nil => exact fun _ hv => (List.not_mem_nil hv).elim
  | cons d ds ih =>
    obtain ⟨hd, hds⟩ := List.forall_mem_cons.mp hds
    rw [Datum.storeAll]
    intro v hv
    rcases List.mem_cons.mp hv with rfl | hv
    · rw [Value.IsData, kind_store]
      exact hd
    · exact ih hds _ v hv

/-! ### Words -/

lemma atomic_pick (h : m.HoldsData) : Atomic m pick := by
  refine .bind (keeps_peekInt 0) fun index _ => .bind (keeps_natural _ _) fun n _ => ?_
  refine .demand_bind fun v hv => ?_
  have hv : v.IsData := h.stack v (Stack.mem_of_peek hv)
  exact Succeeds.atomic (.bind rfl (succeeds_push hv))

/-- Once the count has been taken, as many values are there as it says. -/
lemma atomic_list : Atomic m list := by
  refine .bind (keeps_peekInt 0) fun count _ => .bind (keeps_natural _ _) fun n _ => ?_
  refine .demand_bind fun _ hn => ?_
  have hn : n + 1 ≤ m.stack.length := Stack.require_eq_ok_iff.mp hn
  have htop : Stack.top n (m.stack.drop 1) = .ok ((m.stack.drop 1).take n).reverse :=
    Stack.top_of_le (by rw [List.length_drop]; omega)
  refine Succeeds.atomic (.bind rfl (.bind (run_demand_ok htop) ?_))
  exact .bind rfl (.bind rfl (succeeds_push (Value.isData_list _)))

lemma atomic_storeVariable : Atomic m storeVariable := by
  refine .bind (keeps_peekString 0) fun name _ => .demand_bind fun _ hn => ?_
  have hn : 2 ≤ m.stack.length := Stack.require_eq_ok_iff.mp hn
  -- Below the name lies a value, so taking it cannot fail.
  obtain ⟨v, s, hs⟩ : ∃ v s, m.stack.drop 1 = v :: s :=
    List.exists_cons_of_length_pos (by rw [List.length_drop]; omega)
  have hpop : pop.run { m with stack := m.stack.drop 1 } = .ok v { m with stack := s } :=
    run_pop_cons hs
  exact Succeeds.atomic (.bind rfl (.bind hpop ⟨_, _, rfl⟩))

/-- Recalling fails only where there is no such variable, since no variable is a command. -/
lemma atomic_recallVariable (h : m.HoldsData) : Atomic m recallVariable := by
  refine .bind (keeps_peekString 0) fun name _ => .demand_bind fun v hv => ?_
  exact Succeeds.atomic (.bind rfl (succeeds_push (h.scope.fetch hv)))

lemma atomic_recallLocal (h : m.HoldsData) : Atomic m recallLocal := by
  refine .bind (keeps_peekString 0) fun name _ => .demand_bind fun v hv => ?_
  exact Succeeds.atomic (.bind rfl (succeeds_push (h.scope.getLocal hv)))

lemma atomic_purgeVariable : Atomic m purgeVariable := by
  refine .bind (keeps_peekString 0) fun name _ => .demand_bind fun _ _ => ?_
  exact Succeeds.atomic ⟨_, _, rfl⟩

lemma atomic_storeLocal : Atomic m storeLocal := by
  refine .bind (keeps_peekString 0) fun name _ => .demand_bind fun v _ => ?_
  refine .demand_bind fun s _ => ?_
  exact Succeeds.atomic ⟨_, _, rfl⟩

lemma atomic_setNamespace : Atomic m setNamespace := by
  refine .bind (keeps_peekString 0) fun name _ => .guard fun _ => ?_
  exact Succeeds.atomic ⟨_, _, rfl⟩

lemma atomic_registerProgram : Atomic m registerProgram := by
  refine .bind (keeps_peekString 0) fun name _ => .bind (keeps_peekProgram 1) fun p _ => ?_
  refine .demand_bind fun r _ => ?_
  exact Succeeds.atomic ⟨_, _, rfl⟩

lemma atomic_unregister : Atomic m unregister := by
  refine .bind (keeps_peekString 0) fun name _ => .bind (keeps_ask _) fun known _ => ?_
  exact .guard fun _ => Succeeds.atomic ⟨_, _, rfl⟩

/-- A line that is refused is refused before the value is dropped. -/
lemma atomic_print : Atomic m print := by
  intro e m' h
  obtain hs | ⟨v, s, hs⟩ : m.stack = [] ∨ ∃ v s, m.stack = v :: s := by
    cases m.stack <;> simp
  · rw [run_print_nil hs] at h
    cases h
    rfl
  · have hrun := run_printLine (m.printed v) m
    rw [run_print_cons hs] at h
    cases hl : m.output.refusal? (m.printed v) with
    | none =>
      rw [hl] at hrun
      rw [run_bind_ok hrun] at h
      cases h
    | some reason =>
      rw [hl] at hrun
      rw [run_bind_error hrun] at h
      cases h
      rfl

lemma atomic_parse : Atomic m parse := by
  refine .bind (keeps_peekString 0) fun text _ => .demand_bind fun ds _ => ?_
  exact Succeeds.atomic (.bind rfl (.bind rfl (.bind rfl (succeeds_push (Value.isData_program _)))))

lemma atomic_save : Atomic m save := by
  refine .bind (keeps_peekString 0) fun path _ => .demand_bind fun v _ => .guard fun _ => ?_
  refine .bind keeps_get fun m₁ _ => .bind keeps_get fun m₂ _ => ?_
  split
  · exact Succeeds.atomic ⟨_, _, rfl⟩
  · exact atomic_of_keeps (keeps_throw_bind _)

/-- The values of a file are looked through for commands before the first one is pushed. -/
lemma atomic_restore : Atomic m restore := by
  refine .bind (keeps_peekString 0) fun path _ => .bind keeps_get fun m₁ _ => ?_
  cases m₁.disk.read path with
  | error fault => exact atomic_of_keeps (keeps_throw _)
  | ok text =>
    refine .demand_bind fun ds _ => .guard fun hds => ?_
    have hds : ∀ d ∈ ds, d.kind ≠ .command := by simpa using hds
    refine Succeeds.atomic (.bind rfl (.bind rfl ?_))
    exact ⟨_, _, run_forM_push (isData_of_mem_storeAll hds none m.heap)⟩

lemma atomic_help : Atomic m help := by
  intro e m' h
  have hm := machine_printLines m.helpLines m
  rw [← run_help, h] at hm
  rw [show m' = _ from hm]

/-- **A word that works on the machine changes nothing but the output where it fails.** -/
theorem atomic_meaning {w : Word} {a : Action Unit} (h : m.HoldsData)
    (hw : w.meaning = .action a) : Atomic m a := by
  cases w <;> cases hw
  case depth => exact .demand_bind fun n _ => (succeeds_push (Value.isData_int n)).atomic
  case clear => exact Succeeds.atomic ⟨_, _, rfl⟩
  case pick => exact atomic_pick h
  case list => exact atomic_list
  case sto => exact atomic_storeVariable
  case rcl => exact atomic_recallVariable h
  case purge => exact atomic_purgeVariable
  case lsto => exact atomic_storeLocal
  case lrcl => exact atomic_recallLocal h
  case setNs => exact atomic_setNamespace
  case ns => exact Succeeds.atomic (.bind rfl (succeeds_push (Value.isData_str _)))
  case vars => exact Succeeds.atomic (.bind rfl (.bind rfl (succeeds_push (Value.isData_list _))))
  case register => exact atomic_registerProgram
  case unregister => exact atomic_unregister
  case print => exact atomic_print
  case help => exact atomic_help
  case parse => exact atomic_parse
  case save => exact atomic_save
  case restore => exact atomic_restore
  case exit => exact Succeeds.atomic ⟨_, _, rfl⟩
  case interrupt => exact Succeeds.atomic ⟨_, _, rfl⟩

end Action

namespace Execution

variable {m : Machine} {c : Command} {w : Word} {a : Action Unit} {ts : List Task} {e : Error}

/-- **A word that works on the machine and fails has changed nothing.** On a machine that can be
reached, all that comes of running it is the error, and of the two words that print also the lines
up to the one that was refused. -/
theorem eq_ofError_of_failed_action (hm : m.Reachable) (hc : c.behavior = .core w)
    (hw : w.meaning = .action a) (he : (runValue (.command c false) m ts).error = some e) :
    runValue (.command c false) m ts =
        ofError { m with output := m.output.offerAll (w.prints m) } ts e ∧
      (w ≠ .print → w ≠ .help → runValue (.command c false) m ts = ofError m ts e) := by
  have hrun : runValue (.command c false) m ts =
      ofError { m with output := m.output.offerAll (w.prints m) } ts e := by
    simp only [runValue, hc, hw, act, after] at he ⊢
    cases hr : a.run m with
    | ok x m' =>
      rw [hr] at he
      cases he
    | error e' m' =>
      rw [hr] at he
      obtain rfl : e' = e := by simpa [ofError] using he
      have houtput : m'.output = m.output.offerAll (w.prints m) := by
        simpa [hr, Action.machine] using Action.output_meaning hw m
      rw [Action.atomic_meaning hm.holdsData hw e' m' hr, houtput]
  refine ⟨hrun, fun hprint hhelp => hrun.trans ?_⟩
  rw [Word.prints_eq_nil hprint hhelp, Sink.offerAll_nil]

/-- `LSTO` where no program runs, with a value and a name on the stack; and `PRINT` where the line is
refused, which leaves the value on the stack. -/
theorem lsto_outside_programs_changes_nothing :
    let p := ofTasks (.initial "main" ∅ Loader.disabled default .empty {} {})
      [.sequence [.int 1, .str "x"]]
    let m := p.step.step.machine
    let full : Sink := ⟨"", #[], fun _ _ => .refused "" "no space left on device"⟩
    let m' : Machine := { m with output := full }
    m.stack = [.str "x", .int 1] ∧
      runValue (.command (.ofWord .lsto) false) m [] = ofError m [] .noFrame ∧
      runValue (.command (.ofWord .print) false) m' [] =
        ofError { m' with output := full.offer "x" } []
          (.failed (.unprinted "no space left on device")) := by
  intro p m full m'
  have hm : m.Reachable := .step (.step (.initial _ _ _ _ _ _ _))
  have hm' : m'.Reachable := .outside hm rfl rfl
  exact ⟨rfl, (eq_ofError_of_failed_action hm rfl rfl rfl).2 (by decide) (by decide),
    (eq_ofError_of_failed_action (w := .print) hm' rfl rfl rfl).1⟩

end Execution

end ReversePolish

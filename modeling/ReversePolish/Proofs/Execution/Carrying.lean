import ReversePolish.Proofs.Action.Carrying
import ReversePolish.Proofs.Execution.Edits

/-!
Running passes values on: if a property that values pass on to what they are made of holds of all
values on the machine and in what is to be done, then it does so after a step, provided that it holds
of the cells that there are then. What calls programs adds no cell, so there nothing is asked of the
heap.
-/

namespace ReversePolish

section

variable (P : Value → Prop) (home : String → Prop)

/-- All values in what is to be done have the property, and all namespaces to go back to have such
names. -/
def Task.Carries : Task → Prop
  | run v => P v
  | sequence vs => ∀ v ∈ vs, P v
  | source _ | report => True
  | leave caller => home caller
  | rescue handler => handler.Carries P home
  | choose thn els => (∀ v ∈ thn, P v) ∧ ∀ v ∈ els, P v
  | iterate items body => (∀ v ∈ items, P v) ∧ ∀ v ∈ body, P v
  | round _ cond body | test _ cond body => (∀ v ∈ cond, P v) ∧ ∀ v ∈ body, P v

/-- All values on the machine and in what is to be done have the property. -/
structure Execution.Carries (p : Execution) : Prop where
  machine : p.machine.Carries P home
  tasks : ∀ t ∈ p.tasks, t.Carries P home

end

lemma Heap.Fits.of_apply {P : Value → Prop} {h : Heap} {edit : Heap.Edit}
    (hfits : (h.apply edit).Fits P) : h.Fits P where
  cells v hv := hfits.cells v (Heap.has_apply hv edit)
  programs c hc := hfits.programs c (hc.trans_le (Heap.size_links_apply_le h edit))

lemma Task.Carries.mono {P Q : Value → Prop} {home : String → Prop} {t : Task}
    (ht : t.Carries P home) (hPQ : ∀ v, P v → Q v) : t.Carries Q home := by
  cases t with
  | run v => exact hPQ v ht
  | sequence vs => exact fun v hv => hPQ v (ht v hv)
  | source _ | report => trivial
  | leave caller => exact ht
  | rescue handler => exact Program.Carries.mono hPQ ht
  | choose | iterate | round | test =>
    exact ⟨fun v hv => hPQ v (ht.1 v hv), fun v hv => hPQ v (ht.2 v hv)⟩

namespace Execution

variable {P : Value → Prop} {home : String → Prop} {m : Machine} {t : Task} {ts : List Task}
  {p : Execution} {v : Value} {g : Program} {α : Type}

lemma Carries.mono {Q : Value → Prop} (hp : p.Carries P home) (hPQ : ∀ v, P v → Q v) :
    p.Carries Q home :=
  ⟨hp.machine.mono hPQ, fun t ht => (hp.tasks t ht).mono hPQ⟩

lemma carries_ofTasks (hm : m.Carries P home) (hts : ∀ t ∈ ts, t.Carries P home) :
    (ofTasks m ts).Carries P home := ⟨hm, hts⟩

lemma carries_ofError (hm : m.Carries P home) (hts : ∀ t ∈ ts, t.Carries P home) (e : Error) :
    (ofError m ts e).Carries P home := ⟨hm, hts⟩

lemma carries_after {Q : α → Prop} {a : Action α} {f : α → List Task}
    (ha : Action.Passes P home Q a) (hm : m.Carries P home) (hts : ∀ t ∈ ts, t.Carries P home)
    (hf : ∀ x, Q x → ∀ t ∈ f x, t.Carries P home) (hfits : (after a m ts f).machine.heap.Fits P) :
    (after a m ts f).Carries P home := by
  have ha := ha m hm
  unfold after at hfits ⊢
  cases hr : a.run m with
  | ok x m' =>
    rw [hr] at ha hfits
    obtain ⟨hm', hx⟩ := ha hfits
    exact ⟨hm', List.forall_mem_append.mpr ⟨hf x (hx x m' rfl), hts⟩⟩
  | error e m' =>
    rw [hr] at ha hfits
    exact ⟨(ha hfits).1, hts⟩

lemma carries_act {Q : Unit → Prop} {a : Action Unit} (ha : Action.Passes P home Q a)
    (hm : m.Carries P home) (hts : ∀ t ∈ ts, t.Carries P home)
    (hfits : (act a m ts).machine.heap.Fits P) : (act a m ts).Carries P home :=
  carries_after ha hm hts (fun _ _ _ ht => (List.not_mem_nil ht).elim) hfits

/-- Results and what is put into the heap are passed on. -/
lemma carries_operate {op : Operator} {again : Task} (hop : op.Passes P)
    (hagain : again.Carries P home) (hm : m.Carries P home) (hts : ∀ t ∈ ts, t.Carries P home)
    (hfits : (operate op again m ts).machine.heap.Fits P) :
    (operate op again m ts).Carries P home := by
  unfold operate at hfits ⊢
  split at hfits
  · next below vs edit happly =>
    have hadds : Action.OnlyAdds (m.heap.apply edit) (vs.forM Action.push) :=
      Action.keeps_forM Action.onlyAdds_push
    have hchanged : (m.heap.apply edit).Fits P :=
      (extends_act (m := { m with stack := below, heap := m.heap.apply edit }) hadds).fits hfits
    obtain ⟨hvs, hedit⟩ := hop _ _ _ _ _ hm.stack hm.heap hchanged happly
    obtain ⟨-, rfl⟩ := Operator.below_of_apply happly
    refine carries_act (Action.carries_forM_push hvs).passes ?_ hts hfits
    refine (hm.of_heap (hm.heap.apply hedit)).of_stack fun v hv => ?_
    exact hm.stack v (List.mem_of_mem_drop hv)
  · exact carries_ofError hm hts _
  · exact carries_ofTasks hm (List.forall_mem_cons.mpr ⟨hagain, hts⟩)

/-! ### Programs -/

/-- A program is entered in its own namespace, and its caller's will be gone back to. -/
lemma carries_invoke (hg : g.Carries P home) (hm : m.Carries P home)
    (hts : ∀ t ∈ ts, t.Carries P home) : (invoke g m ts).Carries P home := by
  unfold invoke
  split
  · exact carries_ofError hm hts _
  · have hnames := hm.names.switch hg.home
    have hsaved : home (m.scope.switch g.home).1 := by
      rw [Scope.saved_switch]
      exact hm.names.current
    refine carries_ofTasks ?_ (List.forall_mem_cons.mpr ⟨hg.body, ?_⟩)
    · refine ⟨hm.stack, hm.heap, hm.scope.switch.enter g, ?_, ⟨hnames.current, hnames.modules⟩,
        hm.registry⟩
      show ∀ g' ∈ g :: (m.scope.switch g.home).2.frames.map (·.program), g'.Carries P home
      rw [Scope.frames_switch]
      exact List.forall_mem_cons.mpr ⟨hg, hm.programs⟩
    · exact List.forall_mem_cons.mpr ⟨hsaved, hts⟩

lemma carries_leave {caller : String} (hcaller : home caller) (hm : m.Carries P home) :
    (leave caller m).Carries P home := by
  have hnames : m.scope.leave.Names home := ⟨hm.names.current, hm.names.modules⟩
  refine ⟨hm.stack, hm.heap, hm.scope.leave.switch, fun g hg => ?_, hnames.switch hcaller, hm.registry⟩
  simp only [leave, Scope.leave, Scope.frames_switch, List.map_tail] at hg
  exact hm.programs g (List.mem_of_mem_tail hg)

lemma carries_drop (hm : m.Carries P home) (n : Nat) :
    ({ m with stack := m.stack.drop n } : Machine).Carries P home :=
  hm.of_stack fun v hv => hm.stack v (List.mem_of_mem_drop hv)

variable (hP : Value.Hereditary P home)

include hP

/-- What a name calls is the value of a variable, or a word that is registered. -/
lemma carries_call (name : String) (hm : m.Carries P home) (hts : ∀ t ∈ ts, t.Carries P home) :
    (call name m ts).Carries P home := by
  unfold call
  split
  · next g hg =>
    unfold callee? at hg
    split at hg
    · next hfetch =>
      cases hg
      exact carries_invoke (hP.program.mp (hm.scope.fetch hfetch)) hm hts
    · cases hg
    · obtain ⟨c, -, hc⟩ := Option.map_eq_some_iff.mp hg
      cases hc
  · next v hv =>
    refine carries_ofTasks hm (List.forall_mem_cons.mpr ⟨?_, hts⟩)
    unfold callee? at hv
    split at hv
    · cases hv
    · next hfetch =>
      cases hv
      exact hm.scope.fetch hfetch
    · obtain ⟨c, hc, hcv⟩ := Option.map_eq_some_iff.mp hv
      cases hcv
      exact hP.command.mpr (hm.registry _ (Table.mem_of_find? hc))
  · exact carries_ofError hm hts _

lemma carries_callTop (hm : m.Carries P home) (hts : ∀ t ∈ ts, t.Carries P home) :
    (callTop m ts).Carries P home := by
  rcases callTop_cases m ts with ⟨name, s, hs, h⟩ | ⟨e, h⟩ <;> rw [h]
  · exact carries_call hP name (hm.of_stack fun v hv => hm.stack v (by simp [hs, hv])) hts
  · exact carries_ofError hm hts e

lemma carries_evaluateTop (hm : m.Carries P home) (hts : ∀ t ∈ ts, t.Carries P home) :
    (evaluateTop m ts).Carries P home := by
  unfold evaluateTop
  split
  · next g m' hr =>
    obtain rfl := Action.eq_of_ok (Action.keeps_peekProgram 0) hr
    have hg := (Action.yields_peekProgram hP 0).2 _ _ _ hm hr
    exact carries_invoke hg (carries_drop hm 1) hts
  · next e m' hr =>
    obtain rfl := Action.eq_of_error (Action.keeps_peekProgram 0) hr
    exact carries_ofError hm hts e

lemma carries_attemptTop (hm : m.Carries P home) (hts : ∀ t ∈ ts, t.Carries P home) :
    (attemptTop m ts).Carries P home := by
  have hpeek : Action.Yields (Machine.Carries P home)
      (fun x => x.1.Carries P home ∧ x.2.Carries P home)
      (do return (← Action.peekProgram 1, ← Action.peekProgram 0) : Action (Program × Program)) :=
    (Action.yields_peekProgram hP 1).andThen fun g hg =>
      (Action.yields_peekProgram hP 0).andThen fun g' hg' => Action.yields_pure ⟨hg, hg'⟩
  unfold attemptTop
  split
  · next attempt handler m' hr =>
    have hkeeps := hpeek.1 m hm
    rw [hr] at hkeeps
    obtain ⟨hattempt, hhandler⟩ := hpeek.2 m _ m' hm hr
    exact carries_invoke hattempt (carries_drop hkeeps 2)
      (List.forall_mem_cons.mpr ⟨hhandler, hts⟩)
  · next e m' hr =>
    have hkeeps := hpeek.1 m hm
    rw [hr] at hkeeps
    exact carries_ofError hkeeps hts e

/-! ### Steps -/

/-- The items of a list, or new lists for the entries of a map. -/
lemma passes_takeItems : Action.Passes P home (fun vs => ∀ v ∈ vs, P v) takeItems := by
  refine (Action.yields_peek 0).bindPasses fun v hv => ?_
  split
  · refine ((Action.carries_drop 1).yields.andThen fun _ _ => ?_).passes
    exact Action.yields_ask fun m hm v hv => hm.heap.items _ v (Array.mem_toList_iff.mp hv)
  · have hask {c : Nat} : Action.Yields (Machine.Carries P home) (fun es => ∀ e ∈ es, P e.2)
        (Action.ask fun m => (m.heap.entries c).entries) :=
      Action.yields_ask fun m hm => hm.heap.entries c
    refine (Action.carries_drop 1).bindPasses fun _ => hask.bindPasses fun es hes => ?_
    refine Action.passes_mapM (fun e h => Action.onlyAdds_newList _) fun e he => ?_
    refine Action.passes_newList fun v hv => ?_
    rcases List.mem_pair.mp (Array.mem_toList_iff.mpr hv) with rfl | rfl
    · exact hP.ofKey e.1
    · exact hes e he
  · exact (Action.yields_throw _).passes

omit hP in
lemma keeps_takeTruth : Action.Keeps (Machine.Carries P home) takeTruth :=
  Action.yields_pop.1.bind fun _ => Action.keeps_demand _

lemma carries_runValue (hv : P v) (hm : m.Carries P home) (hts : ∀ t ∈ ts, t.Carries P home)
    (hfits : (runValue v m ts).machine.heap.Fits P) : (runValue v m ts).Carries P home := by
  have hreport : ∀ t ∈ .report :: ts, t.Carries P home := List.forall_mem_cons.mpr ⟨trivial, hts⟩
  cases v with
  | branch cond thn els =>
    obtain ⟨hcond, hchoose⟩ := hP.branch.mp hv
    exact carries_ofTasks hm
      (List.forall_mem_cons.mpr ⟨hcond, List.forall_mem_cons.mpr ⟨hchoose, hreport⟩⟩)
  | each body =>
    refine carries_after (passes_takeItems hP) hm hreport (fun items hitems => ?_) hfits
    exact List.forall_mem_singleton.mpr ⟨hitems, hP.each.mp hv⟩
  | loop cond body =>
    exact carries_ofTasks hm (List.forall_mem_cons.mpr ⟨hP.loop.mp hv, hreport⟩)
  | command c help =>
    cases help with
    | true =>
      exact carries_act (Action.carries_printLine _).passes hm hts hfits
    | false =>
      cases hb : c.behavior with
      | user g =>
        simp only [runValue, hb]
        exact carries_invoke (hP.command.mp hv g hb) hm hts
      | idle =>
        simp only [runValue, hb]
        exact carries_ofTasks hm hts
      | core w =>
        cases hw : w.meaning <;> simp only [runValue, hb, hw] at hfits ⊢
        case operator op =>
          exact carries_operate (Operator.passes_meaning hP.admits hw) hv hm hts hfits
        case action a => exact carries_act (Action.passes_meaning hP hw) hm hts hfits
        case eval => exact carries_evaluateTop hP hm hts
        case call => exact carries_callTop hP hm hts
        case tryCatch => exact carries_attemptTop hP hm hts
  | _ => exact carries_act (Action.carries_push hv).passes hm hts hfits

omit hP in
/-- To run a value takes no cell away. -/
lemma fits_of_runValue (hfits : (runValue v m ts).machine.heap.Fits P) : m.heap.Fits P := by
  obtain ⟨edit, hx⟩ := extends_runValue_apply v m ts
  exact (hx.fits hfits).of_apply

lemma carries_perform (ht : t.Carries P home) (hm : m.Carries P home)
    (hts : ∀ t ∈ ts, t.Carries P home) (hfits : (perform t m ts).machine.heap.Fits P) :
    (perform t m ts).Carries P home := by
  cases t with
  | run v => exact carries_runValue hP ht hm hts hfits
  | sequence vs =>
    cases vs with
    | nil => exact carries_ofTasks hm hts
    | cons v vs =>
      obtain ⟨hv, hvs⟩ := List.forall_mem_cons.mp ht
      exact carries_runValue hP hv hm (List.forall_mem_cons.mpr ⟨hvs, hts⟩) hfits
  | source r =>
    cases hr : r.next m.setting with
    | value d r' =>
      simp only [perform, hr] at hfits ⊢
      obtain ⟨hv, hh⟩ :=
        hm.made hP (Reader.made_next hr) none m.heap (by simp) hm.heap (fits_of_runValue hfits)
      exact carries_runValue hP hv (hm.of_heap hh) (List.forall_mem_cons.mpr ⟨trivial, hts⟩) hfits
    | ended r' =>
      simp only [perform, hr]
      exact carries_ofTasks hm hts
    | failed e r' =>
      simp only [perform, hr]
      exact carries_ofError hm hts e
  | leave caller => exact carries_ofTasks (carries_leave ht hm) hts
  | choose thn els =>
    refine carries_after keeps_takeTruth.passes hm hts (fun b _ => ?_) hfits
    refine List.forall_mem_singleton.mpr ?_
    cases b
    · exact ht.2
    · exact ht.1
  | iterate items body =>
    cases items with
    | nil => exact carries_ofTasks hm hts
    | cons v vs =>
      obtain ⟨hv, hvs⟩ := List.forall_mem_cons.mp ht.1
      refine carries_after (Action.carries_push hv).passes hm hts (fun _ _ => ?_) hfits
      exact List.forall_mem_cons.mpr ⟨ht.2, List.forall_mem_singleton.mpr ⟨hvs, ht.2⟩⟩
  | round begun cond body =>
    simp only [perform]
    split
    · exact carries_ofTasks hm hts
    · exact carries_ofTasks hm
        (List.forall_mem_cons.mpr ⟨ht.1, List.forall_mem_cons.mpr ⟨ht, hts⟩⟩)
  | test begun cond body =>
    refine carries_after keeps_takeTruth.passes hm hts (fun b _ => ?_) hfits
    cases b
    · exact List.forall_mem_nil _
    · exact List.forall_mem_cons.mpr ⟨ht.2, List.forall_mem_singleton.mpr ht⟩
  | _ => exact carries_ofTasks hm hts

lemma carries_unwind (ht : t.Carries P home) (e : Error) (hm : m.Carries P home)
    (hts : ∀ t ∈ ts, t.Carries P home) : (unwind t e m ts).Carries P home := by
  cases t with
  | leave caller => exact carries_ofError (carries_leave ht hm) hts e
  | report => exact carries_ofTasks (hm.of_output _) hts
  | rescue handler =>
    have hmessage := List.forall_mem_cons.mpr ⟨hP.str e.message, hm.stack⟩
    exact carries_invoke ht (hm.of_stack hmessage) hts
  | _ => exact carries_ofError hm hts e

/-- **A step passes values on.** -/
theorem carries_step (h : p.Carries P home) (hfits : p.step.machine.heap.Fits P) :
    p.step.Carries P home := by
  obtain ⟨m, tasks, error⟩ := p
  cases tasks with
  | nil => exact h
  | cons t ts =>
    obtain ⟨ht, hts⟩ := List.forall_mem_cons.mp h.tasks
    cases error with
    | some e => exact carries_unwind hP ht e h.machine hts
    | none =>
      cases hy : m.stopped && t.yields with
      | true =>
        simp only [step, hy]
        exact carries_ofTasks h.machine hts
      | false =>
        simp only [step, hy] at hfits ⊢
        exact carries_perform hP ht h.machine hts hfits

end Execution

end ReversePolish

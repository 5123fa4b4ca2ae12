import Mathlib.Logic.Relation
import ReversePolish.Proofs.Execution.Carrying
import ReversePolish.Proofs.Execution.Ground
import ReversePolish.Proofs.Session.Feeding
import ReversePolish.Proofs.Value.Homed

/-!
What is asked of a machine, one thing after the other and in any order: to run a text or values, to
call a name, to read a text, or to take a line. Whatever that is and however it fails, at every
moment there is a module for the current namespace and a frame for every call.
-/

namespace ReversePolish

namespace Machine

/-- The machine is in a namespace that there is, and every call has its frame. -/
structure Sound (limits : Limits) (m : Machine) : Prop where
  grounded : m.scope.Grounded
  frames : m.scope.frames.length = m.calls
  calls : m.calls ≤ limits.calls
  limits : m.limits = limits

variable {limits : Limits} {home : String} {registry : Registry} {loader : Loader} {disk : Disk}
  {output : Sink} {display : Display} {P : Value → Prop} {allowed : String → Prop} {m : Machine}

lemma sound_initial : (initial home registry loader disk output limits display).Sound limits :=
  ⟨(Scope.has_initial home).mpr rfl, rfl, Nat.zero_le _, rfl⟩

/-- At first there are no values but those in what is registered. -/
lemma carries_initial (hhome : allowed home)
    (hr : ∀ e ∈ registry.entries, e.2.Carries P allowed) :
    (initial home registry loader disk output limits display).Carries P allowed where
  stack := List.forall_mem_nil _
  heap := Heap.allHold_empty
  scope := Scope.holds_initial home
  programs := List.forall_mem_nil _
  names := Scope.names_initial hhome
  registry := hr

/-- All programs on the machine belong to namespaces with names, and so do all modules. -/
abbrev Homed (m : Machine) : Prop := m.Carries Value.Homed (· ≠ "")

lemma Carries.named (h : m.Carries P (· ≠ "")) : m.scope.Named := Scope.named_iff_names.mpr h.names

lemma homed_initial (h : home ≠ "") : (initial home .core loader disk output limits display).Homed := by
  refine carries_initial h (Table.forall_ofList fun e he => ?_)
  obtain ⟨w, -, rfl⟩ := List.mem_map.mp he
  exact Command.homed_ofWord w

end Machine

namespace Action

/-- All values of a text, with storage. -/
def readAll (text : String) : Action (List Value) := do
  store (← demand fun m => m.parse text)

lemma changes_readAll {m₀ : Machine} (text : String) : Keeps m₀.Changes (readAll text) :=
  (keeps_demand _).bind fun _ => changes_onHeap _

lemma onlyAdds_readAll {h₀ : Heap} (text : String) : OnlyAdds h₀ (readAll text) :=
  (keeps_demand _).bind onlyAdds_store

/-- What is read can be given back to be run. -/
lemma passes_readAll {P : Value → Prop} {home : String → Prop} (hP : Value.Hereditary P home)
    (text : String) : Passes P home (fun vs => ∀ v ∈ vs, P v) (readAll text) :=
  (yields_parsed hP text).bindPasses fun _ hds => passes_store hds

end Action

namespace Execution

variable {limits : Limits} {m : Machine} {ts : List Task} {p : Execution}

/-- The machine is sound, and each program that is to be left is one of its calls. -/
structure Sound (limits : Limits) (p : Execution) : Prop where
  machine : p.machine.Sound limits
  calls : p.machine.calls = depth p.tasks

/-- **A step keeps a machine sound.** -/
theorem sound_step (h : p.Sound limits) : p.step.Sound limits := by
  have hlevel : Level 0 p.step := level_step (h.machine.frames.trans h.calls)
  have hcalls : p.step.machine.calls = depth p.step.tasks ∧
      p.step.machine.calls ≤ limits.calls := by
    have hstep := calls_step p
    have hdepth := h.calls
    have hle := h.machine.calls
    rw [h.machine.limits] at hstep
    omega
  exact ⟨⟨grounded_step h.machine.grounded, hlevel.trans hcalls.1.symm, hcalls.2,
    (limits_step p).trans h.machine.limits⟩, hcalls.1⟩

/-- The same for whatever does the work of a task. -/
lemma Proceeds.sound (hp : Proceeds m ts p) (hm : m.Sound limits) (hts : m.calls = depth ts) :
    p.Sound limits := by
  have hlevel : Level 0 p := hp.level (hm.frames.trans hts)
  have hgrounded : p.machine.scope.Grounded :=
    hp.keeps (P := fun m => m.scope.Grounded) (fun _ _ hm => hm.grounded)
      (fun _ _ h => grounded_switch h) hm.grounded
  have hlimits : p.machine.limits = limits :=
    hp.keeps (P := fun m => m.limits = limits) (fun _ _ hm h => hm.limits.trans h)
      (fun _ _ h => h) hm.limits
  have hcalls : p.machine.calls = depth p.tasks ∧ p.machine.calls ≤ limits.calls := by
    have hwork := hp.callDepth
    have hle := hm.calls
    rw [hm.limits] at hwork
    omega
  exact ⟨⟨hgrounded, hlevel.trans hcalls.1.symm, hcalls.2, hlimits⟩, hcalls.1⟩

end Execution

/-- A machine that things are asked of. -/
structure Driver where
  execution : Execution
  /-- What is left of the line that is being taken. -/
  line : Option Reader
  /-- The text of a form that is still open. -/
  pending : String

namespace Driver

def machine (d : Driver) : Machine := d.execution.machine

def session (d : Driver) : Session := ⟨d.machine, d.pending⟩

/-- The session waits to be asked something. -/
def waiting (s : Session) : Driver := ⟨.ofTasks s.machine [], none, s.pending⟩

/-- Nothing is being done. -/
def Idle (d : Driver) : Prop := d.execution.tasks = [] ∧ d.line = none

/-- Goes on with the line that is being taken. Nothing of it is being run. -/
def turn (r : Reader) (m : Machine) : Driver :=
  if m.stopped then waiting (.start m)
  else
    match r.next m.setting with
    | .value x r' => ⟨.ofDatum x m [.report], some r', ""⟩
    | .ended _ => waiting (.start m)
    | .failed e r' => waiting (if e.isIncomplete then ⟨m, r'.unitText⟩ else .start (m.report e))

/-- What can be asked of a machine: to run a text, to run a value or a sequence of values, to call a
name, or to read a text. The values come from outside, and have the property `P`. -/
inductive Asked (P : Value → Prop) (m : Machine) : Execution → Prop where
  | source (text : String) : Asked P m (.ofTasks m [.source (.ofText text)])
  | execute {v : Value} : P v → Asked P m (.ofTasks m [.run v])
  | sequence {vs : List Value} : (∀ v ∈ vs, P v) → Asked P m (.ofTasks m [.sequence vs])
  | call (name : String) : Asked P m (.call name m [])
  | parse (text : String) : Asked P m (.after (Action.readAll text) m [] fun _ => [])

/-- Something is asked when nothing is being done, or what is being done goes on. At any time files
change and interrupts come, and a form that is still open may be forgotten. -/
inductive Step (P : Value → Prop) (d : Driver) : Driver → Prop where
  | ask {p : Execution} : d.Idle → Asked P d.machine p → Step P d { d with execution := p }
  | line (text : String) : d.Idle →
      Step P d ⟨.ofTasks d.session.cleared [], some (.ofText (d.session.continued text)), ""⟩
  | step : Step P d { d with execution := d.execution.step }
  | turn {r : Reader} : d.execution.tasks = [] → d.line = some r → Step P d (turn r d.machine)
  | outside (disk : Disk) (interrupted : Bool) : Step P d
      { d with execution.machine := { d.machine with disk := disk, interrupted := interrupted } }
  | cancel : Step P d { d with pending := "" }

/-- What comes of a driver by steps. -/
abbrev Leads (P : Value → Prop) : Driver → Driver → Prop := Relation.ReflTransGen (Step P)

variable {limits : Limits} {m : Machine} {p q : Execution} {d d' : Driver} {s s' : Session}
  {P : Value → Prop} {v : Value}

/-! ### Sessions -/

lemma steps_of_reaches {line : Option Reader} {pending : String} (h : p.Reaches q) :
    Leads P ⟨p, line, pending⟩ ⟨q, line, pending⟩ :=
  h.keeps (P := fun q => Leads P ⟨p, line, pending⟩ ⟨q, line, pending⟩)
    (fun _ hq => hq.tail .step) .refl

lemma turn_stopped {r : Reader} (hm : m.stopped = true) : turn r m = waiting (.start m) := if_pos hm

lemma steps_feeds {fuel : Nat} {r : Reader} {hs : List Mishap} {said : Feed} {e : Option Error}
    (h : Session.Feeds fuel r m hs said s) :
    Leads P ⟨⟨m, [], e⟩, some r, ""⟩ (waiting s) := by
  have hturn {r : Reader} {m : Machine} {e : Option Error} :
      Step P ⟨⟨m, [], e⟩, some r, ""⟩ (turn r m) := .turn rfl rfl
  induction h generalizing e with
  | exit hexit =>
    rw [← turn_stopped (by simp [Machine.stopped, hexit])]
    exact .single hturn
  | interrupted _ hint =>
    rw [← turn_stopped (by simp [Machine.stopped, hint])]
    exact .single hturn
  | @value r r' m x p hs said s hm hr hp _ ih =>
    obtain ⟨m', tasks, e'⟩ := p
    obtain ⟨hreach, rfl⟩ : _ ∧ tasks = [] := Execution.reaches_of_run hp
    have hunit : turn r m = ⟨.ofDatum x m [.report], some r', ""⟩ := by simp [turn, hm, hr]
    exact .head (hunit ▸ hturn) ((steps_of_reaches hreach).trans ih)
  | @ended r r' m hm hr =>
    have hend : turn r m = waiting (.start m) := by simp [turn, hm, hr]
    exact .single (hend ▸ hturn)
  | @opened r r' m e' hm hr he =>
    have hopen : turn r m = waiting ⟨m, r'.unitText⟩ := by simp [turn, hm, hr, he]
    exact .single (hopen ▸ hturn)
  | @refused r r' m e' hm hr he =>
    have hrefuse : turn r m = waiting (.start (m.report e')) := by simp [turn, hm, hr, he]
    exact .single (hrefuse ▸ hturn)

/-- **To feed a session a line** is to have its machine take that line. -/
theorem steps_feed {fuel : Nat} {line : String} {said : Feed}
    (h : s.feed fuel line = some (said, s')) :
    Leads P (waiting s) (waiting s') :=
  .head (.line line ⟨rfl, rfl⟩) (steps_feeds (Session.feeds_of_feedFrom h))

/-! ### What is kept -/

lemma Asked.proceeds (h : Asked P m p) : Execution.Proceeds m [] p := by
  cases h with
  | call name => exact Execution.proceeds_call name .refl rfl
  | parse text =>
    exact Execution.proceeds_after (Action.changes_readAll text) .refl
      fun _ => Execution.fresh_nil
  | _ => exact Execution.proceeds_ofTasks [_] .refl (by simp [Execution.Fresh, Task.leaves])

lemma sound_waiting (hs : s.machine.Sound limits) (hcalls : s.machine.calls = 0) :
    (waiting s).execution.Sound limits := ⟨hs, hcalls⟩

lemma sound_turn (hm : m.Sound limits) (hcalls : m.calls = 0) (r : Reader) :
    (turn r m).execution.Sound limits := by
  have hreport (e : Error) : (m.report e).Sound limits :=
    ⟨hm.grounded, hm.frames, hm.calls, hm.limits⟩
  unfold turn
  split
  · exact sound_waiting hm hcalls
  · split
    · exact ⟨⟨hm.grounded, hm.frames, hm.calls, hm.limits⟩, hcalls⟩
    · exact sound_waiting hm hcalls
    · split
      · exact sound_waiting hm hcalls
      · exact sound_waiting (hreport _) hcalls

/-- **Whatever is asked of a machine keeps it sound.** -/
theorem sound_next (hd : d.execution.Sound limits) (h : Step P d d') :
    d'.execution.Sound limits := by
  have hm : d.machine.Sound limits := hd.machine
  have hcalls (htasks : d.execution.tasks = []) : d.machine.calls = 0 := by
    rw [machine, hd.calls, htasks]
    rfl
  cases h with
  | ask hidle hasked => exact hasked.proceeds.sound hm (hcalls hidle.1)
  | line text hidle => exact ⟨⟨hm.grounded, hm.frames, hm.calls, hm.limits⟩, hcalls hidle.1⟩
  | step => exact Execution.sound_step hd
  | turn htasks _ => exact sound_turn hm (hcalls htasks) _
  | outside => exact ⟨⟨hm.grounded, hm.frames, hm.calls, hm.limits⟩, hd.calls⟩
  | cancel => exact hd

lemma sound_of_leads (h : Leads P d d') (hd : d.execution.Sound limits) :
    d'.execution.Sound limits := by
  induction h with
  | refl => exact hd
  | tail _ hstep ih => exact sound_next ih hstep

/-! ### Values -/

lemma Asked.extends (h : Asked P m p) : m.heap.Extends p.machine.heap := by
  cases h with
  | call name =>
    rw [Execution.heap_call]
    exact .refl _
  | parse text => exact Execution.extends_after (Action.onlyAdds_readAll text) _
  | _ => exact .refl _

lemma extends_turn (r : Reader) (m : Machine) : m.heap.Extends (turn r m).machine.heap := by
  unfold turn
  split
  · exact .refl _
  · split
    · exact Datum.extends_store _ _ _
    · exact .refl _
    · split <;> exact .refl _

/-- No cell goes away, whatever is asked. -/
lemma heap_has_next (hv : d.machine.heap.Has v) (h : Step P d d') : d'.machine.heap.Has v := by
  cases h with
  | ask _ hasked => exact hasked.extends.has hv
  | step => exact Execution.heap_has_step hv
  | turn => exact (extends_turn _ _).has hv
  | _ => exact hv

variable {Q : Value → Prop} {home : String → Prop}

lemma fits_of_next (hfits : d'.machine.heap.Fits Q) (h : Step P d d') : d.machine.heap.Fits Q := by
  cases h with
  | ask _ hasked => exact hasked.extends.fits hfits
  | step => exact ((Execution.extends_step _).fits hfits).of_apply
  | turn => exact (extends_turn _ _).fits hfits
  | _ => exact hfits

lemma Asked.carries (h : Asked P m p) (hQ : Value.Hereditary Q home) (hP : ∀ v, P v → Q v)
    (hm : m.Carries Q home) (hfits : p.machine.heap.Fits Q) : p.Carries Q home := by
  cases h with
  | source text => exact ⟨hm, List.forall_mem_singleton.mpr trivial⟩
  | execute hv => exact ⟨hm, List.forall_mem_singleton.mpr (hP _ hv)⟩
  | sequence hvs => exact ⟨hm, List.forall_mem_singleton.mpr fun v hv => hP v (hvs v hv)⟩
  | call name => exact Execution.carries_call hQ name hm (List.forall_mem_nil _)
  | parse text =>
    exact Execution.carries_after (Action.passes_readAll hQ text) hm (List.forall_mem_nil _)
      (fun _ _ => List.forall_mem_nil _) hfits

lemma carries_turn (hQ : Value.Hereditary Q home) (hm : m.Carries Q home) (r : Reader)
    (hfits : (turn r m).machine.heap.Fits Q) : (turn r m).execution.Carries Q home := by
  unfold turn at hfits ⊢
  cases hstop : m.stopped with
  | true => exact ⟨hm, List.forall_mem_nil _⟩
  | false =>
    cases hr : r.next m.setting with
    | value x r' =>
      simp only [hstop, hr] at hfits
      obtain ⟨hv, hh⟩ := hm.made hQ (Reader.made_next hr) none _ nofun hm.heap hfits
      exact ⟨hm.of_heap hh, List.forall_mem_cons.mpr ⟨hv, List.forall_mem_singleton.mpr trivial⟩⟩
    | ended r' => exact ⟨hm, List.forall_mem_nil _⟩
    | failed e r' =>
      simp only [Bool.false_eq_true, if_false]
      split
      · exact ⟨hm, List.forall_mem_nil _⟩
      · exact ⟨hm.of_output _, List.forall_mem_nil _⟩

/-- **Values pass on what they pass on**, whatever is asked of a machine, if the values that come from
outside have the property and it holds of the cells that there are then. -/
theorem carries_next (hQ : Value.Hereditary Q home) (hP : ∀ v, P v → Q v)
    (hd : d.execution.Carries Q home) (h : Step P d d') (hfits : d'.machine.heap.Fits Q) :
    d'.execution.Carries Q home := by
  have hm : d.machine.Carries Q home := hd.machine
  cases h with
  | ask _ hasked => exact hasked.carries hQ hP hm hfits
  | line =>
    exact ⟨⟨hm.stack, hm.heap, hm.scope, hm.programs, hm.names, hm.registry⟩, List.forall_mem_nil _⟩
  | step => exact Execution.carries_step hQ hd hfits
  | turn => exact carries_turn hQ hm _ hfits
  | outside => exact ⟨⟨hm.stack, hm.heap, hm.scope, hm.programs, hm.names, hm.registry⟩, hd.tasks⟩
  | cancel => exact hd

/-- If the property holds of the cells in the end, then it has done so at every moment before. -/
lemma carries_of_leads (hQ : Value.Hereditary Q home) (hP : ∀ v, P v → Q v) (h : Leads P d d')
    (hd : d.execution.Carries Q home) (hfits : d'.machine.heap.Fits Q) :
    d'.execution.Carries Q home := by
  induction h with
  | refl => exact hd
  | tail _ hstep ih =>
    exact carries_next hQ hP (ih (fits_of_next hfits hstep)) hstep hfits

/-- Programs stay at home, if no other programs come from outside. -/
lemma homed_of_leads (hP : ∀ v, P v → v.Homed) (h : Leads P d d')
    (hd : d.execution.Carries Value.Homed (· ≠ "")) :
    d'.execution.Carries Value.Homed (· ≠ "") :=
  carries_of_leads Value.hereditary_homed hP h hd (Heap.fits_homed _)

/-! ### Modules stay -/

@[simp] lemma scope_turn (r : Reader) (m : Machine) : (turn r m).machine.scope = m.scope := by
  unfold turn
  split
  · rfl
  · split
    · rfl
    · rfl
    · split <;> rfl

lemma has_next {name : String} (hname : d.machine.scope.Has name) (h : Step P d d') :
    d'.machine.scope.Has name := by
  cases h with
  | ask _ hasked =>
    exact hasked.proceeds.keeps (P := fun m => m.scope.Has name) (fun _ _ hm => hm.has)
      (fun _ _ h => h.switch) hname
  | step => exact Execution.has_step hname
  | turn _ _ => rwa [scope_turn]
  | _ => exact hname

lemma has_of_leads {name : String} (h : Leads P d d') (hname : d.machine.scope.Has name) :
    d'.machine.scope.Has name := by
  induction h with
  | refl => exact hname
  | tail _ hstep ih => exact has_next ih hstep

/-! ### All that can be asked -/

/-- **Whatever is asked of a machine**, in whatever order, and however it fails: at every moment the
current namespace is that of a module, and modules stay. No module is without a name, unless a
program that belongs to a namespace without a name came from outside. There is a frame for every
call, and there are no more calls than the limit allows. When nothing is being done, there are
none. -/
theorem machine_stays_sound {home : String} {loader : Loader} {disk : Disk} {display : Display}
    (hhome : home ≠ "")
    (hd : Leads P (waiting (.start (.initial home .core loader disk output limits display))) d) :
    d.machine.scope.Grounded ∧ ((∀ v, P v → v.Homed) → ¬ d.machine.scope.Has "") ∧
    (∀ d' name, Leads P d d' → d.machine.scope.Has name → d'.machine.scope.Has name) ∧
    d.machine.scope.frames.length = d.machine.calls ∧
    d.machine.calls = Execution.depth d.execution.tasks ∧ d.machine.calls ≤ limits.calls ∧
    (d.Idle → d.machine.calls = 0) := by
  have hsound := sound_of_leads hd (sound_waiting Machine.sound_initial rfl)
  have hnamed (hP : ∀ v, P v → v.Homed) : ¬ d.machine.scope.Has "" :=
    have hbegun : (Machine.initial home .core loader disk output limits display).Homed :=
      Machine.homed_initial hhome
    (homed_of_leads hP hd ⟨hbegun, List.forall_mem_nil _⟩).machine.named.modules
  refine ⟨hsound.machine.grounded, hnamed, fun _ _ => has_of_leads, hsound.machine.frames,
    hsound.calls, hsound.machine.calls, fun hidle => ?_⟩
  rw [machine, hsound.calls, hidle.1]
  rfl

/-- A program that goes to another namespace and runs a program from there, as deep as the limit
allows. When both have been left, that namespace is still there. -/
theorem sound_two_calls_deep :
    let word (w : Word) : Value := .command (.ofWord w) false
    let inner : Program := ⟨[.none], "c", none⟩
    let outer : Program := ⟨[.str "b", word .setNs, .program inner, word .eval], "a", none⟩
    let m : Machine := .initial "main" .core Loader.disabled default .empty { calls := 2 } {}
    let p := Execution.ofTasks m [.sequence [.program outer, word .eval]]
    let after (n : Nat) : Driver := ⟨Execution.step^[n] p, none, ""⟩
    (after 4).machine.scope.current = "b" ∧ (after 4).machine.scope.Has "b" ∧
      (after 6).machine.scope.current = "c" ∧ (after 6).machine.calls = 2 ∧
      (after 6).machine.scope.frames.length = 2 ∧ ¬ (after 6).machine.scope.Has "" ∧
      (after 12).Idle ∧ (after 12).machine.calls = 0 ∧ (after 12).machine.scope.Has "b" := by
  intro word inner outer m p after
  have hvalues : ∀ v ∈ [.program outer, word .eval], Value.Homed v := by
    have hword (w : Word) : (word w).Homed := Value.homed_command.mpr (Command.homed_ofWord w)
    have hinner : Value.Homed (.program inner) :=
      .program (by decide) (List.forall_mem_singleton.mpr .none)
    have houter : Value.Homed (.program outer) :=
      .program (by decide) (by simp [outer, hword, hinner, Value.Homed.str])
    simp [hword, houter]
  have hsteps (n : Nat) : Leads Value.Homed (waiting (.start m)) (after n) :=
    .head (.ask ⟨rfl, rfl⟩ (.sequence hvalues)) (steps_of_reaches ⟨n, rfl⟩)
  have hlater : Leads Value.Homed (after 4) (after 12) := steps_of_reaches ⟨8, rfl⟩
  obtain ⟨hb, -, hstay, -⟩ := machine_stays_sound (by decide) (hsteps 4)
  obtain ⟨-, hnamed, -, hframes, -⟩ := machine_stays_sound (by decide) (hsteps 6)
  obtain ⟨-, -, -, -, -, -, hidle⟩ := machine_stays_sound (by decide) (hsteps 12)
  have hcurrent : (after 4).machine.scope.current = "b" := by rfl
  have hcalls : (after 6).machine.calls = 2 := by rfl
  have hdone : (after 12).Idle := ⟨by rfl, rfl⟩
  rw [Scope.Grounded, hcurrent] at hb
  exact ⟨hcurrent, hb, by rfl, hcalls, hframes.trans hcalls, hnamed fun _ => id, hdone, hidle hdone,
    hstay _ "b" hlater hb⟩

/-- A program that belongs to a namespace without a name comes from outside. To enter it makes a module
for its namespace. -/
theorem nameless_program_makes_nameless_module :
    let m : Machine := .initial "main" .core Loader.disabled default .empty {} {}
    let p := Execution.ofTasks m
      [.sequence [.program ⟨[], "", none⟩, .command (.ofWord .eval) false]]
    let d : Driver := ⟨Execution.step^[2] p, none, ""⟩
    Leads (fun _ => True) (waiting (.start m)) d ∧ d.machine.scope.Has "" ∧
      ¬ ∀ d', Leads (fun _ => True) (waiting (.start m)) d' → ¬ d'.machine.scope.Has "" := by
  intro m p d
  have hd : Leads (fun _ => True) (waiting (.start m)) d :=
    .head (.ask ⟨rfl, rfl⟩ (.sequence fun _ _ => trivial)) (steps_of_reaches ⟨2, rfl⟩)
  have hhas : d.machine.scope.Has "" := by rfl
  exact ⟨hd, hhas, fun h => h d hd hhas⟩

end Driver

end ReversePolish

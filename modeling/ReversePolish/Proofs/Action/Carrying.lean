import ReversePolish.Proofs.Action.Storage
import ReversePolish.Proofs.Scope
import ReversePolish.Proofs.Stack
import ReversePolish.Proofs.Value.Hereditary

/-!
Words pass values on. If all values on the machine have a property that values pass on to what they
are made of, then they have it after a word, too, provided that it holds of the cells that there are
then. Most words add no cell, and where a word adds some, all that follows in it only adds more.
-/

namespace ReversePolish

variable {P : Value → Prop} {home : String → Prop}

/-- All values on the machine have the property, and the programs that run are made of such values. All
namespaces have such names. -/
structure Machine.Carries (P : Value → Prop) (home : String → Prop) (m : Machine) : Prop where
  stack : ∀ v ∈ m.stack, P v
  heap : m.heap.AllHold P
  scope : m.scope.Holds P
  programs : ∀ p ∈ m.scope.frames.map (·.program), p.Carries P home
  names : m.scope.Names home
  registry : ∀ e ∈ m.registry.entries, e.2.Carries P home

namespace Machine.Carries

variable {m : Machine}

lemma of_stack {s : Stack} (h : m.Carries P home) (hs : ∀ v ∈ s, P v) :
    ({ m with stack := s } : Machine).Carries P home :=
  ⟨hs, h.heap, h.scope, h.programs, h.names, h.registry⟩

lemma of_heap {h' : Heap} (h : m.Carries P home) (hh : h'.AllHold P) :
    ({ m with heap := h' } : Machine).Carries P home :=
  ⟨h.stack, hh, h.scope, h.programs, h.names, h.registry⟩

lemma of_scope {s : Scope} (h : m.Carries P home) (hs : s.Holds P) (hn : s.Names home)
    (hp : s.frames.map (·.program) = m.scope.frames.map (·.program)) :
    ({ m with scope := s } : Machine).Carries P home :=
  ⟨h.stack, h.heap, hs, hp ▸ h.programs, hn, h.registry⟩

lemma of_registry {r : Registry} (h : m.Carries P home)
    (hr : ∀ e ∈ r.entries, e.2.Carries P home) :
    ({ m with registry := r } : Machine).Carries P home :=
  ⟨h.stack, h.heap, h.scope, h.programs, h.names, hr⟩

lemma of_output (h : m.Carries P home) (o : Sink) :
    ({ m with output := o } : Machine).Carries P home :=
  ⟨h.stack, h.heap, h.scope, h.programs, h.names, h.registry⟩

lemma mono {Q : Value → Prop} (h : m.Carries P home) (hPQ : ∀ v, P v → Q v) : m.Carries Q home where
  stack v hv := hPQ v (h.stack v hv)
  heap := ⟨fun c v hv => hPQ v (h.heap.items c v hv), fun c e he => hPQ _ (h.heap.entries c e he),
    fun c e he => (h.heap.links c e he).mono hPQ⟩
  scope := ⟨fun e he x hx => hPQ _ (h.scope.modules e he x hx),
    fun f hf x hx => hPQ _ (h.scope.locals f hf x hx)⟩
  programs p hp := (h.programs p hp).mono hPQ
  names := h.names
  registry e he := (h.registry e he).mono hPQ

variable (hP : Value.Hereditary P home)

include hP

/-- What is read now carries the property. -/
lemma made {d : Datum Command} {n : Nat} (h : m.Carries P home) (hd : d.Made m.setting n) :
    d.Carries P :=
  hd.carries hP h.names.current fun _ _ hc => h.registry _ (Table.mem_of_find? hc)

lemma parse {text : String} {ds : List (Datum Command)} (h : m.Carries P home)
    (hds : m.parse text = .ok ds) : ∀ d ∈ ds, d.Carries P := fun d hd =>
  h.made hP (Reader.made_readAll _ _ hds d hd)

end Machine.Carries

namespace Action

variable {α β : Type} {Q : α → Prop} {R : β → Prop} {a : Action α} {f : α → Action β}

/-- If the property holds of the cells that there are after the action, then the machine carries the
property on, and what the action gives is as it should be. -/
def Passes (P : Value → Prop) (home : String → Prop) (Q : α → Prop) (a : Action α) : Prop :=
  ∀ m, m.Carries P home → (machine (a.run m)).heap.Fits P →
    (machine (a.run m)).Carries P home ∧ ∀ x m', a.run m = .ok x m' → Q x

/-- An action that adds no cell passes values on whatever the heap is. -/
lemma Yields.passes (ha : Yields (Machine.Carries P home) Q a) : Passes P home Q a :=
  fun m hm _ => ⟨ha.1 m hm, fun x m' => ha.2 m x m' hm⟩

lemma Keeps.passes (ha : Keeps (Machine.Carries P home) a) : Passes P home (fun _ => True) a :=
  ha.yields.passes

/-- An action that may add cells comes after one that adds none. -/
lemma Yields.bindPasses (ha : Yields (Machine.Carries P home) Q a)
    (hf : ∀ x, Q x → Passes P home R (f x)) : Passes P home R (a >>= f) := by
  intro m hm hfits
  have hkeeps := ha.1 m hm
  cases hr : a.run m with
  | ok x m₁ =>
    rw [hr] at hkeeps
    rw [run_bind_ok hr] at hfits ⊢
    exact hf x (ha.2 m x m₁ hm hr) m₁ hkeeps hfits
  | error e m₁ =>
    rw [hr] at hkeeps
    rw [run_bind_error hr]
    exact ⟨hkeeps, fun _ _ => nofun⟩

lemma Keeps.bindPasses (ha : Keeps (Machine.Carries P home) a)
    (hf : ∀ x, Passes P home R (f x)) : Passes P home R (a >>= f) :=
  ha.yields.bindPasses fun x _ => hf x

/-- When cells have been added, more may follow: if the property holds of the cells in the end, then it
does so in between. -/
lemma Passes.bind (ha : Passes P home Q a) (hadds : ∀ x h, OnlyAdds h (f x))
    (hf : ∀ x, Q x → Passes P home R (f x)) : Passes P home R (a >>= f) := by
  intro m hm hfits
  have ha := ha m hm
  cases hr : a.run m with
  | ok x m₁ =>
    rw [hr] at ha
    rw [run_bind_ok hr] at hfits ⊢
    have hgrows : m₁.heap.Extends (machine ((f x).run m₁)).heap := hadds x m₁.heap m₁ (.refl _)
    obtain ⟨hm₁, hx⟩ := ha (hgrows.fits hfits)
    exact hf x (hx x m₁ rfl) m₁ hm₁ hfits
  | error e m₁ =>
    rw [hr] at ha
    rw [run_bind_error hr] at hfits ⊢
    exact ⟨(ha hfits).1, fun _ _ => nofun⟩

lemma passes_guard {c : Prop} [Decidable c] {e : Error} {b : PUnit → Action β}
    (hb : ¬ c → Passes P home R (b ⟨⟩)) :
    Passes P home R (if c then throw e >>= b else b ⟨⟩) := by
  split
  · exact fun m hm _ => ⟨hm, fun _ _ hr => nomatch hr⟩
  · next hc => exact hb hc

lemma passes_mapM {xs : List α} (hadds : ∀ x h, OnlyAdds h (f x))
    (hf : ∀ x ∈ xs, Passes P home R (f x)) :
    Passes P home (fun ys => ∀ y ∈ ys, R y) (xs.mapM f) := by
  induction xs with
  | nil =>
    rw [List.mapM_nil]
    exact (yields_pure fun _ hy => (List.not_mem_nil hy).elim).passes
  | cons x xs ih =>
    obtain ⟨hx, hxs⟩ := List.forall_mem_cons.mp hf
    rw [List.mapM_cons]
    refine hx.bind (fun y h => ?_) fun y hy => ?_
    · exact (keeps_mapM fun x => hadds x h).bind fun ys => keeps_pure (y :: ys)
    · refine (ih hxs).bind (fun ys h => keeps_pure (y :: ys)) fun ys hys => ?_
      exact (yields_pure (List.forall_mem_cons.mpr ⟨hy, hys⟩)).passes

/-! ### The stack and the heap -/

lemma carries_push {v : Value} (hv : P v) : Keeps (Machine.Carries P home) (push v) := by
  refine keeps_demand_bind fun m s hm hs => hm.of_stack ?_
  obtain ⟨-, rfl⟩ := Stack.push_eq_ok_iff.mp hs
  exact List.forall_mem_cons.mpr ⟨hv, hm.stack⟩

lemma carries_drop (n : Nat) : Keeps (Machine.Carries P home) (drop n) :=
  keeps_modify fun _ hm => hm.of_stack fun v hv => hm.stack v (List.mem_of_mem_drop hv)

lemma yields_pop : Yields (Machine.Carries P home) P pop := by
  constructor
  · refine keeps_demand_bind fun m x hm hx => ?_
    obtain ⟨v, s⟩ := x
    have hs : m.stack = v :: s := Stack.pop_eq_ok_iff.mp hx
    exact hm.of_stack fun w hw => hm.stack w (by simp [hs, hw])
  · intro m v m' hm hr
    cases hs : m.stack with
    | nil =>
      rw [run_pop_nil hs] at hr
      cases hr
    | cons w s =>
      rw [run_pop_cons hs] at hr
      cases hr
      exact hm.stack v (by simp [hs])

lemma yields_peek (n : Nat) :
    Yields (Machine.Carries P home) P (demand fun m => m.stack.peek n) :=
  yields_demand fun _ _ hm hv => hm.stack _ (Stack.mem_of_peek hv)

lemma carries_forM_push {vs : List Value} (hvs : ∀ v ∈ vs, P v) :
    Keeps (Machine.Carries P home) (vs.forM push) := by
  induction vs with
  | nil => exact keeps_pure ()
  | cons v vs ih =>
    obtain ⟨hv, hvs⟩ := List.forall_mem_cons.mp hvs
    exact (carries_push hv).bind fun _ => ih hvs

lemma passes_newList {xs : Array Value} (hxs : ∀ v ∈ xs, P v) :
    Passes P home P (onHeap (Heap.newList xs)) := by
  intro m hm hfits
  refine ⟨hm.of_heap (hm.heap.newList hxs), fun v m' hr => ?_⟩
  cases hr
  exact hfits.cells _ (Heap.has_newList xs m.heap)

/-- A cell for a program that no program is around. -/
lemma passes_newLink : Passes P home (Program.MayLie P) (onHeap (Heap.newLink none)) := by
  intro m hm hfits
  refine ⟨hm.of_heap (hm.heap.newLink nofun), fun c m' hr => ?_⟩
  have hnew : m.heap.links.size < (m.heap.newLink none).2.links.size := by simp [Heap.newLink]
  cases hr
  exact hfits.programs _ hnew

lemma passes_store {ds : List (Datum Command)} (hds : ∀ d ∈ ds, d.Carries P) :
    Passes P home (fun vs => ∀ v ∈ vs, P v) (store ds) := by
  intro m hm hfits
  obtain ⟨hvs, hh⟩ := Datum.carries_storeAll hds (by simp) hm.heap hfits
  refine ⟨hm.of_heap hh, fun vs m' hr => ?_⟩
  cases hr
  exact hvs

/-! ### Words that add no cell -/

lemma carries_pick : Keeps (Machine.Carries P home) pick := by
  refine (keeps_peekInt 0).bind fun index => (keeps_natural _ _).bind fun n => ?_
  exact (yields_peek _).bind fun v hv => (carries_drop 1).bind fun _ => carries_push hv

lemma carries_recallVariable : Keeps (Machine.Carries P home) recallVariable := by
  refine (keeps_peekString 0).bind fun name => ?_
  have hfetch : Yields (Machine.Carries P home) P (demand fun m => m.scope.fetch name) :=
    yields_demand fun _ _ hm hv => hm.scope.fetch hv
  exact hfetch.bind fun v hv => (carries_drop 1).bind fun _ => carries_push hv

lemma carries_purgeVariable : Keeps (Machine.Carries P home) purgeVariable := by
  refine (keeps_peekString 0).bind fun name => ?_
  refine keeps_demand_bind fun m x hm hx => ?_
  exact carries_drop 1 _ (hm.of_scope (hm.scope.purge hx) (hm.names.purge hx)
    (by rw [Scope.frames_of_purge hx]))

lemma carries_storeLocal : Keeps (Machine.Carries P home) storeLocal := by
  refine (keeps_peekString 0).bind fun name => (yields_peek 1).bind fun v hv => ?_
  refine keeps_demand_bind fun m s hm hs => ?_
  exact carries_drop 2 _ (hm.of_scope (hm.scope.setLocal hv hs) (hm.names.setLocal hs)
    (Scope.programs_of_setLocal hs))

lemma carries_recallLocal : Keeps (Machine.Carries P home) recallLocal := by
  refine (keeps_peekString 0).bind fun name => ?_
  have hget : Yields (Machine.Carries P home) P (demand fun m => m.scope.getLocal name) :=
    yields_demand fun _ _ hm hv => hm.scope.getLocal hv
  exact hget.bind fun v hv => (carries_drop 1).bind fun _ => carries_push hv

lemma carries_unregister : Keeps (Machine.Carries P home) unregister := by
  refine (keeps_peekString 0).bind fun name => (keeps_ask _).bind fun known => ?_
  refine keeps_guard fun _ => ?_
  refine Keeps.bind (keeps_modify fun m hm => hm.of_registry fun e he => ?_) fun _ =>
    carries_drop 1
  exact hm.registry e (List.mem_of_mem_filter he)

lemma carries_printLine (line : String) : Keeps (Machine.Carries P home) (printLine line) :=
  keeps_printLine fun _ hm => hm.of_output _

lemma carries_print : Keeps (Machine.Carries P home) print := by
  refine (keeps_demand _).bind fun v => ?_
  cases v with
  | str s => exact (carries_printLine s).bind fun _ => carries_drop 1
  | _ => exact ((keeps_ask _).bind fun s => carries_printLine s).bind fun _ => carries_drop 1

lemma carries_save : Keeps (Machine.Carries P home) save := by
  refine (keeps_peekString 0).bind fun path => (keeps_demand _).bind fun v => ?_
  refine keeps_guard fun _ => keeps_get.bind fun m => keeps_get.bind fun m' => ?_
  split
  · refine Keeps.bind (keeps_modify fun _ hm => ?_) fun _ => carries_drop 2
    exact ⟨hm.stack, hm.heap, hm.scope, hm.programs, hm.names, hm.registry⟩
  · exact keeps_throw_bind _

lemma carries_help : Keeps (Machine.Carries P home) help :=
  (keeps_ask _).bind fun _ => (keeps_forM fun _ => carries_printLine _).bind fun _ =>
    carries_printLine _

variable (hP : Value.Hereditary P home)

include hP

lemma yields_peekProgram (n : Nat) :
    Yields (Machine.Carries P home) (Program.Carries P home) (peekProgram n) := by
  have hexpect : Yields (Machine.Carries P home) P (demand fun m => m.stack.expect n .program) :=
    yields_demand fun _ _ hm hv => hm.stack _ (Stack.mem_of_expect hv)
  refine hexpect.andThen fun v hv => ?_
  split
  · exact yields_pure (hP.program.mp hv)
  · exact yields_throw _

lemma yields_parsed (text : String) : Yields (Machine.Carries P home)
    (fun ds => ∀ d ∈ ds, d.Carries P) (demand fun m => m.parse text) :=
  yields_demand fun _ _ hm hds => hm.parse hP hds

lemma carries_storeVariable : Keeps (Machine.Carries P home) storeVariable := by
  refine (keeps_peekString 0).bind fun name => (keeps_demand _).bind fun _ => ?_
  refine (carries_drop 1).bind fun _ => yields_pop.bind fun v hv => ?_
  exact keeps_modify fun m hm => hm.of_scope (hm.scope.store hv)
    (hm.names.store hP.named name v) rfl

/-- No namespace without a name is gone to. -/
lemma carries_setNamespace : Keeps (Machine.Carries P home) setNamespace := by
  refine (keeps_peekString 0).bind fun name => keeps_guard fun hname => ?_
  refine (carries_drop 1).bind fun _ => keeps_modify fun m hm => ?_
  exact hm.of_scope hm.scope.switch (hm.names.switch (hP.named name (by simpa using hname)))
    (by simp)

lemma carries_registerProgram : Keeps (Machine.Carries P home) registerProgram := by
  refine (keeps_peekString 0).bind fun name => (yields_peekProgram hP 1).bind fun p hp => ?_
  refine keeps_demand_bind fun m r hm hr => carries_drop 2 _ (hm.of_registry ?_)
  unfold Registry.register at hr
  split at hr <;> cases hr
  exact Table.forall_insert hm.registry (Command.carries_ofProgram m.heap name hp)

/-! ### Words that add cells -/

omit hP in
lemma passes_list : Passes P home (fun _ => True) list := by
  refine (keeps_peekInt 0).bindPasses fun count => (keeps_natural _ _).bindPasses fun n => ?_
  refine (keeps_demand _).bindPasses fun _ => (carries_drop 1).bindPasses fun _ => ?_
  have htop : Yields (Machine.Carries P home) (fun vs => ∀ v ∈ vs, P v)
      (demand fun m => m.stack.top n) :=
    yields_demand fun _ _ hm hvs _ hv => hm.stack _ (Stack.mem_of_top hvs hv)
  refine htop.bindPasses fun vs hvs => (carries_drop n).bindPasses fun _ => ?_
  exact (passes_newList (by simpa using hvs)).bind (fun v _ => onlyAdds_push v)
    fun v hv => (carries_push hv).passes

/-- A text becomes a program of the current namespace. -/
lemma passes_parse : Passes P home (fun _ => True) parse := by
  refine (keeps_peekString 0).bindPasses fun text => ?_
  have hhome : Yields (Machine.Carries P home) home (ask fun m => m.scope.current) :=
    yields_ask fun _ hm => hm.names.current
  refine (yields_parsed hP text).bindPasses fun ds hds => (carries_drop 1).bindPasses fun _ => ?_
  refine (passes_store hds).bind (fun body h => ?_) fun body hbody => ?_
  · refine (keeps_ask _).bind fun current => (onlyAdds_newLink none).bind fun cell => ?_
    exact onlyAdds_push (.program ⟨body, current, some cell⟩)
  · refine hhome.bindPasses fun current hcurrent => passes_newLink.bind (fun cell _ => ?_)
      fun cell hcell => ?_
    · exact onlyAdds_push (.program ⟨body, current, some cell⟩)
    · exact (carries_push (hP.program.mpr ⟨hcurrent, by rintro _ ⟨⟩; exact hcell, hbody⟩)).passes

lemma passes_restore : Passes P home (fun _ => True) restore := by
  refine (keeps_peekString 0).bindPasses fun path => keeps_get.bindPasses fun m => ?_
  cases m.disk.read path with
  | error fault => exact (keeps_throw _).passes
  | ok text =>
    refine (yields_parsed hP text).bindPasses fun ds hds => passes_guard fun _ => ?_
    refine (carries_drop 1).bindPasses fun _ => ?_
    exact (passes_store hds).bind (fun vs h => keeps_forM onlyAdds_push)
      fun vs hvs => (carries_forM_push hvs).passes

/-- **Words pass values on.** -/
theorem passes_meaning {w : Word} {a : Action Unit} (hw : w.meaning = .action a) :
    Passes P home (fun _ => True) a := by
  cases w <;> cases hw
  case list => exact passes_list
  case vars =>
    refine (keeps_ask _).bindPasses fun names => ?_
    refine (passes_newList fun v hv => ?_).bind (fun v _ => onlyAdds_push v)
      fun v hv => (carries_push hv).passes
    obtain ⟨name, -, rfl⟩ := List.mem_map.mp (List.mem_toArray.mp hv)
    exact hP.str name
  case parse => exact passes_parse hP
  case restore => exact passes_restore hP
  -- All others add no cell.
  all_goals refine Keeps.passes ?_
  case depth => exact (keeps_demand _).bind fun n => carries_push (hP.int n)
  case clear => exact keeps_modify fun _ hm => hm.of_stack fun _ hv => (List.not_mem_nil hv).elim
  case pick => exact carries_pick
  case sto => exact carries_storeVariable hP
  case rcl => exact carries_recallVariable
  case purge => exact carries_purgeVariable
  case lsto => exact carries_storeLocal
  case lrcl => exact carries_recallLocal
  case setNs => exact carries_setNamespace hP
  case ns => exact (keeps_ask _).bind fun name => carries_push (hP.str name)
  case register => exact carries_registerProgram hP
  case unregister => exact carries_unregister
  case print => exact carries_print
  case help => exact carries_help
  case save => exact carries_save
  case exit =>
    exact keeps_modify fun _ hm => ⟨hm.stack, hm.heap, hm.scope, hm.programs, hm.names, hm.registry⟩
  case interrupt =>
    exact keeps_modify fun _ hm => ⟨hm.stack, hm.heap, hm.scope, hm.programs, hm.names, hm.registry⟩

end Action

end ReversePolish

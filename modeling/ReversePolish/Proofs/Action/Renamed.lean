import ReversePolish.Meaning
import ReversePolish.Proofs.Action
import ReversePolish.Proofs.Action.Renaming
import ReversePolish.Proofs.Operator.Renaming

/-!
Words do not see the names of cells. On a machine that has been renamed a word does what it does on the
other: it fails with the same error or succeeds, and it leaves the renamed machine. New cells are added
on both, and they go together.
-/

namespace ReversePolish

open Heap (Renamed)

namespace Action

variable {α β γ δ : Type} {ρ : Renaming} {k : Heap}

/-- The one run has come to what the other one has come to, but in other cells. -/
inductive Matches (ρ : Renaming) (k : Heap) (g : α → β) :
    EStateM.Result Error Machine α → EStateM.Result Error Machine β → Prop where
  | ok {x : α} {m : Machine} {h' : Heap} :
      m.heap.Renamed ρ h' k → Matches ρ k g (.ok x m) (.ok (g x) (m.rename ρ h'))
  | error {e : Error} {m : Machine} {h' : Heap} :
      m.heap.Renamed ρ h' k → Matches ρ k g (.error e m) (.error e (m.rename ρ h'))

/-- The second action does on a renamed machine what the first one does. What it gives is what the first
one gives, changed by `g`. -/
def Renames (ρ : Renaming) (k : Heap) (g : α → β) (a : Action α) (b : Action β) : Prop :=
  ∀ m h', m.heap.Renamed ρ h' k → Matches ρ k g (a.run m) (b.run (m.rename ρ h'))

variable {a : Action α} {b : Action β} {f : α → Action γ} {f' : β → Action δ} {g : α → β}
  {g' : γ → δ}

lemma renames_pure (x : α) : Renames ρ k g (pure x) (pure (g x)) := fun _ _ hh => .ok hh

lemma renames_throw (e : Error) : Renames ρ k g (throw e) (throw e) := fun _ _ hh => .error hh

lemma renames_throw_bind (e : Error) : Renames ρ k g' (throw e >>= f) (throw e >>= f') :=
  fun _ _ hh => .error hh

lemma renames_ofExcept (x : Except Error α) :
    Renames ρ k g (ofExcept x) (ofExcept (x.map g)) := by
  cases x with
  | ok x => exact renames_pure x
  | error e => exact renames_throw e

/-- What is no value is given as it is. -/
lemma renames_ofExcept_same (x : Except Error α) : Renames ρ k id (ofExcept x) (ofExcept x) := by
  cases x with
  | ok x => exact renames_pure x
  | error e => exact renames_throw e

lemma Renames.bind (ha : Renames ρ k g a b) (hf : ∀ x, Renames ρ k g' (f x) (f' (g x))) :
    Renames ρ k g' (a >>= f) (b >>= f') := by
  intro m h' hh
  have hab := ha m h' hh
  generalize ha' : a.run m = x at hab
  generalize hb' : b.run (m.rename ρ h') = y at hab
  cases hab with
  | ok hm =>
    rw [run_bind_ok ha', run_bind_ok hb']
    exact hf _ _ _ hm
  | error hm =>
    rw [run_bind_error ha', run_bind_error hb']
    exact .error hm

lemma Renames.bindSame {b : Action α} {f' : α → Action δ} (ha : Renames ρ k id a b)
    (hf : ∀ x, Renames ρ k g' (f x) (f' x)) : Renames ρ k g' (a >>= f) (b >>= f') :=
  ha.bind hf

lemma renames_guard {c : Prop} [Decidable c] {e : Error} {x : PUnit → Action α}
    {y : PUnit → Action β} (h : Renames ρ k g (x ⟨⟩) (y ⟨⟩)) :
    Renames ρ k g (if c then throw e >>= x else x ⟨⟩) (if c then throw e >>= y else y ⟨⟩) := by
  split
  · exact renames_throw_bind e
  · exact h

lemma renames_get_bind {f : Machine → Action α} {f' : Machine → Action β}
    (hf : ∀ m h', m.heap.Renamed ρ h' k → Renames ρ k g (f m) (f' (m.rename ρ h'))) :
    Renames ρ k g (get >>= f) (get >>= f') :=
  fun m h' hh => hf m h' hh m h' hh

lemma renames_ask {x : Machine → α} {y : Machine → β}
    (h : ∀ m h', m.heap.Renamed ρ h' k → y (m.rename ρ h') = g (x m)) :
    Renames ρ k g (ask x) (ask y) := by
  intro m h' hh
  show Matches ρ k g (.ok (x m) m) (.ok (y (m.rename ρ h')) (m.rename ρ h'))
  rw [h m h' hh]
  exact .ok hh

lemma renames_demand {x : Machine → Except Error α} {y : Machine → Except Error β}
    (h : ∀ m h', m.heap.Renamed ρ h' k → y (m.rename ρ h') = (x m).map g) :
    Renames ρ k g (demand x) (demand y) :=
  renames_get_bind fun m h' hh => by
    rw [h m h' hh]
    exact renames_ofExcept (x m)

lemma renames_demand_same {x y : Machine → Except Error α}
    (h : ∀ m h', m.heap.Renamed ρ h' k → y (m.rename ρ h') = x m) :
    Renames ρ k id (demand x) (demand y) :=
  renames_get_bind fun m h' hh => by
    rw [h m h' hh]
    exact renames_ofExcept_same (x m)

lemma renames_modify {x y : Machine → Machine} (hheap : ∀ m, (x m).heap = m.heap)
    (h : ∀ m h', m.heap.Renamed ρ h' k → y (m.rename ρ h') = (x m).rename ρ h') :
    Renames ρ k id (modify x) (modify y) := by
  intro m h' hh
  show Matches ρ k id (.ok PUnit.unit (x m)) (.ok PUnit.unit (y (m.rename ρ h')))
  rw [h m h' hh]
  exact .ok (by rwa [hheap])

lemma renames_forM {xs : List α} {f : α → Action Unit} {f' : β → Action Unit}
    (hf : ∀ x, Renames ρ k id (f x) (f' (g x))) :
    Renames ρ k id (xs.forM f) ((xs.map g).forM f') := by
  induction xs with
  | nil => exact renames_pure ()
  | cons x xs ih => exact (hf x).bindSame fun _ => ih

lemma renames_forM_same {xs : List α} {f f' : α → Action Unit}
    (hf : ∀ x, Renames ρ k id (f x) (f' x)) : Renames ρ k id (xs.forM f) (xs.forM f') := by
  have h : Renames ρ k id (xs.forM f) ((xs.map id).forM f') := renames_forM hf
  rwa [List.map_id] at h

lemma renames_mapM {xs : List α} (hf : ∀ x, Renames ρ k g' (f x) (f' (g x))) :
    Renames ρ k (List.map g') (xs.mapM f) ((xs.map g).mapM f') := by
  induction xs with
  | nil =>
    rw [List.map_nil, List.mapM_nil, List.mapM_nil]
    exact renames_pure []
  | cons x xs ih =>
    rw [List.map_cons, List.mapM_cons, List.mapM_cons]
    exact (hf x).bind fun y => ih.bind fun ys => renames_pure (y :: ys)

lemma renames_onHeap {x : Heap → α × Heap} {y : Heap → β × Heap}
    (h : ∀ h h', h.Renamed ρ h' k → (y h').1 = g (x h).1 ∧ (x h).2.Renamed ρ (y h').2 k) :
    Renames ρ k g (onHeap x) (onHeap y) := by
  intro m h' hh
  obtain ⟨hresult, hheap⟩ := h m.heap h' hh
  show Matches ρ k g (.ok (x m.heap).1 { m with heap := (x m.heap).2 })
    (.ok (y h').1 { m.rename ρ h' with heap := (y h').2 })
  rw [hresult]
  exact .ok (m := { m with heap := (x m.heap).2 }) hheap

/-! ### Looking at the stack and changing it -/

lemma renames_peek (n : Nat) : Renames ρ k (Value.rename ρ) (demand fun m => m.stack.peek n)
    (demand fun m => m.stack.peek n) :=
  renames_demand fun m _ _ => Stack.peek_rename ρ n m.stack

lemma renames_expect (n : Nat) (kind : Kind) : Renames ρ k (Value.rename ρ)
    (demand fun m => m.stack.expect n kind) (demand fun m => m.stack.expect n kind) :=
  renames_demand fun m _ _ => Stack.expect_rename ρ n kind m.stack

lemma renames_require (n : Nat) : Renames ρ k id (demand fun m => m.stack.require n)
    (demand fun m => m.stack.require n) :=
  renames_demand_same fun m _ _ => Stack.require_rename ρ n m.stack

lemma renames_peekString (n : Nat) : Renames ρ k id (peekString n) (peekString n) := by
  refine (renames_expect n .string).bind fun v => ?_
  cases v with
  | str s => exact renames_pure s
  | _ => exact renames_throw _

lemma renames_peekProgram (n : Nat) :
    Renames ρ k (Program.rename ρ) (peekProgram n) (peekProgram n) := by
  refine (renames_expect n .program).bind fun v => ?_
  cases v with
  | program p => exact renames_pure p
  | _ => exact renames_throw _

lemma renames_peekInt (n : Nat) : Renames ρ k id (peekInt n) (peekInt n) := by
  refine (renames_peek n).bind fun v => ?_
  rw [Value.asInt_rename]
  exact renames_ofExcept_same v.asInt

lemma renames_natural (n : Int64) (negative : Failure) :
    Renames ρ k id (natural n negative) (natural n negative) := by
  unfold natural
  split
  · exact renames_throw _
  · exact renames_pure _

lemma renames_drop (n : Nat) : Renames ρ k id (drop n) (drop n) :=
  renames_modify (fun _ => rfl) fun m h' _ => by simp [Machine.rename, List.map_drop]

lemma renames_push (v : Value) : Renames ρ k id (push v) (push (v.rename ρ)) := by
  have hpush : Renames ρ k (List.map (Value.rename ρ)) (demand fun m => m.stack.push v)
      (demand fun m => m.stack.push (v.rename ρ)) :=
    renames_demand fun m _ _ => Stack.push_rename ρ v m.stack
  exact hpush.bind fun s => renames_modify (fun _ => rfl) fun _ _ _ => rfl

lemma renames_pop : Renames ρ k (Value.rename ρ) pop pop := by
  have hpop : Renames ρ k (Prod.map (Value.rename ρ) (List.map (Value.rename ρ)))
      (demand fun m => m.stack.pop) (demand fun m => m.stack.pop) :=
    renames_demand fun m _ _ => Stack.pop_rename ρ m.stack
  refine hpop.bind fun (v, s) => ?_
  have hset : Renames ρ k id (modify fun m => { m with stack := s } : Action Unit)
      (modify fun m => { m with stack := s.map (Value.rename ρ) }) :=
    renames_modify (fun _ => rfl) fun _ _ _ => rfl
  exact hset.bindSame fun _ => renames_pure v

lemma renames_newList (xs : Array Value) : Renames ρ k (Value.rename ρ)
    (onHeap (Heap.newList xs)) (onHeap (Heap.newList (xs.map (Value.rename ρ)))) :=
  renames_onHeap fun _ _ hh => ⟨congrArg Value.list hh.newList_eq.symm, hh.newList xs⟩

lemma renames_newLink : Renames ρ k ρ.program (onHeap (Heap.newLink none))
    (onHeap (Heap.newLink none)) :=
  renames_onHeap fun _ _ hh => ⟨hh.newLink_eq.symm, hh.newLink none⟩

lemma renames_store (ds : List (Datum Command)) : Renames ρ k (List.map (Value.rename ρ))
    (store ds) (store (ds.map (Datum.rename ρ))) :=
  renames_onHeap fun _ _ hh =>
    have hplaced := Datum.placed_storeAll ds none hh.toMatched
    ⟨hplaced.result, hh.grow hplaced.grown⟩

lemma renames_printLine (line : String) : Renames ρ k id (printLine line) (printLine line) := by
  intro m h' hh
  have houtput : (m.rename ρ h').output = m.output := rfl
  rw [run_printLine, run_printLine, houtput, Machine.printLine_rename]
  cases m.output.refusal? line with
  | none => exact .ok (m := m.printLine line) hh
  | some reason => exact .error (m := m.printLine line) hh

lemma renames_modifyScope {x y : Scope → Scope} (h : ∀ s, y (s.rename ρ) = (x s).rename ρ) :
    Renames ρ k id (modifyScope x) (modifyScope y) :=
  renames_modify (fun _ => rfl) fun m _ _ => by simp [Machine.rename, h]

lemma renames_modifyRegistry {x y : Registry → Registry}
    (h : ∀ r, y (Registry.rename ρ r) = Registry.rename ρ (x r)) :
    Renames ρ k id (modifyRegistry x) (modifyRegistry y) :=
  renames_modify (fun _ => rfl) fun m _ _ => by simp [Machine.rename, h]

lemma renames_parsed (text : String) : Renames ρ k (List.map (Datum.rename ρ))
    (demand fun m => m.parse text) (demand fun m => m.parse text) :=
  renames_demand fun m h' _ => m.parse_rename ρ h' text

/-! ### Words -/

lemma renames_depth : Renames ρ k id depth depth := by
  refine (renames_demand_same fun m _ _ => ?_).bindSame fun n => renames_push (.int n)
  simp

lemma renames_pick : Renames ρ k id pick pick := by
  refine (renames_peekInt 0).bindSame fun index => (renames_natural _ _).bindSame fun n => ?_
  exact (renames_peek (n + 1)).bind fun v => (renames_drop 1).bindSame fun _ => renames_push v

lemma renames_list : Renames ρ k id list list := by
  refine (renames_peekInt 0).bindSame fun count => (renames_natural _ _).bindSame fun n => ?_
  refine (renames_require (n + 1)).bindSame fun _ => (renames_drop 1).bindSame fun _ => ?_
  have htop : Renames ρ k (List.map (Value.rename ρ)) (demand fun m => m.stack.top n)
      (demand fun m => m.stack.top n) :=
    renames_demand fun m _ _ => Stack.top_rename ρ n m.stack
  refine htop.bind fun vs => (renames_drop n).bindSame fun _ => ?_
  have hnew : Renames ρ k (Value.rename ρ) (onHeap (Heap.newList vs.toArray))
      (onHeap (Heap.newList (vs.map (Value.rename ρ)).toArray)) := by
    rw [← List.map_toArray]
    exact renames_newList _
  exact hnew.bind renames_push

lemma renames_storeVariable : Renames ρ k id storeVariable storeVariable := by
  refine (renames_peekString 0).bindSame fun name => (renames_require 2).bindSame fun _ => ?_
  refine (renames_drop 1).bindSame fun _ => renames_pop.bind fun v => ?_
  exact renames_modifyScope (Scope.store_rename ρ name v)

lemma renames_recallVariable : Renames ρ k id recallVariable recallVariable := by
  refine (renames_peekString 0).bindSame fun name => ?_
  have hfetch : Renames ρ k (Value.rename ρ) (demand fun m => m.scope.fetch name)
      (demand fun m => m.scope.fetch name) :=
    renames_demand fun m _ _ => Scope.fetch_rename ρ name m.scope
  exact hfetch.bind fun v => (renames_drop 1).bindSame fun _ => renames_push v

lemma renames_purgeVariable : Renames ρ k id purgeVariable purgeVariable := by
  refine (renames_peekString 0).bindSame fun name => ?_
  have hpurge : Renames ρ k (Prod.map (Value.rename ρ) (Scope.rename ρ))
      (demand fun m => m.scope.purge name) (demand fun m => m.scope.purge name) :=
    renames_demand fun m _ _ => Scope.purge_rename ρ name m.scope
  refine hpurge.bind fun (v, s) => ?_
  exact (renames_modifyScope (x := fun _ => s) (y := fun _ => s.rename ρ) fun _ => rfl).bindSame
    fun _ => renames_drop 1

lemma renames_storeLocal : Renames ρ k id storeLocal storeLocal := by
  refine (renames_peekString 0).bindSame fun name => (renames_peek 1).bind fun v => ?_
  have hset : Renames ρ k (Scope.rename ρ) (demand fun m => m.scope.setLocal name v)
      (demand fun m => m.scope.setLocal name (v.rename ρ)) :=
    renames_demand fun m _ _ => Scope.setLocal_rename ρ name v m.scope
  refine hset.bind fun s => ?_
  exact (renames_modifyScope (x := fun _ => s) (y := fun _ => s.rename ρ) fun _ => rfl).bindSame
    fun _ => renames_drop 2

lemma renames_recallLocal : Renames ρ k id recallLocal recallLocal := by
  refine (renames_peekString 0).bindSame fun name => ?_
  have hget : Renames ρ k (Value.rename ρ) (demand fun m => m.scope.getLocal name)
      (demand fun m => m.scope.getLocal name) :=
    renames_demand fun m _ _ => Scope.getLocal_rename ρ name m.scope
  exact hget.bind fun v => (renames_drop 1).bindSame fun _ => renames_push v

lemma renames_setNamespace : Renames ρ k id setNamespace setNamespace := by
  refine (renames_peekString 0).bindSame fun name => renames_guard ?_
  exact (renames_drop 1).bindSame fun _ => renames_modifyScope (Scope.switch_rename ρ name)

lemma renames_currentNamespace : Renames ρ k id currentNamespace currentNamespace :=
  (renames_ask fun _ _ _ => rfl).bindSame fun name => renames_push (.str name)

lemma renames_variableNames : Renames ρ k id variableNames variableNames := by
  refine (renames_ask fun m _ _ => ?_).bindSame fun names => ?_
  · show ((Scope.module? m.scope.current (m.scope.rename ρ)).getD ∅).keys =
      ((m.scope.module? m.scope.current).getD ∅).keys
    rw [Scope.module?_rename]
    cases m.scope.module? m.scope.current with
    | none => rfl
    | some vars => exact Table.keys_map _ vars
  · have hnames : (names.map Value.str).toArray =
        (names.map Value.str).toArray.map (Value.rename ρ) := by
      simp
    have hnew : Renames ρ k (Value.rename ρ) (onHeap (Heap.newList (names.map Value.str).toArray))
        (onHeap (Heap.newList (names.map Value.str).toArray)) := by
      nth_rewrite 2 [hnames]
      exact renames_newList _
    exact hnew.bind renames_push

lemma renames_registerProgram : Renames ρ k id registerProgram registerProgram := by
  refine (renames_peekString 0).bindSame fun name => (renames_peekProgram 1).bind fun p => ?_
  have hregister : Renames ρ k (Registry.rename ρ)
      (demand fun m => m.registry.register (.ofProgram m.heap name p))
      (demand fun m => m.registry.register (.ofProgram m.heap name (p.rename ρ))) :=
    renames_demand fun m h' hh => by
      simp only [Machine.rename_heap, Machine.rename_registry, Command.ofProgram_rename hh,
        Registry.register_rename]
  refine hregister.bind fun r => ?_
  exact (renames_modifyRegistry (x := fun _ => r) (y := fun _ => Registry.rename ρ r)
    fun _ => rfl).bindSame fun _ => renames_drop 2

lemma renames_unregister : Renames ρ k id unregister unregister := by
  refine (renames_peekString 0).bindSame fun name => ?_
  refine (renames_ask fun m _ _ => ?_).bindSame fun known => renames_guard ?_
  · exact Table.contains_map _ m.registry name
  · exact (renames_modifyRegistry fun r => Table.erase_map _ r name).bindSame fun _ =>
      renames_drop 1

lemma renames_print : Renames ρ k id print print := by
  refine (renames_peek 0).bind fun v => ?_
  have hshown : Renames ρ k id (do printLine (← ask fun m => m.shown v); drop 1)
      (do printLine (← ask fun m => m.shown (v.rename ρ)); drop 1) := by
    refine (renames_ask fun m h' hh => Machine.shown_rename hh v).bindSame fun line => ?_
    exact (renames_printLine line).bindSame fun _ => renames_drop 1
  cases v <;> simp only [Value.rename] at hshown ⊢
  case str s => exact (renames_printLine s).bindSame fun _ => renames_drop 1
  all_goals exact hshown

lemma renames_help : Renames ρ k id help help := by
  refine (renames_ask fun m _ _ => Registry.categories_rename ρ m.registry).bindSame fun groups => ?_
  exact (renames_forM_same fun _ => renames_printLine _).bindSame fun _ => renames_printLine _

lemma renames_parse : Renames ρ k id parse parse := by
  refine (renames_peekString 0).bindSame fun text => (renames_parsed text).bind fun ds => ?_
  refine (renames_drop 1).bindSame fun _ => (renames_store ds).bind fun body => ?_
  refine (renames_ask fun _ _ _ => rfl).bindSame fun home => renames_newLink.bind fun cell => ?_
  have hpush : Renames ρ k id (push (.program ⟨body, home, some cell⟩))
      (push ((Value.program ⟨body, home, some cell⟩).rename ρ)) := renames_push _
  rwa [Value.rename_program, Program.rename, renameAll_eq_map] at hpush

lemma renames_save : Renames ρ k id save save := by
  refine (renames_peekString 0).bindSame fun path => (renames_peek 1).bind fun v => ?_
  rw [Value.kind_rename]
  refine renames_guard (renames_get_bind fun m₁ h₁ _ => renames_get_bind fun m₂ h₂ hh => ?_)
  simp only [Machine.rename_disk, Machine.rename_heap, hh.render_eq]
  cases m₁.disk.write path (m₂.heap.render v ++ "\n") with
  | ok d =>
    have hset : Renames ρ k id (modify fun m => { m with disk := d } : Action Unit)
        (modify fun m => { m with disk := d }) :=
      renames_modify (fun _ => rfl) fun _ _ _ => rfl
    exact hset.bindSame fun _ => renames_drop 2
  | error fault => exact renames_throw_bind _

lemma renames_restore : Renames ρ k id restore restore := by
  refine (renames_peekString 0).bindSame fun path => renames_get_bind fun m h' _ => ?_
  simp only [Machine.rename_disk]
  cases m.disk.read path with
  | error fault => exact renames_throw _
  | ok text =>
    refine (renames_parsed text).bind fun ds => ?_
    have hany : ((ds.map (Datum.rename ρ)).any fun d => d.kind == .command) =
        ds.any fun d => d.kind == .command := by
      simp [Function.comp_def]
    rw [hany]
    refine renames_guard ((renames_drop 1).bindSame fun _ => ?_)
    exact (renames_store ds).bind fun vs => renames_forM renames_push

/-- **No word sees the names of cells.** -/
theorem renames_meaning {w : Word} {a : Action Unit} (hw : w.meaning = .action a) :
    Renames ρ k id a a := by
  cases w <;> cases hw
  case depth => exact renames_depth
  case clear => exact renames_modify (fun _ => rfl) fun _ _ _ => rfl
  case pick => exact renames_pick
  case list => exact renames_list
  case sto => exact renames_storeVariable
  case rcl => exact renames_recallVariable
  case purge => exact renames_purgeVariable
  case lsto => exact renames_storeLocal
  case lrcl => exact renames_recallLocal
  case setNs => exact renames_setNamespace
  case ns => exact renames_currentNamespace
  case vars => exact renames_variableNames
  case register => exact renames_registerProgram
  case unregister => exact renames_unregister
  case print => exact renames_print
  case help => exact renames_help
  case parse => exact renames_parse
  case save => exact renames_save
  case restore => exact renames_restore
  case exit => exact renames_modify (fun _ => rfl) fun _ _ _ => rfl
  case interrupt => exact renames_modify (fun _ => rfl) fun _ _ _ => rfl

end Action

end ReversePolish

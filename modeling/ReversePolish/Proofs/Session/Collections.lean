import ReversePolish.Proofs.Execution.Operators
import ReversePolish.Proofs.Operator.Collection
import ReversePolish.Proofs.Session.Driver
import ReversePolish.Proofs.Value.Stored

/-!
Collections change in place, on every machine that anything has been asked of. There all lists and maps
are in storage, so a word that changes one finds its cell.
-/

namespace ReversePolish

namespace Execution

variable {m : Machine} {c : Command} {w : Word} {op : Operator} {coll : Value}
  {operands : List Value} {below : Stack}

/-- The word that is given what it takes gives the collection back. -/
lemma runValue_of_takes (hc : c.behavior = .core w) (hw : w.meaning = .operator op)
    (hs : m.stack = operands ++ coll :: below) (ht : m.heap.Takes w coll operands)
    (hcell : coll.IsCell → m.heap.Has coll) (ts : List Task) : ∃ edit,
      runValue (.command c false) m ts =
        ofTasks { m with stack := coll :: below, heap := m.heap.apply edit } ts ∧
      edit.target? = some coll ∧ m.heap.Written (m.heap.apply edit) w coll operands := by
  obtain ⟨edit, hop, hedit, hwritten⟩ := Operator.apply_of_takes hw ht hcell below
  have hdata : ∀ v ∈ [coll], v.IsData := by
    cases ht <;> simp
  rw [← hs] at hop
  exact ⟨edit, (runValue_operator hc hw).trans (operate_results hop hdata), hedit, hwritten⟩

end Execution

namespace Driver

variable {P : Value → Prop} {d : Driver} {home : String} {registry : Registry} {loader : Loader}
  {disk : Disk} {limits : Limits} {display : Display}

/-- **All lists and maps are in storage**, if those are that come from outside. -/
theorem stored_of_leads (hP : ∀ v, P v → v.Stored d.machine.heap)
    (hr : ∀ e ∈ registry.entries, e.2.Stored d.machine.heap)
    (hd : Leads P (waiting (.start (.initial home registry loader disk output limits display))) d) :
    d.execution.Carries (Value.Stored d.machine.heap) fun _ => True := by
  refine carries_of_leads (Value.hereditary_stored _) hP hd ⟨?_, List.forall_mem_nil _⟩
    (Heap.fits_stored _)
  exact Machine.carries_initial trivial hr

/-- **Collections change in place.** Take whatever has been asked of a machine, and one of the words
that change a collection, about to run. It succeeds if and only if it finds what it takes. Then the
very list or map that it was given is pushed, which now holds what it should. Nothing else is changed
on the machine, and no other cell in the heap, so wherever there was a way to the collection it is
still there and goes on to what was put into it, while all else looks the same as before. If the word
fails, then nothing has changed. -/
theorem collections_change_in_place {w : Word} {c : Command} {ts : List Task}
    (hP : ∀ v, P v → v.Stored d.machine.heap)
    (hr : ∀ e ∈ registry.entries, e.2.Stored d.machine.heap)
    (hd : Leads P (waiting (.start (.initial home registry loader disk output limits display))) d)
    (hw : w = .put ∨ w = .append ∨ w = .insert) (hc : c.behavior = .core w) :
    let m := d.machine
    let p := Execution.runValue (.command c false) m ts
    (p.error = none ↔
      ∃ coll operands below, m.stack = operands ++ coll :: below ∧ m.heap.Takes w coll operands) ∧
    (∀ coll operands below, m.stack = operands ++ coll :: below → m.heap.Takes w coll operands →
      ∃ h', p = .ofTasks { m with stack := coll :: below, heap := h' } ts ∧
        m.heap.Written h' w coll operands ∧ m.heap.OnlyAt h' coll ∧
        (∀ v x, m.heap.Leads v coll → operands.head? = some x → h'.Leads v coll ∧ h'.Leads v x) ∧
        ∀ v, ¬ m.heap.Leads v coll → ∀ n, h'.shape? n v = m.heap.shape? n v) ∧
    ∀ e, p.error = some e → p = .ofError m ts e := by
  intro m p
  obtain ⟨op, hop⟩ : ∃ op, w.meaning = .operator op := by
    rcases hw with rfl | rfl | rfl <;> exact ⟨_, rfl⟩
  have hstored : ∀ v ∈ m.stack, v.IsCell → m.heap.Has v := fun v hv =>
    ((stored_of_leads hP hr hd).machine.stack v hv).has
  have hsucceeds {coll : Value} {operands : List Value} {below : Stack}
      (hs : m.stack = operands ++ coll :: below) (ht : m.heap.Takes w coll operands) :=
    Execution.runValue_of_takes hc hop hs ht (hstored coll (by simp [hs])) ts
  have hcases := Operator.takes_or_failed hw hop m.stack m.heap
  have hfails {e : Error} (he : op.apply m.stack m.heap = .failed e) : p = .ofError m ts e :=
    (Execution.runValue_operator hc hop).trans (Execution.operate_failed he)
  refine ⟨⟨fun hnone => ?_, ?_⟩, fun coll operands below hs ht => ?_, fun e he => ?_⟩
  · refine hcases.resolve_right fun ⟨e, he⟩ => ?_
    rw [hfails he] at hnone
    cases hnone
  · rintro ⟨coll, operands, below, hs, ht⟩
    obtain ⟨edit, hp, -⟩ := hsucceeds hs ht
    exact congrArg Execution.error hp
  · obtain ⟨edit, hp, hedit, hwritten⟩ := hsucceeds hs ht
    have honly := Heap.onlyAt_apply (h := m.heap) hedit
    refine ⟨_, hp, hwritten, honly, fun v x hv hx => ?_, fun v => honly.shape?_eq⟩
    obtain ⟨x', hx', hholds⟩ := hwritten.holds
    obtain rfl : x' = x := Option.some.inj (hx'.symm.trans hx)
    exact ⟨honly.leads hv, (honly.leads hv).tail hholds⟩
  · rcases hcases with ⟨coll, operands, below, hs, ht⟩ | ⟨e', he'⟩
    · obtain ⟨edit, hp, -⟩ := hsucceeds hs ht
      rw [show p = _ from hp] at he
      cases he
    · have hp := hfails he'
      rw [hp] at he
      obtain rfl : e' = e := Option.some.inj he
      exact hp

/-- A list of one number is appended to itself. -/
theorem list_appended_to_itself :
    let word (w : Word) : Value := .command (.ofWord w) false
    let p := Execution.ofTasks (.initial "main" ∅ Loader.disabled default .empty {} {})
      [.sequence [.int 7, .int 1, word .list, word .dup]]
    let m := p.step.step.step.step.machine
    m.stack = [.list 0, .list 0] ∧ m.heap.items 0 = #[.int 7] ∧
      ∃ h', Execution.runValue (word .append) m [] =
          .ofTasks { m with stack := [.list 0], heap := h' } [] ∧
        (h'.items 0).toList = [.int 7, .list 0] ∧ h'.lists.size = 1 := by
  intro word p m
  have hstack : m.stack = [.list 0, .list 0] := rfl
  have hitems : m.heap.items 0 = #[.int 7] := rfl
  have hsize : m.heap.lists.size = 1 := rfl
  have hword (w : Word) : (word w).Stored m.heap := .command nofun nofun
  let d : Driver := ⟨p.step.step.step.step, none, ""⟩
  have hreaches : p.Reaches d.execution := ⟨4, rfl⟩
  have hd : Leads (Value.Stored m.heap) (waiting (.start p.machine)) d := by
    refine .head (.ask ⟨rfl, rfl⟩ (.sequence ?_)) (steps_of_reaches hreaches)
    simp [hword, Value.Stored.int]
  have hr : ∀ e ∈ (∅ : Registry).entries, e.2.Stored m.heap := fun _ he =>
    (List.not_mem_nil he).elim
  obtain ⟨-, happend, -⟩ := collections_change_in_place (d := d) (fun _ => id) hr hd
    (.inr (.inl rfl)) (c := .ofWord .append) rfl
  obtain ⟨h', hp, hwritten, honly, -⟩ := happend (.list 0) [.list 0] [] hstack .addItem
  refine ⟨hstack, hitems, h', hp, ?_, honly.lists.trans hsize⟩
  cases hwritten with
  | addItem hadded => exact hadded.trans (congrArg (fun xs => xs.toList ++ [.list 0]) hitems)

end Driver

end ReversePolish

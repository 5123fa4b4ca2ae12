import Mathlib
import ReversePolish.Proofs.Session.Collections
import ReversePolish.Proofs.Value.Sameness

/-!
Copies. A copy of a list or a map has a cell of its own, and in it lies what lies in the cell of the
original. A copy of a program has the same body. So the copy shows the same and equals the original,
however deep that one is and whether or not it contains itself, and what is written to one of the
two does not come to the other. Whatever lies in both is shared.
-/

namespace ReversePolish

open Verdict

namespace Heap

variable {h h' : Heap} {v w x y : Value} {edit : Edit} {n : Nat}

/-! ### What a copy is -/

/-- One value is a copy of the other. -/
structure Copied (h h' : Heap) (v w : Value) : Prop where
  kind : w.kind = v.kind
  /-- Nothing was changed in making the copy. -/
  extend : h.Extends h'
  head : h'.head w = h'.head v
  /-- In the copy lies what lies in the original, not copies of it. -/
  inside : h'.inside w = h'.inside v
  /-- A list or map is copied to a cell that was not there before. -/
  own : v.IsCell → ¬ h.Has w ∧ h'.Has w
  /-- A program is copied to another one, which was written where the program was. -/
  program : ∀ p, v = .program p → w = .program { p with cell := some h.links.size } ∧
    h' = (h.newLink (p.cell.bind h.link)).2
  /-- All else is its own copy. -/
  itself : ¬ v.IsCell → v.kind ≠ .program → w = v ∧ h' = h

lemma copied_self (h : Heap) (hcell : ¬ v.IsCell) (hprogram : v.kind ≠ .program) :
    h.Copied h v v where
  kind := rfl
  extend := .refl h
  head := rfl
  inside := rfl
  own hv := (hcell hv).elim
  program _ hv := (hprogram (hv ▸ rfl)).elim
  itself _ _ := ⟨rfl, rfl⟩

lemma copied_program (h : Heap) (p : Program) : h.Copied (h.newLink (p.cell.bind h.link)).2
    (.program p) (.program { p with cell := some h.links.size }) where
  kind := rfl
  extend := extends_newLink _ h
  head := rfl
  inside := rfl
  own hv := by simp [Value.IsCell, Value.kind] at hv
  program _ hp := by
    cases hp
    exact ⟨rfl, rfl⟩
  itself _ hne := (hne rfl).elim

lemma copied_list {c : Nat} (hc : c < h.lists.size) :
    h.Copied (h.newList (h.items c)).2 (.list c) (h.newList (h.items c)).1 := by
  have hx := extends_newList (h.items c) h
  have hitems : (h.newList (h.items c)).2.items h.lists.size = (h.newList (h.items c)).2.items c :=
    (items_newList (.refl _)).trans (hx.items hc).symm
  exact {
    kind := rfl
    extend := hx
    head := congrArg (fun xs : Array Value => Head.list xs.size) hitems
    inside := congrArg (fun xs : Array Value => xs.toList ++ []) hitems
    own := fun _ => ⟨not_has_newList _ h, has_newList _ h⟩
    program := nofun
    itself := fun hcell => (hcell (.inl rfl)).elim }

lemma copied_map {c : Nat} (hc : c < h.maps.size) :
    h.Copied (h.newMap (h.entries c)).2 (.map c) (h.newMap (h.entries c)).1 := by
  have hx := extends_newMap (h.entries c) h
  have hentries : (h.newMap (h.entries c)).2.entries h.maps.size =
      (h.newMap (h.entries c)).2.entries c :=
    (entries_newMap (.refl _)).trans (hx.entries hc).symm
  exact {
    kind := rfl
    extend := hx
    head := congrArg (fun es : Table Key Value => Head.map (es.entries.map Prod.fst)) hentries
    inside := congrArg (fun es : Table Key Value => es.entries.map Prod.snd ++ []) hentries
    own := fun _ => ⟨not_has_newMap _ h, has_newMap _ h⟩
    program := nofun
    itself := fun hcell => (hcell (.inr rfl)).elim }

/-- **Everything but a command has a copy.** -/
theorem exists_copy (hv : v.IsData) (hcell : v.IsCell → h.Has v) :
    ∃ w edit, h.copy v = .ok (w, edit) ∧ h.Copied (h.apply edit) v w := by
  cases v with
  | command c help => exact (hv rfl).elim
  | list c => exact ⟨_, _, rfl, copied_list (hcell (.inl rfl))⟩
  | map c => exact ⟨_, _, rfl, copied_map (hcell (.inr rfl))⟩
  | program p => exact ⟨_, _, rfl, copied_program h p⟩
  | _ => exact ⟨_, _, rfl, copied_self h (by simp [Value.IsCell, Value.kind]) (by simp [Value.kind])⟩

/-- Values that show the same and hold the very same values are the same. How deep those are does not
matter, since each is compared with itself. -/
lemma same_of_inside (hhead : h.head v = h.head w) (hinside : h.inside v = h.inside w) :
    h.Same 0 v w := by
  refine .made (by decide) hhead fun e he => ?_
  rw [hinside] at he
  rw [(mem_zip_self he).1]
  have hd : v.depthInside 0 < compareDepth := by
    cases v <;> simp [Value.depthInside, compareDepth]
  exact .refl h hd _

/-- The copy holds nothing that the original did not hold. -/
lemma allHold_copy {P : Value → Prop} (hh : h.AllHold P) (hcopy : h.copy v = .ok (w, edit)) :
    edit.AllHold P := by
  cases v <;> cases hcopy
  case list c => exact hh.items c
  case map c => exact hh.entries c
  case program p =>
    intro e he
    obtain ⟨c, -, he⟩ := Option.bind_eq_some_iff.mp he
    exact hh.links c e he
  all_goals trivial

namespace Copied

lemma isCell (hc : h.Copied h' v w) : w.IsCell ↔ v.IsCell := by
  rw [Value.IsCell, Value.IsCell, hc.kind]

lemma data (hc : h.Copied h' v w) (hv : v.IsData) : w.IsData := fun hw => hv (hc.kind.symm.trans hw)

/-- **A copy equals the original.** -/
theorem equal (hc : h.Copied h' v w) :
    h'.looselyEqual w v = same ∧ h'.equal? w v = some (.ok true) := by
  have hsame : h'.equate 0 w v = same :=
    (verdict_eq_same_iff (c := ⟨0, w, v⟩)).mpr (same_of_inside hc.head hc.inside)
  exact ⟨by rw [looselyEqual, hsame]; rfl, by simp [equal?, hc.kind, hsame]⟩

lemma ne (hc : h.Copied h' v w) (hcell : v.IsCell) (hv : h.Has v) : w ≠ v :=
  fun heq => (hc.own hcell).1 (heq ▸ hv)

end Copied

/-! ### Values that do not know of a new cell -/

lemma isCell_of_has (hv : h.Has v) : v.IsCell := by
  cases v with
  | list _ => exact .inl rfl
  | map _ => exact .inr rfl
  | _ => exact hv.elim

/-- What stands in a body is in storage if the value is. -/
lemma stored_of_mem_bodyItems (hv : v.Stored h) (hx : x ∈ v.bodyItems) : x.Stored h := by
  cases hv with
  | program _ hbody | each hbody => exact hbody x hx
  | branch hcond hthn hels =>
    rcases List.mem_append.mp hx with hx | hx
    · exact (List.mem_append.mp hx).elim (hcond x) (hthn x)
    · exact hels x hx
  | loop hcond hbody => exact (List.mem_append.mp hx).elim (hcond x) (hbody x)
  | cell hhas =>
    rw [bodyItems_of_cell (isCell_of_has hhas)] at hx
    cases hx
  | _ => cases hx

/-- From what was in storage before one comes only to what was in storage before, if nothing else has
been put into the cells. -/
lemma stored_of_leads (hh : h'.AllHold (Value.Stored h)) (hx : x.Stored h) (hlead : h'.Leads x y) :
    y.Stored h := by
  induction hlead with
  | refl => exact hx
  | tail _ hholds ih =>
    cases hholds with
    | item hy => exact hh.items _ _ (Array.mem_toList_iff.mp hy)
    | entry hy => exact hh.entries _ _ hy
    | body hy => exact stored_of_mem_bodyItems ih hy

/-- A copy of a list, a map or a program is not in storage before it is made. -/
lemma Copied.not_stored (hc : h.Copied h' v w) (hv : v.IsCell ∨ v.kind = .program) : ¬ w.Stored h := by
  intro hw
  rcases hv with hcell | hprogram
  · exact (hc.own hcell).1 (hw.has (hc.isCell.mpr hcell))
  · cases v <;> cases hprogram
    next p =>
    obtain ⟨rfl, -⟩ := hc.program p rfl
    cases hw with
    | cell hhas => exact hhas
    | program hcell _ => exact Nat.lt_irrefl _ (hcell _ rfl)

/-- **Nothing that was in storage before leads to what was not.** -/
theorem not_leads_to_new (hh : h'.AllHold (Value.Stored h)) (hw : ¬ w.Stored h) (hx : x.Stored h) :
    ¬ h'.Leads x w :=
  fun hlead => hw (stored_of_leads hh hx hlead)

end Heap

namespace Execution

variable {m : Machine} {c : Command} {v w : Value} {below : Stack} {edit : Heap.Edit}

/-- `CLONE` puts the copy in place of the original. -/
lemma runValue_clone (hc : c.behavior = .core .clone) (hs : m.stack = v :: below)
    (hcopy : m.heap.copy v = .ok (w, edit)) (hw : w.IsData) (ts : List Task) :
    runValue (.command c false) m ts =
      ofTasks { m with stack := w :: below, heap := m.heap.apply edit } ts := by
  have hop : Operator.clone.apply m.stack m.heap = .results below [w] edit := by
    rw [hs]
    simp only [Operator.clone, Operator.apply, hcopy]
    rfl
  rw [runValue_operator hc rfl, operate_results hop (List.forall_mem_singleton.mpr hw)]
  rfl

end Execution

namespace Driver

variable {P Q : Value → Prop} {d d' d₁ d₂ : Driver} {home : String} {registry : Registry}
  {loader : Loader} {disk : Disk} {limits : Limits} {display : Display} {v w : Value} {h h' : Heap}

/-- Something happens, and it does not write to the value. -/
def Spares (P : Value → Prop) (v : Value) (d d' : Driver) : Prop :=
  Step P d d' ∧
    (d' = { d with execution := d.execution.step } → d.execution.edit.target? ≠ some v)

lemma Spares.sameAt (h : Spares P v d d') (hv : v.IsCell → d.machine.heap.Has v) :
    d.machine.heap.SameAt d'.machine.heap v := by
  obtain ⟨hstep, hedit⟩ := h
  cases hstep with
  | ask _ hasked => exact hasked.extends.sameAt hv
  | step => exact Execution.sameAt_step hv (hedit rfl)
  | turn => exact (extends_turn _ _).sameAt hv
  | _ => exact (Heap.Extends.refl _).sameAt hv

/-- **What is not written to stays as it is**, whatever is asked. -/
theorem sameAt_of_spares (h : Relation.ReflTransGen (Spares P v) d d')
    (hv : v.IsCell → d.machine.heap.Has v) :
    d.machine.heap.SameAt d'.machine.heap v ∧ (v.IsCell → d'.machine.heap.Has v) := by
  induction h with
  | refl => exact ⟨(Heap.Extends.refl _).sameAt hv, hv⟩
  | tail _ hstep ih =>
    exact ⟨ih.1.trans (hstep.sameAt ih.2), fun hcell => heap_has_next (ih.2 hcell) hstep.1⟩

/-- **A copy is one level deep.** Take whatever has been asked of a machine, and any value but a
command. It has a copy, which equals it, and this is what `CLONE` puts in its place. The copy of a
list or a map lies in a cell to which nothing leads, on the stack or in any cell, variable, program
or task, and nothing leads to the copy of a program, either. Whatever happens afterwards, what is
not written to the original itself does not change what lies in it, and the same goes for the copy.
As long as neither of the two is written to, they hold the same lists and maps, and whatever becomes
of those, they look the same. -/
theorem copies_one_level (hP : ∀ v, P v → v.Stored d.machine.heap)
    (hr : ∀ e ∈ registry.entries, e.2.Stored d.machine.heap)
    (hd : Leads P (waiting (.start (.initial home registry loader disk output limits display))) d)
    (hv : v.IsData) (hstored : v.IsCell → d.machine.heap.Has v) :
    let m := d.machine
    ∃ w edit, m.heap.copy v = .ok (w, edit) ∧
      let h' := m.heap.apply edit
      m.heap.Copied h' v w ∧ h'.looselyEqual w v = same ∧ h'.equal? w v = some (.ok true) ∧
      (∀ c below ts, c.behavior = .core .clone → m.stack = v :: below →
        Execution.runValue (.command c false) m ts =
          .ofTasks { m with stack := w :: below, heap := h' } ts) ∧
      (v.IsCell → w ≠ v) ∧
      (v.IsCell ∨ v.kind = .program → Execution.Carries (fun x => ¬ h'.Leads x w) (fun _ => True)
        { d.execution with machine := { m with heap := h' } }) ∧
      ∀ Q d₁ d₂, h'.Extends d₁.machine.heap →
        (Relation.ReflTransGen (Spares Q v) d₁ d₂ → h'.SameAt d₂.machine.heap v) ∧
        (Relation.ReflTransGen (Spares Q w) d₁ d₂ → h'.SameAt d₂.machine.heap w) ∧
        (Relation.ReflTransGen (fun d d' => Spares Q v d d' ∧ Spares Q w d d') d₁ d₂ →
          d₂.machine.heap.inside w = d₂.machine.heap.inside v ∧
          ∀ n, d₂.machine.heap.shape? n w = d₂.machine.heap.shape? n v) := by
  intro m
  obtain ⟨w, edit, hcopy, hcopied⟩ := Heap.exists_copy hv hstored
  have hold : v.IsCell → (m.heap.apply edit).Has v := fun hv => hcopied.extend.has (hstored hv)
  have hnew : w.IsCell → (m.heap.apply edit).Has w := fun hw =>
    (hcopied.own (hcopied.isCell.mp hw)).2
  refine ⟨w, edit, hcopy, hcopied, hcopied.equal.1, hcopied.equal.2, ?_,
    fun hvcell => hcopied.ne hvcell (hstored hvcell), fun hnew => ?_, ?_⟩
  · exact fun c below ts hc hs => Execution.runValue_clone hc hs hcopy (hcopied.data hv) ts
  · have hcarries := stored_of_leads hP hr hd
    have hheap : (m.heap.apply edit).AllHold (Value.Stored m.heap) :=
      hcarries.machine.heap.apply (Heap.allHold_copy hcarries.machine.heap hcopy)
    have hall : Execution.Carries (Value.Stored m.heap) (fun _ => True)
        { d.execution with machine := { m with heap := m.heap.apply edit } } :=
      ⟨hcarries.machine.of_heap hheap, hcarries.tasks⟩
    exact hall.mono fun x => Heap.not_leads_to_new hheap (hcopied.not_stored hnew)
  · intro Q d₁ d₂ hx
    have hstays {x : Value} (hx₁ : x.IsCell → (m.heap.apply edit).Has x)
        (h : Relation.ReflTransGen (Spares Q x) d₁ d₂) :
        (m.heap.apply edit).SameAt d₂.machine.heap x :=
      (hx.sameAt hx₁).trans (sameAt_of_spares h fun hcell => hx.has (hx₁ hcell)).1
    refine ⟨hstays hold, hstays hnew, fun h => ?_⟩
    have hv₂ := hstays hold (Relation.ReflTransGen.mono (fun _ _ => And.left) _ _ h)
    have hw₂ := hstays hnew (Relation.ReflTransGen.mono (fun _ _ => And.right) _ _ h)
    have hinside : d₂.machine.heap.inside w = d₂.machine.heap.inside v := by
      rw [hw₂.inside_eq, hv₂.inside_eq, hcopied.inside]
    refine ⟨hinside, fun n => ?_⟩
    cases n with
    | zero => rfl
    | succ n => rw [Heap.shape?_succ_eq, Heap.shape?_succ_eq, hinside, hw₂.head_eq, hv₂.head_eq,
        hcopied.head]

/-- Steps of a program, none of which writes to the value. -/
lemma spares_steps {p : Execution} {line : Option Reader} {pending : String} {n : Nat}
    (hedit : ∀ k < n, (Execution.step^[k] p).edit.target? ≠ some v) :
    Relation.ReflTransGen (Spares P v) ⟨p, line, pending⟩ ⟨Execution.step^[n] p, line, pending⟩ := by
  induction n with
  | zero => exact .refl
  | succ n ih =>
    refine (ih fun k hk => hedit k (Nat.lt_succ_of_lt hk)).tail ?_
    rw [Function.iterate_succ_apply']
    exact ⟨.step, fun _ => hedit n (Nat.lt_succ_self n)⟩

/-- A list that holds itself and another list is copied. The copy grows, and then the list that is in
both does. -/
theorem list_in_itself_copied :
    let word (w : Word) : Value := .command (.ofWord w) false
    let rest := [.int 5, word .append, word .drop, .int 0, word .get, .int 6, word .append]
    let m : Machine := .initial "main" ∅ Loader.disabled default .empty {} {}
    let p := Execution.ofTasks m [.sequence ([.int 1, .int 1, word .list, .int 1, word .list,
      word .dup, word .dup, word .append, word .clone] ++ rest)]
    let original : Machine :=
      { m with stack := [.list 1, .list 1], heap := ⟨#[#[.int 1], #[.list 0, .list 1]], #[], #[]⟩ }
    let copied : Machine := { m with
      stack := [.list 2, .list 1]
      heap := ⟨#[#[.int 1], #[.list 0, .list 1], #[.list 0, .list 1]], #[], #[]⟩ }
    p.Reaches (.ofTasks original [.sequence (word .clone :: rest)]) ∧
      p.Reaches (.ofTasks copied [.sequence rest]) ∧
      copied.heap.equal? (.list 2) (.list 1) = some (.ok true) ∧
      ∃ q, p.Reaches q ∧ q.finished ∧ q.machine.heap.items 0 = #[.int 1, .int 6] ∧
        q.machine.heap.items 1 = #[.list 0, .list 1] ∧
        q.machine.heap.items 2 = #[.list 0, .list 1, .int 5] := by
  intro word rest m p original copied
  let before := Execution.ofTasks original [.sequence (word .clone :: rest)]
  let after := Execution.ofTasks copied [.sequence rest]
  have hbefore : Execution.step^[8] p = before := by cbv
  have hafter : Execution.step before = after := by cbv
  have hreaches : p.Reaches after := .trans ⟨8, hbefore⟩ ⟨1, hafter⟩
  have hword (w : Word) : (word w).Stored original.heap :=
    (Value.hereditary_stored _).command.mpr (Command.carries_ofWord w)
  have hd : Leads (Value.Stored original.heap) (waiting (.start m)) ⟨before, none, ""⟩ := by
    refine .head (.ask ⟨rfl, rfl⟩ (.sequence ?_)) (steps_of_reaches ⟨8, hbefore⟩)
    simp [hword, rest, Value.Stored.int]
  have hr : ∀ e ∈ (∅ : Registry).entries, e.2.Stored original.heap := fun _ he =>
    (List.not_mem_nil he).elim
  obtain ⟨w, edit, hcopy, -, -, hequal, -, -, -, hlater⟩ :=
    copies_one_level (d := ⟨before, none, ""⟩) (v := .list 1) (fun _ => id) hr hd (by simp)
      fun _ => Nat.lt_succ_self 1
  cases hcopy
  have hspares : ∀ k < 8, (Execution.step^[k] after).edit.target? ≠ some (.list 1) := by
    intro k hk
    interval_cases k <;> cbv <;> simp
  obtain ⟨q, hq⟩ : ∃ q, Execution.step^[8] after = q := ⟨_, rfl⟩
  have hlast : Relation.ReflTransGen (Spares (fun _ => True) (.list 1)) ⟨after, none, ""⟩
      ⟨q, none, ""⟩ := hq ▸ spares_steps hspares
  have hsame : q.machine.heap.items 1 = #[.list 0, .list 1] := (hlater _ _ _ (.refl _)).1 hlast
  refine ⟨⟨8, hbefore⟩, hreaches, hequal, q, hreaches.trans ⟨8, hq⟩, ?_, ?_, hsame, ?_⟩
  all_goals
    rw [← hq]
    cbv

end Driver

end ReversePolish

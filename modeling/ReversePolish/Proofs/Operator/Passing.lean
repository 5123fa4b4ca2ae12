import ReversePolish.Proofs.Operator
import ReversePolish.Proofs.Value.Cells

/-!
Operators pass values on. What holds of all integers and strings, of the operands, and of what lies
in lists and maps, holds of everything that an operator gives or puts into the heap, if it holds of
the cells that the heap then has.
-/

namespace ReversePolish

/-- A program with the property may lie in this cell. -/
def Program.MayLie (P : Value → Prop) (c : Nat) : Prop :=
  ∃ p : Program, p.cell = some c ∧ P (.program p)

/-- The property holds of values that are made of nothing else, and it does not matter to it in which
cell a program lies, of those that one may lie in. -/
structure Value.Admits (P : Value → Prop) : Prop where
  int : ∀ n, P (.int n)
  str : ∀ s, P (.str s)
  none : P .none
  moved : ∀ {p : Program} {c : Nat}, P (.program p) → Program.MayLie P c →
    P (.program { p with cell := some c })

namespace Heap

variable {P : Value → Prop} {h h' : Heap} {edit : Edit}

/-- The property holds of the cells that there are. -/
structure Fits (P : Value → Prop) (h : Heap) : Prop where
  cells : ∀ v, h.Has v → P v
  programs : ∀ c < h.links.size, Program.MayLie P c

lemma Extends.fits (hx : h.Extends h') (hfits : h'.Fits P) : h.Fits P where
  cells v hv := hfits.cells v (hx.has hv)
  programs c hc := hfits.programs c (Nat.lt_of_lt_of_le hc hx.size_links)

/-- The property holds of what lies in lists and maps, and links lead where programs may lie that have
it. -/
structure AllHold (P : Value → Prop) (h : Heap) : Prop where
  items : ∀ c, ∀ v ∈ h.items c, P v
  entries : ∀ c, ∀ e ∈ (h.entries c).entries, P e.2
  links : ∀ c e, h.link c = some e → Program.MayLie P e

/-- The property holds of what the change puts into a cell. -/
def Edit.AllHold (P : Value → Prop) : Edit → Prop
  | keep => True
  | addList items => ∀ v ∈ items, P v
  | addMap entries => ∀ e ∈ entries.entries, P e.2
  | addLink around => ∀ e, around = some e → Program.MayLie P e
  | setItem _ _ v | addItem _ v | insertItem _ _ v | bind _ _ v => P v

lemma allHold_empty : empty.AllHold P := by
  constructor <;> intro c x hx <;> simp [empty, Heap.items, Heap.entries, Heap.link] at hx
  exact (List.not_mem_nil hx).elim

lemma AllHold.newList {xs : Array Value} (hh : h.AllHold P) (hxs : ∀ v ∈ xs, P v) :
    (h.newList xs).2.AllHold P := by
  refine ⟨fun c => ?_, hh.entries, hh.links⟩
  have hitems : (h.newList xs).2.items c = if c = h.lists.size then xs else h.items c := by
    simp only [Heap.newList, Heap.items, Array.getD_eq_getD_getElem?, Array.getElem?_push]
    split <;> simp
  rw [hitems]
  split
  · exact hxs
  · exact hh.items c

lemma AllHold.newMap {t : Table Key Value} (hh : h.AllHold P) (ht : ∀ e ∈ t.entries, P e.2) :
    (h.newMap t).2.AllHold P := by
  refine ⟨hh.items, fun c => ?_, hh.links⟩
  have hentries : (h.newMap t).2.entries c = if c = h.maps.size then t else h.entries c := by
    simp only [Heap.newMap, Heap.entries, Array.getD_eq_getD_getElem?, Array.getElem?_push]
    split <;> simp
  rw [hentries]
  split
  · exact ht
  · exact hh.entries c

lemma AllHold.newLink {around : Option Nat} (hh : h.AllHold P)
    (haround : ∀ e, around = some e → Program.MayLie P e) : (h.newLink around).2.AllHold P := by
  refine ⟨hh.items, hh.entries, fun c => ?_⟩
  have hlink : (h.newLink around).2.link c = if c = h.links.size then around else h.link c := by
    simp only [Heap.newLink, Heap.link, Array.getD_eq_getD_getElem?, Array.getElem?_push]
    split <;> simp
  rw [hlink]
  split
  · exact haround
  · exact hh.links c

lemma AllHold.modifyList (hh : h.AllHold P) (cell : Nat) {f : Array Value → Array Value}
    (hf : ∀ c, ∀ v ∈ f (h.items c), P v) :
    ({ h with lists := h.lists.modify cell f } : Heap).AllHold P := by
  refine ⟨fun c => ?_, hh.entries, hh.links⟩
  have hitems : ({ h with lists := h.lists.modify cell f } : Heap).items c = h.items c ∨
      ({ h with lists := h.lists.modify cell f } : Heap).items c = f (h.items c) := by
    simp only [Heap.items, Array.getD_eq_getD_getElem?, Array.getElem?_modify]
    split
    · cases h.lists[c]? <;> simp
    · exact .inl rfl
  rcases hitems with hitems | hitems <;> rw [hitems]
  · exact hh.items c
  · exact hf c

lemma AllHold.modifyMap (hh : h.AllHold P) (cell : Nat) {f : Table Key Value → Table Key Value}
    (hf : ∀ c, ∀ e ∈ (f (h.entries c)).entries, P e.2) :
    ({ h with maps := h.maps.modify cell f } : Heap).AllHold P := by
  refine ⟨hh.items, fun c => ?_, hh.links⟩
  have hentries : ({ h with maps := h.maps.modify cell f } : Heap).entries c = h.entries c ∨
      ({ h with maps := h.maps.modify cell f } : Heap).entries c = f (h.entries c) := by
    simp only [Heap.entries, Array.getD_eq_getD_getElem?, Array.getElem?_modify]
    split
    · cases h.maps[c]? <;> simp
    · exact .inl rfl
  rcases hentries with hentries | hentries <;> rw [hentries]
  · exact hh.entries c
  · exact hf c

lemma mem_setIfInBounds {xs : Array Value} {i : Nat} {v w : Value}
    (hw : w ∈ xs.setIfInBounds i v) : w = v ∨ w ∈ xs := by
  obtain ⟨j, hj⟩ := Array.mem_iff_getElem?.mp hw
  rw [Array.getElem?_setIfInBounds] at hj
  split at hj
  · split at hj
    · exact .inl (by simpa using hj.symm)
    · cases hj
  · exact .inr (Array.mem_of_getElem? hj)

lemma mem_insertIdxIfInBounds {xs : Array Value} {i : Nat} {v w : Value}
    (hw : w ∈ xs.insertIdxIfInBounds i v) : w = v ∨ w ∈ xs := by
  unfold Array.insertIdxIfInBounds at hw
  split at hw
  · exact (Array.mem_insertIdx).mp hw
  · exact .inr hw

theorem AllHold.apply (hh : h.AllHold P) (he : edit.AllHold P) : (h.apply edit).AllHold P := by
  cases edit with
  | keep => exact hh
  | addList items => exact hh.newList he
  | addMap entries => exact hh.newMap he
  | addLink around => exact hh.newLink he
  | setItem cell i v =>
    exact hh.modifyList cell fun c w hw => (mem_setIfInBounds hw).elim (· ▸ he) (hh.items c w)
  | addItem cell v =>
    exact hh.modifyList cell fun c w hw =>
      (Array.mem_push.mp hw).elim (hh.items c w) (· ▸ he)
  | insertItem cell i v =>
    exact hh.modifyList cell fun c w hw =>
      (mem_insertIdxIfInBounds hw).elim (· ▸ he) (hh.items c w)
  | bind cell k v => exact hh.modifyMap cell fun c => Table.forall_insert (hh.entries c) he

end Heap

namespace Transform

variable {P : Value → Prop} {α : Type} {vs : List Value} {t : Transform}

/-- The property holds of all results, and of what the change puts into a cell, if it holds of the
cells that there are after the change. -/
def Passes (P : Value → Prop) (t : Transform) : Prop :=
  ∀ h vs edit, h.AllHold P → (h.apply edit).Fits P → t h = .ok (vs, edit) →
    (∀ v ∈ vs, P v) ∧ edit.AllHold P

lemma passes_ok {edit : Heap → Heap.Edit} {vs : Heap → List Value}
    (ht : ∀ h, h.AllHold P → (h.apply (edit h)).Fits P →
      (∀ v ∈ vs h, P v) ∧ (edit h).AllHold P) :
    Passes P fun h => .ok (vs h, edit h) := by
  rintro h _ _ hh hfits ⟨⟩
  exact ht h hh hfits

lemma passes_results (hvs : ∀ v ∈ vs, P v) : (results vs).Passes P :=
  passes_ok fun _ _ _ => ⟨hvs, trivial⟩

lemma passes_fail (e : Error) : (fail e).Passes P := by
  rintro h _ _ hh hfits ⟨⟩

lemma passes_newList {items : Array Value} (hitems : ∀ v ∈ items, P v) :
    (newList items).Passes P :=
  passes_ok fun h _ hfits =>
    ⟨List.forall_mem_singleton.mpr (hfits.cells _ (Heap.has_newList items h)), hitems⟩

lemma passes_bind {x : Heap → Except Error α} {f : α → Transform}
    (hf : ∀ h a, h.AllHold P → x h = .ok a → (f a).Passes P) :
    Passes P fun h => x h >>= fun a => f a h := by
  intro h vs edit hh hfits ht
  obtain ⟨a, ha, ht⟩ := bind_eq_ok_iff.mp ht
  exact hf h a hh ha h vs edit hh hfits ht

lemma passes_given {x : Except Error α} {f : α → Transform} (hf : ∀ a, (f a).Passes P) :
    (given x f).Passes P := by
  cases x with
  | ok a => exact hf a
  | error e => exact passes_fail e

variable (hP : Value.Admits P)

include hP

lemma passes_flag (f : Heap → Except Error Bool) : (flag f).Passes P :=
  passes_bind fun _ b _ _ => passes_results (by simpa [Value.ofBool] using hP.int _)

end Transform

namespace Operator

open Transform

variable {P : Value → Prop} {op : Operator} {s below : Stack} {h : Heap} {vs : List Value}
  {edit : Heap.Edit}

/-- What holds of the operands, of what lies in lists and maps, and of the cells that there are after
the change, holds of the results and of what the operator puts into the heap. -/
def Passes (P : Value → Prop) (op : Operator) : Prop :=
  ∀ s h below vs edit, (∀ v ∈ s, P v) → h.AllHold P → (h.apply edit).Fits P →
    op.apply s h = .results below vs edit → (∀ v ∈ vs, P v) ∧ edit.AllHold P

lemma passes_unary {f : Value → Transform} (hf : ∀ a, P a → (f a).Passes P) :
    (unary f).Passes P := by
  intro s h below vs edit hs hh hfits hop
  match s with
  | [] => cases hop
  | a :: s =>
    obtain ⟨-, hfa⟩ := of_eq_results hop
    exact hf a (hs a (by simp)) h vs edit hh hfits hfa

lemma passes_binary {f : Value → Value → Transform}
    (hf : ∀ a b, P a → P b → (f a b).Passes P) : (binary f).Passes P := by
  intro s h below vs edit hs hh hfits hop
  match s with
  | [] | [_] => cases hop
  | b :: a :: s =>
    obtain ⟨-, hfab⟩ := of_eq_results hop
    exact hf a b (hs a (by simp)) (hs b (by simp)) h vs edit hh hfits hfab

lemma passes_ternary {f : Value → Value → Value → Transform}
    (hf : ∀ a b c, P a → P b → P c → (f a b c).Passes P) : (ternary f).Passes P := by
  intro s h below vs edit hs hh hfits hop
  match s with
  | [] | [_] | [_, _] => cases hop
  | c :: b :: a :: s =>
    obtain ⟨-, hfabc⟩ := of_eq_results hop
    exact hf a b c (hs a (by simp)) (hs b (by simp)) (hs c (by simp)) h vs edit hh hfits hfabc

variable (hP : Value.Admits P)

include hP

lemma passes_equality (answer : Bool → Bool) : (equality answer).Passes P := by
  intro s h below vs edit hs hh hfits hop
  match s with
  | [] | [_] => cases hop
  | b :: a :: s =>
    simp only [apply] at hop
    split at hop
    · next r _ =>
      obtain ⟨-, hr⟩ := of_eq_results hop
      cases r with
      | error e => cases hr
      | ok same =>
        cases hr
        exact ⟨by simpa [Value.ofBool] using hP.int _, trivial⟩
    · cases hop

lemma passes_ofInt (f : Int64 → Except Error Int64) : (ofInt f).Passes P :=
  passes_unary fun _ _ => passes_given fun _ => passes_given fun r =>
    passes_results (by simpa using hP.int r)

lemma passes_ofInts (f : Int64 → Int64 → Except Error Int64) : (ofInts f).Passes P :=
  passes_binary fun _ _ _ _ => passes_given fun _ => passes_given fun _ =>
    passes_given fun r => passes_results (by simpa using hP.int r)

lemma passes_ofOrder (test : Ordering → Bool) : (ofOrder test).Passes P :=
  passes_binary fun _ _ _ _ => passes_given fun _ =>
    passes_results (by simpa [Value.ofBool] using hP.int _)

/-- Two lists are joined into a new one. -/
lemma passes_sum : sum.Passes P := by
  refine passes_binary fun a b _ _ => ?_
  split
  · exact passes_given fun r => passes_results (by simpa using hP.int r)
  · exact passes_results (by simpa using hP.str _)
  · refine fun h vs edit hh => passes_newList (fun v hv => ?_) h vs edit hh
    exact (Array.mem_append.mp hv).elim (hh.items _ v) (hh.items _ v)
  · exact passes_fail _
  · exact passes_fail _
  · exact passes_fail _
  · exact passes_fail _

lemma passes_size : size.Passes P :=
  passes_unary fun _ _ => passes_bind fun _ _ _ _ => passes_bind fun _ i _ _ =>
    passes_results (by simpa using hP.int i)

/-- What lies in a collection comes out of it. -/
lemma passes_get : get.Passes P := by
  refine passes_binary fun coll key _ _ => ?_
  intro h vs edit hh hfits ht
  split at ht
  · next c index _ _ =>
    obtain ⟨i, -, ht⟩ := bind_eq_ok_iff.mp ht
    cases ht
    refine ⟨?_, trivial⟩
    rw [List.forall_mem_singleton, Array.getD_eq_getD_getElem?]
    cases hi : (h.items c)[i]? with
    | none => exact hP.none
    | some v => exact hh.items c v (Array.mem_of_getElem? hi)
  · cases ht
  · obtain ⟨k, -, ht⟩ := bind_eq_ok_iff.mp ht
    split at ht
    · next x hx =>
      cases ht
      refine ⟨?_, trivial⟩
      rw [List.forall_mem_singleton]
      exact hh.entries _ _ (Table.mem_of_find? hx)
    · cases ht
  · cases ht

omit hP in
lemma passes_put : put.Passes P := by
  refine passes_ternary fun coll key x hcoll _ hx => ?_
  intro h vs edit hh hfits ht
  split at ht
  · obtain ⟨i, -, ht⟩ := bind_eq_ok_iff.mp ht
    cases ht
    exact ⟨by simpa using hcoll, hx⟩
  · cases ht
  · obtain ⟨k, -, ht⟩ := bind_eq_ok_iff.mp ht
    cases ht
    exact ⟨by simpa using hcoll, hx⟩
  · cases ht

omit hP in
lemma passes_append : append.Passes P :=
  passes_binary fun _ _ hcoll hx => passes_given fun _ => passes_ok fun _ _ _ =>
    ⟨by simpa using hcoll, hx⟩

omit hP in
lemma passes_insert : insert.Passes P :=
  passes_ternary fun _ _ _ hcoll _ hx => passes_given fun _ => passes_given fun _ =>
    passes_bind fun _ _ _ _ => passes_ok fun _ _ _ => ⟨by simpa using hcoll, hx⟩

lemma passes_keys : keys.Passes P := by
  refine passes_unary fun coll _ => passes_given fun c => ?_
  refine fun h vs edit hh => passes_newList (fun v hv => ?_) h vs edit hh
  obtain ⟨k, -, rfl⟩ := List.mem_map.mp (List.mem_toArray.mp hv)
  cases k with
  | int n => exact hP.int n
  | str s => exact hP.str s

lemma passes_range : range.Passes P := by
  refine passes_binary fun a b _ _ => passes_given fun a => passes_given fun b => ?_
  split
  · exact passes_fail _
  · refine passes_newList fun v hv => ?_
    obtain ⟨i, -, rfl⟩ := Array.mem_map.mp hv
    exact hP.int _

/-- A copy of a program is the same save for the cell. -/
lemma passes_clone : clone.Passes P := by
  refine passes_unary fun v hv => ?_
  intro h vs edit hh hfits ht
  obtain ⟨⟨copy, edit'⟩, hcopy, ht⟩ := bind_eq_ok_iff.mp ht
  cases ht
  unfold Heap.copy at hcopy
  split at hcopy <;> cases hcopy
  · exact ⟨List.forall_mem_singleton.mpr (hfits.cells _ (Heap.has_newList _ h)), hh.items _⟩
  · exact ⟨List.forall_mem_singleton.mpr (hfits.cells _ (Heap.has_newMap _ h)), hh.entries _⟩
  · have hcell : Program.MayLie P h.links.size :=
      hfits.programs _ (by simp [Heap.apply, Heap.newLink])
    refine ⟨List.forall_mem_singleton.mpr (hP.moved hv hcell), fun e he => ?_⟩
    obtain ⟨c, -, he⟩ := Option.bind_eq_some_iff.mp he
    exact hh.links c e he
  · exact ⟨by simpa using hv, trivial⟩

lemma passes_text : text.Passes P := by
  refine passes_unary fun v hv => ?_
  intro h vs edit hh hfits ht
  split at ht <;> cases ht <;> exact ⟨by simpa using hP.str _, trivial⟩

/-- **Operators pass values on.** -/
theorem passes_meaning {w : Word} (hw : w.meaning = .operator op) : op.Passes P := by
  cases w <;> cases hw
  case dup => exact passes_unary fun a ha => passes_results (by simp [ha])
  case drop => exact passes_unary fun a ha => passes_results (by simp)
  case swap => exact passes_binary fun a b ha hb => passes_results (by simp [ha, hb])
  case copyOver => exact passes_binary fun a b ha hb => passes_results (by simp [ha, hb])
  case rot => exact passes_ternary fun a b c ha hb hc => passes_results (by simp [ha, hb, hc])
  case add => exact passes_sum hP
  case sub | mul | div | mod => exact passes_ofInts hP _
  case neg => exact passes_ofInt hP _
  case eq | neq => exact passes_equality hP _
  case lt | gt | le | ge => exact passes_ofOrder hP _
  case not => exact passes_unary fun _ _ => passes_flag hP _
  case and | or => exact passes_binary fun _ _ _ _ => passes_flag hP _
  case size => exact passes_size hP
  case get => exact passes_get hP
  case put => exact passes_put
  case append => exact passes_append
  case insert => exact passes_insert
  case keys => exact passes_keys hP
  case range => exact passes_range hP
  case clone => exact passes_clone hP
  case toStr => exact passes_text hP

end Operator

end ReversePolish

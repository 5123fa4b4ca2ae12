import Mathlib.Data.List.InsertIdx
import ReversePolish.Proofs.Operator.Writing
import ReversePolish.Proofs.Value.Renaming
import ReversePolish.Value.Rendering

/-!
Heaps that hold the same in other cells. Whatever shows nothing of the names of cells does not tell such
heaps apart: texts, truth values, lengths and the answers of comparisons. A change to the one has its
counterpart on the other.
-/

namespace ReversePolish

open Verdict

/-! ### Places that go together -/

section

variable {α : Type} {d : α} {f : Nat → Nat} {r g g' : α → α} {xs ys : Array α} {n n' c cell : Nat}

/-- Where new places go together, places that there are go to places that there are. -/
lemma lt_iff_of_new (hf : Function.Injective f) (hnew : ∀ i, f (n + i) = n' + i) :
    f c < n' ↔ c < n := by
  constructor <;> intro hc
  · by_contra hle
    obtain ⟨i, rfl⟩ := Nat.exists_eq_add_of_le (Nat.not_lt.mp hle)
    rw [hnew] at hc
    omega
  · by_contra hle
    obtain ⟨i, hi⟩ := Nat.exists_eq_add_of_le (Nat.not_lt.mp hle)
    have := hf (hi.trans (hnew i).symm)
    omega

/-- A place that nothing goes to is no new one. -/
lemma lt_of_not_mem_range (hnew : ∀ i, f (n + i) = n' + i) (hc : c ∉ Set.range f) : c < n' := by
  by_contra hle
  obtain ⟨i, rfl⟩ := Nat.exists_eq_add_of_le (Nat.not_lt.mp hle)
  exact hc ⟨_, hnew i⟩

/-- As many places are added on the one side as on the other. -/
lemma lt_of_new {k k' : Nat} (hnew : ∀ i, f (n + i) = n' + i) (hlater : ∀ i, f (k + i) = k' + i)
    (hc : n ≤ c) (hlt : c < k) : f c < k' := by
  obtain ⟨i, rfl⟩ := Nat.exists_eq_add_of_le hc
  obtain ⟨j, rfl⟩ := Nat.exists_eq_add_of_lt hlt
  have hsize := hlater 0
  rw [Nat.add_zero, Nat.add_zero, Nat.add_assoc, Nat.add_assoc, hnew] at hsize
  rw [hnew]
  omega

lemma getD_modify (xs : Array α) (cell : Nat) (g : α → α) (c : Nat) :
    (xs.modify cell g).getD c d =
      if cell = c ∧ c < xs.size then g (xs.getD c d) else xs.getD c d := by
  simp only [Array.getD_eq_getD_getElem?, Array.getElem?_modify]
  by_cases hcell : cell = c <;> by_cases hc : c < xs.size <;> simp [hcell, hc]

/-- What goes together is changed on both sides. -/
lemma getD_modify_renamed (hf : Function.Injective f) (hlt : ∀ c, f c < ys.size ↔ c < xs.size)
    (hget : ∀ c, ys.getD (f c) d = r (xs.getD c d)) (hg : ∀ x, g' (r x) = r (g x)) (cell c : Nat) :
    (ys.modify (f cell) g').getD (f c) d = r ((xs.modify cell g).getD c d) := by
  simp only [getD_modify, hf.eq_iff, hlt, hget]
  split
  · exact hg _
  · rfl

lemma getD_modify_other (hc : c ∉ Set.range f) : (ys.modify (f cell) g').getD c d = ys.getD c d := by
  rw [getD_modify, if_neg fun h => hc ⟨cell, h.1⟩]

end

namespace Heap

variable {ρ : Renaming} {h h' k : Heap} {v w : Value} {c : Nat}

lemma items_of_le (hc : h.lists.size ≤ c) : h.items c = #[] := by
  rw [items, Array.getD_eq_getD_getElem?, Array.getElem?_eq_none hc, Option.getD_none]

lemma entries_of_le (hc : h.maps.size ≤ c) : h.entries c = ∅ := by
  rw [entries, Array.getD_eq_getD_getElem?, Array.getElem?_eq_none hc, Option.getD_none]

lemma link_of_le (hc : h.links.size ≤ c) : h.link c = none := by
  rw [link, Array.getD_eq_getD_getElem?, Array.getElem?_eq_none hc, Option.getD_none]

/-- Cells that are added to both heaps go together. -/
structure Matched (ρ : Renaming) (h h' : Heap) : Prop where
  newLists : ∀ i, ρ.list (h.lists.size + i) = h'.lists.size + i
  newMaps : ∀ i, ρ.map (h.maps.size + i) = h'.maps.size + i
  newLinks : ∀ i, ρ.program (h.links.size + i) = h'.links.size + i

namespace Matched

variable (hm : Matched ρ h h')

include hm

lemma newList_eq : ρ.list h.lists.size = h'.lists.size := hm.newLists 0

lemma newMap_eq : ρ.map h.maps.size = h'.maps.size := hm.newMaps 0

lemma newLink_eq : ρ.program h.links.size = h'.links.size := hm.newLinks 0

lemma newList (xs ys : Array Value) : Matched ρ (h.newList xs).2 (h'.newList ys).2 where
  newLists i := by
    have := hm.newLists (1 + i)
    simp only [Heap.newList, Array.size_push]
    rwa [← Nat.add_assoc, ← Nat.add_assoc] at this
  newMaps := hm.newMaps
  newLinks := hm.newLinks

lemma newMap (es fs : Table Key Value) : Matched ρ (h.newMap es).2 (h'.newMap fs).2 where
  newLists := hm.newLists
  newMaps i := by
    have := hm.newMaps (1 + i)
    simp only [Heap.newMap, Array.size_push]
    rwa [← Nat.add_assoc, ← Nat.add_assoc] at this
  newLinks := hm.newLinks

lemma newLink (around around' : Option Nat) :
    Matched ρ (h.newLink around).2 (h'.newLink around').2 where
  newLists := hm.newLists
  newMaps := hm.newMaps
  newLinks i := by
    have := hm.newLinks (1 + i)
    simp only [Heap.newLink, Array.size_push]
    rwa [← Nat.add_assoc, ← Nat.add_assoc] at this

end Matched

/-- The second heap holds what the first one does, in cells of other names, and cells yet to be added
will go together, too. Cells of the second heap that are named by none are as they are in `k`. -/
structure Renamed (ρ : Renaming) (h h' k : Heap) : Prop extends Matched ρ h h' where
  listInjective : Function.Injective ρ.list
  mapInjective : Function.Injective ρ.map
  programInjective : Function.Injective ρ.program
  items : ∀ c, h'.items (ρ.list c) = (h.items c).map (Value.rename ρ)
  entries : ∀ c, h'.entries (ρ.map c) = (h.entries c).map (Value.rename ρ)
  links : ∀ c, h'.link (ρ.program c) = (h.link c).map ρ.program
  otherItems : ∀ c, c ∉ Set.range ρ.list → h'.items c = k.items c
  otherEntries : ∀ c, c ∉ Set.range ρ.map → h'.entries c = k.entries c
  otherLinks : ∀ c, c ∉ Set.range ρ.program → h'.link c = k.link c

namespace Renamed

variable (hh : Renamed ρ h h' k)

include hh

lemma list_lt_iff : ρ.list c < h'.lists.size ↔ c < h.lists.size :=
  lt_iff_of_new hh.listInjective hh.newLists

lemma map_lt_iff : ρ.map c < h'.maps.size ↔ c < h.maps.size :=
  lt_iff_of_new hh.mapInjective hh.newMaps

lemma program_lt_iff : ρ.program c < h'.links.size ↔ c < h.links.size :=
  lt_iff_of_new hh.programInjective hh.newLinks

/-! ### What is seen of values -/

lemma head_eq (v : Value) : h'.head (v.rename ρ) = h.head v := by
  cases v with
  | list c => simp [head, hh.items]
  | map c => simp [head, hh.entries, Function.comp_def]
  | _ => simp [head]

lemma truth_eq (v : Value) : h'.truth (v.rename ρ) = h.truth v := by
  cases v with
  | list c => simp [truth, hh.items, Array.isEmpty]
  | map c => simp [truth, hh.entries]
  | _ => simp [truth]

lemma length_eq (v : Value) : Operator.length h' (v.rename ρ) = Operator.length h v := by
  cases v with
  | list c => simp [Operator.length, hh.items]
  | map c => simp [Operator.length, hh.entries]
  | _ => simp [Operator.length, Value.kind]

omit hh in
lemma elide_map {α β : Type} (limit : Option Nat) (f : β → List String) (g : α → β) (xs : List α) :
    elide limit f (xs.map g) = elide limit (fun x => f (g x)) xs := by
  cases limit <;> simp [elide, List.flatMap_map, ← List.map_drop, ← List.map_take]

lemma lexemes_eq (limits : Display) (n : Nat) (v : Value) :
    h'.lexemes limits n (v.rename ρ) = h.lexemes limits n v := by
  induction n generalizing v with
  | zero => rfl
  | succ n ih =>
    cases v with
    | list c => simp [lexemes, hh.items, elide_map, ih]
    | map c => simp [lexemes, hh.entries, elide_map, ih]
    | _ => simp [lexemes, elide_map, ih]

lemma renderWith_eq (limits : Display) (v : Value) :
    h'.renderWith limits (v.rename ρ) = h.renderWith limits v := by
  rw [renderWith, renderWith, hh.lexemes_eq]

lemma render_eq (v : Value) : h'.render (v.rename ρ) = h.render v := hh.renderWith_eq _ v

end Renamed

end Heap

/-! ### Comparisons -/

namespace Comparison

variable {ρ : Renaming} {h h' k : Heap} {c : Comparison}

def rename (ρ : Renaming) (c : Comparison) : Comparison :=
  ⟨c.depth, c.left.rename ρ, c.right.rename ρ⟩

lemma bodies_rename (ρ : Renaming) (v w : Value) : bodies (v.rename ρ) (w.rename ρ) =
    (bodies v w).map (Prod.map (List.map (Value.rename ρ)) (List.map (Value.rename ρ))) := by
  cases v <;> cases w <;> simp [bodies]

lemma zipWith_rename (ρ : Renaming) (depth : Nat) (vs ws : List Value) :
    List.zipWith (Comparison.mk depth) (vs.map (Value.rename ρ)) (ws.map (Value.rename ρ)) =
      (List.zipWith (Comparison.mk depth) vs ws).map (rename ρ) := by
  rw [List.zipWith_map, List.map_zipWith]
  rfl

lemma ofBodies_rename (ρ : Renaming) (bs : List (List Value × List Value)) :
    ofBodies (bs.map (Prod.map (List.map (Value.rename ρ)) (List.map (Value.rename ρ)))) =
      (ofBodies bs).map (rename ρ) := by
  induction bs with
  | nil => rfl
  | cons b bs ih =>
    obtain ⟨vs, ws⟩ := b
    simp only [List.map_cons, Prod.map_apply, ofBodies, List.length_map, zipWith_rename, ih]
    split <;> simp

variable (hh : h.Renamed ρ h' k)

include hh

lemma ofCells_rename : (c.rename ρ).OfCells ↔ c.OfCells := by
  constructor
  · obtain ⟨depth, v, w⟩ := c
    intro hc
    cases v <;> cases w <;> simp only [rename, Value.rename] at hc <;> cases hc
    case list.list.lists a b hd hab => exact .lists hd fun heq => hab (heq ▸ rfl)
    case map.map.maps a b hd hab => exact .maps hd fun heq => hab (heq ▸ rfl)
  · rintro (⟨hd, hab⟩ | ⟨hd, hab⟩)
    · exact .lists hd (hh.listInjective.ne hab)
    · exact .maps hd (hh.mapInjective.ne hab)

lemma outcome_rename : (c.rename ρ).outcome h' = c.outcome h := by
  simp only [outcome, rename, hh.head_eq]

lemma parts_rename : (c.rename ρ).parts h' = (c.parts h).map (rename ρ) := by
  obtain ⟨depth, v, w⟩ := c
  by_cases hd : compareDepth ≤ depth
  · simp [parts, rename, hd]
  · have hbodies : ofBodies (bodies (v.rename ρ) (w.rename ρ)) =
        (ofBodies (bodies v w)).map (rename ρ) := by
      rw [bodies_rename, ofBodies_rename]
    cases v <;> cases w <;> try simpa [parts, rename, hd] using hbodies
    case list.list a b =>
      simp only [parts, rename, hd, if_false, Value.rename_list, hh.items, Array.size_map,
        Array.toList_map, hh.listInjective.eq_iff, zipWith_rename]
      split <;> simp
    case map.map a b =>
      simp only [parts, rename, hd, if_false, Value.rename_map, hh.entries, Table.entries_map,
        List.length_map, hh.mapInjective.eq_iff]
      split
      · rfl
      · simp [List.zip_map, List.takeWhile_map, Function.comp_def, rename]

end Comparison

namespace Heap

variable {ρ : Renaming} {h h' k : Heap} {v w : Value}

namespace Renamed

variable (hh : Renamed ρ h h' k)

include hh

/-- It is enough to look at comparisons of cells. -/
lemma verdictAt_eq_lift {n : Nat} (hcells : ∀ c : Comparison, c.OfCells →
    h'.verdictAt n (c.rename ρ) = h.verdictAt n c) (c : Comparison) :
    h'.verdictAt n (c.rename ρ) = h.verdictAt n c := by
  induction hsize : sizeOf c.left using Nat.strongRecOn generalizing c with
  | _ size ih =>
    by_cases hc : c.OfCells
    · exact hcells c hc
    · have hc' := mt (Comparison.ofCells_rename hh).mp hc
      rw [h.verdictAt_of_not_cells hc, h'.verdictAt_of_not_cells hc', Comparison.parts_rename hh,
        Comparison.outcome_rename hh, List.map_map]
      refine congrArg (fun vs => (settle vs).andThen fun _ => c.outcome h) ?_
      refine List.map_congr_left fun p hp => ?_
      have hlt := sizeOf_lt_of_mem_bodyItems (of_mem_parts_of_not_cells hc hp).2.1
      exact congrArg decided (ih _ (hsize ▸ hlt) p rfl)

lemma verdictAt_eq (n : Nat) (c : Comparison) :
    h'.verdictAt n (c.rename ρ) = h.verdictAt n c := by
  induction n generalizing c with
  | zero =>
    refine hh.verdictAt_eq_lift (fun c hc => ?_) c
    rw [(h.verdictAt_of_cells hc).1,
      (h'.verdictAt_of_cells ((Comparison.ofCells_rename hh).mpr hc)).1]
  | succ n ih =>
    refine hh.verdictAt_eq_lift (fun c hc => ?_) c
    rw [(h.verdictAt_of_cells hc).2,
      (h'.verdictAt_of_cells ((Comparison.ofCells_rename hh).mpr hc)).2,
      Comparison.parts_rename hh, Comparison.outcome_rename hh, List.map_map]
    refine congrArg (fun vs => (settle vs).andThen fun _ => c.outcome h) ?_
    exact List.map_congr_left fun p _ => ih p

/-- **Comparisons come to the same verdict**, although the heaps may have different numbers of cells and
so give different amounts of fuel. -/
theorem equate_eq (depth : Nat) (v w : Value) :
    h'.equate depth (v.rename ρ) (w.rename ρ) = h.equate depth v w := by
  let c : Comparison := ⟨depth, v, w⟩
  let n := max h.comparisonFuel h'.comparisonFuel
  calc h'.equate depth (v.rename ρ) (w.rename ρ)
      = h'.verdictAt n (c.rename ρ) :=
        (congrFun (verdictAt_enough (Nat.le_max_right _ _)) (c.rename ρ)).symm
    _ = h.verdictAt n c := hh.verdictAt_eq n c
    _ = h.equate depth v w := congrFun (verdictAt_enough (Nat.le_max_left _ _)) c

lemma equal?_eq (v w : Value) : h'.equal? (v.rename ρ) (w.rename ρ) = h.equal? v w := by
  simp only [equal?, Value.kind_rename, hh.equate_eq]

end Renamed

/-! ### Changes -/

/-- The same change, to cells of other names. -/
def Edit.rename (ρ : Renaming) : Edit → Edit
  | keep => keep
  | addList items => addList (items.map (Value.rename ρ))
  | addMap entries => addMap (entries.map (Value.rename ρ))
  | addLink around => addLink (around.map ρ.program)
  | setItem cell i v => setItem (ρ.list cell) i (v.rename ρ)
  | addItem cell v => addItem (ρ.list cell) (v.rename ρ)
  | insertItem cell i v => insertItem (ρ.list cell) i (v.rename ρ)
  | bind cell key v => bind (ρ.map cell) key (v.rename ρ)

lemma items_push (xs : Array Value) (h : Heap) (c : Nat) :
    (h.newList xs).2.items c = if c = h.lists.size then xs else h.items c := by
  simp only [items, newList, Array.getD_eq_getD_getElem?, Array.getElem?_push]
  split <;> rfl

lemma entries_push (es : Table Key Value) (h : Heap) (c : Nat) :
    (h.newMap es).2.entries c = if c = h.maps.size then es else h.entries c := by
  simp only [entries, newMap, Array.getD_eq_getD_getElem?, Array.getElem?_push]
  split <;> rfl

lemma link_push (around : Option Nat) (h : Heap) (c : Nat) :
    (h.newLink around).2.link c = if c = h.links.size then around else h.link c := by
  simp only [link, newLink, Array.getD_eq_getD_getElem?, Array.getElem?_push]
  split <;> rfl

namespace Renamed

variable (hh : Renamed ρ h h' k)

include hh

lemma newList (xs : Array Value) :
    Renamed ρ (h.newList xs).2 (h'.newList (xs.map (Value.rename ρ))).2 k where
  toMatched := hh.toMatched.newList xs _
  listInjective := hh.listInjective
  mapInjective := hh.mapInjective
  programInjective := hh.programInjective
  items c := by
    simp only [items_push, ← hh.newList_eq, hh.listInjective.eq_iff, hh.items]
    split <;> rfl
  entries := hh.entries
  links := hh.links
  otherItems c hc := by
    have hne : c ≠ h'.lists.size := fun heq => hc ⟨_, hh.newList_eq.trans heq.symm⟩
    rw [items_push, if_neg hne, hh.otherItems c hc]
  otherEntries := hh.otherEntries
  otherLinks := hh.otherLinks

lemma newMap (es : Table Key Value) :
    Renamed ρ (h.newMap es).2 (h'.newMap (es.map (Value.rename ρ))).2 k where
  toMatched := hh.toMatched.newMap es _
  listInjective := hh.listInjective
  mapInjective := hh.mapInjective
  programInjective := hh.programInjective
  items := hh.items
  entries c := by
    simp only [entries_push, ← hh.newMap_eq, hh.mapInjective.eq_iff, hh.entries]
    split <;> rfl
  links := hh.links
  otherItems := hh.otherItems
  otherEntries c hc := by
    have hne : c ≠ h'.maps.size := fun heq => hc ⟨_, hh.newMap_eq.trans heq.symm⟩
    rw [entries_push, if_neg hne, hh.otherEntries c hc]
  otherLinks := hh.otherLinks

lemma newLink (around : Option Nat) :
    Renamed ρ (h.newLink around).2 (h'.newLink (around.map ρ.program)).2 k where
  toMatched := hh.toMatched.newLink around _
  listInjective := hh.listInjective
  mapInjective := hh.mapInjective
  programInjective := hh.programInjective
  items := hh.items
  entries := hh.entries
  links c := by
    simp only [link_push, ← hh.newLink_eq, hh.programInjective.eq_iff, hh.links]
    split <;> rfl
  otherItems := hh.otherItems
  otherEntries := hh.otherEntries
  otherLinks c hc := by
    have hne : c ≠ h'.links.size := fun heq => hc ⟨_, hh.newLink_eq.trans heq.symm⟩
    rw [link_push, if_neg hne, hh.otherLinks c hc]

/-- A list is changed on both sides, or on neither. -/
lemma modifyList (cell : Nat) {f f' : Array Value → Array Value}
    (hf : ∀ xs, f' (xs.map (Value.rename ρ)) = (f xs).map (Value.rename ρ)) :
    Renamed ρ { h with lists := h.lists.modify cell f }
      { h' with lists := h'.lists.modify (ρ.list cell) f' } k where
  listInjective := hh.listInjective
  mapInjective := hh.mapInjective
  programInjective := hh.programInjective
  newLists := by simpa using hh.newLists
  newMaps := hh.newMaps
  newLinks := hh.newLinks
  items := getD_modify_renamed hh.listInjective (fun _ => hh.list_lt_iff) hh.items hf cell
  entries := hh.entries
  links := hh.links
  otherItems c hc := (getD_modify_other hc).trans (hh.otherItems c hc)
  otherEntries := hh.otherEntries
  otherLinks := hh.otherLinks

lemma modifyMap (cell : Nat) {f f' : Table Key Value → Table Key Value}
    (hf : ∀ es, f' (es.map (Value.rename ρ)) = (f es).map (Value.rename ρ)) :
    Renamed ρ { h with maps := h.maps.modify cell f }
      { h' with maps := h'.maps.modify (ρ.map cell) f' } k where
  listInjective := hh.listInjective
  mapInjective := hh.mapInjective
  programInjective := hh.programInjective
  newLists := hh.newLists
  newMaps := by simpa using hh.newMaps
  newLinks := hh.newLinks
  items := hh.items
  entries := getD_modify_renamed hh.mapInjective (fun _ => hh.map_lt_iff) hh.entries hf cell
  links := hh.links
  otherItems := hh.otherItems
  otherEntries c hc := (getD_modify_other hc).trans (hh.otherEntries c hc)
  otherLinks := hh.otherLinks

/-- **Changes that go together** lead to heaps that hold the same. -/
theorem apply (edit : Edit) : Renamed ρ (h.apply edit) (h'.apply (edit.rename ρ)) k := by
  cases edit with
  | keep => exact hh
  | addList items => exact hh.newList items
  | addMap entries => exact hh.newMap entries
  | addLink around => exact hh.newLink around
  | setItem cell i v => exact hh.modifyList cell fun xs => by simp [Array.map_setIfInBounds]
  | addItem cell v => exact hh.modifyList cell fun xs => by simp
  | insertItem cell i v =>
    refine hh.modifyList cell fun xs => ?_
    cases xs
    simp [← List.map_insertIdx]
  | bind cell key v => exact hh.modifyMap cell fun es => Table.insert_map _ es key v

/-- Copies are made in cells that go together. -/
lemma copy_eq (v : Value) : h'.copy (v.rename ρ) =
    (h.copy v).map (Prod.map (Value.rename ρ) (Edit.rename ρ)) := by
  cases v with
  | list c => simp [copy, Except.map, Edit.rename, hh.items, hh.newList_eq]
  | map c => simp [copy, Except.map, Edit.rename, hh.entries, hh.newMap_eq]
  | program p =>
    obtain ⟨body, home, cell⟩ := p
    cases cell <;> simp [copy, Except.map, Edit.rename, Program.rename, hh.links, hh.newLink_eq]
  | _ => simp [copy, Except.map, Edit.rename]

end Renamed

end Heap

end ReversePolish

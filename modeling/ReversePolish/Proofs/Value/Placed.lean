import ReversePolish.Proofs.Reader.Translation
import ReversePolish.Proofs.Value.Renamed

/-!
What is read, given storage on two heaps. It comes into new cells on both, and into the same number of
them, so it does not matter what the heaps hold already: on the one heap lies what lies on the other, in
cells of other names.
-/

namespace ReversePolish

namespace Heap

variable {ρ : Renaming} {h h₁ h₂ h' h₁' h₂' k : Heap}

/-- Both heaps have grown, and what has been added to them is the same but for the names of cells. -/
structure GrownAlike (ρ : Renaming) (h h₁ h' h₁' : Heap) : Prop extends Matched ρ h₁ h₁' where
  left : h.Extends h₁
  right : h'.Extends h₁'
  items : ∀ c, h.lists.size ≤ c → h₁'.items (ρ.list c) = (h₁.items c).map (Value.rename ρ)
  entries : ∀ c, h.maps.size ≤ c → h₁'.entries (ρ.map c) = (h₁.entries c).map (Value.rename ρ)
  links : ∀ c, h.links.size ≤ c → h₁'.link (ρ.program c) = (h₁.link c).map ρ.program

namespace GrownAlike

lemma refl (hm : Matched ρ h h') : GrownAlike ρ h h h' h' where
  toMatched := hm
  left := .refl h
  right := .refl h'
  items c hc := by
    obtain ⟨i, rfl⟩ := Nat.exists_eq_add_of_le hc
    rw [hm.newLists, items_of_le hc, items_of_le (Nat.le_add_right _ _), Array.map_empty]
  entries c hc := by
    obtain ⟨i, rfl⟩ := Nat.exists_eq_add_of_le hc
    rw [hm.newMaps, entries_of_le hc, entries_of_le (Nat.le_add_right _ _), Table.map_empty]
  links c hc := by
    obtain ⟨i, rfl⟩ := Nat.exists_eq_add_of_le hc
    rw [hm.newLinks, link_of_le hc, link_of_le (Nat.le_add_right _ _), Option.map_none]

lemma list_lt {c : Nat} (hm : Matched ρ h h') (hg : GrownAlike ρ h h₁ h' h₁')
    (hc : h.lists.size ≤ c) (hlt : c < h₁.lists.size) : ρ.list c < h₁'.lists.size :=
  lt_of_new hm.newLists hg.newLists hc hlt

lemma map_lt {c : Nat} (hm : Matched ρ h h') (hg : GrownAlike ρ h h₁ h' h₁')
    (hc : h.maps.size ≤ c) (hlt : c < h₁.maps.size) : ρ.map c < h₁'.maps.size :=
  lt_of_new hm.newMaps hg.newMaps hc hlt

lemma program_lt {c : Nat} (hm : Matched ρ h h') (hg : GrownAlike ρ h h₁ h' h₁')
    (hc : h.links.size ≤ c) (hlt : c < h₁.links.size) : ρ.program c < h₁'.links.size :=
  lt_of_new hm.newLinks hg.newLinks hc hlt

lemma trans (hm : Matched ρ h h') (hg : GrownAlike ρ h h₁ h' h₁')
    (hg' : GrownAlike ρ h₁ h₂ h₁' h₂') : GrownAlike ρ h h₂ h' h₂' where
  toMatched := hg'.toMatched
  left := hg.left.trans hg'.left
  right := hg.right.trans hg'.right
  items c hc := by
    by_cases hlt : c < h₁.lists.size
    · rw [hg'.right.items (hg.list_lt hm hc hlt), hg'.left.items hlt, hg.items c hc]
    · exact hg'.items c (Nat.le_of_not_lt hlt)
  entries c hc := by
    by_cases hlt : c < h₁.maps.size
    · rw [hg'.right.entries (hg.map_lt hm hc hlt), hg'.left.entries hlt, hg.entries c hc]
    · exact hg'.entries c (Nat.le_of_not_lt hlt)
  links c hc := by
    by_cases hlt : c < h₁.links.size
    · rw [link_of_extends hg'.right (hg.program_lt hm hc hlt), link_of_extends hg'.left hlt,
        hg.links c hc]
    · exact hg'.links c (Nat.le_of_not_lt hlt)

lemma newList (hm : Matched ρ h h') (xs : Array Value) :
    GrownAlike ρ h (h.newList xs).2 h' (h'.newList (xs.map (Value.rename ρ))).2 where
  toMatched := hm.newList _ _
  left := extends_newList _ _
  right := extends_newList _ _
  items c hc := by
    obtain ⟨i, rfl⟩ := Nat.exists_eq_add_of_le hc
    cases i with
    | zero => simp [items_push, hm.newList_eq]
    | succ i =>
      rw [hm.newLists, items_push, items_push, if_neg (by omega), if_neg (by omega),
        items_of_le hc, items_of_le (Nat.le_add_right _ _), Array.map_empty]
  entries := (refl hm).entries
  links := (refl hm).links

lemma newMap (hm : Matched ρ h h') (es : Table Key Value) :
    GrownAlike ρ h (h.newMap es).2 h' (h'.newMap (es.map (Value.rename ρ))).2 where
  toMatched := hm.newMap _ _
  left := extends_newMap _ _
  right := extends_newMap _ _
  items := (refl hm).items
  entries c hc := by
    obtain ⟨i, rfl⟩ := Nat.exists_eq_add_of_le hc
    cases i with
    | zero => simp [entries_push, hm.newMap_eq]
    | succ i =>
      rw [hm.newMaps, entries_push, entries_push, if_neg (by omega), if_neg (by omega),
        entries_of_le hc, entries_of_le (Nat.le_add_right _ _), Table.map_empty]
  links := (refl hm).links

lemma newLink (hm : Matched ρ h h') (around : Option Nat) :
    GrownAlike ρ h (h.newLink around).2 h' (h'.newLink (around.map ρ.program)).2 where
  toMatched := hm.newLink _ _
  left := extends_newLink _ _
  right := extends_newLink _ _
  items := (refl hm).items
  entries := (refl hm).entries
  links c hc := by
    obtain ⟨i, rfl⟩ := Nat.exists_eq_add_of_le hc
    cases i with
    | zero => simp [link_push, hm.newLink_eq]
    | succ i =>
      rw [hm.newLinks, link_push, link_push, if_neg (by omega), if_neg (by omega),
        link_of_le hc, link_of_le (Nat.le_add_right _ _), Option.map_none]

end GrownAlike

/-- Heaps that hold the same still do so when they have grown alike. -/
lemma Renamed.grow (hh : h.Renamed ρ h' k) (hg : GrownAlike ρ h h₁ h' h₁') :
    h₁.Renamed ρ h₁' k where
  toMatched := hg.toMatched
  listInjective := hh.listInjective
  mapInjective := hh.mapInjective
  programInjective := hh.programInjective
  items c := by
    by_cases hc : c < h.lists.size
    · rw [hg.right.items (hh.list_lt_iff.mpr hc), hg.left.items hc, hh.items]
    · exact hg.items c (Nat.le_of_not_lt hc)
  entries c := by
    by_cases hc : c < h.maps.size
    · rw [hg.right.entries (hh.map_lt_iff.mpr hc), hg.left.entries hc, hh.entries]
    · exact hg.entries c (Nat.le_of_not_lt hc)
  links c := by
    by_cases hc : c < h.links.size
    · rw [link_of_extends hg.right (hh.program_lt_iff.mpr hc), link_of_extends hg.left hc, hh.links]
    · exact hg.links c (Nat.le_of_not_lt hc)
  otherItems c hc := by
    rw [hg.right.items (lt_of_not_mem_range hh.newLists hc), hh.otherItems c hc]
  otherEntries c hc := by
    rw [hg.right.entries (lt_of_not_mem_range hh.newMaps hc), hh.otherEntries c hc]
  otherLinks c hc := by
    rw [link_of_extends hg.right (lt_of_not_mem_range hh.newLinks hc), hh.otherLinks c hc]

end Heap

/-! ### Storing -/

namespace Datum

variable {ρ : Renaming} {around : Option Nat} {h h' : Heap} {d : Datum Command}
  {ds : List (Datum Command)} {es : List (Key × Datum Command)}

/-- The tree, with the values in it that lie in other cells. -/
abbrev rename (ρ : Renaming) (d : Datum Command) : Datum Command := d.translate (Command.rename ρ)

/-- What is stored on the two heaps is the same but for the names of cells. -/
structure Placed {α : Type} (ρ : Renaming) (f : α → α) (h h' : Heap) (x y : α × Heap) : Prop where
  result : y.1 = f x.1
  grown : Heap.GrownAlike ρ h x.2 h' y.2

/-- On both heaps the same program is around the tree, in cells that go together. -/
def StoredAlike (ρ : Renaming) (d : Datum Command) : Prop :=
  ∀ around h h', Heap.Matched ρ h h' →
    Placed ρ (Value.rename ρ) h h' (d.store around h) ((d.rename ρ).store (around.map ρ.program) h')

lemma placed_all (hds : ∀ d ∈ ds, d.StoredAlike ρ) (around : Option Nat)
    (hm : Heap.Matched ρ h h') :
    Placed ρ (List.map (Value.rename ρ)) h h' (storeAll ds around h)
      (storeAll (translateAll (Command.rename ρ) ds) (around.map ρ.program) h') := by
  induction ds generalizing h h' with
  | nil => exact ⟨rfl, .refl hm⟩
  | cons d ds ih =>
    obtain ⟨hd, hds⟩ := List.forall_mem_cons.mp hds
    obtain ⟨hv, hg⟩ := hd around h h' hm
    obtain ⟨hvs, hg'⟩ := ih hds hg.toMatched
    refine ⟨?_, hg.trans hm hg'⟩
    simp only [storeAll, translateAll, List.map_cons]
    rw [hv, hvs]

lemma placed_entries (hes : ∀ e ∈ es, e.2.StoredAlike ρ) (around : Option Nat)
    (hm : Heap.Matched ρ h h') :
    Placed ρ (List.map fun e => (e.1, e.2.rename ρ)) h h' (storeEntries es around h)
      (storeEntries (translateEntries (Command.rename ρ) es) (around.map ρ.program) h') := by
  induction es generalizing h h' with
  | nil => exact ⟨rfl, .refl hm⟩
  | cons e es ih =>
    obtain ⟨he, hes⟩ := List.forall_mem_cons.mp hes
    obtain ⟨hv, hg⟩ := he around h h' hm
    obtain ⟨hvs, hg'⟩ := ih hes hg.toMatched
    refine ⟨?_, hg.trans hm hg'⟩
    simp only [storeEntries, translateEntries, List.map_cons]
    rw [hv, hvs]

/-- **What is read is stored alike on any two heaps.** -/
theorem placed_store : ∀ d : Datum Command, d.StoredAlike ρ
  | .int _, _, _, _, hm | .str _, _, _, _, hm | .none, _, _, _, hm | .command _ _, _, _, _, hm =>
    ⟨rfl, .refl hm⟩
  | .list items, around, h, h', hm => by
    obtain ⟨hvs, hg⟩ := placed_all (fun d (_ : d ∈ items) => placed_store d) around hm
    have hnew := Heap.GrownAlike.newList hg.toMatched (storeAll items around h).1.toArray
    rw [List.map_toArray, ← hvs] at hnew
    exact ⟨congrArg Value.list hg.newList_eq.symm, hg.trans hm hnew⟩
  | .map entries, around, h, h', hm => by
    have hentries : ∀ e ∈ entries, e.2.StoredAlike ρ := fun (k, d) he =>
      have : 1 + sizeOf k + sizeOf d < sizeOf entries := List.sizeOf_lt_of_mem he
      placed_store d
    obtain ⟨hes, hg⟩ := placed_entries hentries around hm
    have hnew := Heap.GrownAlike.newMap hg.toMatched (.ofList (storeEntries entries around h).1)
    rw [← Table.ofList_map, ← hes] at hnew
    exact ⟨congrArg Value.map hg.newMap_eq.symm, hg.trans hm hnew⟩
  | .program home body, around, h, h', hm => by
    have hnew := Heap.GrownAlike.newLink hm around
    obtain ⟨hvs, hg⟩ := placed_all (fun d (_ : d ∈ body) => placed_store d) (some h.links.size)
      hnew.toMatched
    rw [Option.map_some, hm.newLink_eq] at hvs hg
    refine ⟨?_, hnew.trans hm hg⟩
    show Value.program ⟨(storeAll (translateAll (Command.rename ρ) body) (some h'.links.size)
        (h'.newLink (around.map ρ.program)).2).1, home, some h'.links.size⟩ =
      .program (Program.rename ρ
        ⟨(storeAll body (some h.links.size) (h.newLink around).2).1, home, some h.links.size⟩)
    rw [hvs]
    simp [Program.rename, hm.newLink_eq]
  | .each body, around, h, h', hm => by
    obtain ⟨hvs, hg⟩ := placed_all (fun d (_ : d ∈ body) => placed_store d) around hm
    refine ⟨?_, hg⟩
    simp only [translate, store]
    rw [hvs]
    simp
  | .loop cond body, around, h, h', hm => by
    obtain ⟨hcs, hg⟩ := placed_all (fun d (_ : d ∈ cond) => placed_store d) around hm
    obtain ⟨hvs, hg'⟩ := placed_all (fun d (_ : d ∈ body) => placed_store d) around hg.toMatched
    refine ⟨?_, hg.trans hm hg'⟩
    simp only [translate, store]
    rw [hcs, hvs]
    simp
  | .branch cond thn els, around, h, h', hm => by
    obtain ⟨hcs, hg⟩ := placed_all (fun d (_ : d ∈ cond) => placed_store d) around hm
    obtain ⟨hts, hg'⟩ := placed_all (fun d (_ : d ∈ thn) => placed_store d) around hg.toMatched
    obtain ⟨hes, hg''⟩ := placed_all (fun d (_ : d ∈ els) => placed_store d) around hg'.toMatched
    refine ⟨?_, hg.trans hm (hg'.trans hg.toMatched hg'')⟩
    simp only [translate, store]
    rw [hcs, hts, hes]
    simp

lemma placed_storeAll (ds : List (Datum Command)) (around : Option Nat)
    (hm : Heap.Matched ρ h h') :
    Placed ρ (List.map (Value.rename ρ)) h h' (storeAll ds around h)
      (storeAll (ds.map (rename ρ)) (around.map ρ.program) h') := by
  rw [← translateAll_eq_map]
  exact placed_all (fun d _ => placed_store d) around hm

end Datum

end ReversePolish

import Mathlib.Data.List.Forall2
import ReversePolish.Datum
import ReversePolish.Proofs.Table
import ReversePolish.Value.Rendering

/-!
Values apart from storage. A value unfolds to a finite tree, unless it contains itself.

The tree says nothing about which lists and maps are shared, nor which namespace a program runs
in. What is read is put into new cells, and unfolds to the tree that was read however the heap
grows.
-/

namespace ReversePolish

/-- What a value is when its lists and maps are written out in it. A command shows by its name. -/
inductive Shape where
  | int (n : Int64)
  | str (s : String)
  | none
  | list (items : List Shape)
  | map (entries : List (Key × Shape))
  | program (body : List Shape)
  | command (name : String) (help : Bool)
  | branch (cond thn els : List Shape)
  | each (body : List Shape)
  | loop (cond body : List Shape)

lemma mapM_eq_some_iff {α β : Type} {f : α → Option β} {xs : List α} {ys : List β} :
    xs.mapM f = some ys ↔ List.Forall₂ (fun x y => f x = some y) xs ys := by
  induction xs generalizing ys with
  | nil => simp [eq_comm]
  | cons x xs ih =>
    constructor
    · intro h
      cases hx : f x with
      | none => simp [hx] at h
      | some y =>
        cases hxs : xs.mapM f with
        | none => simp [hx, hxs] at h
        | some zs =>
          obtain rfl : y :: zs = ys := by simpa [hx, hxs] using h
          exact .cons hx (ih.mp hxs)
    · rintro (_ | ⟨hx, hxs⟩)
      simp [hx, ih.mpr hxs]

section

variable {α β : Type} {f g : α → Option β} {xs ys : List α} {us : List β}

lemma mapM_eq_none_iff : xs.mapM f = none ↔ ∃ x ∈ xs, f x = none := by
  induction xs with
  | nil => simp
  | cons x xs ih =>
    rw [List.mapM_cons, List.exists_mem_cons_iff, ← ih]
    cases f x <;> cases xs.mapM f <;> simp

lemma length_of_mapM (h : xs.mapM f = some us) : xs.length = us.length :=
  (mapM_eq_some_iff.mp h).length_eq

/-- Elements in the same places are sent to the same. -/
lemma mapM_zip (hxs : xs.mapM f = some us) (hys : ys.mapM f = some us) :
    ∀ e ∈ xs.zip ys, ∃ u, f e.1 = some u ∧ f e.2 = some u := by
  induction mapM_eq_some_iff.mp hxs generalizing ys with
  | nil => exact fun _ he => (List.not_mem_nil he).elim
  | @cons x u xs us hx hall ih =>
    cases mapM_eq_some_iff.mp hys with
    | @cons y _ ys _ hy hall' =>
      rw [List.zip_cons_cons, List.forall_mem_cons]
      exact ⟨⟨u, hx, hy⟩, ih (mapM_eq_some_iff.mpr hall) (mapM_eq_some_iff.mpr hall')⟩

lemma map_eq_of_zip {γ : Type} {f : α → γ} (hlen : xs.length = ys.length)
    (hxy : ∀ e ∈ xs.zip ys, f e.1 = f e.2) : xs.map f = ys.map f := by
  induction xs generalizing ys with
  | nil =>
    obtain rfl : ys = [] := List.eq_nil_of_length_eq_zero hlen.symm
    rfl
  | cons x xs ih =>
    cases ys with
    | nil => cases hlen
    | cons y ys =>
      rw [List.zip_cons_cons, List.forall_mem_cons] at hxy
      rw [List.map_cons, List.map_cons, hxy.1, ih (Nat.succ.inj hlen) hxy.2]

lemma mapM_eq_of_zip (hlen : xs.length = ys.length) (hxy : ∀ e ∈ xs.zip ys, f e.1 = f e.2) :
    xs.mapM f = ys.mapM f := by
  have hrow (zs : List α) : (zs.map f).mapM id = zs.mapM f := List.mapM_map
  rw [← hrow xs, ← hrow ys, map_eq_of_zip hlen hxy]

lemma mapM_congr (hfg : ∀ x ∈ xs, f x = g x) : xs.mapM f = xs.mapM g := by
  induction xs with
  | nil => rfl
  | cons x xs ih =>
    obtain ⟨hx, hxs⟩ := List.forall_mem_cons.mp hfg
    rw [List.mapM_cons, List.mapM_cons, hx, ih hxs]

end

namespace Heap

/-- The tree that a value unfolds to, if the value itself and every value in it lie at a depth
below `n`. -/
def shape? (h : Heap) : Nat → Value → Option Shape
  | 0, _ => none
  | n + 1, v =>
    let all (vs : List Value) := vs.mapM (shape? h n)
    match v with
    | .int i => some (.int i)
    | .str s => some (.str s)
    | .none => some .none
    | .list c => (all (h.items c).toList).map .list
    | .map c =>
      ((h.entries c).entries.mapM fun e => (shape? h n e.2).map (Prod.mk e.1)).map .map
    | .program p => (all p.body).map .program
    | .command c help => some (.command c.name help)
    | .branch cond thn els => do return .branch (← all cond) (← all thn) (← all els)
    | .each body => (all body).map .each
    | .loop cond body => do return .loop (← all cond) (← all body)

/-- The names of the commands in a value, down to a depth of `n`. -/
def commandNames (h : Heap) : Nat → Value → List String
  | 0, _ => []
  | n + 1, v =>
    let all (vs : List Value) := vs.flatMap (commandNames h n)
    match v with
    | .int _ | .str _ | .none => []
    | .list c => all (h.items c).toList
    | .map c => (h.entries c).entries.flatMap fun e => commandNames h n e.2
    | .program p => all p.body
    | .command c _ => [c.name]
    | .branch cond thn els => all cond ++ all thn ++ all els
    | .each body => all body
    | .loop cond body => all cond ++ all body

/-! ### Growing heaps -/

/-- Cells may have been added, and none has changed. -/
structure Extends (h h' : Heap) : Prop where
  lists : h.lists.toList <+: h'.lists.toList
  maps : h.maps.toList <+: h'.maps.toList
  links : h.links.toList <+: h'.links.toList

variable {h h' h'' : Heap} {n : Nat} {d : Datum Command} {ds : List (Datum Command)} {u : Shape}
  {us : List Shape}

lemma Extends.refl (h : Heap) : h.Extends h :=
  ⟨List.prefix_refl _, List.prefix_refl _, List.prefix_refl _⟩

lemma Extends.trans (h₁ : h.Extends h') (h₂ : h'.Extends h'') : h.Extends h'' :=
  ⟨h₁.lists.trans h₂.lists, h₁.maps.trans h₂.maps, h₁.links.trans h₂.links⟩

lemma Extends.size_lists (hx : h.Extends h') : h.lists.size ≤ h'.lists.size := by
  simpa using hx.lists.length_le

lemma Extends.size_maps (hx : h.Extends h') : h.maps.size ≤ h'.maps.size := by
  simpa using hx.maps.length_le

lemma Extends.size_links (hx : h.Extends h') : h.links.size ≤ h'.links.size := by
  simpa using hx.links.length_le

lemma extends_newList (xs : Array Value) (h : Heap) : h.Extends (h.newList xs).2 :=
  ⟨by simp [newList], List.prefix_refl _, List.prefix_refl _⟩

lemma extends_newMap (es : Table Key Value) (h : Heap) : h.Extends (h.newMap es).2 :=
  ⟨List.prefix_refl _, by simp [newMap], List.prefix_refl _⟩

lemma extends_newLink (around : Option Nat) (h : Heap) : h.Extends (h.newLink around).2 :=
  ⟨List.prefix_refl _, List.prefix_refl _, by simp [newLink]⟩

lemma items_newList {xs : Array Value} (hx : (h.newList xs).2.Extends h') :
    h'.items h.lists.size = xs := by
  obtain ⟨ys, hys⟩ := hx.lists
  have hget : h'.lists.toList[h.lists.size]? = some xs := by
    rw [← hys]
    simp [newList]
  rw [Array.getElem?_toList] at hget
  simp [items, hget]

lemma entries_newMap {es : Table Key Value} (hx : (h.newMap es).2.Extends h') :
    h'.entries h.maps.size = es := by
  obtain ⟨ys, hys⟩ := hx.maps
  have hget : h'.maps.toList[h.maps.size]? = some es := by
    rw [← hys]
    simp [newMap]
  rw [Array.getElem?_toList] at hget
  simp [entries, hget]

lemma link_of_isPrefix {c : Nat} (hx : h.links.toList <+: h'.links.toList) (hc : c < h.links.size) :
    h'.link c = h.link c := by
  obtain ⟨ys, hys⟩ := hx
  have hget : h'.links.toList[c]? = h.links.toList[c]? := by
    rw [← hys, List.getElem?_append_left (by simpa using hc)]
  rw [Array.getElem?_toList, Array.getElem?_toList] at hget
  rw [link, link, Array.getD_eq_getD_getElem?, Array.getD_eq_getD_getElem?, hget]

lemma link_of_extends {c : Nat} (hx : h.Extends h') (hc : c < h.links.size) :
    h'.link c = h.link c :=
  link_of_isPrefix hx.links hc

lemma link_newLink {around : Option Nat} (hx : (h.newLink around).2.Extends h') :
    h'.link h.links.size = around := by
  rw [link_of_extends hx (by simp [newLink])]
  simp [link, newLink]

end Heap

/-! ### Storing what was read -/

namespace Datum

/-- Once stored, in whatever program, the datum unfolds to this tree, and goes on to do so while the
heap grows. -/
def Stores (n : Nat) (d : Datum Command) (u : Shape) : Prop :=
  ∀ (around : Option Nat) (h : Heap), h.Extends (d.store around h).2 ∧
    ∀ h', (d.store around h).2.Extends h' → h'.shape? n (d.store around h).1 = some u

def StoresAll (n : Nat) (ds : List (Datum Command)) (us : List Shape) : Prop :=
  ∀ (around : Option Nat) (h : Heap), h.Extends (storeAll ds around h).2 ∧
    ∀ h', (storeAll ds around h).2.Extends h' →
      (storeAll ds around h).1.mapM (h'.shape? n) = some us

def StoresEntries (n : Nat) (es : List (Key × Datum Command)) (us : List (Key × Shape)) : Prop :=
  ∀ (around : Option Nat) (h : Heap), h.Extends (storeEntries es around h).2 ∧
    (storeEntries es around h).1.map Prod.fst = es.map Prod.fst ∧
    ∀ h', (storeEntries es around h).2.Extends h' →
      ((storeEntries es around h).1.mapM fun e => (h'.shape? n e.2).map (Prod.mk e.1)) = some us

variable {n : Nat} {d : Datum Command} {ds cs ts els : List (Datum Command)}
  {es : List (Key × Datum Command)} {k : Key} {u : Shape} {us vs ws : List Shape}
  {ues : List (Key × Shape)}

lemma storesAll_nil : StoresAll n [] [] := fun _ h => ⟨.refl h, fun _ _ => rfl⟩

lemma storesAll_cons (hd : Stores n d u) (hds : StoresAll n ds us) :
    StoresAll n (d :: ds) (u :: us) := by
  intro around h
  obtain ⟨hx, hu⟩ := hd around h
  obtain ⟨hxs, hus⟩ := hds around (d.store around h).2
  refine ⟨hx.trans hxs, fun h' hh' => ?_⟩
  have hhead := hu h' (hxs.trans hh')
  have htail := hus h' hh'
  simp [storeAll, hhead, htail]

lemma storesEntries_nil : StoresEntries n [] [] :=
  fun _ h => ⟨.refl h, rfl, fun _ _ => rfl⟩

lemma storesEntries_cons (hd : Stores n d u) (hes : StoresEntries n es ues) :
    StoresEntries n ((k, d) :: es) ((k, u) :: ues) := by
  intro around h
  obtain ⟨hx, hu⟩ := hd around h
  obtain ⟨hxs, hkeys, hus⟩ := hes around (d.store around h).2
  refine ⟨hx.trans hxs, by simp [storeEntries, hkeys], fun h' hh' => ?_⟩
  have hhead := hu h' (hxs.trans hh')
  have htail := hus h' hh'
  simp [storeEntries, hhead, htail]

lemma stores_list (h : StoresAll n ds us) : Stores (n + 1) (list ds) (.list us) := by
  intro around heap
  obtain ⟨hx, hus⟩ := h around heap
  refine ⟨hx.trans (Heap.extends_newList _ _), fun h' hh' => ?_⟩
  have hitems := Heap.items_newList hh'
  have hall := hus h' ((Heap.extends_newList _ _).trans hh')
  show ((h'.items (storeAll ds around heap).2.lists.size).toList.mapM (h'.shape? n)).map Shape.list = _
  rw [hitems, hall]
  rfl

lemma stores_map (hasc : Ascending es) (h : StoresEntries n es ues) :
    Stores (n + 1) (map es) (.map ues) := by
  intro around heap
  obtain ⟨hx, hkeys, hus⟩ := h around heap
  refine ⟨hx.trans (Heap.extends_newMap _ _), fun h' hh' => ?_⟩
  have hentries := Heap.entries_newMap hh'
  have hall := hus h' ((Heap.extends_newMap _ _).trans hh')
  have hasc' : Ascending (storeEntries es around heap).1 := by
    rwa [ascending_iff_keys, hkeys, ← ascending_iff_keys]
  show ((h'.entries (storeEntries es around heap).2.maps.size).entries.mapM fun e =>
    (h'.shape? n e.2).map (Prod.mk e.1)).map Shape.map = _
  rw [hentries, Table.entries_ofList hasc', hall]
  rfl

lemma stores_program {home : String} (h : StoresAll n ds us) :
    Stores (n + 1) (program home ds) (.program us) := by
  intro around heap
  obtain ⟨hx, hus⟩ := h (some heap.links.size) (heap.newLink around).2
  refine ⟨(Heap.extends_newLink around heap).trans hx, fun h' hh' => ?_⟩
  show ((storeAll ds (some heap.links.size) (heap.newLink around).2).1.mapM (h'.shape? n)).map
    Shape.program = _
  rw [hus h' hh']
  rfl

lemma stores_each (h : StoresAll n ds us) : Stores (n + 1) (each ds) (.each us) := by
  intro around heap
  obtain ⟨hx, hus⟩ := h around heap
  refine ⟨hx, fun h' hh' => ?_⟩
  show ((storeAll ds around heap).1.mapM (h'.shape? n)).map Shape.each = _
  rw [hus h' hh']
  rfl

lemma stores_loop (hc : StoresAll n cs vs) (h : StoresAll n ds us) :
    Stores (n + 1) (loop cs ds) (.loop vs us) := by
  intro around heap
  obtain ⟨hcx, hvs⟩ := hc around heap
  obtain ⟨hx, hus⟩ := h around (storeAll cs around heap).2
  refine ⟨hcx.trans hx, fun h' hh' => ?_⟩
  show (do
    let vs ← (storeAll cs around heap).1.mapM (h'.shape? n)
    let us ← (storeAll ds around (storeAll cs around heap).2).1.mapM (h'.shape? n)
    return Shape.loop vs us) = some (Shape.loop vs us)
  rw [hvs h' (hx.trans hh'), hus h' hh']
  rfl

lemma stores_branch (hc : StoresAll n cs vs) (ht : StoresAll n ts ws) (he : StoresAll n els us) :
    Stores (n + 1) (branch cs ts els) (.branch vs ws us) := by
  intro around heap
  obtain ⟨hcx, hvs⟩ := hc around heap
  obtain ⟨htx, hws⟩ := ht around (storeAll cs around heap).2
  obtain ⟨hex, hus⟩ := he around (storeAll ts around (storeAll cs around heap).2).2
  refine ⟨hcx.trans (htx.trans hex), fun h' hh' => ?_⟩
  let afterCond := (storeAll cs around heap).2
  let afterThen := (storeAll ts around afterCond).2
  show (do
    let vs ← (storeAll cs around heap).1.mapM (h'.shape? n)
    let ws ← (storeAll ts around afterCond).1.mapM (h'.shape? n)
    let us ← (storeAll els around afterThen).1.mapM (h'.shape? n)
    return Shape.branch vs ws us) = some (Shape.branch vs ws us)
  rw [hvs h' (htx.trans (hex.trans hh')), hws h' (hex.trans hh'), hus h' hh']
  rfl

end Datum

end ReversePolish

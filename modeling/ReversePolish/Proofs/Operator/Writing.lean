import ReversePolish.Proofs.Operator
import ReversePolish.Proofs.Value.Cells

/-!
Operators that write. `PUT`, `APPEND` and `INSERT` change the contents of a list or a map that is
one of their operands. All other operators leave the contents of every cell as they are, and at most
add a cell.
-/

namespace ReversePolish

namespace Heap

variable {h : Heap} {edit : Edit} {c : Nat}

namespace Edit

/-- The list or map whose contents change. -/
def target? : Edit → Option Value
  | keep | addList _ | addMap _ | addLink _ => none
  | setItem cell _ _ | addItem cell _ | insertItem cell _ _ => some (.list cell)
  | bind cell _ _ => some (.map cell)

/-- What becomes of the items of a list. -/
def onItems (c : Nat) : Edit → Array Value → Array Value
  | setItem cell i v, xs => if cell = c then xs.setIfInBounds i v else xs
  | addItem cell v, xs => if cell = c then xs.push v else xs
  | insertItem cell i v, xs => if cell = c then xs.insertIdxIfInBounds i v else xs
  | _, xs => xs

/-- What becomes of the entries of a map. -/
def onEntries (c : Nat) : Edit → Table Key Value → Table Key Value
  | bind cell k v, t => if cell = c then t.insert k v else t
  | _, t => t

lemma onItems_of_ne (h : edit.target? ≠ some (.list c)) (xs : Array Value) :
    edit.onItems c xs = xs := by
  cases edit <;> simp_all [onItems, target?]

lemma onEntries_of_ne (h : edit.target? ≠ some (.map c)) (t : Table Key Value) :
    edit.onEntries c t = t := by
  cases edit <;> simp_all [onEntries, target?]

end Edit

lemma items_modify (cell : Nat) (f : Array Value → Array Value) (hc : c < h.lists.size) :
    ({ h with lists := h.lists.modify cell f } : Heap).items c =
      if cell = c then f (h.items c) else h.items c := by
  simp only [items, Array.getD_eq_getD_getElem?, Array.getElem?_modify]
  split <;> simp [hc]

lemma entries_modify (cell : Nat) (f : Table Key Value → Table Key Value) (hc : c < h.maps.size) :
    ({ h with maps := h.maps.modify cell f } : Heap).entries c =
      if cell = c then f (h.entries c) else h.entries c := by
  simp only [entries, Array.getD_eq_getD_getElem?, Array.getElem?_modify]
  split <;> simp [hc]

/-- A list that there is has its items changed as the edit says. -/
lemma items_apply (edit : Edit) (hc : c < h.lists.size) :
    (h.apply edit).items c = edit.onItems c (h.items c) := by
  cases edit with
  | addList items =>
    simp [apply, newList, Heap.items, Edit.onItems, Array.getElem?_push, Nat.ne_of_lt hc]
  | setItem cell i v => exact items_modify cell _ hc
  | addItem cell v => exact items_modify cell _ hc
  | insertItem cell i v => exact items_modify cell _ hc
  | _ => rfl

/-- A map that there is has its entries changed as the edit says. -/
lemma entries_apply (edit : Edit) (hc : c < h.maps.size) :
    (h.apply edit).entries c = edit.onEntries c (h.entries c) := by
  cases edit with
  | addMap entries =>
    simp [apply, newMap, Heap.entries, Edit.onEntries, Array.getElem?_push, Nat.ne_of_lt hc]
  | bind cell k v => exact entries_modify cell _ hc
  | _ => rfl

lemma size_lists_apply_le (h : Heap) (edit : Edit) :
    h.lists.size ≤ (h.apply edit).lists.size := by
  cases edit <;> simp [apply, newList, newMap, newLink]

lemma size_maps_apply_le (h : Heap) (edit : Edit) :
    h.maps.size ≤ (h.apply edit).maps.size := by
  cases edit <;> simp [apply, newList, newMap, newLink]

/-- No link changes. -/
lemma links_apply (h : Heap) (edit : Edit) : h.links.toList <+: (h.apply edit).links.toList := by
  cases edit <;> simp [apply, newList, newMap, newLink]

lemma size_links_apply_le (h : Heap) (edit : Edit) : h.links.size ≤ (h.apply edit).links.size := by
  simpa using (links_apply h edit).length_le

/-- No change takes a cell away. -/
lemma has_apply {h : Heap} {v : Value} (hv : h.Has v) (edit : Edit) : (h.apply edit).Has v := by
  cases v with
  | list c => exact Nat.lt_of_lt_of_le hv (size_lists_apply_le h edit)
  | map c => exact Nat.lt_of_lt_of_le hv (size_maps_apply_le h edit)
  | _ => exact hv

end Heap

namespace Transform

variable {α : Type} {t : Transform}

/-- No cell has its contents changed. -/
def Spares (t : Transform) : Prop := ∀ h vs edit, t h = .ok (vs, edit) → edit.target? = none

lemma spares_ok {edit : Heap → Heap.Edit} {vs : Heap → List Value}
    (hedit : ∀ h, (edit h).target? = none) : Spares fun h => .ok (vs h, edit h) := by
  rintro h _ _ ⟨⟩
  exact hedit h

lemma spares_results (vs : List Value) : (results vs).Spares := spares_ok fun _ => rfl

lemma spares_fail (e : Error) : (fail e).Spares := by
  rintro h _ _ ⟨⟩

lemma spares_newList (items : Array Value) : (newList items).Spares := spares_ok fun _ => rfl

lemma spares_bind {x : Heap → Except Error α} {f : α → Transform}
    (hf : ∀ h a, x h = .ok a → (f a).Spares) : Spares fun h => x h >>= fun a => f a h := by
  intro h vs edit ht
  obtain ⟨a, ha, ht⟩ := bind_eq_ok_iff.mp ht
  exact hf h a ha h vs edit ht

lemma spares_given {x : Except Error α} {f : α → Transform} (hf : ∀ a, (f a).Spares) :
    (given x f).Spares := by
  cases x with
  | ok a => exact hf a
  | error e => exact spares_fail e

lemma spares_flag (f : Heap → Except Error Bool) : (flag f).Spares :=
  spares_bind fun _ _ _ => spares_ok fun _ => rfl

end Transform

namespace Operator

open Transform

variable {op : Operator} {s below : Stack} {h : Heap} {vs : List Value} {edit : Heap.Edit}
  {v : Value}

def Spares (op : Operator) : Prop :=
  ∀ s h below vs edit, op.apply s h = .results below vs edit → edit.target? = none

lemma spares_unary {f : Value → Transform} (hf : ∀ a, (f a).Spares) : (unary f).Spares := by
  intro s h below vs edit hop
  match s with
  | [] => cases hop
  | a :: s => exact hf a h vs edit (of_eq_results hop).2

lemma spares_binary {f : Value → Value → Transform} (hf : ∀ a b, (f a b).Spares) :
    (binary f).Spares := by
  intro s h below vs edit hop
  match s with
  | [] | [_] => cases hop
  | b :: a :: s => exact hf a b h vs edit (of_eq_results hop).2

lemma spares_ternary {f : Value → Value → Value → Transform} (hf : ∀ a b c, (f a b c).Spares) :
    (ternary f).Spares := by
  intro s h below vs edit hop
  match s with
  | [] | [_] | [_, _] => cases hop
  | c :: b :: a :: s => exact hf a b c h vs edit (of_eq_results hop).2

lemma spares_equality (answer : Bool → Bool) : (equality answer).Spares := by
  intro s h below vs edit hop
  match s with
  | [] | [_] => cases hop
  | b :: a :: s =>
    simp only [apply] at hop
    split at hop
    · next r _ =>
      obtain ⟨-, hr⟩ := of_eq_results hop
      cases r with
      | error e => cases hr
      | ok same =>
        cases hr
        rfl
    · cases hop

lemma spares_sum : sum.Spares := by
  refine spares_binary fun a b => ?_
  split
  · exact spares_given fun r => spares_results _
  · exact spares_results _
  · exact spares_ok fun _ => rfl
  · exact spares_fail _
  · exact spares_fail _
  · exact spares_fail _
  · exact spares_fail _

lemma spares_get : get.Spares := by
  intro s h below vs edit hop
  obtain ⟨-, -, rfl⟩ := results_get hop
  rfl

lemma spares_range : range.Spares := by
  refine spares_binary fun a b => spares_given fun a => spares_given fun b => ?_
  split
  · exact spares_fail _
  · exact spares_newList _

/-- A copy is a new cell. -/
lemma spares_clone : clone.Spares := by
  refine spares_unary fun v => ?_
  intro h vs edit ht
  obtain ⟨⟨copy, edit'⟩, hcopy, ht⟩ := bind_eq_ok_iff.mp ht
  cases ht
  unfold Heap.copy at hcopy
  split at hcopy <;> cases hcopy <;> rfl

lemma spares_text : text.Spares := by
  refine spares_unary fun v => ?_
  intro h vs edit ht
  split at ht <;> cases ht <;> rfl

/-! ### Writing -/

lemma target_put (hop : put.apply s h = .results below vs edit) (hv : edit.target? = some v) :
    s[2]? = some v := by
  match s with
  | [] | [_] | [_, _] => cases hop
  | x :: key :: coll :: s =>
    have ht := (of_eq_results hop).2
    simp only at ht
    split at ht
    · obtain ⟨i, -, ht⟩ := bind_eq_ok_iff.mp ht
      cases ht
      exact hv
    · cases ht
    · obtain ⟨k, -, ht⟩ := bind_eq_ok_iff.mp ht
      cases ht
      exact hv
    · cases ht

lemma eq_list_of_asList {coll : Value} {c : Nat} (hc : coll.asList = .ok c) : coll = .list c := by
  cases coll <;> cases hc
  rfl

lemma target_append (hop : append.apply s h = .results below vs edit)
    (hv : edit.target? = some v) : s[1]? = some v := by
  match s with
  | [] | [_] => cases hop
  | x :: coll :: s =>
    have ht := (of_eq_results hop).2
    cases hc : coll.asList with
    | error e =>
      simp only [given, hc] at ht
      cases ht
    | ok c =>
      simp only [given, hc] at ht
      cases ht
      obtain rfl := eq_list_of_asList hc
      exact hv

lemma target_insert (hop : insert.apply s h = .results below vs edit)
    (hv : edit.target? = some v) : s[2]? = some v := by
  match s with
  | [] | [_] | [_, _] => cases hop
  | x :: index :: coll :: s =>
    have ht := (of_eq_results hop).2
    cases hc : coll.asList with
    | error e =>
      simp only [given, hc] at ht
      cases ht
    | ok c =>
      cases hi : index.asInt with
      | error e =>
        simp only [given, hc, hi] at ht
        cases ht
      | ok i =>
        simp only [given, hc, hi] at ht
        obtain ⟨i, -, ht⟩ := bind_eq_ok_iff.mp ht
        cases ht
        obtain rfl := eq_list_of_asList hc
        exact hv

end Operator

/-- How far below the top of the stack the collection lies that the word writes to. -/
def Word.collection? : Word → Option Nat
  | .append => some 1
  | .put | .insert => some 2
  | _ => none

/-- **Only `PUT`, `APPEND` and `INSERT` write**, and only to the collection that they are given. -/
theorem Operator.target_meaning {w : Word} {op : Operator} {s below : Stack} {h : Heap}
    {vs : List Value} {edit : Heap.Edit} {v : Value} (hw : w.meaning = .operator op)
    (hop : op.apply s h = .results below vs edit) (hv : edit.target? = some v) :
    ∃ i, w.collection? = some i ∧ s[i]? = some v := by
  have hspares : ¬ op.Spares := fun hspares => by
    rw [hspares _ _ _ _ _ hop] at hv
    cases hv
  open Transform in
  cases w <;> cases hw
  case put => exact ⟨2, rfl, target_put hop hv⟩
  case append => exact ⟨1, rfl, target_append hop hv⟩
  case insert => exact ⟨2, rfl, target_insert hop hv⟩
  all_goals refine (hspares ?_).elim
  case dup | drop => exact spares_unary fun _ => spares_results _
  case swap | copyOver => exact spares_binary fun _ _ => spares_results _
  case rot => exact spares_ternary fun _ _ _ => spares_results _
  case add => exact spares_sum
  case sub | mul | div | mod =>
    exact spares_binary fun _ _ => spares_given fun _ => spares_given fun _ =>
      spares_given fun _ => spares_results _
  case neg =>
    exact spares_unary fun _ => spares_given fun _ => spares_given fun _ => spares_results _
  case eq | neq => exact spares_equality _
  case lt | gt | le | ge =>
    exact spares_binary fun _ _ => spares_given fun _ => spares_results _
  case not => exact spares_unary fun _ => spares_flag _
  case and | or => exact spares_binary fun _ _ => spares_flag _
  case size =>
    exact spares_unary fun _ => spares_bind fun _ _ _ => spares_bind fun _ _ _ =>
      spares_ok fun _ => rfl
  case get => exact spares_get
  case keys => exact spares_unary fun _ => spares_given fun _ => spares_ok fun _ => rfl
  case range => exact spares_range
  case clone => exact spares_clone
  case toStr => exact spares_text

end ReversePolish

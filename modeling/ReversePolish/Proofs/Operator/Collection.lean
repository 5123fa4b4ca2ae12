import ReversePolish.Proofs.Operator.Writing

/-!
Collections that change in place. `PUT`, `APPEND` and `INSERT` give back the very list or map that they
are given, having changed what is in its cell. All else in the heap stays as it is, also where the value
that is put into the collection is the collection itself.
-/

namespace ReversePolish

namespace Collection

variable {index : Int64} {length i : Nat}

lemma position?_eq_some_iff :
    position? index length = some i ↔ (i : Int) = index.toInt ∧ i < length := by
  unfold position?
  split <;> simp only [Option.some.injEq, reduceCtorEq, false_iff] <;> omega

lemma position_eq_ok_iff :
    position index length = .ok i ↔ (i : Int) = index.toInt ∧ i < length := by
  rw [← position?_eq_some_iff, position]
  cases position? index length <;> simp

lemma gap_eq_ok_iff : gap index length = .ok i ↔ (i : Int) = index.toInt ∧ i ≤ length := by
  rw [← Nat.lt_succ_iff, ← position?_eq_some_iff, gap]
  cases position? index (length + 1) <;> simp

end Collection

lemma Value.key_eq_ok_iff {v : Value} {k : Key} : v.key = .ok k ↔ v = .ofKey k := by
  cases v <;> simp [key, key?, ofKey] <;> cases k <;> simp

lemma Value.exists_key_of_kind {v : Value} (hv : v.kind = .integer ∨ v.kind = .string) :
    ∃ k, v = .ofKey k := by
  rcases hv with hv | hv <;> cases v <;> cases hv
  · exact ⟨.int _, rfl⟩
  · exact ⟨.str _, rfl⟩

namespace Heap

variable {h h' : Heap} {w : Word} {coll v x y : Value} {c i : Nat} {index : Int64}
  {operands : List Value} {edit : Edit}

/-- What the words that change a collection take: the collection, and the operands above it, the topmost
first. An index counts from the front, and one may insert behind the end. -/
inductive Takes (h : Heap) : Word → Value → List Value → Prop where
  | setItem {c : Nat} {index : Int64} {x : Value} :
      0 ≤ index.toInt → index.toInt < (h.items c).size → Takes h .put (.list c) [x, .int index]
  | bind {c : Nat} {key x : Value} :
      key.kind = .integer ∨ key.kind = .string → Takes h .put (.map c) [x, key]
  | addItem {c : Nat} {x : Value} : Takes h .append (.list c) [x]
  | insertItem {c : Nat} {index : Int64} {x : Value} :
      0 ≤ index.toInt → index.toInt ≤ (h.items c).size → Takes h .insert (.list c) [x, .int index]

/-- What the collection that such a word is given holds afterwards. -/
inductive Written (h h' : Heap) : Word → Value → List Value → Prop where
  /-- The list differs at the index only. -/
  | setItem {c : Nat} {index : Int64} {x y : Value} {before after : List Value} :
      (before.length : Int) = index.toInt → (h.items c).toList = before ++ y :: after →
      (h'.items c).toList = before ++ x :: after → Written h h' .put (.list c) [x, .int index]
  /-- No other key is bound to anything else. -/
  | bind {c : Nat} {k : Key} {x : Value} :
      (∀ l, (h'.entries c).find? l = if l = k then some x else (h.entries c).find? l) →
      Written h h' .put (.map c) [x, .ofKey k]
  | addItem {c : Nat} {x : Value} :
      (h'.items c).toList = (h.items c).toList ++ [x] → Written h h' .append (.list c) [x]
  | insertItem {c : Nat} {index : Int64} {x : Value} {before after : List Value} :
      (before.length : Int) = index.toInt → (h.items c).toList = before ++ after →
      (h'.items c).toList = before ++ x :: after → Written h h' .insert (.list c) [x, .int index]

/-- The heaps have the same cells, and all but this one hold the same. -/
structure OnlyAt (h h' : Heap) (coll : Value) : Prop where
  lists : h'.lists.size = h.lists.size
  maps : h'.maps.size = h.maps.size
  others : ∀ v, v ≠ coll → h.SameAt h' v

/-! ### The cell that changes -/

lemma toList_setIfInBounds_of_lt {xs : Array Value} (hi : i < xs.size) (x : Value) :
    ∃ before y after, before.length = i ∧ xs.toList = before ++ y :: after ∧
      (xs.setIfInBounds i x).toList = before ++ x :: after := by
  have hlen : i < xs.toList.length := hi
  refine ⟨xs.toList.take i, xs.toList[i], xs.toList.drop (i + 1), ?_, ?_, ?_⟩
  · exact List.length_take_of_le (Nat.le_of_lt hlen)
  · rw [← List.drop_eq_getElem_cons hlen, List.take_append_drop]
  · rw [Array.toList_setIfInBounds, List.set_eq_take_append_cons_drop, if_pos hlen]

lemma insertIdx_append_length (before after : List Value) (x : Value) :
    (before ++ after).insertIdx before.length x = before ++ x :: after := by
  induction before with
  | nil => rfl
  | cons y before ih => simpa using ih

lemma toList_insertIdxIfInBounds_of_le {xs : Array Value} (hi : i ≤ xs.size) (x : Value) :
    ∃ before after, before.length = i ∧ xs.toList = before ++ after ∧
      (xs.insertIdxIfInBounds i x).toList = before ++ x :: after := by
  have hlen : (xs.toList.take i).length = i := List.length_take_of_le hi
  refine ⟨xs.toList.take i, xs.toList.drop i, hlen, (List.take_append_drop i _).symm, ?_⟩
  calc (xs.insertIdxIfInBounds i x).toList = xs.toList.insertIdx i x := by
        rw [Array.insertIdxIfInBounds, dif_pos hi, Array.toList_insertIdx]
    _ = (xs.toList.take i ++ xs.toList.drop i).insertIdx (xs.toList.take i).length x := by
        rw [List.take_append_drop, hlen]
    _ = _ := insertIdx_append_length _ _ x

lemma written_setItem (hc : h.Has (.list c)) (hi : (i : Int) = index.toInt)
    (hlt : i < (h.items c).size) (x : Value) :
    h.Written (h.apply (.setItem c i x)) .put (.list c) [x, .int index] := by
  obtain ⟨before, y, after, hlen, hitems, hset⟩ := toList_setIfInBounds_of_lt hlt x
  refine .setItem (hlen ▸ hi) hitems ?_
  rw [items_apply _ hc, Edit.onItems, if_pos rfl, hset]

lemma written_bind (hc : h.Has (.map c)) (k : Key) (x : Value) :
    h.Written (h.apply (.bind c k x)) .put (.map c) [x, .ofKey k] := by
  refine .bind fun l => ?_
  rw [entries_apply _ hc, Edit.onEntries, if_pos rfl]
  split
  · next hl => rw [hl, Table.find?_insert_self]
  · next hl => exact Table.find?_insert_of_ne (Ne.symm hl) _ x

lemma written_addItem (hc : h.Has (.list c)) (x : Value) :
    h.Written (h.apply (.addItem c x)) .append (.list c) [x] := by
  refine .addItem ?_
  rw [items_apply _ hc, Edit.onItems, if_pos rfl, Array.toList_push]

lemma written_insertItem (hc : h.Has (.list c)) (hi : (i : Int) = index.toInt)
    (hle : i ≤ (h.items c).size) (x : Value) :
    h.Written (h.apply (.insertItem c i x)) .insert (.list c) [x, .int index] := by
  obtain ⟨before, after, hlen, hitems, hinsert⟩ := toList_insertIdxIfInBounds_of_le hle x
  refine .insertItem (hlen ▸ hi) hitems ?_
  rw [items_apply _ hc, Edit.onItems, if_pos rfl, hinsert]

/-- What is put into a collection lies in it. -/
lemma Written.holds (hw : h.Written h' w coll operands) :
    ∃ x, operands.head? = some x ∧ h'.Holds coll x := by
  cases hw with
  | setItem _ _ h' => exact ⟨_, rfl, .item (by simp [h'])⟩
  | addItem h' => exact ⟨_, rfl, .item (by simp [h'])⟩
  | insertItem _ _ h' => exact ⟨_, rfl, .item (by simp [h'])⟩
  | bind h' => exact ⟨_, rfl, .entry (Table.mem_of_find? ((h' _).trans (if_pos rfl)))⟩

/-! ### All other cells -/

lemma onlyAt_modify_list (h : Heap) (c : Nat) (f : Array Value → Array Value) :
    h.OnlyAt { h with lists := h.lists.modify c f } (.list c) where
  lists := Array.size_modify
  maps := rfl
  others v hv := by
    cases v with
    | list c' =>
      have hne : c ≠ c' := fun heq => hv (heq ▸ rfl)
      simp [SameAt, items, Array.getD_eq_getD_getElem?, Array.getElem?_modify, hne]
    | map c' => exact Eq.refl (h.entries c')
    | _ => trivial

lemma onlyAt_modify_map (h : Heap) (c : Nat) (f : Table Key Value → Table Key Value) :
    h.OnlyAt { h with maps := h.maps.modify c f } (.map c) where
  lists := rfl
  maps := Array.size_modify
  others v hv := by
    cases v with
    | map c' =>
      have hne : c ≠ c' := fun heq => hv (heq ▸ rfl)
      simp [SameAt, entries, Array.getD_eq_getD_getElem?, Array.getElem?_modify, hne]
    | list c' => exact Eq.refl (h.items c')
    | _ => trivial

/-- **An edit changes the cell that it is aimed at**, and no other. -/
theorem onlyAt_apply (hedit : edit.target? = some coll) : h.OnlyAt (h.apply edit) coll := by
  cases edit <;> cases hedit
  · exact onlyAt_modify_list h _ _
  · exact onlyAt_modify_list h _ _
  · exact onlyAt_modify_list h _ _
  · exact onlyAt_modify_map h _ _

namespace OnlyAt

/-- A way to the collection does not go through it before, so it is still there. -/
lemma leads (ho : h.OnlyAt h' coll) (hv : h.Leads v coll) : h'.Leads v coll := by
  induction hv using Relation.ReflTransGen.head_induction_on with
  | refl => exact .refl
  | @head v y hy _ ih =>
    by_cases hv : v = coll
    · exact hv ▸ .refl
    · refine .head (holds_iff_mem_inside.mpr ?_) ih
      rw [(ho.others v hv).inside_eq]
      exact holds_iff_mem_inside.mp hy

/-- What does not lead to the collection looks the same as before. -/
lemma shape?_eq (ho : h.OnlyAt h' coll) (hv : ¬ h.Leads v coll) (n : Nat) :
    h'.shape? n v = h.shape? n v :=
  shape?_congr (fun w hw => ho.others w fun heq => hv (heq ▸ hw)) n

end OnlyAt

end Heap

namespace Operator

open Collection Heap Transform

variable {op : Operator} {w : Word} {h : Heap} {s below : Stack} {coll : Value}
  {operands vs : List Value} {edit : Heap.Edit}

/-- Given what it takes, the word gives the collection back and changes its cell as it should. -/
theorem apply_of_takes (hw : w.meaning = .operator op) (ht : h.Takes w coll operands)
    (hc : coll.IsCell → h.Has coll) (below : Stack) : ∃ edit,
      op.apply (operands ++ coll :: below) h = .results below [coll] edit ∧
      edit.target? = some coll ∧ h.Written (h.apply edit) w coll operands := by
  cases ht with
  | @setItem c index x h₀ hlt =>
    obtain ⟨i, hi⟩ := Int.eq_ofNat_of_zero_le h₀
    have hpos : position index (h.items c).size = .ok i :=
      position_eq_ok_iff.mpr ⟨hi.symm, by omega⟩
    cases hw
    refine ⟨.setItem c i x, ?_, rfl, written_setItem (hc (.inl rfl)) hi.symm (by omega) x⟩
    calc put.apply ([x, .int index] ++ .list c :: below) h
        = .of below (position index (h.items c).size >>= fun i =>
            .ok ([.list c], .setItem c i x)) := rfl
      _ = .results below [.list c] (.setItem c i x) := by rw [hpos]; rfl
  | @bind c key x hkey =>
    obtain ⟨k, rfl⟩ := Value.exists_key_of_kind hkey
    cases hw
    refine ⟨.bind c k x, ?_, rfl, written_bind (hc (.inr rfl)) k x⟩
    cases k <;> rfl
  | @addItem c x =>
    cases hw
    exact ⟨.addItem c x, rfl, rfl, written_addItem (hc (.inl rfl)) x⟩
  | @insertItem c index x h₀ hle =>
    obtain ⟨i, hi⟩ := Int.eq_ofNat_of_zero_le h₀
    have hgap : gap index (h.items c).size = .ok i := gap_eq_ok_iff.mpr ⟨hi.symm, by omega⟩
    cases hw
    refine ⟨.insertItem c i x, ?_, rfl, written_insertItem (hc (.inl rfl)) hi.symm (by omega) x⟩
    calc insert.apply ([x, .int index] ++ .list c :: below) h
        = .of below (gap index (h.items c).size >>= fun i =>
            .ok ([.list c], .insertItem c i x)) := rfl
      _ = .results below [.list c] (.insertItem c i x) := by rw [hgap]; rfl

lemma takes_put (hop : put.apply s h = .results below vs edit) :
    ∃ coll operands, s = operands ++ coll :: below ∧ h.Takes .put coll operands := by
  match s with
  | [] | [_] | [_, _] => cases hop
  | x :: key :: coll :: s =>
    obtain ⟨rfl, ht⟩ := of_eq_results hop
    refine ⟨coll, [x, key], rfl, ?_⟩
    simp only at ht
    split at ht
    · obtain ⟨i, hi, -⟩ := bind_eq_ok_iff.mp ht
      have hi := position_eq_ok_iff.mp hi
      exact .setItem (by omega) (by omega)
    · cases ht
    · obtain ⟨k, hk, -⟩ := bind_eq_ok_iff.mp ht
      obtain rfl := Value.key_eq_ok_iff.mp hk
      exact .bind (by cases k <;> simp [Value.ofKey, Value.kind])
    · cases ht

lemma takes_append (hop : append.apply s h = .results below vs edit) :
    ∃ coll operands, s = operands ++ coll :: below ∧ h.Takes .append coll operands := by
  match s with
  | [] | [_] => cases hop
  | x :: coll :: s =>
    obtain ⟨rfl, ht⟩ := of_eq_results hop
    refine ⟨coll, [x], rfl, ?_⟩
    cases hc : coll.asList with
    | error e =>
      simp only [given, hc] at ht
      cases ht
    | ok c =>
      obtain rfl := eq_list_of_asList hc
      exact .addItem

lemma takes_insert (hop : insert.apply s h = .results below vs edit) :
    ∃ coll operands, s = operands ++ coll :: below ∧ h.Takes .insert coll operands := by
  match s with
  | [] | [_] | [_, _] => cases hop
  | x :: index :: coll :: s =>
    obtain ⟨rfl, ht⟩ := of_eq_results hop
    refine ⟨coll, [x, index], rfl, ?_⟩
    cases hc : coll.asList with
    | error e =>
      simp only [given, hc] at ht
      cases ht
    | ok c =>
      cases hindex : index.asInt with
      | error e =>
        simp only [given, hc, hindex] at ht
        cases ht
      | ok n =>
        simp only [given, hc, hindex] at ht
        obtain ⟨i, hi, -⟩ := bind_eq_ok_iff.mp ht
        have hi := gap_eq_ok_iff.mp hi
        obtain rfl := eq_list_of_asList hc
        obtain rfl : index = .int n := by cases index <;> cases hindex; rfl
        exact .insertItem (by omega) (by omega)

/-- Where a word that changes a collection does not find what it takes, it fails. -/
theorem takes_or_failed (hw : w = .put ∨ w = .append ∨ w = .insert) (hop : w.meaning = .operator op)
    (s : Stack) (h : Heap) :
    (∃ coll operands below, s = operands ++ coll :: below ∧ h.Takes w coll operands) ∨
      ∃ e, op.apply s h = .failed e := by
  cases happly : op.apply s h with
  | results below vs edit =>
    left
    rcases hw with rfl | rfl | rfl <;> cases hop
    · obtain ⟨coll, operands, hs⟩ := takes_put happly
      exact ⟨coll, operands, below, hs⟩
    · obtain ⟨coll, operands, hs⟩ := takes_append happly
      exact ⟨coll, operands, below, hs⟩
    · obtain ⟨coll, operands, hs⟩ := takes_insert happly
      exact ⟨coll, operands, below, hs⟩
  | failed e => exact .inr ⟨e, rfl⟩
  | endless =>
    obtain ⟨_, _, _, _, rfl, -, -⟩ := equality_of_endless happly
    rcases hw with rfl | rfl | rfl <;> cases hop

end Operator

end ReversePolish

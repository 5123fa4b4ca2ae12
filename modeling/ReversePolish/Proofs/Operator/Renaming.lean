import ReversePolish.Meaning
import ReversePolish.Proofs.Value.Renamed

/-!
Operators do not see the names of cells. On operands and a heap that have been renamed an operator does
what it does on the others: it fails with the same error, or it gives the renamed results and makes the
renamed change.
-/

namespace ReversePolish

open Heap (Edit Renamed)

variable {ρ : Renaming} {h h' k : Heap} {α β : Type}

namespace Value

@[simp] lemma asInt_rename (v : Value) : (v.rename ρ).asInt = v.asInt := by
  cases v <;> simp [asInt, kind]

@[simp] lemma asList_rename (v : Value) : (v.rename ρ).asList = v.asList.map ρ.list := by
  cases v <;> simp [asList, kind, Except.map]

@[simp] lemma asMap_rename (v : Value) : (v.rename ρ).asMap = v.asMap.map ρ.map := by
  cases v <;> simp [asMap, kind, Except.map]

end Value

namespace Transform

/-- The second transform gives on the other heap what the first one gives, renamed. -/
def Renames (ρ : Renaming) (h h' : Heap) (t t' : Transform) : Prop :=
  t' h' = (t h).map (Prod.map (List.map (Value.rename ρ)) (Edit.rename ρ))

lemma renames_results (vs : List Value) :
    Renames ρ h h' (results vs) (results (vs.map (Value.rename ρ))) := rfl

lemma renames_fail (e : Error) : Renames ρ h h' (fail e) (fail e) := rfl

lemma renames_bind {x y : Heap → Except Error α} {f f' : α → Transform} (hx : y h' = x h)
    (hf : ∀ a, Renames ρ h h' (f a) (f' a)) :
    Renames ρ h h' (fun h => x h >>= fun a => f a h) fun h => y h >>= fun a => f' a h := by
  show (y h' >>= fun a => f' a h') = _
  rw [hx]
  show _ = Except.map _ (x h >>= fun a => f a h)
  cases x h with
  | ok a => exact hf a
  | error e => rfl

lemma renames_given_map {x : Except Error α} {f : α → Transform} {f' : β → Transform} {g : α → β}
    (hf : ∀ a, Renames ρ h h' (f a) (f' (g a))) :
    Renames ρ h h' (given x f) (given (x.map g) f') := by
  cases x with
  | ok a => exact hf a
  | error e => rfl

lemma renames_given {x : Except Error α} {f f' : α → Transform}
    (hf : ∀ a, Renames ρ h h' (f a) (f' a)) : Renames ρ h h' (given x f) (given x f') := by
  cases x with
  | ok a => exact hf a
  | error e => rfl

lemma renames_flag {f f' : Heap → Except Error Bool} (hf : f' h' = f h) :
    Renames ρ h h' (flag f) (flag f') := by
  unfold Renames flag
  rw [hf]
  cases f h <;> rfl

lemma renames_newList (hh : h.Renamed ρ h' k) (items : Array Value) :
    Renames ρ h h' (newList items) (newList (items.map (Value.rename ρ))) :=
  congrArg (fun c => Except.ok ([Value.list c], Edit.addList (items.map (Value.rename ρ))))
    hh.newList_eq.symm

end Transform

namespace Operator

open Transform

variable {s : Stack}

def Applied.rename (ρ : Renaming) : Applied → Applied
  | results below vs edit =>
    results (below.map (Value.rename ρ)) (vs.map (Value.rename ρ)) (edit.rename ρ)
  | failed e => failed e
  | endless => endless

/-- The operator does not see the difference between the two heaps. -/
def Renames (ρ : Renaming) (h h' : Heap) (op : Operator) : Prop :=
  ∀ s : Stack, op.apply (s.map (Value.rename ρ)) h' = (op.apply s h).rename ρ

lemma Applied.of_rename (s : Stack) (x : Except Error (List Value × Edit)) :
    Applied.of (s.map (Value.rename ρ))
      (x.map (Prod.map (List.map (Value.rename ρ)) (Edit.rename ρ))) =
        (Applied.of s x).rename ρ := by
  cases x <;> rfl

lemma renames_unary {f : Value → Transform}
    (hf : ∀ a, Transform.Renames ρ h h' (f a) (f (a.rename ρ))) : (unary f).Renames ρ h h' := by
  intro s
  match s with
  | [] => rfl
  | a :: s =>
    rw [List.map_cons, apply, hf, Applied.of_rename]
    rfl

lemma renames_binary {f : Value → Value → Transform}
    (hf : ∀ a b, Transform.Renames ρ h h' (f a b) (f (a.rename ρ) (b.rename ρ))) :
    (binary f).Renames ρ h h' := by
  intro s
  match s with
  | [] | [_] => rfl
  | b :: a :: s =>
    rw [List.map_cons, List.map_cons, apply, hf, Applied.of_rename]
    rfl

lemma renames_ternary {f : Value → Value → Value → Transform}
    (hf : ∀ a b c,
      Transform.Renames ρ h h' (f a b c) (f (a.rename ρ) (b.rename ρ) (c.rename ρ))) :
    (ternary f).Renames ρ h h' := by
  intro s
  match s with
  | [] | [_] | [_, _] => rfl
  | c :: b :: a :: s =>
    rw [List.map_cons, List.map_cons, List.map_cons, apply, hf, Applied.of_rename]
    rfl

variable (hh : h.Renamed ρ h' k)

include hh

lemma renames_equality (answer : Bool → Bool) : (equality answer).Renames ρ h h' := by
  intro s
  match s with
  | [] | [_] => rfl
  | b :: a :: s =>
    simp only [List.map_cons, apply, hh.equal?_eq]
    cases h.equal? a b with
    | none => rfl
    | some r => cases r <;> rfl

omit hh in
lemma compare_rename (a b : Value) :
    Arithmetic.compare (a.rename ρ) (b.rename ρ) = Arithmetic.compare a b := by
  cases a <;> cases b <;> simp [Arithmetic.compare, Value.kind]

lemma renames_sum : sum.Renames ρ h h' := by
  refine renames_binary fun a b => ?_
  cases a <;> cases b
  case list.list a b =>
    simp only [Value.rename_list]
    have hnew := renames_newList hh (h.items a ++ h.items b)
    rw [Array.map_append, ← hh.items, ← hh.items] at hnew
    exact hnew
  case int.int a b => exact renames_given fun r => renames_results [.int r]
  case str.str a b => exact renames_results [.str (a ++ b)]
  all_goals
    simp only [Value.rename_int, Value.rename_str, Value.rename_none, Value.rename_list,
      Value.rename_map, Value.rename_program, Value.rename_command, Value.rename_branch,
      Value.rename_each, Value.rename_loop]
    exact renames_fail _

lemma renames_not : not.Renames ρ h h' :=
  renames_unary fun a => renames_flag (by rw [hh.truth_eq])

lemma renames_and : and.Renames ρ h h' :=
  renames_binary fun a b => renames_flag (by rw [hh.truth_eq, hh.truth_eq])

lemma renames_or : or.Renames ρ h h' :=
  renames_binary fun a b => renames_flag (by rw [hh.truth_eq, hh.truth_eq])

lemma renames_size : size.Renames ρ h h' :=
  renames_unary fun v => renames_bind (hh.length_eq v) fun _ => renames_bind rfl fun i =>
    renames_results [.int i]

lemma renames_get : get.Renames ρ h h' := by
  refine renames_binary fun coll key => ?_
  cases coll
  case list c =>
    cases key
    case int index =>
      have hsize : Collection.position index (h'.items (ρ.list c)).size =
          Collection.position index (h.items c).size := by
        rw [hh.items, Array.size_map]
      refine renames_bind hsize fun i => ?_
      have hget : (h'.items (ρ.list c)).getD i .none = ((h.items c).getD i .none).rename ρ := by
        rw [hh.items, Array.getD_eq_getD_getElem?, Array.getD_eq_getD_getElem?,
          Array.getElem?_map]
        cases (h.items c)[i]? <;> rfl
      exact congrArg (fun x => Except.ok ([x], Edit.keep)) hget
    all_goals simp [Transform.Renames, Except.map, Value.kind]
  case map c =>
    refine renames_bind (y := fun _ => (key.rename ρ).key) (key.key_rename ρ) fun key => ?_
    unfold Transform.Renames
    simp only [hh.entries, Table.find?_map]
    cases (h.entries c).find? key <;> rfl
  all_goals simp [Transform.Renames, Except.map, Value.kind]

lemma renames_put : put.Renames ρ h h' := by
  refine renames_ternary fun coll key x => ?_
  cases coll
  case list c =>
    cases key
    case int index =>
      have hsize : Collection.position index (h'.items (ρ.list c)).size =
          Collection.position index (h.items c).size := by
        rw [hh.items, Array.size_map]
      exact renames_bind hsize fun i => rfl
    all_goals simp [Transform.Renames, Except.map, Value.kind]
  case map c =>
    exact renames_bind (y := fun _ => (key.rename ρ).key) (key.key_rename ρ) fun key => rfl
  all_goals simp [Transform.Renames, Except.map, Value.kind]

omit hh in
lemma renames_append : append.Renames ρ h h' := by
  refine renames_binary fun coll x => ?_
  rw [Value.asList_rename]
  exact renames_given_map fun c => rfl

lemma renames_insert : insert.Renames ρ h h' := by
  refine renames_ternary fun coll index x => ?_
  rw [Value.asList_rename, Value.asInt_rename]
  refine renames_given_map fun c => renames_given fun index => ?_
  have hsize : Collection.gap index (h'.items (ρ.list c)).size =
      Collection.gap index (h.items c).size := by
    rw [hh.items, Array.size_map]
  exact renames_bind hsize fun i => rfl

lemma renames_keys : keys.Renames ρ h h' := by
  refine renames_unary fun coll => ?_
  rw [Value.asMap_rename]
  refine renames_given_map fun c => ?_
  have hnew := renames_newList hh ((h.entries c).keys.map Value.ofKey).toArray
  have hkeys : ((h.entries c).keys.map Value.ofKey).toArray.map (Value.rename ρ) =
      ((h'.entries (ρ.map c)).keys.map Value.ofKey).toArray := by
    rw [hh.entries, Table.keys_map]
    simp
  rw [hkeys] at hnew
  exact hnew

lemma renames_range : range.Renames ρ h h' := by
  refine renames_binary fun a b => ?_
  rw [Value.asInt_rename, Value.asInt_rename]
  refine renames_given fun a => renames_given fun b => ?_
  split
  · exact renames_fail _
  · have hnew := renames_newList hh (Collection.integers a.toInt b.toInt)
    have hints : (Collection.integers a.toInt b.toInt).map (Value.rename ρ) =
        Collection.integers a.toInt b.toInt := by
      simp [Collection.integers]
    rwa [hints] at hnew

lemma renames_clone : clone.Renames ρ h h' := by
  refine renames_unary fun v => ?_
  unfold Transform.Renames
  simp only [hh.copy_eq]
  cases h.copy v <;> rfl

lemma renames_text : text.Renames ρ h h' := by
  refine renames_unary fun v => ?_
  have hrender := hh.render_eq v
  unfold Transform.Renames
  cases v <;> simp only [Value.rename] at hrender ⊢
  case str s => rfl
  all_goals
    rw [hrender]
    rfl

/-- **No operator sees the names of cells.** -/
theorem renames_meaning {w : Word} {op : Operator} (hw : w.meaning = .operator op) :
    op.Renames ρ h h' := by
  cases w <;> cases hw
  case dup | drop => exact renames_unary fun _ => renames_results _
  case swap | copyOver => exact renames_binary fun _ _ => renames_results _
  case rot => exact renames_ternary fun _ _ _ => renames_results _
  case add => exact renames_sum hh
  case sub | mul | div | mod =>
    refine renames_binary fun a b => ?_
    rw [Value.asInt_rename, Value.asInt_rename]
    exact renames_given fun _ => renames_given fun _ => renames_given fun _ => renames_results _
  case neg =>
    refine renames_unary fun a => ?_
    rw [Value.asInt_rename]
    exact renames_given fun _ => renames_given fun _ => renames_results _
  case eq | neq => exact renames_equality hh _
  case lt | gt | le | ge =>
    refine renames_binary fun a b => ?_
    rw [compare_rename]
    exact renames_given fun _ => renames_results _
  case not => exact renames_not hh
  case and => exact renames_and hh
  case or => exact renames_or hh
  case size => exact renames_size hh
  case get => exact renames_get hh
  case put => exact renames_put hh
  case append => exact renames_append
  case insert => exact renames_insert hh
  case keys => exact renames_keys hh
  case range => exact renames_range hh
  case clone => exact renames_clone hh
  case toStr => exact renames_text hh

end Operator

end ReversePolish

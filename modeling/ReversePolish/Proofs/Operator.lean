import ReversePolish.Meaning
import ReversePolish.Proofs.Stack

/-!
What operators take from the stack, and what they give. All of them but `GET` give data: `GET`
gives whatever lies in a list or a map, and that may be a command.
-/

namespace ReversePolish

lemma bind_eq_ok_iff {α β : Type} {x : Except Error α} {f : α → Except Error β} {b : β} :
    x >>= f = .ok b ↔ ∃ a, x = .ok a ∧ f a = .ok b := by
  cases x <;> simp [bind, Except.bind]

namespace Transform

variable {α : Type} {vs : List Value}

/-- No result is a command. -/
def GivesData (t : Transform) : Prop :=
  ∀ h vs edit, t h = .ok (vs, edit) → ∀ v ∈ vs, v.IsData

lemma givesData_ok {edit : Heap → Heap.Edit} {vs : Heap → List Value}
    (hvs : ∀ h, ∀ v ∈ vs h, v.IsData) : GivesData fun h => .ok (vs h, edit h) := by
  rintro h _ _ ⟨⟩
  exact hvs h

lemma givesData_results (hvs : ∀ v ∈ vs, v.IsData) : (results vs).GivesData :=
  givesData_ok fun _ => hvs

lemma givesData_fail (e : Error) : (fail e).GivesData := by
  rintro h _ _ ⟨⟩

lemma givesData_newList (items : Array Value) : (newList items).GivesData :=
  givesData_ok fun _ => by simp

lemma givesData_bind {x : Heap → Except Error α} {f : α → Transform}
    (hf : ∀ h a, x h = .ok a → (f a).GivesData) : GivesData fun h => x h >>= fun a => f a h := by
  intro h vs edit ht
  obtain ⟨a, ha, ht⟩ := bind_eq_ok_iff.mp ht
  exact hf h a ha h vs edit ht

lemma givesData_given {x : Except Error α} {f : α → Transform} (hf : ∀ a, (f a).GivesData) :
    (given x f).GivesData := by
  cases x with
  | ok a => exact hf a
  | error e => exact givesData_fail e

lemma givesData_flag (f : Heap → Except Error Bool) : (flag f).GivesData :=
  givesData_bind fun _ b _ => givesData_ok fun _ => by simp [Value.ofBool]

end Transform

namespace Operator

open Transform

variable {op : Operator} {s below : Stack} {h : Heap} {vs : List Value} {edit : Heap.Edit}

/-! ### Operands -/

lemma of_eq_results {x : Except Error (List Value × Heap.Edit)}
    (hx : Applied.of s x = .results below vs edit) : below = s ∧ x = .ok (vs, edit) := by
  unfold Applied.of at hx
  split at hx <;> cases hx
  exact ⟨rfl, rfl⟩

/-- An operator that succeeds takes its operands and leaves what lies below them. -/
lemma below_of_apply (hop : op.apply s h = .results below vs edit) :
    op.arity ≤ s.length ∧ below = s.drop op.arity := by
  unfold apply at hop
  split at hop
  · obtain ⟨rfl, -⟩ := of_eq_results hop
    simp [arity]
  · obtain ⟨rfl, -⟩ := of_eq_results hop
    simp [arity]
  · obtain ⟨rfl, -⟩ := of_eq_results hop
    simp [arity]
  · split at hop
    · obtain ⟨rfl, -⟩ := of_eq_results hop
      simp [arity]
    · cases hop
  · cases hop

/-- The one operator that may have no end is a test of equality, of two values that it finds. -/
lemma equality_of_endless (hop : op.apply s h = .endless) :
    ∃ answer b a below, op = .equality answer ∧ s = b :: a :: below ∧ h.equal? a b = none := by
  have hof (below : Stack) (x : Except Error (List Value × Heap.Edit)) :
      Applied.of below x ≠ .endless := by
    cases x <;> exact nofun
  unfold apply at hop
  split at hop
  · exact (hof _ _ hop).elim
  · exact (hof _ _ hop).elim
  · exact (hof _ _ hop).elim
  · next answer b a below =>
    split at hop
    · exact (hof _ _ hop).elim
    · next hnone => exact ⟨answer, b, a, below, rfl, rfl, hnone⟩
  · cases hop

/-! ### Results -/

/-- Of operands that are data, no result is a command. -/
def GivesData (op : Operator) : Prop :=
  ∀ s h below vs edit, (∀ v ∈ s, v.IsData) → op.apply s h = .results below vs edit →
    ∀ v ∈ vs, v.IsData

lemma givesData_unary {f : Value → Transform} (hf : ∀ a, a.IsData → (f a).GivesData) :
    (unary f).GivesData := by
  intro s h below vs edit hs hop
  match s with
  | [] => cases hop
  | a :: s =>
    obtain ⟨-, hfa⟩ := of_eq_results hop
    exact hf a (hs a (by simp)) h vs edit hfa

lemma givesData_binary {f : Value → Value → Transform}
    (hf : ∀ a b, a.IsData → b.IsData → (f a b).GivesData) : (binary f).GivesData := by
  intro s h below vs edit hs hop
  match s with
  | [] | [_] => cases hop
  | b :: a :: s =>
    obtain ⟨-, hfab⟩ := of_eq_results hop
    exact hf a b (hs a (by simp)) (hs b (by simp)) h vs edit hfab

lemma givesData_ternary {f : Value → Value → Value → Transform}
    (hf : ∀ a b c, a.IsData → b.IsData → c.IsData → (f a b c).GivesData) :
    (ternary f).GivesData := by
  intro s h below vs edit hs hop
  match s with
  | [] | [_] | [_, _] => cases hop
  | c :: b :: a :: s =>
    obtain ⟨-, hfabc⟩ := of_eq_results hop
    exact hf a b c (hs a (by simp)) (hs b (by simp)) (hs c (by simp)) h vs edit hfabc

lemma givesData_equality (answer : Bool → Bool) : (equality answer).GivesData := by
  intro s h below vs edit hs hop
  match s with
  | [] | [_] => cases hop
  | b :: a :: s =>
    simp only [apply] at hop
    split at hop
    · next r _ =>
      obtain ⟨-, hr⟩ := of_eq_results hop
      cases r with
      | error e => cases hr
      | ok same =>
        obtain ⟨rfl, -⟩ := Prod.mk.inj (Except.ok.inj hr)
        simp [Value.ofBool]
    · cases hop

lemma givesData_ofInt (f : Int64 → Except Error Int64) : (ofInt f).GivesData :=
  givesData_unary fun _ _ => givesData_given fun _ => givesData_given fun _ =>
    givesData_results (by simp)

lemma givesData_ofInts (f : Int64 → Int64 → Except Error Int64) : (ofInts f).GivesData :=
  givesData_binary fun _ _ _ _ => givesData_given fun _ => givesData_given fun _ =>
    givesData_given fun _ => givesData_results (by simp)

lemma givesData_ofOrder (test : Ordering → Bool) : (ofOrder test).GivesData :=
  givesData_binary fun _ _ _ _ => givesData_given fun _ =>
    givesData_results (by simp [Value.ofBool])

lemma givesData_sum : sum.GivesData := by
  refine givesData_binary fun a b _ _ => ?_
  split
  · exact givesData_given fun _ => givesData_results (by simp)
  · exact givesData_results (by simp)
  · exact givesData_ok fun _ => by simp
  · exact givesData_fail _
  · exact givesData_fail _
  · exact givesData_fail _
  · exact givesData_fail _

lemma givesData_size : size.GivesData :=
  givesData_unary fun _ _ => givesData_bind fun _ _ _ => givesData_bind fun _ _ _ =>
    givesData_ok fun _ => by simp

/-- The collection itself comes back. -/
lemma givesData_put : put.GivesData := by
  refine givesData_ternary fun coll key x _ _ _ => ?_
  intro h vs edit ht
  split at ht
  · obtain ⟨i, -, ht⟩ := bind_eq_ok_iff.mp ht
    cases ht
    simp
  · cases ht
  · obtain ⟨k, -, ht⟩ := bind_eq_ok_iff.mp ht
    cases ht
    simp
  · cases ht

lemma givesData_append : append.GivesData :=
  givesData_binary fun _ _ hcoll _ => givesData_given fun _ => givesData_ok fun _ => by simp [hcoll]

lemma givesData_insert : insert.GivesData :=
  givesData_ternary fun _ _ _ hcoll _ _ => givesData_given fun _ => givesData_given fun _ =>
    givesData_bind fun _ _ _ => givesData_ok fun _ => by simp [hcoll]

lemma givesData_keys : keys.GivesData :=
  givesData_unary fun _ _ => givesData_given fun _ => givesData_ok fun _ => by simp

lemma givesData_range : range.GivesData := by
  refine givesData_binary fun a b _ _ => givesData_given fun a => givesData_given fun b => ?_
  split
  · exact givesData_fail _
  · exact givesData_newList _

/-- Only data can be copied. -/
lemma givesData_clone : clone.GivesData := by
  refine givesData_unary fun v hv => givesData_bind fun h x hx => givesData_ok fun _ => ?_
  unfold Heap.copy at hx
  split at hx <;> cases hx <;> simp_all

lemma givesData_text : text.GivesData := by
  refine givesData_unary fun v _ => ?_
  intro h vs edit ht
  split at ht <;> cases ht <;> simp

/-- **All operators but `GET` give data.** -/
theorem givesData_meaning {w : Word} (hw : w.meaning = .operator op) (hget : w ≠ .get) :
    op.GivesData := by
  cases w <;> cases hw
  case dup => exact givesData_unary fun a ha => givesData_results (by simp [ha])
  case drop => exact givesData_unary fun a ha => givesData_results (by simp)
  case swap => exact givesData_binary fun a b ha hb => givesData_results (by simp [ha, hb])
  case copyOver => exact givesData_binary fun a b ha hb => givesData_results (by simp [ha, hb])
  case rot => exact givesData_ternary fun a b c ha hb hc => givesData_results (by simp [ha, hb, hc])
  case add => exact givesData_sum
  case sub | mul | div | mod => exact givesData_ofInts _
  case neg => exact givesData_ofInt _
  case eq | neq => exact givesData_equality _
  case lt | gt | le | ge => exact givesData_ofOrder _
  case not => exact givesData_unary fun _ _ => givesData_flag _
  case and | or => exact givesData_binary fun _ _ _ _ => givesData_flag _
  case size => exact givesData_size
  case get => exact (hget rfl).elim
  case put => exact givesData_put
  case append => exact givesData_append
  case insert => exact givesData_insert
  case keys => exact givesData_keys
  case range => exact givesData_range
  case clone => exact givesData_clone
  case toStr => exact givesData_text

/-- `GET` gives one value and leaves the heap as it is. -/
lemma results_get (hop : get.apply s h = .results below vs edit) :
    ∃ v, vs = [v] ∧ edit = .keep := by
  match s with
  | [] | [_] => cases hop
  | key :: coll :: s =>
    obtain ⟨-, ht⟩ := of_eq_results hop
    simp only at ht
    split at ht
    · obtain ⟨i, -, ht⟩ := bind_eq_ok_iff.mp ht
      cases ht
      exact ⟨_, rfl, rfl⟩
    · cases ht
    · obtain ⟨k, -, ht⟩ := bind_eq_ok_iff.mp ht
      split at ht <;> cases ht
      exact ⟨_, rfl, rfl⟩
    · cases ht

end Operator

end ReversePolish

/-!
A well-founded order for work that is nested to a bounded depth.

A state is a list of counts, outermost level first. It gets smaller when the count of some level
gets smaller, whatever happens to the levels inside it.
-/

namespace ReversePolish

/-- Counts for `n` levels, the outermost first. -/
def Levels : Nat → Type
  | 0 => Unit
  | n + 1 => Nat × Levels n

namespace Levels

/-- Levels for which the list has no count are at zero. -/
def ofList : (n : Nat) → List Nat → Levels n
  | 0, _ => ()
  | n + 1, [] => (0, ofList n [])
  | n + 1, c :: cs => (c, ofList n cs)

@[reducible] def order : (n : Nat) → WellFoundedRelation (Levels n)
  | 0 => ⟨fun _ _ => False, ⟨fun _ => ⟨_, fun _ h => h.elim⟩⟩⟩
  | n + 1 => Prod.lex ⟨(· < ·), Nat.lt_wfRel.wf⟩ (order n)

/-- Smaller in the order of the first `n` levels. -/
def Below (n : Nat) (cs ds : List Nat) : Prop := (order n).rel (ofList n cs) (ofList n ds)

theorem below_wf (n : Nat) : WellFounded (Below n) := InvImage.wf (ofList n) (order n).wf

theorem below_cons {n : Nat} {c d : Nat} {cs ds : List Nat} (h : c < d) :
    Below (n + 1) (c :: cs) (d :: ds) :=
  Prod.Lex.left _ _ h

theorem below_cons_same {n : Nat} {c : Nat} {cs ds : List Nat} (h : Below n cs ds) :
    Below (n + 1) (c :: cs) (c :: ds) :=
  Prod.Lex.right _ h

theorem below_nil {n : Nat} {d : Nat} (l : List Nat) (h : 0 < d) :
    Below (n + 1) [] (d :: l) :=
  Prod.Lex.left _ _ h

/-- What follows an outer level that keeps its count decides. -/
theorem below_append {n : Nat} {p cs ds : List Nat} (h : Below n cs ds) :
    Below (p.length + n) (p ++ cs) (p ++ ds) := by
  induction p with
  | nil => simpa using h
  | cons a p ih =>
    rw [List.length_cons, Nat.add_right_comm]
    exact below_cons_same ih

/-- An inner level loses a count; levels further in may be added or dropped. -/
theorem below_snoc {n : Nat} {p cs ds : List Nat} {c d : Nat} (hn : p.length < n) (h : c < d) :
    Below n (p ++ c :: cs) (p ++ d :: ds) := by
  obtain ⟨k, rfl⟩ := Nat.exists_eq_add_of_lt hn
  exact below_append (below_cons h)

/-- The innermost level is dropped. -/
theorem below_drop {n : Nat} {p : List Nat} {d : Nat} (hn : p.length < n) (h : 0 < d) :
    Below n p (p ++ [d]) := by
  obtain ⟨k, rfl⟩ := Nat.exists_eq_add_of_lt hn
  have := below_append (p := p) (below_nil (n := k) [] h)
  simpa [Nat.add_assoc] using this

theorem order_trans : ∀ {n : Nat} {a b c : Levels n},
    (order n).rel a b → (order n).rel b c → (order n).rel a c
  | 0, _, _, _, h, _ => h.elim
  | _ + 1, _, _, _, .left _ _ h, .left _ _ k => .left _ _ (Nat.lt_trans h k)
  | _ + 1, _, _, _, .left _ _ h, .right _ _ => .left _ _ h
  | _ + 1, _, _, _, .right _ _, .left _ _ k => .left _ _ k
  | _ + 1, _, _, _, .right _ h, .right _ k => .right _ (order_trans h k)

theorem Below.trans {n : Nat} {a b c : List Nat} (h : Below n a b) (k : Below n b c) :
    Below n a c :=
  order_trans h k

/-- The outermost count may be raised on the right. -/
theorem Below.raise {n : Nat} {a ds : List Nat} {c d : Nat} (h : Below (n + 1) a (c :: ds))
    (hcd : c ≤ d) : Below (n + 1) a (d :: ds) := by
  rcases Nat.lt_or_eq_of_le hcd with hlt | rfl
  · exact h.trans (below_cons hlt)
  · exact h

end Levels

end ReversePolish

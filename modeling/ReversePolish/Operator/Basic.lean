import ReversePolish.Stack
import ReversePolish.Value.Equality
import ReversePolish.Value.Rendering

/-!
Operators: words that see only their operands and the heap.

An operator looks at its operands and at the heap, and only when it has succeeded are the
operands taken from the stack, the results put there, and the heap changed. So an operator that
fails has changed nothing.
-/

namespace ReversePolish

/-- Looks at the heap and gives the results to push, deepest first, and the change to make. -/
abbrev Transform := Heap → Except Error (List Value × Heap.Edit)

namespace Transform

/-- Results that need nothing from the heap. -/
def results (vs : List Value) : Transform := fun _ => .ok (vs, .keep)

def fail (e : Error) : Transform := fun _ => .error e

/-- Goes on with a converted operand. -/
def given {α : Type} (x : Except Error α) (f : α → Transform) : Transform := fun h =>
  match x with
  | .ok a => f a h
  | .error e => .error e

/-- The result is a truth value that the heap decides. -/
def flag (f : Heap → Except Error Bool) : Transform := fun h => do
  let b ← f h
  return ([.ofBool b], .keep)

/-- The result is a new list. -/
def newList (items : Array Value) : Transform := fun h => .ok ([.list h.lists.size], .addList items)

end Transform

/-- Operands are named from the deepest to the top of the stack. -/
inductive Operator where
  | unary (f : Value → Transform)
  | binary (f : Value → Value → Transform)
  | ternary (f : Value → Value → Value → Transform)
  /-- Tests two values for equality; `answer` is applied to what the test says. -/
  | equality (answer : Bool → Bool)

namespace Operator

def arity : Operator → Nat
  | unary _ => 1
  | binary _ => 2
  | ternary _ => 3
  | equality _ => 2

/-- What applying an operator comes to: results to push on what lies below the operands and a
change of the heap, an error, or a test that goes on without end. -/
inductive Applied where
  | results (below : Stack) (vs : List Value) (edit : Heap.Edit)
  | failed (e : Error)
  | endless

def Applied.of (below : Stack) : Except Error (List Value × Heap.Edit) → Applied
  | .ok (vs, edit) => results below vs edit
  | .error e => failed e

def apply (op : Operator) (s : Stack) (h : Heap) : Applied :=
  match op, s with
  | unary f, a :: s => .of s (f a h)
  | binary f, b :: a :: s => .of s (f a b h)
  | ternary f, c :: b :: a :: s => .of s (f a b c h)
  | equality answer, b :: a :: s =>
    match h.equal? a b with
    | some r => .of s (r.map fun same => ([.ofBool (answer same)], .keep))
    | none => .endless
  | op, s => .failed (.underflow op.arity s.length)

end Operator

namespace Value

def asInt : Value → Except Error Int64
  | int n => .ok n
  | v => .error (.mismatch Kind.integer.name v.kind)

/-- The cell of a list. -/
def asList : Value → Except Error Nat
  | list c => .ok c
  | v => .error (.mismatch Kind.list.name v.kind)

/-- The cell of a map. -/
def asMap : Value → Except Error Nat
  | map c => .ok c
  | v => .error (.mismatch Kind.map.name v.kind)

end Value

end ReversePolish

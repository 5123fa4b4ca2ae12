import ReversePolish.Value

/-!
The operand stack, top first. No operation that fails has changed it.
-/

namespace ReversePolish

abbrev Stack := List Value

namespace Stack

/-- Any value but a command can be pushed. -/
def push (v : Value) (s : Stack) : Except Error Stack :=
  match v with
  | .command c _ =>
    .error (.mismatch ("a data value (`" ++ c.name ++ "` must be invoked, not pushed)") .command)
  | v => .ok (v :: s)

/-- Fails unless the stack holds `n` values. -/
def require (n : Nat) (s : Stack) : Except Error Unit :=
  if s.length < n then .error (.underflow n s.length) else .ok ()

/-- The value `n` places below the top. -/
def peek (n : Nat) (s : Stack) : Except Error Value :=
  match s[n]? with
  | some v => .ok v
  | none => .error (.underflow (n + 1) s.length)

/-- The value `n` places below the top, which must be of the given kind. -/
def expect (n : Nat) (k : Kind) (s : Stack) : Except Error Value := do
  let v ← s.peek n
  if v.kind = k then return v else throw (.mismatch k.name v.kind)

/-- The top `n` values, deepest first. -/
def top (n : Nat) (s : Stack) : Except Error (List Value) := do
  s.require n
  return (s.take n).reverse

def pop : Stack → Except Error (Value × Stack)
  | [] => .error (.underflow 1 0)
  | v :: s => .ok (v, s)

/-- Pops the top value if it is of the given kind. -/
def popKind (k : Kind) (s : Stack) : Except Error (Value × Stack) := do
  let (v, rest) ← s.pop
  if v.kind = k then return (v, rest) else throw (.mismatch k.name v.kind)

/-- Pops the top `n` values, deepest first. -/
def popMany (n : Nat) (s : Stack) : Except Error (List Value × Stack) := do
  let vs ← s.top n
  return (vs, s.drop n)

end Stack

end ReversePolish

import ReversePolish.Operator.Basic

/-!
Arithmetic and order. Results are exact: one that does not fit in 64 bits is an error.
-/

namespace ReversePolish

namespace Arithmetic

/-- An exact result as an integer of the language. -/
def fit (n : Int) : Except Error Int64 :=
  match int64? n with
  | some i => .ok i
  | none => .error (.failed .overflow)

def sum (a b : Int64) : Except Error Int64 := fit (a.toInt + b.toInt)

def difference (a b : Int64) : Except Error Int64 := fit (a.toInt - b.toInt)

/-- The difference, or the integer nearest to it if it does not fit in 64 bits. -/
def saturatedDifference (a b : Int64) : Int64 :=
  match int64? (a.toInt - b.toInt) with
  | some i => i
  | none => if a.toInt < b.toInt then Int64.minValue else Int64.maxValue

def product (a b : Int64) : Except Error Int64 := fit (a.toInt * b.toInt)

/-- The quotient, truncated toward zero. -/
def quotient (a b : Int64) : Except Error Int64 :=
  if b = 0 then .error (.failed .divisionByZero) else fit (a.toInt.tdiv b.toInt)

/-- The remainder, which has the sign of the dividend. It exists where the quotient does. -/
def remainder (a b : Int64) : Except Error Int64 := do
  let _ ← quotient a b
  fit (a.toInt.tmod b.toInt)

def negative (a : Int64) : Except Error Int64 := fit (-a.toInt)

/-- Integers compare by value and strings by code point. -/
def compare : Value → Value → Except Error Ordering
  | .int a, .int b => .ok (Ord.compare a b)
  | .str a, .str b => .ok (Ord.compare a b)
  | .int _, v => .error (.mismatch Kind.integer.name v.kind)
  | .str _, v => .error (.mismatch Kind.string.name v.kind)
  | v, _ => .error (.mismatch "Integer or String" v.kind)

end Arithmetic

namespace Operator

def ofInt (f : Int64 → Except Error Int64) : Operator :=
  .unary fun a => .given a.asInt fun a => .given (f a) fun r => .results [.int r]

def ofInts (f : Int64 → Int64 → Except Error Int64) : Operator :=
  .binary fun a b => .given a.asInt fun a => .given b.asInt fun b =>
    .given (f a b) fun r => .results [.int r]

/-- A test of the order of two values. -/
def ofOrder (test : Ordering → Bool) : Operator :=
  .binary fun a b => .given (Arithmetic.compare a b) fun o => .results [.ofBool (test o)]

/-- Adds integers, and joins strings or lists. -/
def sum : Operator :=
  .binary fun a b =>
    match a, b with
    | .int a, .int b => .given (Arithmetic.sum a b) fun r => .results [.int r]
    | .str a, .str b => .results [.str (a ++ b)]
    | .list a, .list b => fun h => Transform.newList (h.items a ++ h.items b) h
    | .int _, v => .fail (.mismatch Kind.integer.name v.kind)
    | .str _, v => .fail (.mismatch Kind.string.name v.kind)
    | .list _, v => .fail (.mismatch Kind.list.name v.kind)
    | v, _ => .fail (.mismatch "Integer, String or List" v.kind)

def not : Operator := .unary fun a => .flag fun h => return !(← h.truth a)

/-- The second operand is not looked at where the first one decides. -/
def and : Operator :=
  .binary fun a b => .flag fun h => do
    if ← h.truth a then h.truth b else return false

def or : Operator :=
  .binary fun a b => .flag fun h => do
    if ← h.truth a then return true else h.truth b

end Operator

end ReversePolish

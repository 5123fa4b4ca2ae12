import ReversePolish.Operator.Arithmetic

/-!
Lists, maps and strings. The words that change a list or map change its cell, so the change is
seen through every value that names the cell.
-/

namespace ReversePolish

namespace Collection

/-- An index as a position in something of the given length. -/
def position? (index : Int64) (length : Nat) : Option Nat :=
  if 0 ≤ index.toInt ∧ index.toInt < length then some index.toInt.toNat else none

def position (index : Int64) (length : Nat) : Except Error Nat :=
  match position? index length with
  | some i => .ok i
  | none => .error (.failed (.indexOutOfRange index length))

/-- A place to insert at, which may be the end. -/
def gap (index : Int64) (length : Nat) : Except Error Nat :=
  match position? index (length + 1) with
  | some i => .ok i
  | none => .error (.failed (.positionOutOfRange index length))

/-- The longest list that is made at once. -/
def maxRange : Nat := 1048576

/-- The integers from `start` up to but not including `stop`. -/
def integers (start stop : Int) : Array Value :=
  (Array.range (stop - start).toNat).map fun (i : Nat) => .int (Int64.ofInt (start + i))

end Collection

namespace Operator

open Collection

/-- The number of elements of a collection, or of characters of a string. -/
def length (h : Heap) : Value → Except Error Nat
  | .list c => .ok (h.items c).size
  | .map c => .ok (h.entries c).size
  | .str s => .ok s.length
  | v => .error (.mismatch "List, Map or String" v.kind)

def size : Operator :=
  .unary fun v h => do
    let n ← length h v
    let i ← Arithmetic.fit n
    return ([.int i], .keep)

def get : Operator :=
  .binary fun coll key h =>
    match coll, key with
    | .list c, .int index => do
      let i ← position index (h.items c).size
      return ([(h.items c).getD i .none], .keep)
    | .list _, v => .error (.mismatch "Integer index" v.kind)
    | .map c, v => do
      let k ← v.key
      match (h.entries c).find? k with
      | some x => return ([x], .keep)
      | none => throw (.failed (.keyAbsent k))
    | v, _ => .error (.mismatch "List or Map" v.kind)

def put : Operator :=
  .ternary fun coll key x h =>
    match coll, key with
    | .list c, .int index => do
      let i ← position index (h.items c).size
      return ([coll], .setItem c i x)
    | .list _, v => .error (.mismatch "Integer index" v.kind)
    | .map c, v => do
      let k ← v.key
      return ([coll], .bind c k x)
    | v, _ => .error (.mismatch "List or Map" v.kind)

def append : Operator :=
  .binary fun coll x => .given coll.asList fun c _ => .ok ([coll], .addItem c x)

def insert : Operator :=
  .ternary fun coll index x => .given coll.asList fun c => .given index.asInt fun index h => do
    let i ← gap index (h.items c).size
    return ([coll], .insertItem c i x)

def keys : Operator :=
  .unary fun coll => .given coll.asMap fun c h =>
    Transform.newList ((h.entries c).keys.map Value.ofKey).toArray h

def range : Operator :=
  .binary fun a b => .given a.asInt fun a => .given b.asInt fun b =>
    if (maxRange : Int) < (Arithmetic.saturatedDifference b a).toInt then
      .fail (.failed (.rangeTooLong maxRange))
    else .newList (integers a.toInt b.toInt)

def clone : Operator :=
  .unary fun v h => do
    let (copy, edit) ← h.copy v
    return ([copy], edit)

/-- A string is its own text; any other value is written out. -/
def text : Operator :=
  .unary fun v h =>
    match v with
    | .str s => .ok ([.str s], .keep)
    | v => .ok ([.str (h.render v)], .keep)

end Operator

end ReversePolish

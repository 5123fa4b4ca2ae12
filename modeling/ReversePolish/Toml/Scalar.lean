import ReversePolish.Text.Decimal
import ReversePolish.Text.Split
import ReversePolish.Toml.Quoted

/-!
TOML numbers, truth values, dates and times.
-/

namespace ReversePolish.Toml

/-- Digits with single underscores between them, without the underscores. -/
def digits? (isDigit : Char → Bool) (cs : List Char) : Option (List Char) :=
  let groups := splitChars '_' cs
  if groups.all fun g => !g.isEmpty && g.all isDigit then some groups.flatten else none

/-- Digits of a decimal integer, which has no leading zero. -/
def decimal? (cs : List Char) : Option (List Char) := do
  let ds ← digits? isDigit cs
  if 1 < ds.length ∧ ds.head? = some '0' then none else some ds

def number (base : Nat) (ds : List Char) : Int :=
  ds.foldl (fun a c => base * a + ((hexValue? c).getD 0 : Nat)) 0

/-- An integer of any size. Only decimal integers have signs. -/
def integer? : List Char → Option Int
  | '0' :: 'x' :: cs => (digits? (fun c => (hexValue? c).isSome) cs).map (number 16)
  | '0' :: 'o' :: cs => (digits? (fun c => '0' ≤ c && c ≤ '7') cs).map (number 8)
  | '0' :: 'b' :: cs => (digits? (fun c => c == '0' || c == '1') cs).map (number 2)
  | '+' :: cs => (decimal? cs).map (number 10)
  | '-' :: cs => (decimal? cs).map fun ds => -number 10 ds
  | cs => (decimal? cs).map (number 10)

def dropSign : List Char → List Char
  | '+' :: cs => cs
  | '-' :: cs => cs
  | cs => cs

/-- The digits of a float before its exponent, and how many of them come after the point. -/
def mantissa? (cs : List Char) : Option (List Char × Nat) :=
  match splitChars '.' cs with
  | [whole] => do
    let ds ← decimal? whole
    some (ds, 0)
  | [whole, part] => do
    let ds ← decimal? whole
    let es ← digits? isDigit part
    some (ds ++ es, es.length)
  | _ => none

/-- The exponent of a float, given with the letter in front of it. -/
def exponent? : List Char → Option Int
  | [] => some 0
  | _ :: '+' :: cs => (digits? isDigit cs).map (number 10)
  | _ :: '-' :: cs => (digits? isDigit cs).map fun ds => -number 10 ds
  | _ :: cs => (digits? isDigit cs).map (number 10)

/-- The least number that is infinite when it is rounded to a double. It lies halfway between the
largest double and `2 ^ 1024`, and a tie goes to the even neighbour, which is the latter. -/
def leastInfinite : Nat := (1 <<< 1024) - (1 <<< 970)

/-- Whether the number with these digits, times `10 ^ e`, is infinite when it is rounded to a
double. Unless it has 309 digits before the point, its size decides. -/
def roundsToInfinity (ds : List Char) (e : Int) : Bool :=
  let ds := ds.dropWhile (· == '0')
  let size := ds.length + e
  if ds.isEmpty || size < 309 then false
  else if 309 < size then true
  else (leastInfinite * Nat.pow 10 (-e).toNat : Nat) ≤ number 10 ds * (Nat.pow 10 e.toNat : Nat)

/-- A float has a fraction, an exponent or both, or is infinite or no number. One that is written
in digits must not round to infinity, save to the negative one. -/
def isFloat (cs : List Char) : Bool :=
  let body := dropSign cs
  let front := body.takeWhile fun c => c != 'e' && c != 'E'
  let back := body.drop front.length
  body == ['i', 'n', 'f'] || body == ['n', 'a', 'n'] ||
    match mantissa? front, exponent? back with
    | some (ds, places), some e =>
      (front.contains '.' || !back.isEmpty) &&
        (cs.head? == some '-' || !roundsToInfinity ds (e - places))
    | _, _ => false

/-- A number of exactly `width` digits within bounds. -/
def field? (width low high : Nat) (cs : List Char) : Option Nat :=
  let n := Nat.ofDigitChars 10 cs 0
  if cs.length = width ∧ cs.all isDigit ∧ low ≤ n ∧ n ≤ high then some n else none

def monthLength (year month : Nat) : Nat :=
  if month = 2 then
    if year % 4 = 0 ∧ (year % 100 ≠ 0 ∨ year % 400 = 0) then 29 else 28
  else if month = 4 ∨ month = 6 ∨ month = 9 ∨ month = 11 then 30
  else 31

def isDate (cs : List Char) : Bool :=
  match splitChars '-' cs with
  | [y, m, d] =>
    match field? 4 0 9999 y, field? 2 1 12 m with
    | some y, some m => (field? 2 1 (monthLength y m) d).isSome
    | _, _ => false
  | _ => false

def isTime (cs : List Char) : Bool :=
  match splitChars ':' cs with
  | [h, m, s] =>
    let seconds := s.take 2
    (field? 2 0 23 h).isSome && (field? 2 0 59 m).isSome && (field? 2 0 60 seconds).isSome &&
      match s.drop 2 with
      | [] => true
      | '.' :: ds => !ds.isEmpty && ds.all isDigit
      | _ => false
  | _ => false

def isOffset (cs : List Char) : Bool :=
  match cs with
  | [] | ['Z'] | ['z'] => true
  | c :: cs =>
    match splitChars ':' cs with
    | [h, m] =>
      (c == '+' || c == '-') && (field? 2 0 23 h).isSome && (field? 2 0 59 m).isSome
    | _ => false

/-- A date, a time, or a date and a time with or without an offset. -/
def isDateTime (cs : List Char) : Bool :=
  if isTime cs then true
  else
    isDate (cs.take 10) &&
      match cs.drop 10 with
      | [] => true
      | c :: cs =>
        let time := cs.takeWhile fun c => isDigit c || c == ':' || c == '.'
        (c == 'T' || c == 't' || c == ' ') && isTime time && isOffset (cs.drop time.length)

/-- A character of a number, truth value, date or time. -/
def isScalarChar (c : Char) : Bool :=
  c.isAlphanum || c == '+' || c == '-' || c == '.' || c == '_' || c == ':'

/-- The characters of a scalar. One space may stand between a date and a time. -/
def scalarChars (cs : Rest) : List Char :=
  let run := cs.takeWhile isScalarChar
  match cs.drop run.length with
  | ' ' :: d :: more =>
    if isDate run && isDigit d then run ++ ' ' :: (d :: more).takeWhile isScalarChar else run
  | _ => run

def readScalar (cs : Rest) : Option (Value × Rest) :=
  let run := scalarChars cs
  let rest := cs.drop run.length
  match integer? run with
  | some n => (int64? n).map fun i => (.int i, rest)
  | none =>
    if run == "true".toList || run == "false".toList || isFloat run || isDateTime run then
      some (.other, rest)
    else none

end ReversePolish.Toml

import ReversePolish.Proofs.Execution.Operators
import ReversePolish.Proofs.Operator.Arithmetic

/-!
Words for integers are exact or fail. The least integer has no quotient by minus one, and no remainder
either: it is not given where the quotient does not fit.
-/

namespace ReversePolish

open Arithmetic

namespace Word

variable {w : Word} {op : Operator} {operands : List Value} {x : Except Error Int64} {a b i : Int64}
  {n : Int} {f : Failure}

/-- In any heap, the word puts one value in place of the operands. It may have added to the heap for
this value, and nothing else changes. -/
def Gives (w : Word) (operands : List Value) (result : Heap → Value × Heap) : Prop :=
  ∀ h, w.GivesIn h operands (result h).1 (result h).2

/-- The word puts this integer in place of the operands. -/
def GivesInt (w : Word) (operands : List Value) (i : Int64) : Prop :=
  w.Gives operands fun h => (.int i, h)

/-- Run with these operands, the word fails and changes nothing. -/
def FailsOn (w : Word) (operands : List Value) (f : Failure) : Prop :=
  ∀ (c : Command) (m : Machine) (below : Stack) (ts : List Task), c.behavior = .core w →
    m.stack = operands.reverse ++ below →
    Execution.runValue (.command c false) m ts = .ofError m ts (.failed f)

/-- The word gives the integer if 64 bits can tell it, and fails if not. -/
def Exact (w : Word) (operands : List Value) (n : Int) : Prop :=
  if Fits n then ∃ i : Int64, i.toInt = n ∧ w.GivesInt operands i else w.FailsOn operands .overflow

/-! ### Words that compute an integer -/

/-- What the word does with the operands is to compute this. -/
def Computes (w : Word) (operands : List Value) (x : Except Error Int64) : Prop :=
  ∃ op, w.meaning = .operator op ∧ ∀ below h, op.apply (operands.reverse ++ below) h =
    .of below (Transform.given x (fun r => .results [.int r]) h)

lemma computes_add : add.Computes [.int a, .int b] (Arithmetic.sum a b) := ⟨_, rfl, fun _ _ => rfl⟩

lemma computes_sub : sub.Computes [.int a, .int b] (difference a b) := ⟨_, rfl, fun _ _ => rfl⟩

lemma computes_mul : mul.Computes [.int a, .int b] (product a b) := ⟨_, rfl, fun _ _ => rfl⟩

lemma computes_neg : neg.Computes [.int a] (negative a) := ⟨_, rfl, fun _ _ => rfl⟩

lemma computes_div : div.Computes [.int a, .int b] (quotient a b) := ⟨_, rfl, fun _ _ => rfl⟩

lemma computes_mod : mod.Computes [.int a, .int b] (remainder a b) := ⟨_, rfl, fun _ _ => rfl⟩

lemma Computes.gives (h : w.Computes operands x) (hx : x = .ok i) : w.GivesInt operands i := by
  obtain ⟨op, hw, hop⟩ := h
  refine fun heap => givesIn_of_apply op .keep hw (by simp) fun below => ?_
  rw [hop, hx]
  rfl

lemma failsOn_of_apply (op : Operator) (hw : w.meaning = .operator op)
    (hop : ∀ below h, op.apply (operands.reverse ++ below) h = .failed (.failed f)) :
    w.FailsOn operands f := by
  intro c m below ts hc hs
  exact (Execution.runValue_operator hc hw).trans
    (Execution.operate_failed (hs ▸ hop below m.heap))

lemma Computes.fails (h : w.Computes operands x) (hx : x = .error (.failed f)) :
    w.FailsOn operands f := by
  obtain ⟨op, hw, hop⟩ := h
  refine failsOn_of_apply op hw fun below heap => ?_
  rw [hop, hx]
  rfl

/-- A result that is computed exactly and then made to fit. -/
lemma Computes.exact (h : w.Computes operands x) (hx : x = fit n) : w.Exact operands n := by
  unfold Exact
  split
  · next hfits =>
    obtain ⟨i, rfl⟩ := fits_iff_exists.mp hfits
    exact ⟨i, rfl, h.gives (hx.trans (fit_toInt i))⟩
  · next hfits => exact h.fails (hx.trans (fit_of_not_fits hfits))

/-! ### Division -/

lemma quotient_eq_fit (hb : b ≠ 0) : quotient a b = fit (a.toInt.tdiv b.toInt) := if_neg hb

lemma remainder_of_quotient {q : Int64} (h : quotient a b = .ok q) :
    remainder a b = fit (a.toInt.tmod b.toInt) := by
  simp only [remainder, h, bind, Except.bind]

/-- There is a remainder only where there is a quotient. -/
lemma remainder_of_error {e : Error} (h : quotient a b = .error e) : remainder a b = .error e := by
  simp only [remainder, h, bind, Except.bind]

lemma div_mod_fail_on_zero (hb : b = 0) :
    div.FailsOn [.int a, .int b] .divisionByZero ∧ mod.FailsOn [.int a, .int b] .divisionByZero := by
  have hzero : quotient a b = .error (.failed .divisionByZero) := if_pos hb
  exact ⟨computes_div.fails hzero, computes_mod.fails (remainder_of_error hzero)⟩

lemma mod_fails_of_least (ha : a.toInt = -2 ^ 63) (hb : b.toInt = -1) :
    mod.FailsOn [.int a, .int b] .overflow := by
  have hb₀ : b ≠ 0 := by
    rintro rfl
    exact absurd hb (by decide)
  refine computes_mod.fails (remainder_of_error ?_)
  rw [quotient_eq_fit hb₀]
  refine fit_of_not_fits fun hfits => ?_
  exact (fits_tdiv (fits_toInt a) (toInt_ne_zero hb₀)).mp hfits ⟨ha, hb⟩

lemma div_mod_give (hb : b ≠ 0) (h : ¬ (a.toInt = -2 ^ 63 ∧ b.toInt = -1)) :
    ∃ q r : Int64, div.GivesInt [.int a, .int b] q ∧ mod.GivesInt [.int a, .int b] r ∧
      q.toInt = a.toInt.tdiv b.toInt ∧ r.toInt = a.toInt.tmod b.toInt := by
  have hb₀ := toInt_ne_zero hb
  obtain ⟨q, hq⟩ := fits_iff_exists.mp ((fits_tdiv (fits_toInt a) hb₀).mpr h)
  obtain ⟨r, hr⟩ := fits_iff_exists.mp (fits_tmod (a := a.toInt) (fits_toInt b) hb₀)
  have hquotient : quotient a b = .ok q := by rw [quotient_eq_fit hb, ← hq, fit_toInt]
  have hremainder : remainder a b = .ok r := by
    rw [remainder_of_quotient hquotient, ← hr, fit_toInt]
  exact ⟨q, r, computes_div.gives hquotient, computes_mod.gives hremainder, hq, hr⟩

/-! ### Ranges -/

lemma range_apply (a b : Int64) (below : Stack) (h : Heap) :
    Operator.range.apply (.int b :: .int a :: below) h =
      if (Collection.maxRange : Int) < b.toInt - a.toInt then
        .failed (.failed (.rangeTooLong Collection.maxRange))
      else .results below [.list h.lists.size]
        (.addList (Collection.integers a.toInt b.toInt)) := by
  -- The bound lies well within 64 bits, so it does not matter that the difference may be cut off.
  have hlong := Arithmetic.lt_saturatedDifference_iff (n := Collection.maxRange) (by decide)
    (by decide) b a
  simp only [Operator.apply, Operator.range, Transform.given, Value.asInt, hlong]
  split <;> rfl

lemma range_fails (h : 2 ^ 20 < b.toInt - a.toInt) :
    range.FailsOn [.int a, .int b] (.rangeTooLong (2 ^ 20)) :=
  failsOn_of_apply .range rfl fun below h' => (range_apply a b below h').trans (if_pos h)

lemma range_gives (h : ¬ 2 ^ 20 < b.toInt - a.toInt) :
    ∃ ns, Collection.IsRange a b ns ∧
      range.Gives [.int a, .int b] (Heap.newList (ns.map .int).toArray) := by
  obtain ⟨ns, hns, hintegers⟩ := Collection.exists_integers a b
  refine ⟨ns, hns, fun h' => ?_⟩
  have happly (below : Stack) : Operator.range.apply ([.int a, .int b].reverse ++ below) h' =
      .results below [.list h'.lists.size] (.addList (ns.map .int).toArray) := by
    rw [← hintegers]
    exact (range_apply a b below h').trans (if_neg h)
  exact givesIn_of_apply _ _ rfl (by simp) happly

/-- **Words for integers are exact or fail**, on all pairs of integers. Sum, difference, product and
negative are given if they fit, and otherwise there is an error. Dividing by zero is an error for
the quotient and the remainder. By any other integer the quotient, truncated toward zero, is given
if it fits, and in one case it does not: the least integer by minus one. There is an error then for
the remainder, too. In all other cases the remainder is given, and the two together make up the
dividend. A range fails if it is longer than 2^20 and gives a new list of just the integers that lie
in it if not. -/
theorem integers_exact_or_fail (a b : Int64) :
    (add.Exact [.int a, .int b] (a.toInt + b.toInt) ∧
      sub.Exact [.int a, .int b] (a.toInt - b.toInt) ∧
      mul.Exact [.int a, .int b] (a.toInt * b.toInt) ∧
      neg.Exact [.int a] (-a.toInt)) ∧
    (b = 0 → div.FailsOn [.int a, .int b] .divisionByZero ∧
      mod.FailsOn [.int a, .int b] .divisionByZero) ∧
    (b ≠ 0 → div.Exact [.int a, .int b] (a.toInt.tdiv b.toInt)) ∧
    (a.toInt = -2 ^ 63 ∧ b.toInt = -1 → mod.FailsOn [.int a, .int b] .overflow) ∧
    (b ≠ 0 → ¬ (a.toInt = -2 ^ 63 ∧ b.toInt = -1) →
      ∃ q r : Int64, div.GivesInt [.int a, .int b] q ∧ mod.GivesInt [.int a, .int b] r ∧
        q.toInt = a.toInt.tdiv b.toInt ∧ r.toInt = a.toInt.tmod b.toInt ∧
        a.toInt = q.toInt * b.toInt + r.toInt) ∧
    (2 ^ 20 < b.toInt - a.toInt → range.FailsOn [.int a, .int b] (.rangeTooLong (2 ^ 20))) ∧
    (¬ 2 ^ 20 < b.toInt - a.toInt → ∃ ns, Collection.IsRange a b ns ∧
      range.Gives [.int a, .int b] (Heap.newList (ns.map .int).toArray)) := by
  refine ⟨⟨?_, ?_, ?_, ?_⟩, div_mod_fail_on_zero, fun hb => ?_, ?_, fun hb h => ?_, range_fails,
    range_gives⟩
  · exact computes_add.exact rfl
  · exact computes_sub.exact rfl
  · exact computes_mul.exact rfl
  · exact computes_neg.exact rfl
  · exact computes_div.exact (quotient_eq_fit hb)
  · exact fun ⟨ha, hb⟩ => mod_fails_of_least ha hb
  · obtain ⟨q, r, hdiv, hmod, hq, hr⟩ := div_mod_give hb h
    refine ⟨q, r, hdiv, hmod, hq, hr, ?_⟩
    rw [hq, hr, Int.mul_comm, Int.mul_tdiv_add_tmod]

/-- `-9223372036854775808 -1 MOD` fails, although the remainder is zero. -/
theorem mod_of_least_by_minus_one_fails :
    let m := { Machine.initial "main" ∅ Loader.disabled default .empty {} {} with
      stack := [.int (-1), .int Int64.minValue] }
    Int64.minValue.toInt.tmod (-1 : Int64).toInt = 0 ∧ Fits 0 ∧
      Execution.runValue (.command (.ofWord .mod) false) m [] =
        .ofError m [] (.failed .overflow) := by
  exact ⟨by decide, by decide, rfl⟩

end Word

end ReversePolish

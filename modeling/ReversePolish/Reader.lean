import ReversePolish.Reader.Sources

/-!
Reading values, one complete top-level value at a time.
-/

namespace ReversePolish

/-- What reading the next value came to. -/
inductive Reading (κ : Type) where
  | value (d : Datum κ) (r : Reader)
  | ended (r : Reader)
  | failed (e : Error) (r : Reader)

namespace Reader

variable {κ : Type}

/-- Reads on inside the open forms, innermost first, until the value is complete. -/
def readInside (s : Setting κ) (forms : List (OpenForm κ)) (r : Reader) : Reading κ :=
  match _h : r.advance s.load with
  | .moved r' => readInside s forms r'
  | .failed e r => .failed e r
  | .ended r =>
    match forms with
    | [] => .ended r
    | o :: _ => .failed o.unterminated r
  | .token t place r' =>
    match s.shift r.inRoot place t forms with
    | .error e => .failed e r'
    | .ok (.value d) => .value d r'
    | .ok (.more forms) => readInside s forms r'
termination_by r
decreasing_by
  · exact smaller_of_advance_moved _h
  · exact smaller_of_advance_token _h

/-- Steps over what lies before the next value of the root text. -/
def startUnit (r : Reader) : Reader :=
  { r with root := r.root.skipTrivia, unit := r.root.skipTrivia }

/-- Reads the next value. A failure leaves the open texts where it was noticed, and reading can
go on from there. -/
def next (s : Setting κ) (r : Reader) : Reading κ := readInside s [] r.startUnit

section

variable {s : Setting κ} {forms : List (OpenForm κ)} {r r' : Reader}

theorem readInside_moved (h : r.advance s.load = .moved r') :
    readInside s forms r = readInside s forms r' := by
  rw [readInside]; split <;> simp_all

theorem readInside_failed {e : Error} (h : r.advance s.load = .failed e r') :
    readInside s forms r = .failed e r' := by
  rw [readInside]; split <;> simp_all

theorem readInside_ended (h : r.advance s.load = .ended r') :
    readInside s forms r =
      match forms with
      | [] => .ended r'
      | o :: _ => .failed o.unterminated r' := by
  rw [readInside]; split <;> simp_all

theorem readInside_token {t : Token} {place : Cursor} (h : r.advance s.load = .token t place r') :
    readInside s forms r =
      match s.shift r.inRoot place t forms with
      | .error e => .failed e r'
      | .ok (.value d) => .value d r'
      | .ok (.more forms) => readInside s forms r' := by
  rw [readInside]; split <;> simp_all

theorem smaller_of_readInside {d : Datum κ} (h : readInside s forms r = .value d r') :
    r'.Smaller r := by
  induction forms, r using readInside.induct s with
  | case1 forms r r₁ hadv ih =>
    rw [readInside_moved hadv] at h
    exact (ih h).trans (smaller_of_advance_moved hadv)
  | case2 forms r e r₁ hadv => simp [readInside_failed hadv] at h
  | case3 r r₁ hadv => simp [readInside_ended hadv] at h
  | case4 r r₁ hadv o os => simp [readInside_ended hadv] at h
  | case5 forms r t place r₁ hadv e hs => simp [readInside_token hadv, hs] at h
  | case6 forms r t place r₁ hadv d' hs =>
    simp only [readInside_token hadv, hs, Reading.value.injEq] at h
    exact h.2 ▸ smaller_of_advance_token hadv
  | case7 forms r t place r₁ hadv forms' hs ih =>
    simp only [readInside_token hadv, hs] at h
    exact (ih h).trans (smaller_of_advance_token hadv)

end

/-- A reader has less left after reading a value. -/
theorem smaller_of_next {s : Setting κ} {r r' : Reader} {d : Datum κ}
    (h : r.next s = .value d r') : r'.Smaller r := by
  have := smaller_of_readInside h
  exact this.raise (Nat.succ_le_succ (Cursor.length_after_skipTrivia r.root))

/-- Reads every value that is left. -/
def readAll (s : Setting κ) (r : Reader) : Except Error (List (Datum κ)) :=
  match _h : r.next s with
  | .value d r' => do
    let ds ← readAll s r'
    return d :: ds
  | .ended _ => .ok []
  | .failed e _ => .error e
termination_by r
decreasing_by exact smaller_of_next _h

end Reader

end ReversePolish

import Mathlib.Tactic.Lemma
import ReversePolish.Reader

/-!
Where the value being read begins. Reading goes on in other texts, but this place stays.
-/

namespace ReversePolish

variable {κ : Type}

namespace Reader

/-- The reader that a step leaves. -/
def Advance.reader : Advance → Reader
  | .token _ _ r | .moved r | .ended r | .failed _ r => r

variable {load : String → Except Error String} {r : Reader}

@[simp] lemma unit_moveTo (c : Cursor) (r : Reader) : (r.moveTo c).unit = r.unit := by
  unfold moveTo
  split <;> rfl

lemma unit_openText (load : String → Except Error String) (name : String) (r : Reader) :
    (openText load name r).reader.unit = r.unit := by
  unfold openText
  split
  · split <;> rfl
  · rfl

lemma unit_importText (load : String → Except Error String) (start rest : Cursor) (r : Reader) :
    (importText load start rest r).reader.unit = r.unit := by
  unfold importText
  split
  · simp [unit_openText]
  · simp [unit_openText]
  all_goals simp [Advance.reader]

lemma unit_of_advance {a : Advance} (h : r.advance load = a) : a.reader.unit = r.unit := by
  subst h
  unfold advance
  split
  · exact unit_importText load _ _ r
  · simp [Advance.reader]
  · simp [Advance.reader]
  · split <;> simp [Advance.reader]

end Reader

/-- The reader that a reading leaves. -/
def Reading.reader : Reading κ → Reader
  | .value _ r | .ended r | .failed _ r => r

namespace Setting

lemma ne_nil_of_emit {d : Datum κ} {forms forms' : List (OpenForm κ)}
    (h : Shift.emit d forms = .more forms') : forms' ≠ [] := by
  cases forms with
  | nil => cases h
  | cons o os =>
    cases h
    simp

/-- A token that leaves more to read leaves a form open. -/
lemma ne_nil_of_shift {s : Setting κ} {inRoot : Bool} {place : Cursor} {t : Token}
    {forms forms' : List (OpenForm κ)} (h : s.shift inRoot place t forms = .ok (.more forms')) :
    forms' ≠ [] := by
  cases t with
  | opener f =>
    simp only [shift] at h
    split at h
    · cases h
    · cases h
      simp
  | closer f =>
    cases forms with
    | nil => cases h
    | cons o os =>
      simp only [shift] at h
      split at h
      · split at h
        · exact ne_nil_of_emit (Except.ok.inj h)
        · cases h
        · cases h
      · cases h
  | divider d =>
    cases forms with
    | nil => cases h
    | cons o os =>
      simp only [shift] at h
      split at h
      · cases h
        simp
      · cases h
  | exit =>
    simp only [shift] at h
    split at h
    · exact ne_nil_of_emit (Except.ok.inj h)
    · cases h
  | importing => cases h
  | _ => exact ne_nil_of_emit (Except.ok.inj h)

end Setting

namespace Reader

variable {s : Setting κ}

lemma unit_readInside (s : Setting κ) (forms : List (OpenForm κ)) (r : Reader) :
    (readInside s forms r).reader.unit = r.unit := by
  induction forms, r using readInside.induct s with
  | case1 forms r r' hadv ih =>
    rw [readInside_moved hadv]
    exact ih.trans (unit_of_advance hadv)
  | case2 forms r e r' hadv =>
    rw [readInside_failed hadv]
    exact unit_of_advance hadv
  | case3 r r' hadv =>
    rw [readInside_ended hadv]
    exact unit_of_advance hadv
  | case4 r r' hadv o os =>
    rw [readInside_ended hadv]
    exact unit_of_advance hadv
  | case5 forms r t place r' hadv e hs =>
    rw [readInside_token hadv, hs]
    exact unit_of_advance hadv
  | case6 forms r t place r' hadv d hs =>
    rw [readInside_token hadv, hs]
    exact unit_of_advance hadv
  | case7 forms r t place r' hadv forms' hs ih =>
    rw [readInside_token hadv, hs]
    exact ih.trans (unit_of_advance hadv)

/-- Reading on inside a form never ends as if no value had begun. -/
lemma readInside_ne_ended {forms : List (OpenForm κ)} (hforms : forms ≠ []) {r r' : Reader} :
    readInside s forms r ≠ .ended r' := by
  induction forms, r using readInside.induct s with
  | case1 forms r r₁ hadv ih =>
    rw [readInside_moved hadv]
    exact ih hforms
  | case2 forms r e r₁ hadv =>
    rw [readInside_failed hadv]
    intro h
    cases h
  | case3 r r₁ hadv => exact (hforms rfl).elim
  | case4 r r₁ hadv o os =>
    rw [readInside_ended hadv]
    intro h
    cases h
  | case5 forms r t place r₁ hadv e hs =>
    rw [readInside_token hadv, hs]
    intro h
    cases h
  | case6 forms r t place r₁ hadv d hs =>
    rw [readInside_token hadv, hs]
    intro h
    cases h
  | case7 forms r t place r₁ hadv forms' hs ih =>
    rw [readInside_token hadv, hs]
    exact ih (Setting.ne_nil_of_shift hs)

/-- The value that is read next begins at the first place of the root text that is no trivia. -/
theorem unit_next (s : Setting κ) (r : Reader) :
    (r.next s).reader.unit = r.root.skipTrivia := unit_readInside s [] r.startUnit

lemma unitText_of_failed {r r' : Reader} {e : Error} (h : r.next s = .failed e r') :
    r'.unitText = r.root.skipTrivia.rest := by
  have := unit_next s r
  rw [h] at this
  exact congrArg Cursor.rest this

end Reader

end ReversePolish

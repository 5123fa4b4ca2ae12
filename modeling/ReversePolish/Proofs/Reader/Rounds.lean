import Mathlib.Logic.Function.Iterate
import ReversePolish.Proofs.Reader.Tokens
import ReversePolish.Proofs.Reader.Unit
import ReversePolish.Proofs.Token.Place

/-!
Reading, one round after the other.

In a round the innermost text is looked at once: its next token is taken, an import is opened, or a
text that is used up is closed. Finitely many rounds lead to the answer, whatever the imported texts
say, and even where they import themselves. All the while the root text is open, and at most 15
imported texts are open with it.
-/

namespace ReversePolish

variable {κ : Type}

/-- How far reading has come: to these open forms and texts, or to an answer. -/
inductive Progress (κ : Type) where
  | underway (forms : List (OpenForm κ)) (r : Reader)
  | returned (x : Reading κ)

namespace Progress

def start (r : Reader) : Progress κ := underway [] r.startUnit

def reader : Progress κ → Reader
  | underway _ r => r
  | returned x => x.reader

/-- One round. -/
def round (s : Setting κ) : Progress κ → Progress κ
  | underway forms r =>
    match r.advance s.load with
    | .moved r => underway forms r
    | .failed e r => returned (.failed e r)
    | .ended r =>
      match forms with
      | [] => returned (.ended r)
      | o :: _ => returned (.failed o.unterminated r)
    | .token t place r' =>
      match s.shift r.inRoot place t forms with
      | .error e => returned (.failed e r')
      | .ok (.value d) => returned (.value d r')
      | .ok (.more forms) => underway forms r'
  | returned x => returned x

/-- One round of reading all values, after these have been read. -/
def roundAll (s : Setting κ) : List (Datum κ) × Progress κ → List (Datum κ) × Progress κ
  | (ds, returned (.value d r)) => (ds ++ [d], start r)
  | (ds, p) => (ds, p.round s)

/-- What reading all values has come to, if it has come to an end. -/
def answer? : List (Datum κ) × Progress κ → Option (Except Error (List (Datum κ)))
  | (ds, returned (.ended _)) => some (.ok ds)
  | (_, returned (.failed e _)) => some (.error e)
  | _ => none

end Progress

/-! ### Finitely many rounds -/

namespace Reader

variable {s : Setting κ}

/-- By induction on what is left to read in the open texts. -/
lemma rounds_readInside (s : Setting κ) (forms : List (OpenForm κ)) (r : Reader) :
    ∃ n, (Progress.round s)^[n] (.underway forms r) = .returned (readInside s forms r) := by
  induction forms, r using readInside.induct s with
  | case1 forms r r' hadv ih =>
    obtain ⟨n, hn⟩ := ih
    refine ⟨n + 1, ?_⟩
    rw [readInside_moved hadv, ← hn, Function.iterate_succ_apply]
    simp only [Progress.round, hadv]
  | case2 forms r e r' hadv =>
    refine ⟨1, ?_⟩
    rw [readInside_failed hadv]
    simp only [Function.iterate_one, Progress.round, hadv]
  | case3 r r' hadv =>
    refine ⟨1, ?_⟩
    rw [readInside_ended hadv]
    simp only [Function.iterate_one, Progress.round, hadv]
  | case4 r r' hadv o os =>
    refine ⟨1, ?_⟩
    rw [readInside_ended hadv]
    simp only [Function.iterate_one, Progress.round, hadv]
  | case5 forms r t place r' hadv e hs =>
    refine ⟨1, ?_⟩
    rw [readInside_token hadv]
    simp only [Function.iterate_one, Progress.round, hadv, hs]
  | case6 forms r t place r' hadv d hs =>
    refine ⟨1, ?_⟩
    rw [readInside_token hadv]
    simp only [Function.iterate_one, Progress.round, hadv, hs]
  | case7 forms r t place r' hadv forms' hs ih =>
    obtain ⟨n, hn⟩ := ih
    refine ⟨n + 1, ?_⟩
    rw [readInside_token hadv, hs, ← hn, Function.iterate_succ_apply]
    simp only [Progress.round, hadv, hs]

end Reader

namespace Progress

variable {s : Setting κ} {p : Progress κ} {x : Reading κ} {ds : List (Datum κ)}

/-- Rounds of reading one value are rounds of reading all of them. -/
lemma roundsAll_of_rounds {n : Nat} (ds : List (Datum κ)) (h : (round s)^[n] p = returned x) :
    ∃ k, (roundAll s)^[k] (ds, p) = (ds, returned x) := by
  induction n generalizing p with
  | zero => exact ⟨0, congrArg (Prod.mk ds) h⟩
  | succ n ih =>
    rw [Function.iterate_succ_apply] at h
    cases p with
    | underway forms r =>
      obtain ⟨k, hk⟩ := ih h
      exact ⟨k + 1, hk⟩
    | returned y =>
      rw [round, Function.iterate_fixed rfl] at h
      exact ⟨0, congrArg (Prod.mk ds) h⟩

end Progress

namespace Reader

/-- Value after value, less being left to read after each. -/
lemma rounds_readAll (s : Setting κ) (r : Reader) (ds : List (Datum κ)) :
    ∃ n, Progress.answer? ((Progress.roundAll s)^[n] (ds, .start r)) =
      some ((r.readAll s).map (ds ++ ·)) := by
  obtain ⟨n, hn⟩ := rounds_readInside s [] r.startUnit
  obtain ⟨k, hk⟩ := Progress.roundsAll_of_rounds ds hn
  change (Progress.roundAll s)^[k] (ds, .start r) = (ds, .returned (r.next s)) at hk
  cases hnext : r.next s with
  | value d r' =>
    obtain ⟨j, hj⟩ := rounds_readAll s r' (ds ++ [d])
    refine ⟨j + 1 + k, ?_⟩
    rw [Function.iterate_add_apply, hk, hnext, Function.iterate_succ_apply, Progress.roundAll, hj,
      readAll_value hnext]
    cases r'.readAll s <;> simp [Except.map, bind, Except.bind, pure, Except.pure]
  | ended r' =>
    refine ⟨k, ?_⟩
    rw [hk, hnext, readAll_ended hnext]
    simp [Progress.answer?, Except.map]
  | failed e r' =>
    refine ⟨k, ?_⟩
    rw [hk, hnext, readAll_failed hnext]
    rfl
termination_by r
decreasing_by exact smaller_of_next hnext

/-! ### The texts that are open -/

/-- The root text is open, and at most 16 texts in all are. -/
structure OpenIn (text : List Char) (r : Reader) : Prop where
  some : 1 ≤ r.sourceCount
  few : r.sourceCount ≤ maxSources
  root : r.root.chars = text

variable {text : List Char} {r : Reader} {c : Cursor} {load : String → Except Error String}

lemma openIn_of_root (h : r.root.chars = text) : r.OpenIn text :=
  ⟨Nat.le_add_left 1 _, r.few, h⟩

lemma chars_root_moveTo (h : c.chars = r.place.chars) :
    (r.moveTo c).root.chars = r.root.chars := by
  cases himp : r.imports with
  | nil => rw [moveTo_root himp, h, place_root himp]
  | cons o os => rw [root_moveTo himp]

lemma root_openText (load : String → Except Error String) (name : String) (r : Reader) :
    (openText load name r).reader.root = r.root := by
  unfold openText
  split
  · split <;> rfl
  · rfl

lemma chars_root_importText (start : Cursor) (h : c.chars = r.place.chars) :
    (importText load start c r).reader.root.chars = r.root.chars := by
  have hscan := Cursor.within_scan c
  unfold importText
  split
  case h_1 heq | h_2 heq =>
    rw [heq] at hscan
    rw [root_openText, chars_root_moveTo (hscan.2.trans h)]
  case h_3 heq =>
    rw [heq] at hscan
    exact chars_root_moveTo (hscan.2.trans h)
  case h_4 heq | h_5 heq =>
    rw [heq] at hscan
    exact chars_root_moveTo (hscan.trans h)

lemma chars_root_advance (load : String → Except Error String) (r : Reader) :
    (r.advance load).reader.root.chars = r.root.chars := by
  have hscan := Cursor.within_scan r.place
  unfold advance
  split
  case h_1 heq =>
    rw [heq] at hscan
    exact chars_root_importText _ hscan.2
  case h_2 heq =>
    rw [heq] at hscan
    exact chars_root_moveTo hscan.2
  case h_3 heq =>
    rw [heq] at hscan
    exact chars_root_moveTo hscan
  case h_4 heq =>
    rw [heq] at hscan
    split
    · exact chars_root_moveTo hscan
    · rfl

end Reader

namespace Progress

variable {s : Setting κ} {p : Progress κ} {text : List Char} {ds : List (Datum κ)}

lemma openIn_start {r : Reader} (h : r.OpenIn text) :
    (start r : Progress κ).reader.OpenIn text :=
  Reader.openIn_of_root ((Cursor.chars_skipTrivia r.root).trans h.root)

lemma reader_round (forms : List (OpenForm κ)) (r : Reader) :
    ((underway forms r).round s).reader = (r.advance s.load).reader := by
  cases hadv : r.advance s.load with
  | moved r' => simp only [round, hadv, reader, Reader.Advance.reader]
  | failed e r' => simp only [round, hadv, reader, Reader.Advance.reader, Reading.reader]
  | ended r' =>
    simp only [round, hadv]
    cases forms <;> rfl
  | token t place r' =>
    simp only [round, hadv]
    split <;> rfl

/-- **A round leaves the root text open**, and never more than 16 texts. -/
lemma openIn_round (h : p.reader.OpenIn text) : (p.round s).reader.OpenIn text := by
  cases p with
  | returned x => exact h
  | underway forms r =>
    rw [reader_round]
    exact Reader.openIn_of_root ((Reader.chars_root_advance s.load r).trans h.root)

lemma openIn_roundAll {x : List (Datum κ) × Progress κ} (h : x.2.reader.OpenIn text) :
    (roundAll s x).2.reader.OpenIn text := by
  unfold roundAll
  split
  · exact openIn_start h
  · exact openIn_round h

end Progress

namespace Reader

/-- **Reading comes to an answer.** Whatever a name may be the name of, and whatever the texts are
that are open already, the next value and all values are read in finitely many rounds. All the while
the root text stays open, and from 1 to 16 texts are open. -/
theorem reading_returns (s : Setting κ) (r : Reader) :
    (∃ n, (Progress.round s)^[n] (.start r) = .returned (r.next s)) ∧
    (∃ n, Progress.answer? ((Progress.roundAll s)^[n] ([], .start r)) = some (r.readAll s)) ∧
    ∀ n, ((Progress.round s)^[n] (.start r)).reader.OpenIn r.root.chars ∧
      ((Progress.roundAll s)^[n] ([], .start r)).2.reader.OpenIn r.root.chars := by
  have hstart : (Progress.start r : Progress κ).reader.OpenIn r.root.chars :=
    Progress.openIn_start (openIn_of_root rfl)
  refine ⟨rounds_readInside s [] r.startUnit, ?_, fun n => ⟨?_, ?_⟩⟩
  · obtain ⟨n, hn⟩ := rounds_readAll s r []
    refine ⟨n, hn.trans ?_⟩
    cases r.readAll s <;> rfl
  · induction n with
    | zero => exact hstart
    | succ n ih =>
      rw [Function.iterate_succ_apply']
      exact Progress.openIn_round ih
  · induction n with
    | zero => exact hstart
    | succ n ih =>
      rw [Function.iterate_succ_apply']
      exact Progress.openIn_roundAll ih

/-- A text that imports itself is opened 15 times in the root text, and not once more. -/
example :
    let s : Setting Unit := ⟨fun _ => none, "main", fun _ => .ok "1 import a 2", 64⟩
    let x := (Progress.roundAll s)^[48] ([], .start (.ofText "0 import a"))
    x.2.reader.sourceCount = maxSources ∧
      Progress.answer? x = some (.error (.failed (.importsTooDeep "a" maxSources))) := by
  constructor <;> rfl

end Reader

end ReversePolish

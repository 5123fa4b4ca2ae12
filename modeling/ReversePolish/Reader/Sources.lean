import ReversePolish.Error
import ReversePolish.Reader.Forms
import ReversePolish.Reader.Levels

/-!
The texts that are open while reading: a root text and the imported texts in progress.

Tokens come from the innermost text. `import NAME` opens the text of that name, and a text that
is used up gives way to the one that imported it, so an import reads as if the text stood in its
place. At most 16 texts are open at once. Each step makes the open texts smaller in the order of
`Levels`, which is why reading ends even where texts import themselves.
-/

namespace ReversePolish

def maxSources : Nat := 16

structure Reader where
  root : Cursor
  /-- The imported texts, innermost first. -/
  imports : List Cursor
  few : imports.length < maxSources
  /-- Where in the root text the value being read begins. -/
  unit : Cursor

namespace Reader

def ofText (text : String) : Reader := ⟨.start text, [], by decide, .start text⟩

instance : Inhabited Reader := ⟨ofText ""⟩

def sourceCount (r : Reader) : Nat := r.imports.length + 1

def inRoot (r : Reader) : Bool := r.imports.isEmpty

/-- The place in the innermost text. -/
def place (r : Reader) : Cursor := r.imports.headD r.root

/-- The root text from the beginning of the value being read. -/
def unitText (r : Reader) : String := r.unit.rest

/-- Goes on at another place of the innermost text. -/
def moveTo (c : Cursor) (r : Reader) : Reader :=
  match h : r.imports with
  | [] => { r with root := c }
  | _ :: os => { r with imports := c :: os, few := by have := r.few; simpa [h] using this }

/-- What is left of each open text, outermost first. -/
def levels (r : Reader) : List Nat :=
  (r.root.after.length + 1) :: r.imports.reverse.map fun c => c.after.length + 1

instance : WellFoundedRelation Reader where
  rel r s := Levels.Below maxSources r.levels s.levels
  wf := InvImage.wf levels (Levels.below_wf maxSources)

/-- A reader with less left to read. -/
def Smaller (r s : Reader) : Prop := Levels.Below maxSources r.levels s.levels

@[simp] theorem imports_length_moveTo (c : Cursor) (r : Reader) :
    (r.moveTo c).imports.length = r.imports.length := by
  unfold moveTo
  split
  · rfl
  · next h => simp [h]

theorem smaller_of_move {r s : Reader} {c : Cursor}
    (h : c.after.length < r.place.after.length)
    (hs : ∃ cs, s.levels = (r.moveTo c).levels ++ cs) : s.Smaller r := by
  obtain ⟨cs, hs⟩ := hs
  obtain ⟨root, imports, few, unit⟩ := r
  unfold Smaller
  rw [hs]
  cases imports with
  | nil =>
    refine Levels.below_snoc (p := []) (by decide) ?_
    simpa [place, moveTo] using h
  | cons o os =>
    have few : os.length + 1 < maxSources := few
    simp only [levels, moveTo, List.reverse_cons, List.map_append, List.map_cons, List.map_nil]
    simp only [← List.cons_append, List.append_assoc]
    refine Levels.below_snoc ?_ ?_
    · simpa using few
    · simpa [place] using h

theorem smaller_moveTo {r : Reader} {c : Cursor} (h : c.after.length < r.place.after.length) :
    (r.moveTo c).Smaller r :=
  smaller_of_move h ⟨[], by simp⟩

/-- What the next token, or the end of a text, does to the open texts. -/
inductive Advance where
  | token (t : Token) (place : Cursor) (r : Reader)
  | moved (r : Reader)
  | ended (r : Reader)
  | failed (e : Error) (r : Reader)

/-- Opens an imported text, reading of which starts at once. -/
def openText (load : String → Except Error String) (name : String) (r : Reader) : Advance :=
  if h : r.imports.length + 1 < maxSources then
    match load name with
    | .ok text => .moved { r with imports := .start text :: r.imports, few := h }
    | .error e => .failed e r
  else .failed (.failed (.importsTooDeep name maxSources)) r

/-- Reads what follows `import`, which stands at `start` and ends at `rest`. -/
def importText (load : String → Except Error String) (start rest : Cursor) (r : Reader) :
    Advance :=
  let complain (found : Option String) :=
    Error.malformed (.of Mistake.importWithoutName.message start found)
  match rest.scan with
  | .token (.word name) _ rest => openText load name (r.moveTo rest)
  | .token (.str name) _ rest => openText load name (r.moveTo rest)
  | .token t _ rest => .failed (complain (some t.spelling)) (r.moveTo rest)
  | .finished place => .failed (complain none) (r.moveTo place)
  | .bad fault place => .failed (.malformed (.of fault.message place none)) (r.moveTo place)

/-- The error for a text that has no token at `start`. A string that is open at the end of the
root text is an open form, which more text can close. -/
def scanError (inRoot : Bool) (fault : Token.Fault) (start : Cursor) : Error :=
  if inRoot ∧ fault = .openString then .unterminated (.of fault.message start none)
  else
    .malformed (.of fault.message start
      (some (String.ofList (start.after.takeWhile fun c => !isBlank c))))

/-- One step of reading. -/
def advance (load : String → Except Error String) (r : Reader) : Advance :=
  match r.place.scan with
  | .token .importing start rest => importText load start rest r
  | .token t start rest => .token t start (r.moveTo rest)
  | .bad fault start => .failed (scanError r.inRoot fault start) (r.moveTo start)
  | .finished place =>
    match h : r.imports with
    | [] => .ended (r.moveTo place)
    | _ :: os =>
      .moved { r with
        imports := os
        few := Nat.lt_of_succ_lt (by have := r.few; rwa [h] at this) }

theorem smaller_of_openText {load : String → Except Error String} {name : String} {r s r' : Reader}
    {c : Cursor} (hc : c.after.length < s.place.after.length) (hr : r = s.moveTo c)
    (h : openText load name r = .moved r') : r'.Smaller s := by
  unfold openText at h
  split at h
  · split at h
    · cases h
      refine smaller_of_move hc ?_
      subst hr
      exact ⟨_, by simp only [levels, List.reverse_cons, List.map_append, List.cons_append]; rfl⟩
    · cases h
  · cases h

theorem smaller_of_advance_moved {load : String → Except Error String} {r r' : Reader}
    (h : r.advance load = .moved r') : r'.Smaller r := by
  unfold advance at h
  split at h
  · next start rest hscan =>
    have hrest := Cursor.length_after_scan hscan
    unfold importText at h
    split at h
    · next hname =>
      exact smaller_of_openText (Nat.lt_trans (Cursor.length_after_scan hname) hrest) rfl h
    · next hname =>
      exact smaller_of_openText (Nat.lt_trans (Cursor.length_after_scan hname) hrest) rfl h
    all_goals cases h
  · cases h
  · cases h
  · split at h
    · cases h
    · next o os himp =>
      cases h
      have hf := r.few
      simp only [Smaller, levels, himp, List.reverse_cons, List.map_append, List.map_cons,
        List.map_nil, ← List.cons_append]
      rw [himp] at hf
      refine Levels.below_drop ?_ (Nat.succ_pos _)
      simpa using hf

theorem smaller_of_advance_token {load : String → Except Error String} {r r' : Reader} {t : Token}
    {place : Cursor} (h : r.advance load = .token t place r') : r'.Smaller r := by
  unfold advance at h
  split at h
  · unfold importText openText at h
    repeat' split at h
    all_goals cases h
  · next hscan => cases h; exact smaller_moveTo (Cursor.length_after_scan hscan)
  · cases h
  · split at h <;> cases h

end Reader

end ReversePolish

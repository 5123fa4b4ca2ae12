import ReversePolish.Proofs.Token.Sequence
import ReversePolish.Reader

/-!
Reading a text that imports nothing. Its tokens alone decide what is read: where they stand shows
only in diagnostics.
-/

namespace ReversePolish

variable {κ : Type}

namespace Reader

variable {r : Reader} {load : String → Except Error String}

lemma moveTo_root (h : r.imports = []) (c : Cursor) : r.moveTo c = { r with root := c } := by
  unfold moveTo
  split
  · rfl
  · simp_all

lemma imports_moveTo {o : Cursor} {os : List Cursor} (h : r.imports = o :: os) (c : Cursor) :
    (r.moveTo c).imports = c :: os := by
  unfold moveTo
  split <;> simp_all

lemma root_moveTo {o : Cursor} {os : List Cursor} (h : r.imports = o :: os) (c : Cursor) :
    (r.moveTo c).root = r.root := by
  unfold moveTo
  split
  · simp_all
  · rfl

lemma advance_of_token {t : Token} {start rest : Cursor} (h : r.place.scan = .token t start rest)
    (ht : t ≠ .importing) : r.advance load = .token t start (r.moveTo rest) := by
  rw [advance, h]
  split
  · simp_all
  · next heq => cases heq; rfl
  · next heq => cases heq
  · next heq => cases heq

lemma advance_of_importing {start rest : Cursor}
    (h : r.place.scan = .token .importing start rest) :
    r.advance load = importText load start rest r := by
  rw [advance, h]

lemma advance_of_bad {fault : Token.Fault} {start : Cursor} (h : r.place.scan = .bad fault start) :
    r.advance load = .failed (scanError r.inRoot fault start) (r.moveTo start) := by
  rw [advance, h]

lemma advance_of_finished {stop : Cursor} (hs : r.place.scan = .finished stop)
    (h : r.imports = []) : r.advance load = .ended (r.moveTo stop) := by
  rw [advance, hs]
  split
  · simp_all
  · simp_all
  · simp_all
  · next heq =>
    cases heq
    split
    · rfl
    · simp_all

variable (load) in
/-- A text that is used up gives way to the one around it. -/
lemma advance_of_finished_import {stop o : Cursor} {os : List Cursor}
    (hs : r.place.scan = .finished stop) (h : r.imports = o :: os) :
    ∃ few, r.advance load = .moved ⟨r.root, os, few, r.unit⟩ := by
  obtain ⟨root, imports, few, unit⟩ := r
  obtain rfl : imports = o :: os := h
  refine ⟨Nat.lt_of_succ_lt few, ?_⟩
  rw [advance, hs]

lemma place_root (h : r.imports = []) : r.place = r.root := by
  simp [place, h]

lemma advance_token (h : r.imports = []) {t : Token} {start rest : Cursor}
    (hs : r.root.scan = .token t start rest) (ht : t ≠ .importing) :
    r.advance load = .token t start { r with root := rest } := by
  rw [advance_of_token (by rwa [place_root h]) ht, moveTo_root h]

lemma advance_bad (h : r.imports = []) {fault : Token.Fault} {start : Cursor}
    (hs : r.root.scan = .bad fault start) :
    r.advance load = .failed (scanError true fault start) { r with root := start } := by
  rw [advance_of_bad (by rwa [place_root h]), moveTo_root h]
  simp [inRoot, h]

lemma advance_finished (h : r.imports = []) {stop : Cursor}
    (hs : r.root.scan = .finished stop) :
    r.advance load = .ended { r with root := stop } := by
  rw [advance_of_finished (by rwa [place_root h]) h, moveTo_root h]

end Reader

/-! ### Errors and forms without places -/

namespace Complaint

/-- The complaint, wherever its place is. -/
def bare (c : Complaint) : Complaint := { c with context := none }

end Complaint

namespace Error

/-- The error without the excerpt that shows a place of a text. -/
def bare : Error → Error
  | malformed c => malformed c.bare
  | unterminated c => unterminated c.bare
  | e => e

end Error

namespace OpenForm

/-- The form, wherever it was opened. -/
def bare (o : OpenForm κ) : OpenForm κ := { o with origin := none }

@[simp] lemma form_bare (o : OpenForm κ) : o.bare.form = o.form := rfl

@[simp] lemma close_bare (home : String) (o : OpenForm κ) :
    o.bare.close home = o.close home := rfl

@[simp] lemma unterminated_bare (o : OpenForm κ) : o.unterminated.bare = o.bare.unterminated := rfl

lemma divide_bare (d : Divider) (o : OpenForm κ) :
    o.bare.divide d = (o.divide d).map bare := by
  obtain ⟨form, origin, sections, values⟩ := o
  unfold divide bare
  dsimp only
  split <;> rfl

end OpenForm

namespace Shift

def bare : Shift κ → Shift κ
  | more forms => more (forms.map OpenForm.bare)
  | value d => value d

lemma emit_bare (d : Datum κ) (forms : List (OpenForm κ)) :
    emit d (forms.map OpenForm.bare) = (emit d forms).bare := by
  cases forms <;> rfl

end Shift

namespace Setting

variable (s : Setting κ)

/-- What a token does to the open forms, wherever it stands; nothing if it is refused. -/
def take? (t : Token) (forms : List (OpenForm κ)) : Option (Shift κ) :=
  (s.shift false default t forms).toOption

/-- No complaint about the arrangement of tokens asks for more text. -/
lemma isIncomplete_of_pairs {ds : List (Datum κ)} {e : Error} (h : OpenForm.pairs ds = .error e) :
    e.isIncomplete = false := by
  induction ds using OpenForm.pairs.induct with
  | case1 k v rest ih =>
    rw [OpenForm.pairs] at h
    cases hk : k.key with
    | error e' =>
      rw [hk] at h
      cases k <;> cases hk <;> cases h <;> rfl
    | ok key =>
      rw [hk] at h
      cases hr : OpenForm.pairs rest with
      | error e' => rw [hr] at h; cases h; exact ih hr
      | ok es => rw [hr] at h; cases h
  | case2 ds hne =>
    rw [OpenForm.pairs] at h
    · cases h
    · exact hne

lemma isIncomplete_of_close {home : String} {o : OpenForm κ} {e : Error}
    (h : o.close home = .ok (.error e)) : e.isIncomplete = false := by
  unfold OpenForm.close at h
  split at h <;> try cases h
  split at h <;> try cases h
  cases hp : OpenForm.pairs o.items with
  | ok es => rw [hp] at h; cases h
  | error e' => rw [hp] at h; cases h; exact isIncomplete_of_pairs hp

/-- No token asks for more text. -/
lemma isIncomplete_of_shift {inRoot : Bool} {place : Cursor} {t : Token}
    {forms : List (OpenForm κ)} {e : Error} (h : s.shift inRoot place t forms = .error e) :
    e.isIncomplete = false := by
  cases t with
  | opener f =>
    simp only [shift] at h
    split at h
    · cases h
      rfl
    · cases h
  | closer f =>
    cases forms with
    | nil =>
      cases h
      rfl
    | cons o os =>
      simp only [shift] at h
      split at h
      · split at h
        · cases h
        · next hc =>
          cases h
          exact isIncomplete_of_close hc
        · cases h
          rfl
      · cases h
        rfl
  | divider d =>
    cases forms with
    | nil =>
      cases h
      rfl
    | cons o os =>
      simp only [shift] at h
      split at h
      · cases h
      · cases h
        rfl
  | exit =>
    simp only [shift] at h
    split at h
    · cases h
    · cases h
      rfl
  | importing =>
    cases h
    rfl
  | _ => cases h

/-- A token does the same to open forms wherever it stands and wherever they were opened, and what
is wrong with it is the same. -/
theorem shift_wherever (inRoot : Bool) (place : Cursor) (t : Token)
    (forms : List (OpenForm κ)) :
    ((s.shift inRoot place t forms).map Shift.bare).mapError Error.bare =
      (s.shift false default t (forms.map OpenForm.bare)).mapError Error.bare := by
  cases t with
  | opener f =>
    by_cases hd : s.maxDepth < forms.length + 1
    · simp [shift, hd, Except.mapError, Except.map, Error.bare, Complaint.bare, Complaint.of]
    · simp [shift, hd, Except.mapError, Except.map, Shift.bare, OpenForm.bare]
  | closer f =>
    cases forms with
    | nil => rfl
    | cons o os =>
      by_cases hf : o.form = f
      · rcases hc : o.close s.home with m | e | d
        · simp [shift, hf, hc, Except.mapError, Except.map, Error.bare, Complaint.bare,
            Complaint.of]
        · simp [shift, hf, hc, Except.mapError, Except.map]
        · simp [shift, hf, hc, Except.mapError, Except.map, Shift.emit_bare]
      · simp [shift, hf, Except.mapError, Except.map, Error.bare, Complaint.bare, Complaint.of]
  | divider d =>
    cases forms with
    | nil => rfl
    | cons o os =>
      cases hc : o.divide d with
      | error m =>
        simp [shift, hc, OpenForm.divide_bare, Except.mapError, Except.map, Error.bare,
          Complaint.bare, Complaint.of]
      | ok o' =>
        simp [shift, hc, OpenForm.divide_bare, Except.mapError, Except.map, Shift.bare]
  | exit =>
    cases hl : s.lookup Token.exitName with
    | none => simp [shift, hl, Except.mapError, Except.map]
    | some c => simp [shift, hl, Except.mapError, Except.map, Shift.emit_bare]
  | int n => simp [shift, Except.mapError, Except.map, Shift.emit_bare]
  | str v => simp [shift, Except.mapError, Except.map, Shift.emit_bare]
  | none => simp [shift, Except.mapError, Except.map, Shift.emit_bare]
  | word w => simp [shift, Except.mapError, Except.map, Shift.emit_bare]
  | importing => rfl

/-- What a token does to the open forms, wherever it stands and wherever they were opened. -/
theorem shift_bare (inRoot : Bool) (place : Cursor) (t : Token) (forms : List (OpenForm κ)) :
    match s.shift inRoot place t forms with
    | .ok sh => s.take? t (forms.map OpenForm.bare) = some sh.bare
    | .error e => s.take? t (forms.map OpenForm.bare) = none ∧ e.isIncomplete = false := by
  have h := s.shift_wherever inRoot place t forms
  cases hs : s.shift inRoot place t forms with
  | ok sh =>
    rw [hs] at h
    cases hb : s.shift false default t (forms.map OpenForm.bare) with
    | ok sh' =>
      rw [hb] at h
      simpa [take?, hb, Except.toOption] using (Except.ok.inj h).symm
    | error e => rw [hb] at h; cases h
  | error e =>
    rw [hs] at h
    refine ⟨?_, isIncomplete_of_shift s hs⟩
    cases hb : s.shift false default t (forms.map OpenForm.bare) with
    | ok sh' => rw [hb] at h; cases h
    | error e' => simp [take?, hb, Except.toOption]

end Setting

end ReversePolish

import Mathlib.Tactic.Lemma
import ReversePolish.Proofs.Reader.Tokens
import ReversePolish.Proofs.Table

/-!
Reading with other meanings for words. The reader does not look into what words mean, so if each word
has its meaning replaced, then the same is read with the meanings replaced in it.
-/

namespace ReversePolish

variable {κ κ' : Type} {f : κ → κ'}

namespace Datum

mutual

/-- The tree, with other meanings for the words in it. -/
def translate (f : κ → κ') : Datum κ → Datum κ'
  | int n => int n
  | str s => str s
  | none => none
  | list items => list (translateAll f items)
  | map entries => map (translateEntries f entries)
  | program home body => program home (translateAll f body)
  | command c help => command (f c) help
  | branch cond thn els => branch (translateAll f cond) (translateAll f thn) (translateAll f els)
  | each body => each (translateAll f body)
  | loop cond body => loop (translateAll f cond) (translateAll f body)

def translateAll (f : κ → κ') : List (Datum κ) → List (Datum κ')
  | [] => []
  | d :: ds => d.translate f :: translateAll f ds

def translateEntries (f : κ → κ') : List (Key × Datum κ) → List (Key × Datum κ')
  | [] => []
  | (k, d) :: es => (k, d.translate f) :: translateEntries f es

end

@[simp] lemma translateAll_eq_map (f : κ → κ') (ds : List (Datum κ)) :
    translateAll f ds = ds.map (translate f) := by
  induction ds with
  | nil => rfl
  | cons d ds ih => rw [translateAll, ih, List.map_cons]

@[simp] lemma translateEntries_eq_map (f : κ → κ') (es : List (Key × Datum κ)) :
    translateEntries f es = es.map fun e => (e.1, e.2.translate f) := by
  induction es with
  | nil => rfl
  | cons e es ih => rw [translateEntries, ih, List.map_cons]

@[simp] lemma kind_translate (f : κ → κ') (d : Datum κ) : (d.translate f).kind = d.kind := by
  cases d <;> rfl

@[simp] lemma key_translate (f : κ → κ') (d : Datum κ) : (d.translate f).key = d.key := by
  cases d <;> rfl

end Datum

namespace OpenForm

def translate (f : κ → κ') (o : OpenForm κ) : OpenForm κ' :=
  ⟨o.form, o.origin, o.sections.map (List.map (Datum.translate f)), o.values.map (Datum.translate f)⟩

@[simp] lemma items_translate (f : κ → κ') (o : OpenForm κ) :
    (o.translate f).items = o.items.map (Datum.translate f) := by
  simp [items, translate]

lemma nextSection_translate (f : κ → κ') (o : OpenForm κ) :
    (o.translate f).nextSection = o.nextSection.translate f := by
  simp [nextSection, translate, items]

lemma pairs_translate (f : κ → κ') (ds : List (Datum κ)) : pairs (ds.map (Datum.translate f)) =
    (pairs ds).map (List.map fun e => (e.1, e.2.translate f)) := by
  induction ds using pairs.induct with
  | case1 k v rest ih =>
    simp only [List.map_cons, pairs, Datum.key_translate, ih]
    cases k.key with
    | error e => rfl
    | ok key => cases pairs rest <;> rfl
  | case2 ds h =>
    rcases ds with _ | ⟨k, _ | ⟨v, rest⟩⟩
    · rfl
    · rfl
    · exact (h k v rest rfl).elim

lemma close_translate (f : κ → κ') (home : String) (o : OpenForm κ) :
    (o.translate f).close home = (o.close home).map (Except.map (Datum.translate f)) := by
  have hentries (es : List (Key × Datum κ)) :
      (Table.ofList (es.map fun e => (e.1, e.2.translate f))).entries =
        (Table.ofList es).entries.map fun e => (e.1, e.2.translate f) := by
    rw [Table.ofList_map, Table.entries_map]
  have hmap : ((pairs (o.items.map (Datum.translate f))).map fun es =>
        Datum.map (Table.ofList es).entries) =
      ((pairs o.items).map fun es => Datum.map (Table.ofList es).entries).map
        (Datum.translate f) := by
    rw [pairs_translate]
    cases pairs o.items <;> simp [Except.map, hentries, Datum.translate]
  have hitems := o.items_translate f
  obtain ⟨form, origin, sections, values⟩ := o
  cases form
  case map =>
    simp only [close]
    rw [show (translate f ⟨Form.map, origin, sections, values⟩).form = Form.map from rfl]
    simp only [hitems, List.length_map, hmap]
    split <;> rfl
  case branch =>
    rcases sections with _ | ⟨cond, _ | ⟨thn, _⟩⟩
    · rfl
    all_goals
      simp only [close, translate, List.map_cons, List.map_nil] at hitems ⊢
      rw [hitems]
      simp [Except.map, Datum.translate]
  case loop =>
    cases sections with
    | nil => rfl
    | cons cond _ =>
      simp only [close, translate, List.map_cons] at hitems ⊢
      rw [hitems]
      simp [Except.map, Datum.translate]
  all_goals
    simp only [close, translate] at hitems ⊢
    rw [hitems]
    simp [Except.map, Datum.translate]

lemma divide_translate (f : κ → κ') (d : Divider) (o : OpenForm κ) :
    (o.translate f).divide d = (o.divide d).map (translate f) := by
  have hnext := o.nextSection_translate f
  obtain ⟨form, origin, sections, values⟩ := o
  rcases sections with _ | ⟨s₁, _ | ⟨s₂, rest⟩⟩ <;> cases form <;> cases d <;>
    first
      | rfl
      | exact congrArg Except.ok hnext

end OpenForm

namespace Shift

def translate (f : κ → κ') : Shift κ → Shift κ'
  | more forms => more (forms.map (OpenForm.translate f))
  | value d => value (d.translate f)

lemma emit_translate (f : κ → κ') (d : Datum κ) (forms : List (OpenForm κ)) :
    emit (d.translate f) (forms.map (OpenForm.translate f)) = (emit d forms).translate f := by
  cases forms <;> rfl

end Shift

namespace Setting

/-- The words that are known are the same ones. -/
def translate (f : κ → κ') (s : Setting κ) : Setting κ' :=
  ⟨fun w => (s.lookup w).map f, s.home, s.load, s.maxDepth⟩

lemma resolve_translate (f : κ → κ') (s : Setting κ) (w : String) :
    (s.translate f).resolve w = (s.resolve w).translate f := by
  simp only [resolve, translate]
  cases s.lookup w with
  | some c => rfl
  | none =>
    have hasked : ((Token.askedName? w).bind fun w => (s.lookup w).map f) =
        ((Token.askedName? w).bind s.lookup).map f := by
      cases Token.askedName? w <;> rfl
    simp only [Option.map_none, hasked]
    cases (Token.askedName? w).bind s.lookup <;> rfl

lemma shift_translate (f : κ → κ') (s : Setting κ) (inRoot : Bool) (place : Cursor) (t : Token)
    (forms : List (OpenForm κ)) :
    (s.translate f).shift inRoot place t (forms.map (OpenForm.translate f)) =
      (s.shift inRoot place t forms).map (Shift.translate f) := by
  have hemit (d : Datum κ) := Shift.emit_translate f d forms
  cases t with
  | opener g =>
    simp only [shift, List.length_map]
    show (if s.maxDepth < _ then _ else _) = _
    split <;> rfl
  | closer g =>
    cases forms with
    | nil => rfl
    | cons o os =>
      have hclose := o.close_translate f s.home
      simp only [List.map_cons, shift]
      rw [show (o.translate f).form = o.form from rfl,
        show (s.translate f).home = s.home from rfl, hclose]
      split
      · cases o.close s.home with
        | error m => rfl
        | ok x =>
          cases x with
          | error e => rfl
          | ok d => exact congrArg Except.ok (Shift.emit_translate f d os)
      · rfl
  | divider d =>
    cases forms with
    | nil => rfl
    | cons o os =>
      simp only [List.map_cons, shift, OpenForm.divide_translate]
      cases o.divide d <;> rfl
  | exit =>
    simp only [shift, translate]
    cases s.lookup Token.exitName with
    | none => rfl
    | some c => exact congrArg Except.ok (hemit (.command c false))
  | int n => exact congrArg Except.ok (hemit (.int n))
  | str v => exact congrArg Except.ok (hemit (.str v))
  | none => exact congrArg Except.ok (hemit .none)
  | word w =>
    simp only [shift, resolve_translate]
    exact congrArg Except.ok (hemit (s.resolve w))
  | importing => rfl

end Setting

namespace Reading

def translate (f : κ → κ') : Reading κ → Reading κ'
  | value d r => value (d.translate f) r
  | ended r => ended r
  | failed e r => failed e r

end Reading

namespace Reader

variable (f : κ → κ') (s : Setting κ)

lemma readInside_translate (forms : List (OpenForm κ)) (r : Reader) :
    readInside (s.translate f) (forms.map (OpenForm.translate f)) r =
      (readInside s forms r).translate f := by
  have hshift := s.shift_translate f
  induction forms, r using readInside.induct s with
  | case1 forms r r₁ hadv ih =>
    rw [readInside_moved hadv, readInside_moved (s := s.translate f) hadv, ih]
  | case2 forms r e r₁ hadv =>
    rw [readInside_failed hadv, readInside_failed (s := s.translate f) hadv]
    rfl
  | case3 r r₁ hadv | case4 r r₁ hadv o os =>
    rw [readInside_ended hadv, readInside_ended (s := s.translate f) hadv]
    rfl
  | case5 forms r t place r₁ hadv e hs | case6 forms r t place r₁ hadv d' hs =>
    simp only [readInside_token hadv, readInside_token (s := s.translate f) hadv, hs,
      Setting.shift_translate, Except.map]
    rfl
  | case7 forms r t place r₁ hadv forms' hs ih =>
    simp only [readInside_token hadv, readInside_token (s := s.translate f) hadv, hs,
      Setting.shift_translate, Except.map, Shift.translate, ih]

lemma next_translate (r : Reader) : r.next (s.translate f) = (r.next s).translate f :=
  readInside_translate f s [] r.startUnit

/-- **The reader does not look into what words mean.** -/
theorem readAll_translate (r : Reader) :
    r.readAll (s.translate f) = (r.readAll s).map (List.map (Datum.translate f)) := by
  induction r using readAll.induct s with
  | case1 r d r' hr ih =>
    have hr' : r.next (s.translate f) = .value (d.translate f) r' := by
      rw [next_translate, hr]
      rfl
    rw [readAll_value hr, readAll_value hr', ih]
    cases r'.readAll s <;> rfl
  | case2 r r' hr =>
    have hr' : r.next (s.translate f) = .ended r' := by
      rw [next_translate, hr]
      rfl
    rw [readAll_ended hr, readAll_ended hr']
    rfl
  | case3 r e r' hr =>
    have hr' : r.next (s.translate f) = .failed e r' := by
      rw [next_translate, hr]
      rfl
    rw [readAll_failed hr, readAll_failed hr']
    rfl

end Reader

end ReversePolish

import ReversePolish.Proofs.Value.RoundTrip
import ReversePolish.Proofs.Value.Sameness

/-!
How deep a value goes. Writing gives up at a depth that is counted through everything that the value
is made of. Comparing gives up at a depth that is counted through lists and maps alone, and begins
anew in each body. Two values that unfold to the same tree and have no cell in common are the same,
unless lists and maps alone go too deep in them.
-/

namespace ReversePolish

open Comparison Verdict

/-- The kind of a value that unfolds to this. -/
def Shape.kind : Shape → Kind
  | int _ => .integer
  | str _ => .string
  | none => .none
  | list _ => .list
  | map _ => .map
  | program _ => .program
  | command _ _ => .command
  | branch _ _ _ => .branch
  | each _ => .each
  | loop _ _ => .loop

namespace Heap

variable {h : Heap} {v w x : Value} {n m k fuel depth : Nat} {u : Shape}

/-! ### Unfolding -/

/-- **A value unfolds where all that it is made of does**, one level up. -/
theorem shape?_succ_eq_none_iff :
    h.shape? (n + 1) v = none ↔ ∃ x, h.Holds v x ∧ h.shape? n x = none := by
  simp only [shape?_succ_eq, Option.map_eq_none_iff, mapM_eq_none_iff, holds_iff_mem_inside]

lemma part_of_shape? (hv : h.shape? (n + 1) v = some u) (hx : h.Holds v x) :
    ∃ u', h.shape? n x = some u' := by
  refine Option.ne_none_iff_exists'.mp fun hnone => ?_
  have hnot := shape?_succ_eq_none_iff.mpr ⟨x, hx, hnone⟩
  exact Option.some_ne_none u (hv.symm.trans hnot)

/-- A value that lies less deep unfolds to the same. -/
lemma shape?_succ (hv : h.shape? n v = some u) : h.shape? (n + 1) v = some u := by
  induction n generalizing v u with
  | zero => cases hv
  | succ n ih =>
    obtain ⟨us, hus, htree⟩ := shape?_succ_eq_some.mp hv
    have hdeeper : (h.inside v).mapM (h.shape? (n + 1)) = some us :=
      mapM_eq_some_iff.mpr ((mapM_eq_some_iff.mp hus).imp fun _ _ => ih)
    exact shape?_succ_eq_some.mpr ⟨us, hdeeper, htree⟩

lemma shape?_mono (hnm : n ≤ m) (hv : h.shape? n v = some u) : h.shape? m v = some u := by
  induction m, hnm using Nat.le_induction with
  | base => exact hv
  | succ m _ ih => exact shape?_succ ih

/-! ### Writing -/

/-- No command in the value has a name that could be taken for an elision. -/
def Plain (h : Heap) (v : Value) : Prop :=
  ∀ c help, h.Leads v (.command c help) → c.name ≠ elision

lemma Plain.part (hp : h.Plain v) (hx : h.Holds v x) : h.Plain x :=
  fun c help hc => hp c help (.head hx hc)

lemma elision_ne_decimal (i : Int) : elision ≠ decimal i := by
  intro he
  have hchars : decimalChars i = elision.toList := by simp [he, decimal]
  have hint := integer?_decimalChars i
  rw [hchars] at hint
  cases hint

lemma elision_ne_quote (s : String) : elision ≠ quote s := by
  intro he
  have hhead : elision.toList.head? = some '"' := by simp [he, quote, quoteChars]
  cases hhead

lemma elision_ne_asked (name : String) : elision ≠ name ++ "?" := by
  intro he
  have hlast : elision.toList.getLast? = some '?' := by
    rw [he, Token.toList_asked, List.getLast?_concat]
  cases hlast

lemma elision_ne_text (key : Key) : elision ≠ key.text := by
  cases key with
  | int i => exact elision_ne_decimal _
  | str s => exact elision_ne_quote s

/-- What is written of a value is elided where what it is made of is, one level up. -/
lemma elision_mem_succ (hp : h.Plain v) :
    elision ∈ h.lexemes .unlimited (n + 1) v ↔
      ∃ x, h.Holds v x ∧ elision ∈ h.lexemes .unlimited n x := by
  have hword : elision ≠ "[" ∧ elision ≠ "]" ∧ elision ≠ "\x7b" ∧ elision ≠ "\x7d" ∧
      elision ≠ "<<" ∧ elision ≠ ">>" ∧ elision ≠ "IF" ∧ elision ≠ "THEN" ∧ elision ≠ "ELSE" ∧
      elision ≠ "ENDIF" ∧ elision ≠ "FOR" ∧ elision ≠ "ENDFOR" ∧ elision ≠ "WHILE" ∧
      elision ≠ "REPEAT" ∧ elision ≠ "ENDWHILE" ∧ elision ≠ "None" := by decide
  by_cases hcell : v.IsCell
  · simp only [holds_cell hcell]
    cases v with
    | list c => simp [lexemes, elide, Display.unlimited, elements, hword]
    | map c =>
      simp [lexemes, elide, Display.unlimited, elements, elision_ne_text, hword, and_comm,
        exists_comm]
    | _ => simp [Value.IsCell, Value.kind] at hcell
  · simp only [holds_body hcell]
    cases v with
    | list c => exact (hcell (.inl rfl)).elim
    | map c => exact (hcell (.inr rfl)).elim
    | command c help =>
      have hname := hp c help .refl
      cases help <;> simp [lexemes, Value.bodyItems, hname.symm, elision_ne_asked]
    | branch cond thn els =>
      cases els <;> simp [lexemes, elide, Value.bodyItems, hword, or_and_right, exists_or]
    | _ =>
      simp [lexemes, elide, Display.unlimited, Value.bodyItems, elision_ne_decimal,
        elision_ne_quote, hword, or_and_right, exists_or]

/-- **A value is elided in writing exactly where it does not unfold** to that depth. -/
theorem elision_mem_lexemes (hp : h.Plain v) :
    elision ∈ h.lexemes .unlimited n v ↔ h.shape? n v = none := by
  induction n generalizing v with
  | zero => simp [lexemes, shape?]
  | succ n ih =>
    rw [elision_mem_succ hp, shape?_succ_eq_none_iff]
    exact exists_congr fun x => and_congr_right fun hx => ih (hp.part hx)

/-! ### Comparing -/

/-- The value itself, and every value that lies in it by lists and maps alone, lies at a depth
below `n`. -/
def shallow (h : Heap) : Nat → Value → Bool
  | 0, _ => false
  | n + 1, v => (h.elements v).all (shallow h n)

/-- What is deep by lists and maps alone is deep. -/
lemma shallow_of_shape? (hv : h.shape? n v ≠ none) : h.shallow n v = true := by
  induction n generalizing v with
  | zero => exact (hv rfl).elim
  | succ n ih =>
    by_cases hcell : v.IsCell
    · refine List.all_eq_true.mpr fun x hx => ih fun hnone => hv ?_
      exact shape?_succ_eq_none_iff.mpr ⟨x, (holds_cell hcell).mpr hx, hnone⟩
    · rw [shallow, elements_of_not_cell hcell]
      rfl

/-- No cell is part of both values. -/
def Disjoint (h : Heap) (v w : Value) : Prop := ∀ x, x.IsCell → h.Leads v x → ¬ h.Leads w x

lemma Disjoint.parts {y : Value} (hvw : h.Disjoint v w) (hx : h.Holds v x) (hy : h.Holds w y) :
    h.Disjoint x y :=
  fun c hc hxc hyc => hvw c hc (.head hx hxc) (.head hy hyc)

lemma kind_of_shape? (hv : h.shape? n v = some u) : v.kind = u.kind := by
  cases n with
  | zero => cases hv
  | succ n =>
    obtain ⟨us, -, rfl⟩ := shape?_succ_eq_some.mp hv
    cases v <;> rfl

/-- Verdicts in turn on pairs that are the same or too deep. -/
lemma settle_zip {f : Value × Value → Verdict} {p : Value → Bool} {xs ys : List Value}
    (hlen : xs.length = ys.length)
    (hxy : ∀ e ∈ xs.zip ys, f e = if p e.1 then same else tooDeep) :
    settle ((xs.zip ys).map f) = if xs.all p then same else tooDeep := by
  induction xs generalizing ys with
  | nil => simp
  | cons x xs ih =>
    cases ys with
    | nil => cases hlen
    | cons y ys =>
      rw [List.zip_cons_cons, List.forall_mem_cons] at hxy
      rw [List.zip_cons_cons, List.map_cons, settle_cons, hxy.1, ih (Nat.succ.inj hlen) hxy.2]
      cases hp : p x <;> simp [hp, andThen]

/-- **Values that unfold to one tree and have no cell in common are the same**, or lists and maps
alone lie too deep in them. By induction on how deep they go. Elements of bodies begin at depth zero
again, and go less deep than the limit. -/
theorem verdict_of_shape? (hn : n ≤ compareDepth + 1) (hv : h.shape? n v = some u)
    (hw : h.shape? n w = some u) (hvw : h.Disjoint v w) :
    h.verdict ⟨depth, v, w⟩ = if h.shallow (compareDepth - depth) v then same else tooDeep := by
  induction n generalizing depth v w u with
  | zero => cases hv
  | succ n ih =>
    by_cases hd : depth < compareDepth
    · obtain ⟨hhead, hinside⟩ := (shape?_eq_iff hv).mp hw
      have hne : v ≠ w ∨ ¬ v.IsCell := by
        by_contra hone
        rw [not_or, not_not, not_not] at hone
        obtain ⟨rfl, hcell⟩ := hone
        exact hvw v hcell .refl .refl
      have hparts := parts_of_head hd hhead hne
      -- What they are made of unfolds to one tree, too, and shares no cell.
      have hpart (e : Value × Value) (he : e ∈ (h.inside v).zip (h.inside w)) (depth : Nat) :
          (∃ u', h.shape? n e.1 = some u') ∧ h.verdict ⟨depth, e.1, e.2⟩ =
            if h.shallow (compareDepth - depth) e.1 then same else tooDeep := by
        have hleft := holds_iff_mem_inside.mpr (List.of_mem_zip he).1
        have hright := holds_iff_mem_inside.mpr (List.of_mem_zip he).2
        obtain ⟨u', hu'⟩ := part_of_shape? hv hleft
        have hequal : h.shape? n e.2 = some u' := (hinside e he).symm.trans hu'
        exact ⟨⟨u', hu'⟩, ih (by omega) hu' hequal (hvw.parts hleft hright)⟩
      have houtcome : outcome h ⟨depth, v, w⟩ = same := outcome_eq_same.mpr ⟨hd, hhead⟩
      obtain ⟨left, hleft⟩ : ∃ left, compareDepth - depth = left + 1 :=
        ⟨compareDepth - (depth + 1), by omega⟩
      by_cases hcell : v.IsCell
      · have hcells : OfCells ⟨depth, v, w⟩ := ofCells_of_kind hd hcell (kind_of_head hhead)
          (hne.resolve_right (not_not.mpr hcell))
        have hinside' : h.inside v = h.elements v := by
          rw [inside, bodyItems_of_cell hcell, List.append_nil]
        rw [verdict_of_cells hcells, hparts, houtcome, List.map_map, andThen_same_right, hleft,
          shallow, ← hinside']
        refine settle_zip (length_inside_of_head hhead) fun e he => ?_
        have hdeeper := (hpart e he (depth + 1)).2
        rw [show compareDepth - (depth + 1) = left by omega] at hdeeper
        rwa [← Value.depthInside_of_cell hcell] at hdeeper
      · rw [hleft, shallow, elements_of_not_cell hcell, List.all_nil, if_pos rfl]
        refine verdict_eq_same_iff_parts.mpr ⟨fun p hp => ?_, hd, hhead⟩
        rw [hparts] at hp
        obtain ⟨e, he, rfl⟩ := List.mem_map.mp hp
        obtain ⟨⟨u', hu'⟩, hverdict⟩ := hpart e he 0
        have hdeep : h.shape? compareDepth e.1 = some u' := shape?_mono (by omega) hu'
        rw [Value.depthInside_of_not_cell hcell, hverdict]
        exact if_pos (shallow_of_shape? (by simp [hdeep]))
    · have hle : compareDepth ≤ depth := Nat.le_of_not_lt hd
      rw [verdict_of_deep hle, Nat.sub_eq_zero_of_le hle]
      rfl

/-- So it is for the test that the language offers. -/
theorem equal?_of_shape? (hv : h.shape? (compareDepth + 1) v = some u)
    (hw : h.shape? (compareDepth + 1) w = some u) (hvw : h.Disjoint v w) :
    h.equal? v w = some (if h.shallow compareDepth v then .ok true
      else .error (.failed (.comparisonTooDeep compareDepth))) := by
  have hkind : v.kind = w.kind := (kind_of_shape? hv).trans (kind_of_shape? hw).symm
  have hverdict : h.equate 0 v w = if h.shallow compareDepth v then same else tooDeep :=
    verdict_of_shape? (Nat.le_refl _) hv hw hvw
  rw [equal?, if_pos hkind, hverdict]
  cases h.shallow compareDepth v <;> rfl

end Heap

end ReversePolish

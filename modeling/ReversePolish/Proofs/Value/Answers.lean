import ReversePolish.Proofs.Value.Limits

/-!
What the test of equality that the language offers answers on values that do not contain themselves.

Such a value unfolds to a finite tree. Two of them are found to be equal only where their trees are
one, and the error that they lie too deep is given only where lists and maps alone lead to the limit.
The answer that they are different does not say that their trees are: lists and maps that lead to
the limit inside a body count as different.
-/

namespace ReversePolish

open Comparison Verdict

namespace Heap

variable {h : Heap} {v w x : Value} {n depth : Nat} {c : Comparison} {u : Shape}

/-! ### Values that do not contain themselves -/

/-- Nothing that the value leads to contains itself. -/
def Acyclic (h : Heap) (v : Value) : Prop :=
  ∀ x, h.Leads v x → ¬ Relation.TransGen h.Holds x x

lemma Acyclic.not_holdsKnot (hv : h.Acyclic v) : ¬ h.HoldsKnot v :=
  fun ⟨x, _, hlead, hself⟩ => hv x hlead hself

lemma finite_has (h : Heap) : {v | h.Has v}.Finite := by
  have hlists := (Finset.finite_toSet (Finset.range h.lists.size)).image Value.list
  have hmaps := (Finset.finite_toSet (Finset.range h.maps.size)).image Value.map
  refine (hlists.union hmaps).subset fun v hv => ?_
  cases v with
  | list c => exact .inl ⟨c, Finset.mem_coe.mpr (Finset.mem_range.mpr hv), rfl⟩
  | map c => exact .inr ⟨c, Finset.mem_coe.mpr (Finset.mem_range.mpr hv), rfl⟩
  | _ => exact hv.elim

lemma has_of_holds (hcell : v.IsCell) (hx : h.Holds v x) : h.Has v := by
  rcases hx with hx | hx | hx
  · exact lt_of_mem_items hx
  · exact lt_of_mem_entries hx
  · rw [bodyItems_of_cell hcell] at hx
    cases hx

/-- One comes to an end from any value if one does from each cell that it leads to. -/
lemma acc_of_cells (hcells : ∀ y, h.Leads v y → h.Has y → Acc (fun x v => h.Holds v x) y) :
    Acc (fun x v => h.Holds v x) v := by
  induction hsize : sizeOf v using Nat.strongRecOn generalizing v with
  | _ size ih =>
    refine ⟨v, fun x hx => ?_⟩
    by_cases hcell : v.IsCell
    · exact (hcells v .refl (has_of_holds hcell hx)).inv hx
    · have hlt : sizeOf x < size := hsize ▸ sizeOf_lt_of_mem_bodyItems ((holds_body hcell).mp hx)
      exact ih _ hlt (fun y hy hhas => hcells y (.head hx hy) hhas) rfl

/-- From a value that leads to nothing that contains itself one comes to an end, since there are only
so many cells. -/
lemma Acyclic.acc (hv : h.Acyclic v) : Acc (fun x v => h.Holds v x) v := by
  let S := {x // h.Leads v x ∧ h.Has x}
  let r (x y : S) : Prop := Relation.TransGen h.Holds y.1 x.1
  have hfinite : Finite S := (h.finite_has.subset fun _ hx => hx.2).to_subtype
  have htrans : IsTrans S r := ⟨fun _ _ _ hxy hyz => hyz.trans hxy⟩
  have hirrefl : Std.Irrefl r := ⟨fun x hself => hv x.1 x.2.1 hself⟩
  have hwf : WellFounded r := Finite.wellFounded_of_trans_of_irrefl r
  have hcell (s : S) : Acc (fun x v => h.Holds v x) s.1 := by
    induction s using hwf.induction with
    | _ s ih =>
      refine ⟨s.1, fun x hx => acc_of_cells fun y hy hhas => ?_⟩
      exact ih ⟨y, s.2.1.trans (.head hx hy), hhas⟩ (.head' hx hy)
  exact acc_of_cells fun y hy hhas => hcell ⟨y, hy, hhas⟩

/-- Values that unfold, each to some depth, all unfold to one depth. -/
lemma exists_depth {xs : List Value} (hxs : ∀ x ∈ xs, ∃ n, h.shape? n x ≠ none) :
    ∃ n, ∀ x ∈ xs, h.shape? n x ≠ none := by
  induction xs with
  | nil => exact ⟨0, fun _ hx => (List.not_mem_nil hx).elim⟩
  | cons x xs ih =>
    obtain ⟨⟨n, hn⟩, hxs⟩ := List.forall_mem_cons.mp hxs
    obtain ⟨m, hm⟩ := ih hxs
    have hmono {k : Nat} {y : Value} (hk : k ≤ max n m) (hy : h.shape? k y ≠ none) :
        h.shape? (max n m) y ≠ none := by
      obtain ⟨u, hu⟩ := Option.ne_none_iff_exists'.mp hy
      simp [shape?_mono hk hu]
    refine ⟨max n m, List.forall_mem_cons.mpr ⟨hmono (Nat.le_max_left n m) hn, fun y hy => ?_⟩⟩
    exact hmono (Nat.le_max_right n m) (hm y hy)

/-- What contains itself unfolds to no depth. -/
lemma shape?_eq_none_of_cycle (hself : Relation.TransGen h.Holds x x) (n : Nat) :
    h.shape? n x = none := by
  induction n generalizing x with
  | zero => rfl
  | succ n ih =>
    obtain ⟨y, hxy, hyx⟩ := Relation.TransGen.head'_iff.mp hself
    exact shape?_succ_eq_none_iff.mpr ⟨y, hxy, ih (.tail' hyx hxy)⟩

/-- **The values that unfold are those that lead to nothing that contains itself.** -/
theorem exists_shape?_iff_acyclic : (∃ n u, h.shape? n v = some u) ↔ h.Acyclic v := by
  constructor
  · rintro ⟨n, u, hu⟩ x hlead hself
    have hnone : h.shape? n v = none := by
      clear hu
      induction hlead using Relation.ReflTransGen.head_induction_on generalizing n with
      | refl => exact shape?_eq_none_of_cycle hself n
      | head hstep _ ih =>
        cases n with
        | zero => rfl
        | succ n => exact shape?_succ_eq_none_iff.mpr ⟨_, hstep, ih n⟩
    rw [hnone] at hu
    cases hu
  · intro hv
    have hacc := hv.acc
    clear hv
    induction hacc with
    | intro v _ ih =>
      have hparts (x : Value) (hx : x ∈ h.inside v) : ∃ n, h.shape? n x ≠ none := by
        obtain ⟨n, u, hu⟩ := ih x (holds_iff_mem_inside.mpr hx)
        exact ⟨n, by simp [hu]⟩
      obtain ⟨n, hn⟩ := exists_depth hparts
      have hunfolds : h.shape? (n + 1) v ≠ none := fun hnone =>
        let ⟨x, hx, hnone⟩ := shape?_succ_eq_none_iff.mp hnone
        hn x (holds_iff_mem_inside.mp hx) hnone
      obtain ⟨u, hu⟩ := Option.ne_none_iff_exists'.mp hunfolds
      exact ⟨n + 1, u, hu⟩

/-- The two values unfold to one tree. -/
def Identical (h : Heap) (v w : Value) : Prop :=
  ∃ n u, h.shape? n v = some u ∧ h.shape? n w = some u

/-- **Values that are the same unfold to the same.** -/
theorem Same.shape?_eq (hvw : h.Same depth v w) (n : Nat) : h.shape? n v = h.shape? n w := by
  induction hvw generalizing n with
  | shared => rfl
  | @made _ v w _ hhead _ ih =>
    cases n with
    | zero => rfl
    | succ n =>
      have hparts : (h.inside v).mapM (h.shape? n) = (h.inside w).mapM (h.shape? n) :=
        mapM_eq_of_zip (length_inside_of_head hhead) fun e he => ih e he n
      rw [shape?_succ_eq, shape?_succ_eq, hparts, hhead]

lemma Same.identical (hvw : h.Same depth v w) (hv : h.Acyclic v) : h.Identical v w := by
  obtain ⟨n, u, hu⟩ := exists_shape?_iff_acyclic.mpr hv
  exact ⟨n, u, hu, (hvw.shape?_eq n).symm.trans hu⟩

/-! ### Comparisons that reach the limit -/

/-- A comparison that is asked for, in the end, lies at the limit. -/
def ReachesLimit (h : Heap) (c : Comparison) : Prop :=
  ∃ d, Relation.ReflTransGen h.Asks c d ∧ compareDepth ≤ d.depth

/-- A comparison that is asked for lies at the limit, and all those that lead to it are of two lists
or of two maps. -/
def ReachesLimitByCells (h : Heap) (c : Comparison) : Prop :=
  ∃ d, Relation.ReflTransGen (fun a b => a.OfCells ∧ h.Asks a b) c d ∧ compareDepth ≤ d.depth

lemma decided_ne_tooDeep (v : Verdict) : v.decided ≠ tooDeep := by
  cases v <;> decide

lemma outcome_ne_tooDeep (hd : c.depth < compareDepth) : c.outcome h ≠ tooDeep := by
  rw [outcome_of_lt h hd]
  cases decide (h.head c.left = h.head c.right) <;> decide

/-- Two values are too deep at the limit, or because elements of them are. -/
lemma verdict_eq_tooDeep_iff : h.verdict c = tooDeep ↔
    compareDepth ≤ c.depth ∨ c.OfCells ∧ ∃ d, h.Asks c d ∧ h.verdict d = tooDeep := by
  by_cases hd : compareDepth ≤ c.depth
  · simp [verdict_of_deep hd, hd]
  have hlt : c.depth < compareDepth := Nat.lt_of_not_le hd
  have houtcome := outcome_ne_tooDeep (h := h) hlt
  by_cases hc : c.OfCells
  · rw [verdict_of_cells hc, andThen_eq_iff (by decide), or_iff_left fun hend => houtcome hend.2,
      settle_map_eq_iff (by decide), or_iff_right hd, and_iff_right hc]
    constructor
    · rintro ⟨before, d, after, hparts, hbefore, hdeep⟩
      exact ⟨d, ⟨before, after, hparts, hbefore⟩, hdeep⟩
    · rintro ⟨d, ⟨before, after, hparts, hbefore⟩, hdeep⟩
      exact ⟨before, d, after, hparts, hbefore, hdeep⟩
  · have hbody : settle ((c.parts h).map fun d => (h.verdict d).decided) ≠ tooDeep := by
      rw [Ne, settle_map_eq_iff (by decide)]
      rintro ⟨_, d, _, -, -, hdeep⟩
      exact decided_ne_tooDeep _ hdeep
    rw [verdict_of_others hc, andThen_eq_iff (by decide)]
    simp [hbody, houtcome, hd, hc]

/-- **Two values are too deep where lists and maps alone lead to the limit.** -/
theorem verdict_eq_tooDeep_iff_cells : h.verdict c = tooDeep ↔ h.ReachesLimitByCells c := by
  constructor
  · intro hdeep
    have hacc : Acc (fun c' c => h.Asks c c') c :=
      acc_of_decided (n := h.comparisonFuel) (by rw [← verdict_eq, hdeep]; decide)
    induction hacc with
    | intro c _ ih =>
      obtain hd | ⟨hc, d, hask, hdeep⟩ := verdict_eq_tooDeep_iff.mp hdeep
      · exact ⟨c, .refl, hd⟩
      · obtain ⟨e, hde, hlimit⟩ := ih d hask hdeep
        exact ⟨e, .head ⟨hc, hask⟩ hde, hlimit⟩
  · rintro ⟨d, hcd, hlimit⟩
    induction hcd using Relation.ReflTransGen.head_induction_on with
    | refl => exact verdict_of_deep hlimit
    | head hstep _ ih => exact verdict_eq_tooDeep_iff.mpr (.inr ⟨hstep.1, _, hstep.2, ih⟩)

lemma not_reachesLimit_of_same (hc : h.verdict c = same) : ¬ h.ReachesLimit c := by
  rintro ⟨d, hcd, hlimit⟩
  have hd : h.verdict d = same := by
    clear hlimit
    induction hcd with
    | refl => exact hc
    | tail _ hask ih => exact (verdict_eq_same_iff_parts.mp ih).1 _ hask.mem_parts
  rw [verdict_of_deep hlimit] at hd
  cases hd

/-- What holds of a place as soon as it holds of all places before it holds of all places. -/
lemma forall_mem_of_before {α : Type} {p : α → Prop} {xs : List α}
    (hstep : ∀ before x after, xs = before ++ x :: after → (∀ b ∈ before, p b) → p x) :
    ∀ x ∈ xs, p x := by
  induction xs using List.reverseRecOn with
  | nil => exact fun _ hx => (List.not_mem_nil hx).elim
  | append_singleton xs y ih =>
    have hxs : ∀ x ∈ xs, p x := ih fun before x after hsplit =>
      hstep before x (after ++ [y]) (by simp [hsplit])
    intro x hx
    rcases List.mem_append.mp hx with hx | hx
    · exact hxs x hx
    · obtain rfl := List.mem_singleton.mp hx
      exact hstep xs x [] rfl hxs

/-- **Values that unfold to one tree are the same**, unless the limit is reached. -/
theorem verdict_of_identical (hu : h.shape? n c.left = some u) (hu' : h.shape? n c.right = some u)
    (hlimit : ¬ h.ReachesLimit c) : h.verdict c = same := by
  induction n generalizing c u with
  | zero => cases hu
  | succ n ih =>
    obtain ⟨depth, v, w⟩ := c
    obtain ⟨hhead, hinside⟩ := (shape?_eq_iff hu).mp hu'
    have hd : depth < compareDepth := Nat.lt_of_not_le fun hd => hlimit ⟨_, .refl, hd⟩
    refine verdict_eq_same_iff_parts.mpr ⟨forall_mem_of_before ?_, hd, hhead⟩
    intro before p after hsplit hbefore
    have hask : h.Asks ⟨depth, v, w⟩ p := ⟨before, after, hsplit, hbefore⟩
    obtain ⟨e, he, rfl⟩ := mem_zip_of_mem_parts hd hhead hask.mem_parts
    have hheld : h.Holds v e.1 := holds_iff_mem_inside.mpr (List.of_mem_zip he).1
    obtain ⟨u', hu'⟩ := part_of_shape? hu hheld
    refine ih hu' ((hinside e he).symm.trans hu') fun ⟨d, hcd, hdeep⟩ => ?_
    exact hlimit ⟨d, .head hask hcd, hdeep⟩

/-! ### Answers -/

lemma equal?_eq_ok_true (hkind : v.kind = w.kind) :
    h.equal? v w = some (.ok true) ↔ h.verdict ⟨0, v, w⟩ = same := by
  rw [equal?, if_pos hkind, verdict]
  cases h.equate 0 v w <;> simp

lemma equal?_eq_ok_false (hkind : v.kind = w.kind) :
    h.equal? v w = some (.ok false) ↔ h.verdict ⟨0, v, w⟩ = different := by
  rw [equal?, if_pos hkind, verdict]
  cases h.equate 0 v w <;> simp

lemma equal?_eq_error (hkind : v.kind = w.kind) :
    h.equal? v w = some (.error (.failed (.comparisonTooDeep compareDepth))) ↔
      h.verdict ⟨0, v, w⟩ = tooDeep := by
  rw [equal?, if_pos hkind, verdict]
  cases h.equate 0 v w <;> simp

/-- **What the test of equality answers** on two values of one kind that lead to nothing that
contains itself. They are equal if they unfold to one tree and nothing that is compared on the way
lies at the limit. The error is given if lists and maps alone lead to the limit. In all other cases
the answer is that they are different: their trees differ, or lists and maps in a body of theirs go
too deep. -/
theorem answers_of_acyclic (hv : h.Acyclic v) (hkind : v.kind = w.kind) :
    (h.equal? v w = some (.ok true) ↔ h.Identical v w ∧ ¬ h.ReachesLimit ⟨0, v, w⟩) ∧
      (h.equal? v w = some (.error (.failed (.comparisonTooDeep compareDepth))) ↔
        h.ReachesLimitByCells ⟨0, v, w⟩) ∧
      (h.equal? v w = some (.ok false) ↔
        ¬ h.ReachesLimitByCells ⟨0, v, w⟩ ∧ (h.Identical v w → h.ReachesLimit ⟨0, v, w⟩)) := by
  have hsame : h.verdict ⟨0, v, w⟩ = same ↔ h.Identical v w ∧ ¬ h.ReachesLimit ⟨0, v, w⟩ := by
    constructor
    · intro hc
      exact ⟨(verdict_eq_same_iff.mp hc).identical hv, not_reachesLimit_of_same hc⟩
    · rintro ⟨⟨n, u, hu, hu'⟩, hlimit⟩
      exact verdict_of_identical hu hu' hlimit
  have hdeep : h.verdict ⟨0, v, w⟩ = tooDeep ↔ h.ReachesLimitByCells ⟨0, v, w⟩ :=
    verdict_eq_tooDeep_iff_cells
  have hends : h.verdict ⟨0, v, w⟩ ≠ endless := fun hend =>
    hv.not_holdsKnot (verdict_eq_endless_iff_comesBack.mp hend).holdsKnot.1
  rw [equal?_eq_ok_true hkind, equal?_eq_error hkind, equal?_eq_ok_false hkind]
  refine ⟨hsame, hdeep, ?_⟩
  rw [← hdeep, ← not_and_not_right, ← hsame]
  cases hverdict : h.verdict ⟨0, v, w⟩ with
  | endless => exact (hends hverdict).elim
  | _ => simp

/-- Two lists with the same number in them are equal, so they unfold to one tree without the limit
being reached. -/
theorem answers_of_two_lists :
    let heap : Heap := ⟨#[#[.int 1], #[.int 1]], #[], #[]⟩
    heap.Acyclic (.list 0) ∧ heap.equal? (.list 0) (.list 1) = some (.ok true) ∧
      heap.Identical (.list 0) (.list 1) ∧ ¬ heap.ReachesLimit ⟨0, .list 0, .list 1⟩ := by
  intro heap
  have hv : heap.Acyclic (.list 0) := exists_shape?_iff_acyclic.mp ⟨2, _, rfl⟩
  have hnumber : heap.Same 1 (.int 1) (.int 1) := .refl heap (by decide) _
  have hsame : heap.Same 0 (.list 0) (.list 1) :=
    .made (by decide) rfl fun e he => List.mem_singleton.mp he ▸ hnumber
  have hkind : (Value.list 0).kind = (Value.list 1).kind := rfl
  have hequal : heap.equal? (.list 0) (.list 1) = some (.ok true) :=
    (equal?_eq_ok_true hkind).mpr hsame.verdict
  exact ⟨hv, hequal, (answers_of_acyclic hv hkind).1.mp hequal⟩

lemma shape?_program (home : String) (cell : Option Nat) (hv : h.shape? n v = some u) :
    h.shape? (n + 1) (.program ⟨[v], home, cell⟩) = some (.program [u]) := by
  simp [shape?, hv]

/-- Programs of one value are compared as what is in a body is. -/
lemma verdict_program {home home' : String} {cell cell' : Option Nat} :
    h.verdict ⟨0, .program ⟨[v], home, cell⟩, .program ⟨[w], home', cell'⟩⟩ =
      (h.verdict ⟨0, v, w⟩).decided := by
  simp [verdict, equate, Value.equate, Program.equate, equateBodies, equateItems, compareDepth]

/-- What is too deep to be compared is different inside programs. -/
lemma programs_of_nested (hn : n = renderDepth) (h : Heap) :
    let first := (Datum.nested n).store none h
    let second := (Datum.nested n).store none first.2
    let left := Value.program ⟨[first.1], "", none⟩
    let right := Value.program ⟨[second.1], "", none⟩
    second.2.Acyclic left ∧ second.2.Acyclic right ∧ second.2.Identical left right ∧
      second.2.equal? left right = some (.ok false) := by
  intro first second left right
  have hgrown : first.2.Extends second.2 := Datum.extends_store (Datum.nested n) none first.2
  obtain ⟨u, hu⟩ := Datum.stores_nested n
  have hleft := shape?_program "" none ((hu none h).2 second.2 hgrown)
  have hright := shape?_program "" none ((hu none first.2).2 second.2 (.refl _))
  have hkind : left.kind = right.kind := rfl
  have hinside : first.1.kind = second.1.kind :=
    (kind_of_shape? ((hu none h).2 second.2 hgrown)).trans
      (kind_of_shape? ((hu none first.2).2 second.2 (.refl _))).symm
  have hdeep : second.2.verdict ⟨0, first.1, second.1⟩ = tooDeep :=
    (equal?_eq_error hinside).mp (@Datum.twice_nested "" default n hn none h).2.2
  have hdiffer : second.2.verdict ⟨0, left, right⟩ = different := by
    rw [verdict_program, hdeep]
    rfl
  exact ⟨exists_shape?_iff_acyclic.mp ⟨_, _, hleft⟩, exists_shape?_iff_acyclic.mp ⟨_, _, hright⟩,
    ⟨_, _, hleft, hright⟩, (equal?_eq_ok_false hkind).mpr hdiffer⟩

/-- Two programs, each with a number inside 64 lists in its body, unfold to one tree and lead to
nothing that contains itself. Yet the answer is that they are different. -/
theorem identical_programs_differ :
    let first := (Datum.nested 64).store none .empty
    let second := (Datum.nested 64).store none first.2
    let left := Value.program ⟨[first.1], "", none⟩
    let right := Value.program ⟨[second.1], "", none⟩
    second.2.Acyclic left ∧ second.2.Acyclic right ∧ second.2.Identical left right ∧
      second.2.equal? left right = some (.ok false) :=
  programs_of_nested rfl .empty

end Heap

end ReversePolish

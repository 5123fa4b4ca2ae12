import ReversePolish.Proofs.Value.Cells

/-!
Equality of values is an equivalence.

Two values are the same at a depth when they are one cell, or when they show the same and are made
of values that are the same in turn. This is a tree of finite height, whatever the cells lead to,
since the verdict `same` has been reached. It can be turned round, and two trees at one depth can be
put together: where one of them ends in a shared cell, the other goes on.
-/

namespace ReversePolish

open Comparison Verdict

variable {α : Type} {xs ys zs : List α} {v w x : Value} {depth : Nat}

lemma mem_zip_self {e : α × α} (he : e ∈ xs.zip xs) : e.1 = e.2 ∧ e.1 ∈ xs := by
  induction xs with
  | nil => cases he
  | cons x xs ih =>
    rcases List.mem_cons.mp he with rfl | he
    · exact ⟨rfl, List.mem_cons_self⟩
    · exact ⟨(ih he).1, List.mem_cons_of_mem x (ih he).2⟩

/-- Between what stands in the same place in two lists stands an element of any third. -/
lemma mem_zip_between {e : α × α} (hlen : ys.length = xs.length) (he : e ∈ xs.zip zs) :
    ∃ y, (e.1, y) ∈ xs.zip ys ∧ (y, e.2) ∈ ys.zip zs := by
  induction xs generalizing ys zs with
  | nil => cases he
  | cons x xs ih =>
    cases ys with
    | nil => cases hlen
    | cons y ys =>
      cases zs with
      | nil => cases he
      | cons z zs =>
        rcases List.mem_cons.mp he with rfl | he
        · exact ⟨y, List.mem_cons_self, List.mem_cons_self⟩
        · obtain ⟨y', hleft, hright⟩ := ih (Nat.succ.inj hlen) he
          exact ⟨y', List.mem_cons_of_mem _ hleft, List.mem_cons_of_mem _ hright⟩

/-- The depth at which one compares what a value at this depth is made of. -/
def Value.depthInside (depth : Nat) : Value → Nat
  | .list _ | .map _ => depth + 1
  | _ => 0

lemma Value.depthInside_of_kind (hkind : v.kind = w.kind) :
    v.depthInside depth = w.depthInside depth := by
  cases v <;> cases w <;> first | rfl | cases hkind

lemma Value.depthInside_of_cell (hcell : v.IsCell) : v.depthInside depth = depth + 1 := by
  rcases hcell with hkind | hkind <;> cases v <;> first | rfl | cases hkind

lemma Value.depthInside_of_not_cell (hcell : ¬ v.IsCell) : v.depthInside depth = 0 := by
  cases v with
  | list _ => exact (hcell (.inl rfl)).elim
  | map _ => exact (hcell (.inr rfl)).elim
  | _ => rfl

lemma Comparison.ofCells_of_kind (hd : depth < compareDepth) (hcell : v.IsCell)
    (hkind : v.kind = w.kind) (hne : v ≠ w) : OfCells ⟨depth, v, w⟩ := by
  cases v <;> cases w <;> try (cases hkind; done)
  case list.list a b => exact .lists hd fun hab => hne (congrArg Value.list hab)
  case map.map a b => exact .maps hd fun hab => hne (congrArg Value.map hab)
  all_goals rcases hcell with hcell | hcell <;> cases hcell

namespace Heap

variable {h : Heap} {c : Comparison}

/-! ### What a comparison looks at -/

lemma length_inside_of_head (hhead : h.head v = h.head w) :
    (h.inside v).length = (h.inside w).length := by
  rw [length_inside, length_inside, hhead]

/-- Entries with the same keys are compared to the last. -/
lemma parts_of_keys {es fs : List (Key × Value)} (hkeys : es.map Prod.fst = fs.map Prod.fst) :
    (((es.zip fs).takeWhile fun e => e.1.1 == e.2.1).map fun e =>
        Comparison.mk depth e.1.2 e.2.2) =
      ((es.map Prod.snd).zip (fs.map Prod.snd)).map fun e => ⟨depth, e.1, e.2⟩ := by
  induction es generalizing fs with
  | nil => rfl
  | cons e es ih =>
    cases fs with
    | nil => cases hkeys
    | cons f fs =>
      obtain ⟨hkey, hkeys⟩ := List.cons.inj hkeys
      simp [hkey, ih hkeys]

lemma zipWith_mk (vs ws : List Value) :
    List.zipWith (Comparison.mk depth) vs ws = (vs.zip ws).map fun e => ⟨depth, e.1, e.2⟩ :=
  (List.map_uncurry_zip_eq_zipWith ..).symm

/-- **Values that show the same are compared all the way through**, place by place, unless they are
one cell. -/
theorem parts_of_head (hd : depth < compareDepth) (hhead : h.head v = h.head w)
    (hne : v ≠ w ∨ ¬ v.IsCell) :
    parts h ⟨depth, v, w⟩ =
      ((h.inside v).zip (h.inside w)).map fun e => ⟨v.depthInside depth, e.1, e.2⟩ := by
  have hnot : ¬ compareDepth ≤ depth := Nat.not_le.mpr hd
  cases v <;> cases w <;> try (cases hhead; done)
  case list.list a b =>
    have hab : a ≠ b := by
      rintro rfl
      exact hne.elim (fun hne => hne rfl) fun hcell => hcell (.inl rfl)
    have hsize : (h.items a).size = (h.items b).size := Head.list.inj hhead
    simp [parts, hnot, hab, hsize, inside, elements, Value.bodyItems, Value.depthInside, zipWith_mk]
  case map.map a b =>
    have hab : a ≠ b := by
      rintro rfl
      exact hne.elim (fun hne => hne rfl) fun hcell => hcell (.inr rfl)
    have hkeys : (h.entries a).entries.map Prod.fst = (h.entries b).entries.map Prod.fst :=
      Head.map.inj hhead
    have hlen : (h.entries a).entries.length = (h.entries b).entries.length := by
      simpa using congrArg List.length hkeys
    simp [parts, hnot, hab, hlen, inside, elements, Value.bodyItems, Value.depthInside,
      parts_of_keys hkeys]
  case branch.branch cond thn els cond' thn' els' =>
    obtain ⟨hcond, hthn, hels⟩ := Head.branch.inj hhead
    simp [parts, hnot, bodies, ofBodies, hcond, hthn, hels, inside, elements, Value.bodyItems,
      Value.depthInside, zipWith_mk, List.zip_append]
  case loop.loop cond body cond' body' =>
    obtain ⟨hcond, hbody⟩ := Head.loop.inj hhead
    simp [parts, hnot, bodies, ofBodies, hcond, hbody, inside, elements, Value.bodyItems,
      Value.depthInside, zipWith_mk, List.zip_append]
  case program.program p q =>
    have hlen : p.body.length = q.body.length := Head.program.inj hhead
    simp [parts, hnot, bodies, ofBodies, hlen, inside, elements, Value.bodyItems,
      Value.depthInside, zipWith_mk]
  case each.each body body' =>
    have hlen : body.length = body'.length := Head.each.inj hhead
    simp [parts, hnot, bodies, ofBodies, hlen, inside, elements, Value.bodyItems,
      Value.depthInside, zipWith_mk]
  all_goals simp [parts, hnot, bodies, ofBodies, inside, elements, Value.bodyItems]

lemma parts_self (hcell : v.IsCell) : parts h ⟨depth, v, v⟩ = [] := by
  rcases hcell with hkind | hkind <;> cases v <;> first | (cases hkind; done) | simp [parts]

/-- What is compared stands in the same place in two values that show the same. -/
lemma mem_zip_of_mem_parts (hd : depth < compareDepth) (hhead : h.head v = h.head w)
    (hp : c ∈ parts h ⟨depth, v, w⟩) :
    ∃ e ∈ (h.inside v).zip (h.inside w), ⟨v.depthInside depth, e.1, e.2⟩ = c := by
  by_cases hone : v = w ∧ v.IsCell
  · obtain ⟨rfl, hcell⟩ := hone
    rw [parts_self hcell] at hp
    cases hp
  · rw [parts_of_head hd hhead (not_and_or.mp hone)] at hp
    exact List.mem_map.mp hp

lemma outcome_eq_same :
    c.outcome h = same ↔ c.depth < compareDepth ∧ h.head c.left = h.head c.right := by
  rw [outcome]
  split
  · next hle => simp [Nat.not_lt.mpr hle]
  · next hnot => simp [Nat.not_le.mp hnot, ofBool]

/-- A comparison finds two values the same when it finds so for all of its parts. -/
lemma verdict_eq_same_iff_parts : h.verdict c = same ↔
    (∀ p ∈ c.parts h, h.verdict p = same) ∧ c.depth < compareDepth ∧
      h.head c.left = h.head c.right := by
  by_cases hc : c.OfCells
  · rw [verdict_of_cells hc, andThen_eq_same, settle_map_eq_same, outcome_eq_same]
  · rw [verdict_of_others hc, andThen_eq_same, settle_map_eq_same, outcome_eq_same]
    simp only [decided_eq_same]

/-! ### Being the same -/

variable (h) in
/-- Two values are the same at a depth: they share their cell, or they show the same and are made of
the same. -/
inductive Same : Nat → Value → Value → Prop where
  | shared {depth : Nat} {v : Value} : depth < compareDepth → v.IsCell → Same depth v v
  | made {depth : Nat} {v w : Value} : depth < compareDepth → h.head v = h.head w →
      (∀ e ∈ (h.inside v).zip (h.inside w), Same (v.depthInside depth) e.1 e.2) → Same depth v w

namespace Same

/-- What is asked for to find this out is finite, and the same in turn. -/
lemma of_verdict (hc : h.verdict c = same) : h.Same c.depth c.left c.right := by
  have hacc : Acc (fun c' c => h.Asks c c') c :=
    acc_of_decided (n := h.comparisonFuel) (by rw [← verdict_eq, hc]; decide)
  induction hacc with
  | intro c _ ih =>
    obtain ⟨depth, v, w⟩ := c
    obtain ⟨hparts, hd, hhead⟩ := verdict_eq_same_iff_parts.mp hc
    by_cases hone : v = w ∧ v.IsCell
    · obtain ⟨rfl, hcell⟩ := hone
      exact .shared hd hcell
    · have heq := parts_of_head hd hhead (not_and_or.mp hone)
      refine .made hd hhead fun e he => ?_
      have hmem : ⟨v.depthInside depth, e.1, e.2⟩ ∈ parts h ⟨depth, v, w⟩ :=
        heq ▸ List.mem_map.mpr ⟨e, he, rfl⟩
      obtain ⟨before, after, hsplit⟩ := List.append_of_mem hmem
      have hask : h.Asks ⟨depth, v, w⟩ ⟨v.depthInside depth, e.1, e.2⟩ :=
        ⟨before, after, hsplit, fun b hb => hparts b (by simp [hsplit, hb])⟩
      exact ih _ hask (hparts _ hmem)

lemma verdict (hvw : h.Same depth v w) : h.verdict ⟨depth, v, w⟩ = same := by
  induction hvw with
  | shared hd hcell =>
    refine verdict_eq_same_iff_parts.mpr ⟨fun p hp => ?_, hd, rfl⟩
    rw [parts_self hcell] at hp
    cases hp
  | @made depth v w hd hhead _ ih =>
    refine verdict_eq_same_iff_parts.mpr ⟨fun p hp => ?_, hd, hhead⟩
    obtain ⟨e, he, rfl⟩ := mem_zip_of_mem_parts hd hhead hp
    exact ih e he

/-- Every value is the same as itself. What stands in bodies is smaller, and a cell is shared. -/
lemma refl (h : Heap) (hd : depth < compareDepth) (v : Value) : h.Same depth v v := by
  induction hsize : sizeOf v using Nat.strongRecOn generalizing v depth with
  | _ size ih =>
    by_cases hcell : v.IsCell
    · exact .shared hd hcell
    · refine .made hd rfl fun e he => ?_
      obtain ⟨heq, hmem⟩ := mem_zip_self he
      have hbody : e.1 ∈ v.bodyItems := (holds_body hcell).mp (holds_iff_mem_inside.mpr hmem)
      have hlt : sizeOf e.1 < size := hsize ▸ sizeOf_lt_of_mem_bodyItems hbody
      rw [Value.depthInside_of_not_cell hcell, ← heq]
      exact ih _ hlt (by decide) e.1 rfl

lemma symm (hvw : h.Same depth v w) : h.Same depth w v := by
  induction hvw with
  | shared hd hcell => exact .shared hd hcell
  | @made depth v w hd hhead _ ih =>
    refine .made hd hhead.symm fun e he => ?_
    have hswap : e.swap ∈ (h.inside v).zip (h.inside w) := by
      rw [← List.zip_swap]
      exact List.mem_map_of_mem he
    rw [← Value.depthInside_of_kind (kind_of_head hhead)]
    exact ih _ hswap

/-- The sharing in one of two trees is filled in by the other. -/
lemma trans (hvw : h.Same depth v w) (hwx : h.Same depth w x) : h.Same depth v x := by
  induction hvw generalizing x with
  | shared => exact hwx
  | @made depth v w hd hhead hinside ih =>
    cases hwx with
    | shared => exact .made hd hhead hinside
    | made _ hhead' hinside' =>
      refine .made hd (hhead.trans hhead') fun e he => ?_
      obtain ⟨y, hleft, hright⟩ := mem_zip_between (length_inside_of_head hhead).symm he
      have hyx := hinside' _ hright
      rw [← Value.depthInside_of_kind (kind_of_head hhead)] at hyx
      exact ih _ hleft hyx

end Same

/-- **What the verdict `same` says.** -/
theorem verdict_eq_same_iff : h.verdict c = same ↔ h.Same c.depth c.left c.right :=
  ⟨Same.of_verdict, Same.verdict⟩

lemma looselyEqual_eq_same_iff : h.looselyEqual v w = same ↔ h.Same 0 v w := by
  rw [looselyEqual, decided_eq_same]
  exact verdict_eq_same_iff (c := ⟨0, v, w⟩)

lemma looselyEqual_answers (hv : ¬ h.HoldsKnot v) (w : Value) :
    h.looselyEqual v w = same ∨ h.looselyEqual v w = different := by
  have hdecided : h.equate 0 v w ≠ endless := fun hend =>
    hv (verdict_eq_endless_iff_comesBack.mp hend).holdsKnot.1
  rw [looselyEqual]
  cases heq : h.equate 0 v w with
  | endless => exact (hdecided heq).elim
  | same => exact .inl rfl
  | _ => exact .inr rfl

/-! ### An equivalence -/

/-- **Equality is an equivalence**, in spite of the limit on its depth. On the values that do not
lead to a body that contains itself it always has an answer, and it is reflexive, symmetric and
transitive. They may share cells in any way, lie at any depth, and lead to lists and maps that
contain themselves. -/
theorem looselyEqual_equivalence (h : Heap) :
    (∀ v w, ¬ h.HoldsKnot v → h.looselyEqual v w = same ∨ h.looselyEqual v w = different) ∧
      Equivalence fun v w : {v : Value // ¬ h.HoldsKnot v} => h.looselyEqual v w = same := by
  refine ⟨fun v w hv => looselyEqual_answers hv w, ?_⟩
  simp only [looselyEqual_eq_same_iff]
  exact {
    refl := fun v => .refl h (by decide) v
    symm := fun hvw => hvw.symm
    trans := fun hvw hwx => hvw.trans hwx }

/-- Three lists: one that contains itself, one that contains the first, and one that contains the
second. -/
def listsOfLists : Heap := ⟨#[#[.list 0], #[.list 0], #[.list 1]], #[], #[]⟩

lemma not_holdsKnot_listsOfLists (c : Nat) : ¬ listsOfLists.HoldsKnot (.list c) := by
  rintro ⟨x, hbody, hlead, -⟩
  have hlist : ∃ a, x = .list a := by
    clear hbody
    induction hlead with
    | refl => exact ⟨c, rfl⟩
    | tail _ hstep ih =>
      obtain ⟨a, rfl⟩ := ih
      have hitems := (holds_cell (.inl rfl)).mp hstep
      rcases a with _ | _ | _ | a <;> simp_all [listsOfLists, elements, items]
  obtain ⟨a, rfl⟩ := hlist
  exact hbody rfl

/-- A list that contains itself equals what is equal to it because it shares a cell with it. -/
theorem listsOfLists_equal :
    listsOfLists.looselyEqual (.list 0) (.list 1) = same ∧
      listsOfLists.looselyEqual (.list 1) (.list 2) = same ∧
        listsOfLists.looselyEqual (.list 2) (.list 0) = same := by
  have hequiv := (looselyEqual_equivalence listsOfLists).2
  have hshared : listsOfLists.Same 2 (.list 0) (.list 0) := .shared (by decide) (.inl rfl)
  have hdeeper : listsOfLists.Same 1 (.list 0) (.list 1) :=
    .made (by decide) rfl fun e he => List.mem_singleton.mp he ▸ hshared
  have hfirst : listsOfLists.looselyEqual (.list 0) (.list 1) = same :=
    looselyEqual_eq_same_iff.mpr <| .made (by decide) rfl fun e he =>
      List.mem_singleton.mp he ▸ .shared (by decide) (.inl rfl)
  have hsecond : listsOfLists.looselyEqual (.list 1) (.list 2) = same :=
    looselyEqual_eq_same_iff.mpr <| .made (by decide) rfl fun e he =>
      List.mem_singleton.mp he ▸ hdeeper
  let value (c : Nat) : {v // ¬ listsOfLists.HoldsKnot v} := ⟨.list c, not_holdsKnot_listsOfLists c⟩
  have hall : listsOfLists.looselyEqual (value 2) (value 0) = same :=
    hequiv.symm (hequiv.trans (y := value 1) hfirst hsecond)
  exact ⟨hfirst, hsecond, hall⟩

end Heap

end ReversePolish

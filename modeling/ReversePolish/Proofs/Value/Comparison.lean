import Mathlib.Data.Finset.Prod
import Mathlib.Data.List.TakeWhile
import Mathlib.Data.Set.Card
import Mathlib.Tactic.Lemma
import ReversePolish.Value.Equality

/-!
Whether a comparison returns. A comparison of two values asks for comparisons of what they are made
of, one after the other, as long as the answers are that these are the same. Elements of lists and
maps lie one level deeper, and elements of bodies at depth zero again. A comparison goes on for ever
exactly where it comes back to a comparison that is not yet answered, and this takes a body that
contains itself on both sides.
-/

namespace ReversePolish

/-! ### Verdicts in turn -/

namespace Verdict

/-- The first verdict other than `same`. -/
def settle (vs : List Verdict) : Verdict := vs.foldr (fun v rest => v.andThen fun _ => rest) same

@[simp] lemma settle_nil : settle [] = same := rfl

@[simp] lemma settle_cons (v : Verdict) (vs : List Verdict) :
    settle (v :: vs) = v.andThen fun _ => settle vs := rfl

@[simp] lemma decided_eq_same {v : Verdict} : v.decided = same ↔ v = same := by
  cases v <;> simp [decided]

@[simp] lemma decided_eq_endless {v : Verdict} : v.decided = endless ↔ v = endless := by
  cases v <;> simp [decided]

@[simp] lemma andThen_eq_same {v : Verdict} {f : Unit → Verdict} :
    v.andThen f = same ↔ v = same ∧ f () = same := by
  cases v <;> simp [andThen]

lemma andThen_eq_iff {v z : Verdict} {f : Unit → Verdict} (hz : z ≠ same) :
    v.andThen f = z ↔ v = z ∨ v = same ∧ f () = z := by
  cases v <;> simp [andThen, hz.symm]

lemma andThen_eq_endless {v : Verdict} {f : Unit → Verdict} :
    v.andThen f = endless ↔ v = endless ∨ v = same ∧ f () = endless :=
  andThen_eq_iff (by decide)

lemma andThen_assoc (v : Verdict) (f g : Unit → Verdict) :
    (v.andThen f).andThen g = v.andThen fun _ => (f ()).andThen g := by
  cases v <;> rfl

@[simp] lemma andThen_same_right (v : Verdict) : (v.andThen fun _ => same) = v := by
  cases v <;> rfl

lemma settle_append (vs ws : List Verdict) :
    settle (vs ++ ws) = (settle vs).andThen fun _ => settle ws := by
  induction vs with
  | nil => rfl
  | cons v vs ih => simp [ih, andThen_assoc]

variable {α : Type} {f g : α → Verdict} {xs : List α}

lemma settle_map_eq_same : settle (xs.map f) = same ↔ ∀ x ∈ xs, f x = same := by
  induction xs with
  | nil => simp
  | cons x xs ih => rw [List.map_cons, settle_cons, andThen_eq_same, ih, List.forall_mem_cons]

/-- Verdicts in turn come to another verdict where one of them does and those before it are
`same`. -/
lemma settle_map_eq_iff {z : Verdict} (hz : z ≠ same) :
    settle (xs.map f) = z ↔
      ∃ before x after, xs = before ++ x :: after ∧ (∀ b ∈ before, f b = same) ∧ f x = z := by
  induction xs with
  | nil => simp [hz.symm]
  | cons x xs ih =>
    rw [List.map_cons, settle_cons, andThen_eq_iff hz, ih]
    constructor
    · rintro (hx | ⟨hx, before, y, after, rfl, hbefore, hy⟩)
      · exact ⟨[], x, xs, rfl, by simp, hx⟩
      · exact ⟨x :: before, y, after, rfl, by simpa [hx] using hbefore, hy⟩
    · rintro ⟨_ | ⟨b, before⟩, y, after, heq, hbefore, hy⟩
      · obtain ⟨rfl, rfl⟩ := List.cons.inj heq
        exact .inl hy
      · obtain ⟨rfl, rfl⟩ := List.cons.inj heq
        exact .inr ⟨hbefore x List.mem_cons_self, before, y, after, rfl,
          fun b hb => hbefore b (List.mem_cons_of_mem x hb), hy⟩

lemma settle_map_eq_endless :
    settle (xs.map f) = endless ↔
      ∃ before x after, xs = before ++ x :: after ∧ (∀ b ∈ before, f b = same) ∧ f x = endless :=
  settle_map_eq_iff (by decide)

/-- Verdicts that have no end count only up to the first of them. -/
lemma settle_map_congr (hfg : ∀ x ∈ xs, f x ≠ endless → g x = f x)
    (h : settle (xs.map f) ≠ endless) : settle (xs.map g) = settle (xs.map f) := by
  induction xs with
  | nil => rfl
  | cons x xs ih =>
    rw [List.map_cons, settle_cons, Ne, andThen_eq_endless, not_or] at h
    rw [List.map_cons, settle_cons, List.map_cons, settle_cons, hfg x List.mem_cons_self h.1]
    by_cases hx : f x = same
    · rw [hx, andThen_same, andThen_same]
      exact ih (fun y hy => hfg y (List.mem_cons_of_mem x hy)) fun hend => h.2 ⟨hx, hend⟩
    · cases hv : f x <;> first | rfl | exact (hx hv).elim

end Verdict

/-! ### What a comparison asks for -/

/-- What a value shows before one looks at the values that it is made of. -/
inductive Head where
  | int (n : Int64)
  | str (s : String)
  | none
  | list (size : Nat)
  | map (keys : List Key)
  | program (length : Nat)
  | command (name : String) (help : Bool)
  | branch (cond thn els : Nat)
  | each (length : Nat)
  | loop (cond body : Nat)
  deriving DecidableEq

def Heap.head (h : Heap) : Value → Head
  | .int n => .int n
  | .str s => .str s
  | .none => .none
  | .list c => .list (h.items c).size
  | .map c => .map ((h.entries c).entries.map Prod.fst)
  | .program p => .program p.body.length
  | .command c help => .command c.name help
  | .branch cond thn els => .branch cond.length thn.length els.length
  | .each body => .each body.length
  | .loop cond body => .loop cond.length body.length

/-- Two values that are compared at a depth. -/
structure Comparison where
  depth : Nat
  left : Value
  right : Value

namespace Comparison

/-- The elements of bodies, body by body, up to bodies of different length. -/
def ofBodies : List (List Value × List Value) → List Comparison
  | [] => []
  | (vs, ws) :: bs =>
    if vs.length = ws.length then List.zipWith (Comparison.mk 0) vs ws ++ ofBodies bs else []

/-- The bodies of two programs or of two control forms of one kind. -/
def bodies : Value → Value → List (List Value × List Value)
  | .program p, .program q => [(p.body, q.body)]
  | .branch c₁ t₁ e₁, .branch c₂ t₂ e₂ => [(c₁, c₂), (t₁, t₂), (e₁, e₂)]
  | .each b₁, .each b₂ => [(b₁, b₂)]
  | .loop c₁ b₁, .loop c₂ b₂ => [(c₁, c₂), (b₁, b₂)]
  | _, _ => []

/-- The comparisons that a comparison asks for, in order, as long as the answer is `same`. -/
def parts (h : Heap) (c : Comparison) : List Comparison :=
  if compareDepth ≤ c.depth then []
  else match c.left, c.right with
    | .list a, .list b =>
      if a = b ∨ (h.items a).size ≠ (h.items b).size then []
      else List.zipWith (Comparison.mk (c.depth + 1)) (h.items a).toList (h.items b).toList
    | .map a, .map b =>
      if a = b ∨ (h.entries a).entries.length ≠ (h.entries b).entries.length then []
      else (((h.entries a).entries.zip (h.entries b).entries).takeWhile fun e =>
        e.1.1 == e.2.1).map fun e => ⟨c.depth + 1, e.1.2, e.2.2⟩
    | v, w => ofBodies (bodies v w)

/-- A comparison that looks into two cells. -/
inductive OfCells : Comparison → Prop where
  | lists {depth a b : Nat} :
      depth < compareDepth → a ≠ b → OfCells ⟨depth, .list a, .list b⟩
  | maps {depth a b : Nat} :
      depth < compareDepth → a ≠ b → OfCells ⟨depth, .map a, .map b⟩

/-- The verdict when all parts are the same. -/
def outcome (h : Heap) (c : Comparison) : Verdict :=
  if compareDepth ≤ c.depth then .tooDeep else .ofBool (decide (h.head c.left = h.head c.right))

/-- The verdict, given those on pairs of cells. -/
def verdict (lists maps : Nat → Nat → Nat → Verdict) (c : Comparison) : Verdict :=
  c.left.equate lists maps c.depth c.right

end Comparison

open Comparison Verdict

variable {h : Heap} {n m : Nat} {c c' : Comparison} {lists maps : Nat → Nat → Nat → Verdict}

lemma equateItems_eq (vs ws : List Value) :
    equateItems lists maps vs ws =
      settle ((List.zipWith (Comparison.mk 0) vs ws).map fun c => (c.verdict lists maps).decided) := by
  induction vs generalizing ws with
  | nil => simp [equateItems]
  | cons v vs ih =>
    cases ws with
    | nil => simp [equateItems]
    | cons w ws => simp [equateItems, ih, Comparison.verdict]

/-- Bodies are the same where they are of the same lengths and what they ask for is the same. -/
lemma equateBodies_eq (bs : List (List Value × List Value)) :
    settle (bs.map fun b => equateBodies lists maps b.1 b.2) =
      (settle ((ofBodies bs).map fun c => (c.verdict lists maps).decided)).andThen fun _ =>
        ofBool (bs.all fun b => b.1.length == b.2.length) := by
  induction bs with
  | nil => rfl
  | cons b bs ih =>
    obtain ⟨vs, ws⟩ := b
    by_cases hlen : vs.length = ws.length
    · rw [List.map_cons, settle_cons, ih]
      simp only [equateBodies, hlen, if_true, ofBodies, equateItems_eq, List.map_append,
        settle_append, andThen_assoc, List.all_cons, beq_self_eq_true, Bool.true_and]
    · simp [equateBodies, ofBodies, hlen, ofBool]
      rfl

lemma ofBool_ne_endless (b : Bool) : ofBool b ≠ endless := by
  cases b <;> simp [ofBool]

lemma outcome_ne_endless (h : Heap) (c : Comparison) : c.outcome h ≠ endless := by
  rw [outcome]
  split
  · decide
  · exact ofBool_ne_endless _

lemma outcome_of_lt (h : Heap) (hd : c.depth < compareDepth) :
    c.outcome h = ofBool (decide (h.head c.left = h.head c.right)) :=
  if_neg (Nat.not_le.mpr hd)

/-- Values of different kinds ask for nothing, and show that they differ. -/
lemma bodies_of_kind_ne {v w : Value} (hkind : v.kind ≠ w.kind) : bodies v w = [] := by
  cases v <;> cases w <;> first | rfl | exact (hkind rfl).elim

lemma kind_of_head {v w : Value} (hhead : h.head v = h.head w) : v.kind = w.kind := by
  cases v <;> cases w <;> first | rfl | cases hhead

lemma equate_of_kind_ne {depth : Nat} {v w : Value} (hd : depth < compareDepth)
    (hkind : v.kind ≠ w.kind) : v.equate lists maps depth w = different := by
  have hnot : ¬ compareDepth ≤ depth := Nat.not_le.mpr hd
  cases v <;> cases w <;> first
    | exact (hkind rfl).elim
    | simp [Value.equate, hnot]

/-- Values that are not two cells are decided by their bodies. -/
lemma equate_eq_bodies (h : Heap) {depth : Nat} {v w : Value} (hd : depth < compareDepth)
    (hcells : ¬ Comparison.OfCells ⟨depth, v, w⟩) :
    v.equate lists maps depth w =
      (settle ((ofBodies (bodies v w)).map fun c => (c.verdict lists maps).decided)).andThen fun _ =>
        ofBool (decide (h.head v = h.head w)) := by
  by_cases hkind : v.kind = w.kind
  · have hnot : ¬ compareDepth ≤ depth := Nat.not_le.mpr hd
    -- The bodies, if there are any, are all there is to the two values.
    have hall (hbodies : v.equate lists maps depth w =
          settle ((bodies v w).map fun b => equateBodies lists maps b.1 b.2))
        (hlengths : h.head v = h.head w ↔
          ((bodies v w).all fun b => b.1.length == b.2.length) = true) :
        v.equate lists maps depth w =
          (settle ((ofBodies (bodies v w)).map fun c =>
            (c.verdict lists maps).decided)).andThen fun _ =>
              ofBool (decide (h.head v = h.head w)) := by
      rw [hbodies, equateBodies_eq]
      simp only [hlengths, Bool.decide_eq_true]
    cases v <;> cases w <;> try (cases hkind; done)
    case list.list a b =>
      have hab : a = b := by_contra fun hab => hcells (.lists hd hab)
      simp [Value.equate, hnot, bodies, ofBodies, hab, ofBool]
    case map.map a b =>
      have hab : a = b := by_contra fun hab => hcells (.maps hd hab)
      simp [Value.equate, hnot, bodies, ofBodies, hab, ofBool]
    case program.program p q =>
      obtain ⟨body, home⟩ := p
      obtain ⟨body', home'⟩ := q
      exact hall (by simp [Value.equate, Program.equate, hnot, bodies]) (by simp [Heap.head, bodies])
    case each.each =>
      exact hall (by simp [Value.equate, hnot, bodies]) (by simp [Heap.head, bodies])
    case branch.branch =>
      exact hall (by simp [Value.equate, hnot, bodies]) (by simp [Heap.head, bodies])
    case loop.loop =>
      exact hall (by simp [Value.equate, hnot, bodies]) (by simp [Heap.head, bodies])
    all_goals simp [Value.equate, hnot, bodies, ofBodies, Heap.head, ofBool]
  · have hhead : h.head v ≠ h.head w := fun hhead => hkind (kind_of_head hhead)
    rw [equate_of_kind_ne hd hkind, bodies_of_kind_ne hkind]
    simp [ofBodies, hhead, ofBool]

lemma parts_of_deep (h : Heap) (hd : compareDepth ≤ c.depth) : c.parts h = [] := by
  rw [parts, if_pos hd]

lemma parts_of_not_cells (h : Heap) (hc : ¬ c.OfCells) (hd : c.depth < compareDepth) :
    c.parts h = ofBodies (bodies c.left c.right) := by
  obtain ⟨depth, v, w⟩ := c
  rw [parts, if_neg (Nat.not_le.mpr hd)]
  split
  · next a b hv hw =>
    cases hv
    cases hw
    have hab : a = b := by_contra fun hab => hc (.lists hd hab)
    rw [if_pos (.inl hab)]
    rfl
  · next a b hv hw =>
    cases hv
    cases hw
    have hab : a = b := by_contra fun hab => hc (.maps hd hab)
    rw [if_pos (.inl hab)]
    rfl
  · rfl

/-- A comparison that looks into no cells is decided by its parts. -/
lemma verdict_of_not_cells (h : Heap) (hc : ¬ c.OfCells) :
    c.verdict lists maps =
      (settle ((c.parts h).map fun c => (c.verdict lists maps).decided)).andThen fun _ =>
        c.outcome h := by
  by_cases hd : c.depth < compareDepth
  · rw [outcome_of_lt h hd, parts_of_not_cells h hc hd]
    exact equate_eq_bodies h hd hc
  · have hle : compareDepth ≤ c.depth := Nat.le_of_not_lt hd
    rw [Comparison.verdict, Value.equate.eq_def, parts_of_deep h hle]
    simp [hle, outcome]

/-- The values that the bodies of a value are made of. -/
def Value.bodyItems : Value → List Value
  | .program p => p.body
  | .branch cond thn els => cond ++ thn ++ els
  | .each body => body
  | .loop cond body => cond ++ body
  | _ => []

lemma sizeOf_lt_of_mem_bodyItems {v x : Value} (hx : x ∈ v.bodyItems) : sizeOf x < sizeOf v := by
  cases v with
  | program p =>
    obtain ⟨body, home⟩ := p
    have := List.sizeOf_lt_of_mem (show x ∈ body from hx)
    simp only [Value.program.sizeOf_spec, Program.mk.sizeOf_spec]
    omega
  | branch cond thn els =>
    simp only [Value.branch.sizeOf_spec]
    simp only [Value.bodyItems, List.mem_append] at hx
    rcases hx with (hx | hx) | hx <;> have := List.sizeOf_lt_of_mem hx <;> omega
  | each body =>
    have := List.sizeOf_lt_of_mem (show x ∈ body from hx)
    simp only [Value.each.sizeOf_spec]
    omega
  | loop cond body =>
    simp only [Value.loop.sizeOf_spec]
    simp only [Value.bodyItems, List.mem_append] at hx
    rcases hx with hx | hx <;> have := List.sizeOf_lt_of_mem hx <;> omega
  | _ => exact (List.not_mem_nil hx).elim

lemma mem_zipWith_mk {depth : Nat} {vs ws : List Value}
    (hp : c ∈ List.zipWith (Comparison.mk depth) vs ws) :
    c.depth = depth ∧ c.left ∈ vs ∧ c.right ∈ ws := by
  rw [← List.map_uncurry_zip_eq_zipWith] at hp
  obtain ⟨⟨v, w⟩, hvw, rfl⟩ := List.mem_map.mp hp
  exact ⟨rfl, (List.of_mem_zip hvw).1, (List.of_mem_zip hvw).2⟩

lemma mem_ofBodies {bs : List (List Value × List Value)} (hp : c ∈ ofBodies bs) :
    c.depth = 0 ∧ ∃ b ∈ bs, c.left ∈ b.1 ∧ c.right ∈ b.2 := by
  induction bs with
  | nil => cases hp
  | cons b bs ih =>
    rw [ofBodies] at hp
    split at hp
    · rcases List.mem_append.mp hp with hp | hp
      · obtain ⟨hdepth, hleft, hright⟩ := mem_zipWith_mk hp
        exact ⟨hdepth, b, List.mem_cons_self, hleft, hright⟩
      · obtain ⟨hdepth, b', hb', hmem⟩ := ih hp
        exact ⟨hdepth, b', List.mem_cons_of_mem b hb', hmem⟩
    · cases hp

/-- Comparisons of what stands in bodies begin at depth zero again. -/
lemma of_mem_parts_of_not_cells (hc : ¬ c.OfCells) (hp : c' ∈ c.parts h) :
    c'.depth = 0 ∧ c'.left ∈ c.left.bodyItems ∧ c'.right ∈ c.right.bodyItems := by
  have hd : c.depth < compareDepth := by
    by_contra hd
    rw [parts_of_deep h (Nat.le_of_not_lt hd)] at hp
    cases hp
  rw [parts_of_not_cells h hc hd] at hp
  obtain ⟨hdepth, b, hb, hleft, hright⟩ := mem_ofBodies hp
  refine ⟨hdepth, ?_⟩
  revert hb
  cases c.left <;> cases c.right <;> simp only [bodies, Value.bodyItems, List.mem_cons,
    List.mem_append, List.not_mem_nil, or_false, false_imp_iff]
  case branch.branch =>
    rintro (rfl | rfl | rfl) <;> simp [hleft, hright]
  case loop.loop =>
    rintro (rfl | rfl) <;> simp [hleft, hright]
  all_goals
    rintro rfl
    exact ⟨hleft, hright⟩

/-- Elements of cells lie one level deeper. -/
lemma of_mem_parts_of_cells (hc : c.OfCells) (hp : c' ∈ c.parts h) : c'.depth = c.depth + 1 ∧
    ((∃ a b, c.left = .list a ∧ c.right = .list b ∧ c'.left ∈ (h.items a).toList ∧
      c'.right ∈ (h.items b).toList) ∨
    ∃ a b k, c.left = .map a ∧ c.right = .map b ∧ (k, c'.left) ∈ (h.entries a).entries ∧
      (k, c'.right) ∈ (h.entries b).entries) := by
  cases hc with
  | @lists depth a b hd hab =>
    rw [parts, if_neg (Nat.not_le.mpr hd)] at hp
    dsimp only at hp
    split at hp
    · cases hp
    · obtain ⟨hdepth, hleft, hright⟩ := mem_zipWith_mk hp
      exact ⟨hdepth, .inl ⟨a, b, rfl, rfl, hleft, hright⟩⟩
  | @maps depth a b hd hab =>
    rw [parts, if_neg (Nat.not_le.mpr hd)] at hp
    dsimp only at hp
    split at hp
    · cases hp
    · obtain ⟨⟨⟨k, v⟩, l, w⟩, he, rfl⟩ := List.mem_map.mp hp
      have hkey : k = l := by simpa using List.mem_takeWhile_imp he
      obtain ⟨hv, hw⟩ := List.of_mem_zip ((List.takeWhile_sublist _).mem he)
      subst hkey
      exact ⟨rfl, .inr ⟨a, b, k, rfl, rfl, hv, hw⟩⟩

lemma equateElements_eq (depth : Nat) (vs ws : List Value) :
    Heap.equateElements (Value.equate lists maps depth) vs ws =
      settle ((List.zipWith (Comparison.mk depth) vs ws).map (Comparison.verdict lists maps)) := by
  induction vs generalizing ws with
  | nil => simp [Heap.equateElements]
  | cons v vs ih =>
    cases ws with
    | nil => simp [Heap.equateElements]
    | cons w ws => simp [Heap.equateElements, ih, Comparison.verdict]

lemma equateEntries_eq (depth : Nat) {es fs : List (Key × Value)} (hlen : es.length = fs.length) :
    Heap.equateEntries (Value.equate lists maps depth) es fs =
      (settle ((((es.zip fs).takeWhile fun e => e.1.1 == e.2.1).map fun e =>
        Comparison.mk depth e.1.2 e.2.2).map (Comparison.verdict lists maps))).andThen
          fun _ => ofBool (decide (es.map Prod.fst = fs.map Prod.fst)) := by
  induction es generalizing fs with
  | nil =>
    obtain rfl : fs = [] := List.eq_nil_of_length_eq_zero hlen.symm
    rfl
  | cons e es ih =>
    cases fs with
    | nil => cases hlen
    | cons f fs =>
      obtain ⟨k, v⟩ := e
      obtain ⟨l, w⟩ := f
      by_cases hkey : k = l
      · simp [Heap.equateEntries, hkey, ih (Nat.succ.inj hlen), Comparison.verdict, andThen_assoc]
      · simp [Heap.equateEntries, hkey, ofBool]

/-! ### Fuel -/

namespace Heap

/-- The verdict when at most `fuel` cells are followed one inside the other. -/
def verdictAt (h : Heap) (fuel : Nat) (c : Comparison) : Verdict :=
  c.verdict (h.equateLists fuel) (h.equateMaps fuel)

/-- A comparison that looks into two cells is decided by its parts, with less fuel. -/
lemma verdictAt_of_cells (h : Heap) (hc : c.OfCells) :
    h.verdictAt 0 c = endless ∧ ∀ n, h.verdictAt (n + 1) c =
      (settle ((c.parts h).map (h.verdictAt n))).andThen fun _ => c.outcome h := by
  cases hc with
  | @lists depth a b hd hab =>
    have hnot : ¬ compareDepth ≤ depth := Nat.not_le.mpr hd
    have hcell (n : Nat) : h.verdictAt n ⟨depth, .list a, .list b⟩ = h.equateLists n depth a b := by
      simp [verdictAt, Comparison.verdict, Value.equate, hnot, hab]
    refine ⟨by rw [hcell, equateLists], fun n => ?_⟩
    rw [hcell, outcome_of_lt h hd]
    by_cases hsize : (h.items a).size = (h.items b).size
    · simp [equateLists, hsize, parts, hnot, hab, equateElements_eq, head, ofBool]
      rfl
    · simp [equateLists, hsize, parts, hnot, head, ofBool]
  | @maps depth a b hd hab =>
    have hnot : ¬ compareDepth ≤ depth := Nat.not_le.mpr hd
    have hcell (n : Nat) : h.verdictAt n ⟨depth, .map a, .map b⟩ = h.equateMaps n depth a b := by
      simp [verdictAt, Comparison.verdict, Value.equate, hnot, hab]
    refine ⟨by rw [hcell, equateMaps], fun n => ?_⟩
    rw [hcell, outcome_of_lt h hd]
    by_cases hsize : (h.entries a).entries.length = (h.entries b).entries.length
    · simp [equateMaps, hsize, parts, hnot, hab, equateEntries_eq _ hsize, head]
      rfl
    · have hkeys : (h.entries a).entries.map Prod.fst ≠ (h.entries b).entries.map Prod.fst :=
        fun hkeys => hsize (by simpa using congrArg List.length hkeys)
      simp [equateMaps, hsize, parts, hnot, head, hkeys, ofBool]

/-- A comparison that looks into no cells is decided by its parts, with the same fuel. -/
lemma verdictAt_of_not_cells (h : Heap) (hc : ¬ c.OfCells) (n : Nat) :
    h.verdictAt n c =
      (settle ((c.parts h).map fun c => (h.verdictAt n c).decided)).andThen fun _ => c.outcome h :=
  verdict_of_not_cells h hc

/-- Fuel that does for comparisons of cells does for all comparisons. -/
lemma verdictAt_lift
    (hcells : ∀ c : Comparison, c.OfCells → h.verdictAt n c ≠ endless →
      h.verdictAt m c = h.verdictAt n c)
    (hn : h.verdictAt n c ≠ endless) : h.verdictAt m c = h.verdictAt n c := by
  induction hsize : sizeOf c.left using Nat.strongRecOn generalizing c with
  | _ size ih =>
    by_cases hc : c.OfCells
    · exact hcells c hc hn
    · have heq := h.verdictAt_of_not_cells hc
      rw [heq, Ne, andThen_eq_endless, not_or] at hn
      rw [heq, heq, settle_map_congr (fun p hp hne => ?_) hn.1]
      rw [Ne, decided_eq_endless] at hne
      have hlt := sizeOf_lt_of_mem_bodyItems (of_mem_parts_of_not_cells hc hp).2.1
      rw [ih _ (hsize ▸ hlt) hne rfl]

/-- A verdict that has been reached stays when there is more fuel. -/
theorem verdictAt_succ (hn : h.verdictAt n c ≠ endless) :
    h.verdictAt (n + 1) c = h.verdictAt n c := by
  induction n generalizing c with
  | zero => exact verdictAt_lift (fun c hc hn => (hn (h.verdictAt_of_cells hc).1).elim) hn
  | succ n ih =>
    refine verdictAt_lift (fun c hc hn => ?_) hn
    have heq := (h.verdictAt_of_cells hc).2
    rw [heq, Ne, andThen_eq_endless, not_or] at hn
    rw [heq, heq, settle_map_congr (fun p _ hne => ih hne) hn.1]

lemma verdictAt_mono (hnm : n ≤ m) (hn : h.verdictAt n c ≠ endless) :
    h.verdictAt m c = h.verdictAt n c := by
  induction m, hnm using Nat.le_induction with
  | base => rfl
  | succ k _ ih => rw [verdictAt_succ (ih ▸ hn), ih]

/-- The comparisons of cells that are not decided with this fuel. -/
def undecided (h : Heap) (n : Nat) : Set Comparison := {c | c.OfCells ∧ h.verdictAt n c = endless}

lemma undecided_anti (h : Heap) (n : Nat) : h.undecided (n + 1) ⊆ h.undecided n := by
  rintro c ⟨hc, hend⟩
  refine ⟨hc, by_contra fun hn => hn ?_⟩
  rw [← verdictAt_succ hn, hend]

lemma verdictAt_eq_of_stable (hstable : h.undecided n ⊆ h.undecided (n + 1)) :
    h.verdictAt (n + 1) = h.verdictAt n := by
  funext c
  by_cases hc : h.verdictAt n c = endless
  · rw [hc]
    by_contra hne
    refine hne ((verdictAt_lift (fun d hd hd' => ?_) hne).symm.trans hc)
    exact (verdictAt_succ fun hend => hd' (hstable ⟨hd, hend⟩).2).symm
  · exact verdictAt_succ hc

/-- Once more fuel has decided nothing more, it never will. -/
lemma verdictAt_of_stable (hstable : h.undecided n ⊆ h.undecided (n + 1)) (hm : n ≤ m) :
    h.verdictAt m = h.verdictAt n := by
  have hnext (k : Nat) (hk : n ≤ k) : h.verdictAt (k + 1) = h.verdictAt k := by
    induction k, hk using Nat.le_induction with
    | base => exact verdictAt_eq_of_stable hstable
    | succ k hk ih =>
      refine verdictAt_eq_of_stable ?_
      rintro c ⟨hc, hend⟩
      have heq := (h.verdictAt_of_cells hc).2
      exact ⟨hc, by rw [heq, ih, ← heq, hend]⟩
  induction m, hm using Nat.le_induction with
  | base => rfl
  | succ k hk ih => rw [hnext k hk, ih]

/-! ### Enough fuel -/

/-- A depth and two of so many cells. -/
def depthAndCells (cells : Nat) : Finset (Nat × Nat × Nat) :=
  Finset.range compareDepth ×ˢ Finset.range cells ×ˢ Finset.range cells

/-- All comparisons of two list cells and of two map cells. -/
def cellPairs (h : Heap) : Set Comparison :=
  (fun p : Nat × Nat × Nat => ⟨p.1, .list p.2.1, .list p.2.2⟩) '' depthAndCells h.lists.size ∪
    (fun p : Nat × Nat × Nat => ⟨p.1, .map p.2.1, .map p.2.2⟩) '' depthAndCells h.maps.size

lemma finite_cellPairs (h : Heap) : h.cellPairs.Finite :=
  .union (.image _ (Finset.finite_toSet _)) (.image _ (Finset.finite_toSet _))

/-- The fuel exceeds the number of pairs of cells. -/
lemma ncard_cellPairs (h : Heap) : h.cellPairs.ncard < h.comparisonFuel := by
  have himage (f : Nat × Nat × Nat → Comparison) (cells : Nat) :
      (f '' depthAndCells cells).ncard ≤ compareDepth * (cells * cells) := by
    calc (f '' depthAndCells cells).ncard
        ≤ (depthAndCells cells : Set (Nat × Nat × Nat)).ncard :=
          Set.ncard_image_le (Finset.finite_toSet _)
      _ = compareDepth * (cells * cells) := by
          rw [Set.ncard_coe_finset]
          simp [depthAndCells]
  calc h.cellPairs.ncard
      ≤ compareDepth * (h.lists.size * h.lists.size) +
          compareDepth * (h.maps.size * h.maps.size) :=
        (Set.ncard_union_le _ _).trans (Nat.add_le_add (himage _ _) (himage _ _))
    _ < h.comparisonFuel := by
        rw [comparisonFuel, Nat.mul_add]
        exact Nat.lt_succ_self _

/-- Cells that do not exist are empty. -/
lemma lt_of_mem_items {a : Nat} {v : Value} (hv : v ∈ (h.items a).toList) : a < h.lists.size := by
  by_contra hn
  rw [items, Array.getD_eq_getD_getElem?, Array.getElem?_eq_none (by omega)] at hv
  exact List.not_mem_nil hv

lemma lt_of_mem_entries {a : Nat} {e : Key × Value} (he : e ∈ (h.entries a).entries) :
    a < h.maps.size := by
  by_contra hn
  rw [entries, Array.getD_eq_getD_getElem?, Array.getElem?_eq_none (by omega)] at he
  exact List.not_mem_nil he

/-- To look into cells that do not exist takes no fuel. -/
lemma undecided_subset (h : Heap) (n : Nat) : h.undecided (n + 1) ⊆ h.cellPairs := by
  rintro c ⟨hc, hend⟩
  rw [(h.verdictAt_of_cells hc).2, andThen_eq_endless] at hend
  have hparts : c.parts h ≠ [] := by
    intro hnil
    rw [hnil] at hend
    rcases hend with hend | ⟨-, hend⟩
    · cases hend
    · exact outcome_ne_endless h c hend
  obtain ⟨p, hp⟩ := List.exists_mem_of_ne_nil _ hparts
  obtain ⟨-, hmem⟩ := of_mem_parts_of_cells hc hp
  cases hc with
  | @lists depth a b hd hab =>
    obtain ⟨a', b', hleft, hright, ha, hb⟩ | ⟨_, _, _, hleft, -⟩ := hmem
    · cases hleft
      cases hright
      exact .inl ⟨(depth, a, b), by
        simp [depthAndCells, hd, lt_of_mem_items ha, lt_of_mem_items hb], rfl⟩
    · cases hleft
  | @maps depth a b hd hab =>
    obtain ⟨_, _, hleft, -⟩ | ⟨a', b', k, hleft, hright, ha, hb⟩ := hmem
    · cases hleft
    · cases hleft
      cases hright
      exact .inr ⟨(depth, a, b), by
        simp [depthAndCells, hd, lt_of_mem_entries ha, lt_of_mem_entries hb], rfl⟩

/-- **The fuel is enough.** More fuel than there are pairs of cells decides nothing more. -/
theorem verdictAt_enough (hm : h.comparisonFuel ≤ m) :
    h.verdictAt m = h.verdictAt h.comparisonFuel := by
  obtain ⟨n, hn, hstable⟩ : ∃ n ≤ h.comparisonFuel, h.undecided n ⊆ h.undecided (n + 1) := by
    by_contra hnot
    push Not at hnot
    -- Otherwise each unit of fuel decides at least one more pair.
    have hfew (k : Nat) (hk : k ≤ h.comparisonFuel) :
        (h.undecided (k + 1)).ncard + k ≤ h.cellPairs.ncard := by
      induction k with
      | zero => exact Set.ncard_le_ncard (h.undecided_subset 0) h.finite_cellPairs
      | succ k ih =>
        have hlt : (h.undecided (k + 1 + 1)).ncard < (h.undecided (k + 1)).ncard :=
          Set.ncard_lt_ncard ⟨h.undecided_anti (k + 1), hnot (k + 1) hk⟩
            (h.finite_cellPairs.subset (h.undecided_subset k))
        have := ih (Nat.le_of_succ_le hk)
        omega
    have := hfew _ (Nat.le_refl _)
    have := h.ncard_cellPairs
    omega
  rw [verdictAt_of_stable hstable (hn.trans hm), verdictAt_of_stable hstable hn]

/-! ### Comparisons that come back -/

/-- The verdict on a comparison. -/
def verdict (h : Heap) (c : Comparison) : Verdict := h.equate c.depth c.left c.right

/-- A comparison asks for one of its parts when those before it are the same. -/
def Asks (h : Heap) (c c' : Comparison) : Prop :=
  ∃ before after, c.parts h = before ++ c' :: after ∧ ∀ b ∈ before, h.verdict b = same

/-- What is asked for to compare two values comes to a comparison that asks, at last, for itself. -/
def ComesBack (h : Heap) (v w : Value) : Prop :=
  ∃ c, Relation.ReflTransGen h.Asks ⟨0, v, w⟩ c ∧ Relation.TransGen h.Asks c c

lemma verdict_eq (h : Heap) : h.verdict = h.verdictAt h.comparisonFuel := rfl

lemma verdict_of_deep (hd : compareDepth ≤ c.depth) : h.verdict c = tooDeep := by
  simp [verdict, equate, Value.equate.eq_def, hd]

/-- A comparison of cells is decided by its parts. -/
lemma verdict_of_cells (hc : c.OfCells) :
    h.verdict c = (settle ((c.parts h).map h.verdict)).andThen fun _ => c.outcome h :=
  calc h.verdict c
      = h.verdictAt (h.comparisonFuel + 1) c :=
        (congrFun (verdictAt_enough (Nat.le_succ _)) c).symm
    _ = (settle ((c.parts h).map h.verdict)).andThen fun _ => c.outcome h :=
        (h.verdictAt_of_cells hc).2 h.comparisonFuel

/-- All other comparisons are decided by their parts, in which what lies too deep is different. -/
lemma verdict_of_others (hc : ¬ c.OfCells) :
    h.verdict c =
      (settle ((c.parts h).map fun d => (h.verdict d).decided)).andThen fun _ => c.outcome h :=
  h.verdictAt_of_not_cells hc h.comparisonFuel

/-- A comparison has no end exactly where one that it asks for has none. -/
theorem verdict_eq_endless_iff :
    h.verdict c = endless ↔ ∃ c', h.Asks c c' ∧ h.verdict c' = endless := by
  have hparts : h.verdict c = endless ↔ settle ((c.parts h).map h.verdict) = endless := by
    by_cases hc : c.OfCells
    · rw [verdict_of_cells hc, andThen_eq_endless]
      exact or_iff_left fun hend => outcome_ne_endless h c hend.2
    · rw [verdict_of_others hc, andThen_eq_endless,
        or_iff_left fun hend => outcome_ne_endless h c hend.2, settle_map_eq_endless,
        settle_map_eq_endless]
      simp only [decided_eq_same, decided_eq_endless]
  rw [hparts, settle_map_eq_endless]
  constructor
  · rintro ⟨before, c', after, heq, hbefore, hend⟩
    exact ⟨c', ⟨before, after, heq, hbefore⟩, hend⟩
  · rintro ⟨c', ⟨before, after, heq, hbefore⟩, hend⟩
    exact ⟨before, c', after, heq, hbefore, hend⟩

/-- A part that is asked for is decided if the parts up to it lead to a verdict. -/
lemma part_decided {f : Comparison → Verdict} {before after : List Comparison}
    (hbefore : ∀ b ∈ before, f b ≠ endless → f b = same)
    (hf : settle ((before ++ c' :: after).map f) ≠ endless) : f c' ≠ endless := by
  intro hend
  induction before with
  | nil => exact hf (by simp [hend, andThen])
  | cons b before ih =>
    rw [List.cons_append, List.map_cons, settle_cons, Ne, andThen_eq_endless, not_or] at hf
    have hb := hbefore b List.mem_cons_self hf.1
    exact ih (fun b' hb' => hbefore b' (List.mem_cons_of_mem b hb')) fun h => hf.2 ⟨hb, h⟩

/-- With less fuel a part that is the same either is found to be the same or is not decided. -/
lemma verdictAt_eq_same (hc : h.verdict c = same) (hn : h.verdictAt n c ≠ endless) :
    h.verdictAt n c = same := by
  rw [← verdictAt_mono (Nat.le_max_left n h.comparisonFuel) hn,
    verdictAt_enough (Nat.le_max_right n h.comparisonFuel)]
  exact hc

/-- What a comparison without cells asks for is decided with the same fuel. -/
lemma acc_lift
    (hcells : ∀ c : Comparison, c.OfCells → h.verdictAt n c ≠ endless →
      Acc (fun c' c => h.Asks c c') c)
    (hn : h.verdictAt n c ≠ endless) : Acc (fun c' c => h.Asks c c') c := by
  induction hsize : sizeOf c.left using Nat.strongRecOn generalizing c with
  | _ size ih =>
    by_cases hc : c.OfCells
    · exact hcells c hc hn
    · rw [h.verdictAt_of_not_cells hc, Ne, andThen_eq_endless, not_or] at hn
      refine ⟨c, fun c' ⟨before, after, hparts, hbefore⟩ => ?_⟩
      have hmem : c' ∈ c.parts h := by simp [hparts]
      have hlt := sizeOf_lt_of_mem_bodyItems (of_mem_parts_of_not_cells hc hmem).2.1
      rw [hparts] at hn
      refine ih _ (hsize ▸ hlt) (fun hend => ?_) rfl
      refine part_decided (fun b hb hne => ?_) hn.1 (decided_eq_endless.mpr hend)
      rw [Ne, decided_eq_endless] at hne
      exact decided_eq_same.mpr (verdictAt_eq_same (hbefore b hb) hne)

/-- A comparison that reaches a verdict asks for comparisons only so often. -/
lemma acc_of_decided (hn : h.verdictAt n c ≠ endless) : Acc (fun c' c => h.Asks c c') c := by
  induction n generalizing c with
  | zero => exact acc_lift (fun c hc hn => (hn (h.verdictAt_of_cells hc).1).elim) hn
  | succ n ih =>
    refine acc_lift (fun c hc hn => ?_) hn
    rw [(h.verdictAt_of_cells hc).2, Ne, andThen_eq_endless, not_or] at hn
    refine ⟨c, fun c' ⟨before, after, hparts, hbefore⟩ => ih ?_⟩
    rw [hparts] at hn
    exact part_decided (fun b hb hne => verdictAt_eq_same (hbefore b hb) hne) hn.1

lemma not_transGen_of_acc (hacc : Acc (fun c' c => h.Asks c c') c) :
    ¬ Relation.TransGen h.Asks c c := by
  induction hacc with
  | intro c _ ih =>
    intro hcycle
    obtain ⟨d, hcd, hdc⟩ := Relation.TransGen.head'_iff.mp hcycle
    exact ih d hcd (Relation.TransGen.tail' hdc hcd)

/-- A comparison without end asks, in the end, for a comparison of cells without end. -/
lemma exists_cells_of_endless (hend : h.verdict c = endless) :
    ∃ d, Relation.ReflTransGen h.Asks c d ∧ d.OfCells ∧ h.verdict d = endless := by
  induction hsize : sizeOf c.left using Nat.strongRecOn generalizing c with
  | _ size ih =>
    by_cases hc : c.OfCells
    · exact ⟨c, .refl, hc, hend⟩
    · obtain ⟨c', hask, hend'⟩ := verdict_eq_endless_iff.mp hend
      have hmem : c' ∈ c.parts h := by
        obtain ⟨before, after, hparts, -⟩ := hask
        simp [hparts]
      have hlt := sizeOf_lt_of_mem_bodyItems (of_mem_parts_of_not_cells hc hmem).2.1
      obtain ⟨d, hd, hcells, hendless⟩ := ih _ (hsize ▸ hlt) hend' rfl
      exact ⟨d, .head hask hd, hcells, hendless⟩

/-- Pairs of cells whose comparison has no end lead to one another, and there are only so many. -/
lemma comesBack_of_endless {v w : Value} (hend : h.verdict ⟨0, v, w⟩ = endless) :
    h.ComesBack v w := by
  by_contra hno
  let S := {c // Relation.ReflTransGen h.Asks ⟨0, v, w⟩ c ∧ c.OfCells ∧ h.verdict c = endless}
  let r (d c : S) : Prop := Relation.TransGen h.Asks c.1 d.1
  have hfinite : Finite S := by
    have hsub : {c | Relation.ReflTransGen h.Asks ⟨0, v, w⟩ c ∧ c.OfCells ∧ h.verdict c = endless} ⊆
        h.cellPairs := fun c hc =>
      h.undecided_subset h.comparisonFuel
        ⟨hc.2.1, (congrFun (verdictAt_enough (Nat.le_succ _)) c).trans hc.2.2⟩
    exact (h.finite_cellPairs.subset hsub).to_subtype
  have htrans : IsTrans S r := ⟨fun _ _ _ hab hbc => hbc.trans hab⟩
  have hirrefl : Std.Irrefl r := ⟨fun c hcycle => hno ⟨c.1, c.2.1, hcycle⟩⟩
  have hwf : WellFounded r := Finite.wellFounded_of_trans_of_irrefl r
  obtain ⟨c₀, hc₀⟩ := exists_cells_of_endless hend
  obtain ⟨c, -, hmin⟩ := hwf.has_min Set.univ ⟨⟨c₀, hc₀⟩, trivial⟩
  obtain ⟨c', hask, hend'⟩ := verdict_eq_endless_iff.mp c.2.2.2
  obtain ⟨d, hd, hcells, hendless⟩ := exists_cells_of_endless hend'
  have hcd : Relation.TransGen h.Asks c.1 d := .head' hask hd
  exact hmin ⟨d, c.2.1.trans hcd.to_reflTransGen, hcells, hendless⟩ trivial hcd

/-- **A comparison goes on for ever exactly where it comes back.** -/
theorem verdict_eq_endless_iff_comesBack {v w : Value} :
    h.verdict ⟨0, v, w⟩ = endless ↔ h.ComesBack v w := by
  refine ⟨comesBack_of_endless, fun ⟨c, hc, hcycle⟩ => ?_⟩
  by_contra hend
  have hacc : Acc (fun c' c => h.Asks c c') c := by
    clear hcycle
    induction hc with
    | refl => exact acc_of_decided hend
    | tail _ hask ih => exact ih.inv hask
  exact not_transGen_of_acc hacc hcycle

/-! ### Bodies that contain themselves -/

variable (h) in
/-- What a value is made of: the elements of its cell, or those of its bodies. -/
inductive Holds : Value → Value → Prop where
  | item {cell : Nat} {v : Value} : v ∈ (h.items cell).toList → Holds (.list cell) v
  | entry {cell : Nat} {k : Key} {v : Value} :
      (k, v) ∈ (h.entries cell).entries → Holds (.map cell) v
  | body {v x : Value} : x ∈ v.bodyItems → Holds v x

/-- A value leads to a program or a control form that contains itself. -/
def HoldsKnot (h : Heap) (v : Value) : Prop :=
  ∃ x, x.bodyItems ≠ [] ∧ Relation.ReflTransGen h.Holds v x ∧ Relation.TransGen h.Holds x x

lemma Asks.mem_parts (hask : h.Asks c c') : c' ∈ c.parts h := by
  obtain ⟨before, after, hparts, -⟩ := hask
  simp [hparts]

lemma Asks.holds (hask : h.Asks c c') : h.Holds c.left c'.left ∧ h.Holds c.right c'.right := by
  by_cases hc : c.OfCells
  · obtain ⟨-, ⟨a, b, hleft, hright, ha, hb⟩ | ⟨a, b, k, hleft, hright, ha, hb⟩⟩ :=
      of_mem_parts_of_cells hc hask.mem_parts
    · rw [hleft, hright]
      exact ⟨.item ha, .item hb⟩
    · rw [hleft, hright]
      exact ⟨.entry ha, .entry hb⟩
  · obtain ⟨-, hleft, hright⟩ := of_mem_parts_of_not_cells hc hask.mem_parts
    exact ⟨.body hleft, .body hright⟩

/-- Comparisons lie deeper and deeper, unless one of them is of bodies. -/
lemma depth_lt_or_bodies {d : Comparison} (hcd : Relation.TransGen h.Asks c d) :
    c.depth < d.depth ∨ ∃ e, Relation.ReflTransGen h.Asks c e ∧ Relation.TransGen h.Asks e d ∧
      e.left.bodyItems ≠ [] ∧ e.right.bodyItems ≠ [] := by
  have hstep {c d : Comparison} (hask : h.Asks c d) :
      d.depth = c.depth + 1 ∨ c.left.bodyItems ≠ [] ∧ c.right.bodyItems ≠ [] := by
    by_cases hc : c.OfCells
    · exact .inl (of_mem_parts_of_cells hc hask.mem_parts).1
    · obtain ⟨-, hleft, hright⟩ := of_mem_parts_of_not_cells hc hask.mem_parts
      exact .inr ⟨List.ne_nil_of_mem hleft, List.ne_nil_of_mem hright⟩
  induction hcd with
  | single hask =>
    rcases hstep hask with hdepth | hbodies
    · exact .inl (by omega)
    · exact .inr ⟨c, .refl, .single hask, hbodies⟩
  | tail hcd hask ih =>
    rcases ih with hlt | ⟨e, hce, hed, hbodies⟩
    · rcases hstep hask with hdepth | hbodies
      · exact .inl (by omega)
      · exact .inr ⟨_, hcd.to_reflTransGen, .single hask, hbodies⟩
    · exact .inr ⟨e, hce, hed.tail hask, hbodies⟩

/-- **A comparison comes back only through bodies that contain themselves**, on both sides. -/
theorem ComesBack.holdsKnot {v w : Value} (hback : h.ComesBack v w) :
    h.HoldsKnot v ∧ h.HoldsKnot w := by
  obtain ⟨c, hc, hcycle⟩ := hback
  obtain hlt | ⟨e, hce, hec, hleft, hright⟩ := depth_lt_or_bodies hcycle
  · exact (Nat.lt_irrefl _ hlt).elim
  · have hto := hc.trans hce
    have hself := hec.trans_left hce
    exact ⟨⟨e.left, hleft, hto.lift Comparison.left fun _ _ hask => hask.holds.1,
        hself.lift Comparison.left fun _ _ hask => hask.holds.1⟩,
      ⟨e.right, hright, hto.lift Comparison.right fun _ _ hask => hask.holds.2,
        hself.lift Comparison.right fun _ _ hask => hask.holds.2⟩⟩

/-- The test that the language offers has no answer exactly where the comparison comes back. -/
theorem equal?_eq_none_iff {v w : Value} : h.equal? v w = none ↔ h.ComesBack v w := by
  rw [← verdict_eq_endless_iff_comesBack, verdict]
  unfold equal?
  by_cases hkind : v.kind = w.kind
  · rw [if_pos hkind]
    cases h.equate 0 v w <;> simp
  · rw [if_neg hkind, equate, equate_of_kind_ne (show 0 < compareDepth by decide) hkind]
    simp

end Heap

end ReversePolish

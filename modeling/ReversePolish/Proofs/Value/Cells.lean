import ReversePolish.Proofs.Value.Comparison
import ReversePolish.Proofs.Value.Shape

/-!
The cells that a value leads to. What the value unfolds to depends on these alone. What is read is
put into new cells: it leads to none that was there before.
-/

namespace ReversePolish

/-- The value is the name of a cell. -/
def Value.IsCell (v : Value) : Prop := v.kind = .list ∨ v.kind = .map

/-- The innermost program around what is in a value, if it is this one around the value. -/
def Value.innermost (around : Option Nat) : Value → Option Nat
  | .program p => p.cell
  | _ => around

namespace Head

variable {a b : Head} {us ws : List Shape}

/-- How many values one that shows this is made of. -/
def arity : Head → Nat
  | list size => size
  | map keys => keys.length
  | program length | each length => length
  | branch cond thn els => cond + thn + els
  | loop cond body => cond + body
  | _ => 0

/-- The tree of a value that shows this, given the trees of what it is made of. -/
def tree : Head → List Shape → Shape
  | int n, _ => .int n
  | str s, _ => .str s
  | none, _ => .none
  | list _, us => .list us
  | map keys, us => .map (keys.zip us)
  | program _, us => .program us
  | command name help, _ => .command name help
  | branch cond thn _, us =>
    .branch (us.take cond) ((us.drop cond).take thn) ((us.drop cond).drop thn)
  | each _, us => .each us
  | loop cond _, us => .loop (us.take cond) (us.drop cond)

lemma take_drop_inj {n m : Nat} (hn : n ≤ us.length) (hm : m ≤ ws.length)
    (htake : us.take n = ws.take m) (hdrop : us.drop n = ws.drop m) : n = m ∧ us = ws := by
  have hlen := congrArg List.length htake
  rw [List.length_take, List.length_take, Nat.min_eq_left hn, Nat.min_eq_left hm] at hlen
  refine ⟨hlen, ?_⟩
  rw [← List.take_append_drop n us, htake, hdrop, List.take_append_drop]

/-- **A tree shows what it is the tree of.** -/
lemma tree_inj (hus : us.length = a.arity) (hws : ws.length = b.arity)
    (htree : a.tree us = b.tree ws) : a = b ∧ us = ws := by
  cases a <;> cases b <;> try (cases htree; done)
  case map.map keys keys' =>
    have hzip : keys.zip us = keys'.zip ws := Shape.map.inj htree
    have hkeys := congrArg (List.map Prod.fst) hzip
    have hvalues := congrArg (List.map Prod.snd) hzip
    rw [List.map_fst_zip (Nat.le_of_eq hus.symm), List.map_fst_zip (Nat.le_of_eq hws.symm)] at hkeys
    rw [List.map_snd_zip (Nat.le_of_eq hus), List.map_snd_zip (Nat.le_of_eq hws)] at hvalues
    exact ⟨congrArg map hkeys, hvalues⟩
  case branch.branch cond thn els cond' thn' els' =>
    simp only [arity] at hus hws
    obtain ⟨hcond, hthn, hels⟩ := Shape.branch.inj htree
    have hlengths : us.drop cond = ws.drop cond' := by
      rw [← List.take_append_drop thn (us.drop cond), hthn, hels, List.take_append_drop]
    obtain ⟨rfl, rfl⟩ := take_drop_inj (by omega) (by omega) hcond hlengths
    obtain ⟨rfl, -⟩ := take_drop_inj (by rw [List.length_drop]; omega)
      (by rw [List.length_drop]; omega) hthn hels
    obtain rfl : els = els' := by omega
    exact ⟨rfl, rfl⟩
  case loop.loop cond body cond' body' =>
    simp only [arity] at hus hws
    obtain ⟨hcond, hbody⟩ := Shape.loop.inj htree
    obtain ⟨rfl, rfl⟩ := take_drop_inj (by omega) (by omega) hcond hbody
    obtain rfl : body = body' := by omega
    exact ⟨rfl, rfl⟩
  case list.list | program.program | each.each =>
    injection htree with htree
    subst htree
    simp_all [arity]
  all_goals
    obtain rfl := List.eq_nil_of_length_eq_zero hus
    obtain rfl := List.eq_nil_of_length_eq_zero hws
    simp_all [tree]

end Head

namespace Heap

variable {h h₀ h₁ h₂ h₃ h' : Heap} {v w x : Value} {c n : Nat}

/-- The value names a cell of the heap. -/
def Has (h : Heap) : Value → Prop
  | .list c => c < h.lists.size
  | .map c => c < h.maps.size
  | _ => False

/-- From the first value one comes to the second, which is the same value or somewhere in it. -/
abbrev Leads (h : Heap) : Value → Value → Prop := Relation.ReflTransGen h.Holds

lemma Extends.has (hx : h.Extends h') (hv : h.Has v) : h'.Has v := by
  cases v with
  | list c => exact Nat.lt_of_lt_of_le hv hx.size_lists
  | map c => exact Nat.lt_of_lt_of_le hv hx.size_maps
  | _ => exact hv.elim

lemma Extends.items (hx : h.Extends h') (hc : c < h.lists.size) : h'.items c = h.items c := by
  obtain ⟨ys, hys⟩ := hx.lists
  have hget : h'.lists.toList[c]? = h.lists.toList[c]? := by
    rw [← hys, List.getElem?_append_left (by simpa using hc)]
  rw [Array.getElem?_toList, Array.getElem?_toList] at hget
  simp [Heap.items, Array.getD_eq_getD_getElem?, hget]

lemma Extends.entries (hx : h.Extends h') (hc : c < h.maps.size) :
    h'.entries c = h.entries c := by
  obtain ⟨ys, hys⟩ := hx.maps
  have hget : h'.maps.toList[c]? = h.maps.toList[c]? := by
    rw [← hys, List.getElem?_append_left (by simpa using hc)]
  rw [Array.getElem?_toList, Array.getElem?_toList] at hget
  simp [Heap.entries, Array.getD_eq_getD_getElem?, hget]

/-! ### What a value is made of -/

/-- What lies in a list or a map. -/
def elements (h : Heap) : Value → List Value
  | .list c => (h.items c).toList
  | .map c => (h.entries c).entries.map Prod.snd
  | _ => []

lemma elements_of_not_cell (hv : ¬ v.IsCell) : h.elements v = [] := by
  cases v with
  | list c => exact (hv (.inl rfl)).elim
  | map c => exact (hv (.inr rfl)).elim
  | _ => rfl

lemma bodyItems_of_cell (hv : v.IsCell) : v.bodyItems = [] := by
  rcases hv with hv | hv <;> cases v <;> first | rfl | cases hv

lemma holds_cell (hv : v.IsCell) : h.Holds v x ↔ x ∈ h.elements v := by
  constructor
  · rintro (hx | hx | hx)
    · exact hx
    · exact List.mem_map.mpr ⟨_, hx, rfl⟩
    · rw [bodyItems_of_cell hv] at hx
      cases hx
  · cases v with
    | list c => exact .item
    | map c =>
      intro hx
      obtain ⟨⟨key, _⟩, he, rfl⟩ := List.mem_map.mp hx
      exact .entry he
    | _ => exact fun hx => (List.not_mem_nil hx).elim

lemma holds_body (hv : ¬ v.IsCell) : h.Holds v x ↔ x ∈ v.bodyItems := by
  refine ⟨?_, .body⟩
  rintro (hx | hx | hx)
  · exact (hv (.inl rfl)).elim
  · exact (hv (.inr rfl)).elim
  · exact hx

/-- What a value is made of, in order. -/
def inside (h : Heap) (v : Value) : List Value := h.elements v ++ v.bodyItems

lemma holds_iff_mem_inside : h.Holds v x ↔ x ∈ h.inside v := by
  rw [inside, List.mem_append]
  by_cases hcell : v.IsCell
  · rw [holds_cell hcell, bodyItems_of_cell hcell]
    simp
  · rw [holds_body hcell, elements_of_not_cell hcell]
    simp

/-! ### Trees -/

lemma length_inside (h : Heap) (v : Value) : (h.inside v).length = (h.head v).arity := by
  cases v <;> simp [inside, elements, Value.bodyItems, head, Head.arity, Nat.add_assoc]

/-- **A value unfolds to the tree that what it is made of unfolds to**, under what it shows. -/
theorem shape?_succ_eq :
    h.shape? (n + 1) v = ((h.inside v).mapM (h.shape? n)).map (h.head v).tree := by
  cases v with
  | map c =>
    have hentries (es : List (Key × Value)) :
        (es.mapM fun e => (h.shape? n e.2).map (Prod.mk e.1)) =
          ((es.map Prod.snd).mapM (h.shape? n)).map (es.map Prod.fst).zip := by
      induction es with
      | nil => rfl
      | cons e es ih =>
        simp only [List.mapM_cons, List.map_cons, ih]
        cases h.shape? n e.2 <;> cases (es.map Prod.snd).mapM (h.shape? n) <;> rfl
    simp only [shape?, hentries, inside, elements, Value.bodyItems, List.append_nil, Option.map_map]
    rfl
  | branch cond thn els =>
    simp only [shape?, inside, elements, Value.bodyItems, List.nil_append, List.mapM_append, head]
    cases hcond : cond.mapM (h.shape? n) with
    | none => rfl
    | some cs =>
      cases hthn : thn.mapM (h.shape? n) with
      | none => rfl
      | some ts =>
        cases els.mapM (h.shape? n) with
        | none => rfl
        | some es => simp [Head.tree, length_of_mapM hcond, length_of_mapM hthn]
  | loop cond body =>
    simp only [shape?, inside, elements, Value.bodyItems, List.nil_append, List.mapM_append, head]
    cases hcond : cond.mapM (h.shape? n) with
    | none => rfl
    | some cs =>
      cases body.mapM (h.shape? n) with
      | none => rfl
      | some bs => simp [Head.tree, length_of_mapM hcond]
  | list c | program p | each body =>
    simp only [shape?, inside, elements, Value.bodyItems, List.append_nil, List.nil_append]
    rfl
  | _ => rfl

lemma shape?_succ_eq_some {u : Shape} : h.shape? (n + 1) v = some u ↔
    ∃ us, (h.inside v).mapM (h.shape? n) = some us ∧ (h.head v).tree us = u := by
  rw [shape?_succ_eq, Option.map_eq_some_iff]

/-- **Values that unfold to one tree show the same**, and what they are made of unfolds to the same,
place by place. -/
theorem shape?_eq_iff {u : Shape} (hv : h.shape? (n + 1) v = some u) :
    h.shape? (n + 1) w = some u ↔ h.head v = h.head w ∧
      ∀ e ∈ (h.inside v).zip (h.inside w), h.shape? n e.1 = h.shape? n e.2 := by
  obtain ⟨us, hus, rfl⟩ := shape?_succ_eq_some.mp hv
  rw [shape?_succ_eq_some]
  have harity (v : Value) (us : List Shape) (hus : (h.inside v).mapM (h.shape? n) = some us) :
      us.length = (h.head v).arity := by
    rw [← length_of_mapM hus, length_inside]
  constructor
  · rintro ⟨ws, hws, htree⟩
    obtain ⟨hhead, rfl⟩ := Head.tree_inj (harity w ws hws) (harity v us hus) htree
    refine ⟨hhead.symm, fun e he => ?_⟩
    obtain ⟨u, hu, hu'⟩ := mapM_zip hus hws e he
    rw [hu, hu']
  · rintro ⟨hhead, hinside⟩
    have hlen : (h.inside v).length = (h.inside w).length := by
      rw [length_inside, length_inside, hhead]
    exact ⟨us, (mapM_eq_of_zip hlen hinside).symm.trans hus, by rw [hhead]⟩

/-! ### Cells with the same contents -/

/-- The value has the same elements on both heaps, if it is the name of a cell. -/
def SameAt (h h' : Heap) : Value → Prop
  | .list c => h'.items c = h.items c
  | .map c => h'.entries c = h.entries c
  | _ => True

lemma SameAt.trans (hs : h.SameAt h₁ v) (hs' : h₁.SameAt h₂ v) : h.SameAt h₂ v := by
  cases v with
  | list c => exact Eq.trans (b := h₁.items c) hs' hs
  | map c => exact Eq.trans (b := h₁.entries c) hs' hs
  | _ => trivial

lemma Extends.sameAt (hx : h.Extends h') (hv : v.IsCell → h.Has v) : h.SameAt h' v := by
  cases v with
  | list c => exact hx.items (hv (.inl rfl))
  | map c => exact hx.entries (hv (.inr rfl))
  | _ => trivial

lemma SameAt.head_eq (hs : h.SameAt h' v) : h'.head v = h.head v := by
  cases v with
  | list c => exact congrArg (fun xs => Head.list xs.size) hs
  | map c => exact congrArg (fun es => Head.map (es.entries.map Prod.fst)) hs
  | _ => rfl

lemma SameAt.inside_eq (hs : h.SameAt h' v) : h'.inside v = h.inside v := by
  cases v with
  | list c => exact congrArg (fun xs => xs.toList ++ []) hs
  | map c => exact congrArg (fun es => es.entries.map Prod.snd ++ []) hs
  | _ => rfl

/-- **What a value unfolds to depends on the cells that it leads to.** -/
theorem shape?_congr (hs : ∀ w, h.Leads v w → h.SameAt h' w) (n : Nat) :
    h'.shape? n v = h.shape? n v := by
  induction n generalizing v with
  | zero => rfl
  | succ n ih =>
    have hself : h.SameAt h' v := hs v .refl
    have hparts : (h.inside v).mapM (h'.shape? n) = (h.inside v).mapM (h.shape? n) :=
      mapM_congr fun x hx => ih fun w hw => hs w (.head (holds_iff_mem_inside.mpr hx) hw)
    rw [shape?_succ_eq, shape?_succ_eq, hself.head_eq, hself.inside_eq, hparts]

/-! ### Adding a cell -/

lemma not_has_newList (xs : Array Value) (h : Heap) : ¬ h.Has (h.newList xs).1 := Nat.lt_irrefl _

lemma has_newList (xs : Array Value) (h : Heap) : (h.newList xs).2.Has (h.newList xs).1 := by
  simp [newList, Has]

lemma not_has_newMap (es : Table Key Value) (h : Heap) : ¬ h.Has (h.newMap es).1 := Nat.lt_irrefl _

lemma has_newMap (es : Table Key Value) (h : Heap) : (h.newMap es).2.Has (h.newMap es).1 := by
  simp [newMap, Has]

end Heap

namespace Datum

variable {d d₀ : Datum Command} {ds : List (Datum Command)} {es : List (Key × Datum Command)}
  {around : Option Nat} {h h₀ h₁ h₂ h₃ h' : Heap} {v w x : Value}

/-! ### Storing only adds cells -/

lemma extends_all (hds : ∀ d ∈ ds, ∀ (around : Option Nat) (h : Heap), h.Extends (d.store around h).2)
    (around : Option Nat) (h : Heap) : h.Extends (storeAll ds around h).2 := by
  induction ds generalizing h with
  | nil => exact .refl h
  | cons d ds ih =>
    obtain ⟨hd, hds⟩ := List.forall_mem_cons.mp hds
    exact (hd around h).trans (ih hds _)

lemma extends_entries
    (hes : ∀ e ∈ es, ∀ (around : Option Nat) (h : Heap), h.Extends (e.2.store around h).2)
    (around : Option Nat) (h : Heap) : h.Extends (storeEntries es around h).2 := by
  induction es generalizing h with
  | nil => exact .refl h
  | cons e es ih =>
    obtain ⟨he, hes⟩ := List.forall_mem_cons.mp hes
    exact (he around h).trans (ih hes _)

/-- **What is read is put into new cells.** -/
theorem extends_store :
    ∀ (d : Datum Command) (around : Option Nat) (h : Heap), h.Extends (d.store around h).2
  | .int _, _, h | .str _, _, h | .none, _, h | .command _ _, _, h => .refl h
  | .list items, around, h =>
    (extends_all (fun d (_ : d ∈ items) => extends_store d) around h).trans
      (Heap.extends_newList _ _)
  | .map entries, around, h =>
    have hentries : ∀ e ∈ entries, ∀ (around : Option Nat) (h : Heap),
        h.Extends (e.2.store around h).2 := fun (k, d) he =>
      have : 1 + sizeOf k + sizeOf d < sizeOf entries := List.sizeOf_lt_of_mem he
      extends_store d
    (extends_entries hentries around h).trans (Heap.extends_newMap _ _)
  | .program _ body, around, h =>
    (Heap.extends_newLink around h).trans
      (extends_all (fun d (_ : d ∈ body) => extends_store d) _ _)
  | .each body, around, h => extends_all (fun d (_ : d ∈ body) => extends_store d) around h
  | .loop cond body, around, h =>
    (extends_all (fun d (_ : d ∈ cond) => extends_store d) around h).trans
      (extends_all (fun d (_ : d ∈ body) => extends_store d) around _)
  | .branch cond thn els, around, h =>
    (extends_all (fun d (_ : d ∈ cond) => extends_store d) around h).trans
      ((extends_all (fun d (_ : d ∈ thn) => extends_store d) around _).trans
        (extends_all (fun d (_ : d ∈ els) => extends_store d) around _))

lemma extends_storeAll (ds : List (Datum Command)) (around : Option Nat) (h : Heap) :
    h.Extends (storeAll ds around h).2 :=
  extends_all (fun d _ => d.extends_store) around h

lemma extends_storeEntries (es : List (Key × Datum Command)) (around : Option Nat) (h : Heap) :
    h.Extends (storeEntries es around h).2 :=
  extends_entries (fun e _ => e.2.extends_store) around h

/-! ### What stored data leads to -/

/-- What the datum is made of. -/
def parts {κ : Type} : Datum κ → List (Datum κ)
  | list items => items
  | map entries => entries.map Prod.snd
  | program _ body => body
  | branch cond thn els => cond ++ thn ++ els
  | each body => body
  | loop cond body => cond ++ body
  | _ => []

/-- The datum was stored as this value, with the program in the cell `around` around it, when the heap
had grown out of `h`, and before it grew to `h₁`. -/
def StoredAs (around : Option Nat) (h h₁ : Heap) (d : Datum Command) (v : Value) : Prop :=
  ∃ h₀, h.Extends h₀ ∧ (d.store around h₀).2.Extends h₁ ∧ (d.store around h₀).1 = v

lemma storedAs (d : Datum Command) (around : Option Nat) (h : Heap) :
    StoredAs around h (d.store around h).2 d (d.store around h).1 :=
  ⟨h, .refl h, .refl _, rfl⟩

lemma StoredAs.mono (hd : StoredAs around h₁ h₂ d v) (h₀₁ : h.Extends h₁) (h₂₃ : h₂.Extends h₃) :
    StoredAs around h h₃ d v := by
  obtain ⟨h₀, hx, hx', hv⟩ := hd
  exact ⟨h₀, h₀₁.trans hx, hx'.trans h₂₃, hv⟩

lemma storedAs_getElem {i : Nat} (hv : (storeAll ds around h).1[i]? = some v) :
    ∃ d, ds[i]? = some d ∧ StoredAs around h (storeAll ds around h).2 d v := by
  induction ds generalizing h i with
  | nil => cases hv
  | cons d ds ih =>
    cases i with
    | zero =>
      obtain rfl : (d.store around h).1 = v := by simpa [storeAll] using hv
      exact ⟨d, rfl, (storedAs d around h).mono (.refl h) (extends_storeAll ds _ _)⟩
    | succ i =>
      obtain ⟨d', hd', hst⟩ := ih (h := (d.store around h).2) (by simpa [storeAll] using hv)
      exact ⟨d', by simpa using hd', hst.mono (d.extends_store around h) (.refl _)⟩

lemma storedAs_mem (hv : v ∈ (storeAll ds around h).1) :
    ∃ d ∈ ds, StoredAs around h (storeAll ds around h).2 d v := by
  obtain ⟨i, hi⟩ := List.mem_iff_getElem?.mp hv
  obtain ⟨d, hd, hst⟩ := storedAs_getElem hi
  exact ⟨d, List.mem_of_getElem? hd, hst⟩

lemma keys_storeEntries (es : List (Key × Datum Command)) (around : Option Nat) (h : Heap) :
    (storeEntries es around h).1.map Prod.fst = es.map Prod.fst := by
  induction es generalizing h with
  | nil => rfl
  | cons e es ih =>
    obtain ⟨k, d⟩ := e
    simp [storeEntries, ih]

lemma storedAs_entry {e : Key × Value} (he : e ∈ (storeEntries es around h).1) :
    ∃ d, (e.1, d) ∈ es ∧ StoredAs around h (storeEntries es around h).2 d e.2 := by
  induction es generalizing h with
  | nil => exact (List.not_mem_nil he).elim
  | cons e' es ih =>
    obtain ⟨k, d⟩ := e'
    rcases List.mem_cons.mp he with rfl | he
    · exact ⟨d, List.mem_cons_self, (storedAs d around h).mono (.refl h) (extends_storeEntries es _ _)⟩
    · obtain ⟨d', hd', hst⟩ := ih he
      exact ⟨d', List.mem_cons_of_mem _ hd', hst.mono (d.extends_store around h) (.refl _)⟩

/-- The heap when the parts of the datum are stored: a program has its cell before them. -/
def entered (around : Option Nat) (h : Heap) : Datum Command → Heap
  | program _ _ => (h.newLink around).2
  | _ => h

lemma extends_entered (d : Datum Command) (around : Option Nat) (h : Heap) :
    h.Extends (d.entered around h) := by
  cases d with
  | program _ _ => exact Heap.extends_newLink around h
  | _ => exact .refl h

/-- The parts of a stored value are the parts of the datum, stored. -/
lemma holds_store (hx : (d.store around h).2.Extends h')
    (hholds : h'.Holds (d.store around h).1 x) :
    ∃ d₀ ∈ d.parts, StoredAs ((d.store around h).1.innermost around) (d.entered around h)
      (d.store around h).2 d₀ x := by
  cases d with
  | int _ | str _ | none | command _ _ =>
    rcases hholds with - | - | hbody
    exact (List.not_mem_nil hbody).elim
  | list items =>
    rcases hholds with hmem | - | hbody
    · have hitems := Heap.items_newList hx
      rw [hitems] at hmem
      obtain ⟨d₀, hd₀, hst⟩ := storedAs_mem (by simpa using hmem)
      exact ⟨d₀, hd₀, hst.mono (.refl h) (Heap.extends_newList _ _)⟩
    · exact (List.not_mem_nil hbody).elim
  | map entries =>
    rcases hholds with - | hmem | hbody
    · have hentries := Heap.entries_newMap hx
      rw [hentries] at hmem
      have hes : ∀ e ∈ (Table.ofList (storeEntries entries around h).1).entries,
          ∃ d₀, (e.1, d₀) ∈ entries ∧ StoredAs around h (storeEntries entries around h).2 d₀ e.2 :=
        Table.forall_ofList fun e he => storedAs_entry he
      obtain ⟨d₀, hd₀, hst⟩ := hes _ hmem
      exact ⟨d₀, List.mem_map.mpr ⟨_, hd₀, rfl⟩, hst.mono (.refl h) (Heap.extends_newMap _ _)⟩
    · exact (List.not_mem_nil hbody).elim
  | program _ body =>
    rcases hholds with - | - | hbody
    obtain ⟨d₀, hd₀, hst⟩ := storedAs_mem hbody
    exact ⟨d₀, hd₀, hst⟩
  | each body =>
    rcases hholds with - | - | hbody
    exact storedAs_mem hbody
  | loop cond body =>
    rcases hholds with - | - | hbody
    rcases List.mem_append.mp hbody with hbody | hbody
    · obtain ⟨d₀, hd₀, hst⟩ := storedAs_mem hbody
      exact ⟨d₀, List.mem_append_left _ hd₀, hst.mono (.refl h) (extends_storeAll _ _ _)⟩
    · obtain ⟨d₀, hd₀, hst⟩ := storedAs_mem hbody
      exact ⟨d₀, List.mem_append_right _ hd₀, hst.mono (extends_storeAll _ _ _) (.refl _)⟩
  | branch cond thn els =>
    rcases hholds with - | - | hbody
    rcases List.mem_append.mp hbody with hbody | hbody
    · rcases List.mem_append.mp hbody with hbody | hbody
      · obtain ⟨d₀, hd₀, hst⟩ := storedAs_mem hbody
        exact ⟨d₀, by simp [parts, hd₀],
          hst.mono (.refl h) ((extends_storeAll _ _ _).trans (extends_storeAll _ _ _))⟩
      · obtain ⟨d₀, hd₀, hst⟩ := storedAs_mem hbody
        exact ⟨d₀, by simp [parts, hd₀], hst.mono (extends_storeAll _ _ _) (extends_storeAll _ _ _)⟩
    · obtain ⟨d₀, hd₀, hst⟩ := storedAs_mem hbody
      exact ⟨d₀, by simp [parts, hd₀],
        hst.mono ((extends_storeAll _ _ _).trans (extends_storeAll _ _ _)) (.refl _)⟩

/-- **All that a stored value leads to is part of the datum**, stored with it. -/
theorem StoredAs.leads (hd : StoredAs around h h₁ d v) (hx : h₁.Extends h') (hw : h'.Leads v w) :
    ∃ d₀ around', Relation.ReflTransGen (fun a b => b ∈ a.parts) d d₀ ∧
      StoredAs around' h h₁ d₀ w := by
  induction hw with
  | refl => exact ⟨d, around, .refl, hd⟩
  | tail _ hstep ih =>
    obtain ⟨d₀, around', hd₀, h₀, hx₀, hx₁, rfl⟩ := ih
    obtain ⟨d', hd', hst⟩ := holds_store (hx₁.trans hx) hstep
    exact ⟨d', _, hd₀.tail hd', hst.mono (hx₀.trans (extends_entered _ _ _)) hx₁⟩

/-- A cell that was added in between. -/
lemma StoredAs.isCell (hd : StoredAs around h h₁ d v) (hv : v.IsCell) : ¬ h.Has v ∧ h₁.Has v := by
  obtain ⟨h₀, hx, hx₁, rfl⟩ := hd
  cases d with
  | list items =>
    exact ⟨fun hhas => Heap.not_has_newList _ _
        ((hx.trans (extends_storeAll items around h₀)).has hhas),
      hx₁.has (Heap.has_newList _ _)⟩
  | map entries =>
    exact ⟨fun hhas => Heap.not_has_newMap _ _
        ((hx.trans (extends_storeEntries entries around h₀)).has hhas),
      hx₁.has (Heap.has_newMap _ _)⟩
  | _ => simp [store, Value.IsCell, Value.kind] at hv

/-- All cells that a stored value leads to were added in between. -/
lemma StoredAs.cells (hd : StoredAs around h h₁ d v) (hx : h₁.Extends h') (hw : h'.Leads v w)
    (hcell : w.IsCell) : ¬ h.Has w ∧ h₁.Has w := by
  obtain ⟨d₀, _, -, hst⟩ := hd.leads hx hw
  exact hst.isCell hcell

end Datum

end ReversePolish

import Mathlib.Data.List.Basic
import Mathlib.Data.List.Induction
import ReversePolish.Table

/-!
Tables as lists of entries.
-/

namespace ReversePolish

universe u v w

variable {κ : Type u} {α : Type v} {es : List (κ × α)} {k : κ} {a : α}

/-- One more element either is where a list is cut, or stands at the end of what comes after. -/
lemma concat_eq_append_cons_iff {xs before after : List α} {x y : α} :
    xs ++ [x] = before ++ y :: after ↔
      xs = before ∧ x = y ∧ after = [] ∨ ∃ mid, xs = before ++ y :: mid ∧ after = mid ++ [x] := by
  constructor
  · intro h
    rcases List.eq_nil_or_concat' after with rfl | ⟨mid, z, rfl⟩
    · obtain ⟨hxs, hx⟩ := List.append_inj' h rfl
      exact .inl ⟨hxs, List.singleton_inj.mp hx, rfl⟩
    · rw [← List.cons_append, ← List.append_assoc] at h
      obtain ⟨hxs, hx⟩ := List.append_inj' h rfl
      exact .inr ⟨mid, hxs, by rw [hx]⟩
  · rintro (⟨rfl, rfl, rfl⟩ | ⟨mid, rfl, rfl⟩)
    · rfl
    · rw [List.append_assoc, List.cons_append]

/-- Among these entries, the last one for the key has this value. -/
def LastBound (es : List (κ × α)) (k : κ) (a : α) : Prop :=
  ∃ before after, es = before ++ (k, a) :: after ∧ ∀ e ∈ after, e.1 ≠ k

lemma lastBound_concat {e : κ × α} :
    LastBound (es ++ [e]) k a ↔ e = (k, a) ∨ e.1 ≠ k ∧ LastBound es k a := by
  constructor
  · rintro ⟨before, after, hes, hafter⟩
    rcases concat_eq_append_cons_iff.mp hes with ⟨-, he, -⟩ | ⟨mid, rfl, rfl⟩
    · exact .inl he
    · exact .inr ⟨hafter e (by simp), before, mid, rfl, fun e' he' => hafter e' (by simp [he'])⟩
  · rintro (he | ⟨hk, before, after, hes, hafter⟩)
    · exact ⟨es, [], concat_eq_append_cons_iff.mpr (.inl ⟨rfl, he, rfl⟩), by simp⟩
    · refine ⟨before, after ++ [e], concat_eq_append_cons_iff.mpr (.inr ⟨after, hes, rfl⟩), ?_⟩
      intro e' he'
      rcases List.mem_append.mp he' with he' | he'
      · exact hafter e' he'
      · exact List.mem_singleton.mp he' ▸ hk

lemma lastBound_append {fs : List (κ × α)} :
    LastBound (es ++ fs) k a ↔ LastBound fs k a ∨ k ∉ fs.map Prod.fst ∧ LastBound es k a := by
  induction fs using List.reverseRecOn with
  | nil =>
    have hnil : ¬ LastBound ([] : List (κ × α)) k a := fun ⟨_, _, h, _⟩ => by simp at h
    simp [hnil]
  | append_singleton fs e ih =>
    rw [← List.append_assoc, lastBound_concat, lastBound_concat, ih, List.map_append,
      List.mem_append, List.map_singleton, List.mem_singleton]
    by_cases hk : k = e.1
    · simp [hk]
    · simp [hk, Ne.symm hk, or_assoc]

lemma exists_lastBound : (∃ a, LastBound es k a) ↔ k ∈ es.map Prod.fst := by
  induction es using List.reverseRecOn with
  | nil => simp [LastBound]
  | append_singleton es e ih =>
    rw [List.map_append, List.mem_append, ← ih, List.map_singleton, List.mem_singleton]
    simp only [lastBound_concat]
    by_cases hk : k = e.1
    · exact iff_of_true ⟨e.2, .inl (hk ▸ rfl)⟩ (.inr hk)
    · have hne : ∀ a, e ≠ (k, a) := fun a he => hk (he ▸ rfl)
      simp [hk, Ne.symm hk, hne]

/-- Values in the same place have the same key. -/
lemma exists_key_of_zip {fs : List (κ × α)} (hkeys : es.map Prod.fst = fs.map Prod.fst) {e : α × α}
    (he : e ∈ (es.map Prod.snd).zip (fs.map Prod.snd)) : ∃ k, (k, e.1) ∈ es ∧ (k, e.2) ∈ fs := by
  induction es generalizing fs with
  | nil => cases he
  | cons x es ih =>
    cases fs with
    | nil => cases hkeys
    | cons y fs =>
      obtain ⟨hkey, hkeys⟩ := List.cons.inj hkeys
      rcases List.mem_cons.mp he with rfl | he
      · exact ⟨x.1, List.mem_cons_self, hkey ▸ List.mem_cons_self⟩
      · obtain ⟨k, hleft, hright⟩ := ih hkeys he
        exact ⟨k, List.mem_cons_of_mem x hleft, List.mem_cons_of_mem y hright⟩

variable [Ord κ]

lemma ascending_iff_keys :
    Ascending es ↔ (es.map Prod.fst).Pairwise fun a b => compare a b = .lt := by
  rw [List.pairwise_map]
  rfl

namespace Table

lemma mem_of_find? [Std.LawfulEqOrd κ] {t : Table κ α} {k : κ} {a : α} (h : t.find? k = some a) :
    (k, a) ∈ t.entries := by
  rw [find?, Option.map_eq_some_iff] at h
  obtain ⟨⟨k', a'⟩, he, rfl⟩ := h
  obtain rfl : k' = k := by
    have := List.find?_some he
    simpa using this
  exact List.mem_of_find?_eq_some he

/-- No two entries have the same key. -/
lemma find?_eq_some_iff [Std.LawfulEqOrd κ] {t : Table κ α} {k : κ} {a : α} :
    t.find? k = some a ↔ (k, a) ∈ t.entries := by
  refine ⟨mem_of_find?, fun hmem => ?_⟩
  rw [find?, Option.map_eq_some_iff]
  refine ⟨(k, a), ?_, rfl⟩
  have hascending := t.ascending
  obtain ⟨before, after, hentries⟩ := List.append_of_mem hmem
  rw [hentries] at hascending ⊢
  rw [List.find?_append, List.find?_eq_none.mpr, Option.none_or, List.find?_cons_of_pos (by simp)]
  intro e he
  have hlt := (List.pairwise_append.mp hascending).2.2 e he (k, a) List.mem_cons_self
  simp [hlt]

lemma mem_keys_iff [Std.LawfulEqOrd κ] {t : Table κ α} {k : κ} :
    k ∈ t.keys ↔ ∃ a, t.find? k = some a := by
  simp [keys, find?_eq_some_iff]

lemma find?_erase [Std.LawfulEqOrd κ] [DecidableEq κ] (t : Table κ α) (k k' : κ) :
    (t.erase k).find? k' = if k' = k then none else t.find? k' := by
  refine Option.ext fun a => ?_
  rw [find?_eq_some_iff, erase, List.mem_filter, ← find?_eq_some_iff]
  split <;> next h => simp [h]

@[simp] lemma find?_empty (k : κ) : (∅ : Table κ α).find? k = none := rfl

lemma find?_insertEntry_self [Std.LawfulEqOrd κ] (k : κ) (a : α) (es : List (κ × α)) :
    (insertEntry k a es).find? (fun e => compare e.1 k == .eq) = some (k, a) := by
  induction es with
  | nil => simp [insertEntry]
  | cons e es ih =>
    unfold insertEntry
    split
    · simp
    · simp
    · next hgt =>
      have hne : e.1 ≠ k := by
        rintro rfl
        simp at hgt
      simpa [hne] using ih

lemma find?_insertEntry_of_ne [Std.LawfulEqOrd κ] {k k' : κ} (hk : k ≠ k') (a : α)
    (es : List (κ × α)) :
    (insertEntry k a es).find? (fun e => compare e.1 k' == .eq) =
      es.find? fun e => compare e.1 k' == .eq := by
  induction es with
  | nil => simp [insertEntry, hk]
  | cons e es ih =>
    unfold insertEntry
    split
    · simp [hk]
    · next heq =>
      have hke : k = e.1 := Std.LawfulEqCmp.eq_of_compare heq
      simp [hk, ← hke]
    · simp only [List.find?_cons, ih]

lemma insertEntry_of_greatest [Std.TransOrd κ] {k : κ} {a : α} {es : List (κ × α)}
    (h : ∀ e ∈ es, compare e.1 k = .lt) : insertEntry k a es = es ++ [(k, a)] := by
  induction es with
  | nil => rfl
  | cons e es ih =>
    have hk : compare k e.1 = .gt := Std.OrientedCmp.gt_of_lt (h e List.mem_cons_self)
    rw [insertEntry, hk]
    simp only [List.cons_append]
    rw [ih fun e' he' => h e' (List.mem_cons_of_mem e he')]

/-! ### Values replaced -/

section

variable {β : Type w} {f : α → β}

@[simp] lemma entries_map (f : α → β) (t : Table κ α) :
    (t.map f).entries = t.entries.map fun e => (e.1, f e.2) := rfl

@[simp] lemma map_empty (f : α → β) : (∅ : Table κ α).map f = ∅ := rfl

@[simp] lemma isEmpty_map (f : α → β) (t : Table κ α) : (t.map f).isEmpty = t.isEmpty := by
  simp [isEmpty]

@[simp] lemma size_map (f : α → β) (t : Table κ α) : (t.map f).size = t.size := by simp [size]

@[simp] lemma keys_map (f : α → β) (t : Table κ α) : (t.map f).keys = t.keys := by
  simp [keys, Function.comp_def]

@[simp] lemma values_map (f : α → β) (t : Table κ α) : (t.map f).values = t.values.map f := by
  simp [values, Function.comp_def]

@[simp] lemma find?_map (f : α → β) (t : Table κ α) (k : κ) :
    (t.map f).find? k = (t.find? k).map f := by
  simp [find?, List.find?_map, Function.comp_def]

@[simp] lemma contains_map (f : α → β) (t : Table κ α) (k : κ) :
    (t.map f).contains k = t.contains k := by
  simp [contains]

lemma erase_map (f : α → β) (t : Table κ α) (k : κ) : (t.map f).erase k = (t.erase k).map f :=
  ext_entries (by simp [erase, List.filter_map, Function.comp_def])

lemma insertEntry_map (f : α → β) (k : κ) (a : α) (es : List (κ × α)) :
    insertEntry k (f a) (es.map fun e => (e.1, f e.2)) =
      (insertEntry k a es).map fun e => (e.1, f e.2) := by
  induction es with
  | nil => rfl
  | cons e es ih =>
    simp only [List.map_cons, insertEntry]
    split <;> simp [ih]

lemma map_map {γ : Type*} (g : β → γ) (f : α → β) (t : Table κ α) :
    (t.map f).map g = t.map (g ∘ f) :=
  ext_entries (by simp)

lemma map_congr {g : α → β} {t : Table κ α} (h : ∀ e ∈ t.entries, f e.2 = g e.2) :
    t.map f = t.map g :=
  ext_entries (List.map_congr_left fun e he => by rw [h e he])

lemma map_id (t : Table κ α) : t.map id = t := ext_entries (by simp)

end

variable [Std.TransOrd κ] [Std.LawfulEqOrd κ]

lemma insert_map {β : Type w} (f : α → β) (t : Table κ α) (k : κ) (a : α) :
    (t.map f).insert k (f a) = (t.insert k a).map f :=
  ext_entries (insertEntry_map f k a t.entries)

lemma ofList_map {β : Type w} (f : α → β) (es : List (κ × α)) :
    ofList (es.map fun e => (e.1, f e.2)) = (ofList es).map f := by
  have hfold (t : Table κ α) : (es.map fun e => (e.1, f e.2)).foldl
        (fun t e => t.insert e.1 e.2) (t.map f) =
      (es.foldl (fun t e => t.insert e.1 e.2) t).map f := by
    induction es generalizing t with
    | nil => rfl
    | cons e es ih => rw [List.map_cons, List.foldl_cons, List.foldl_cons, insert_map, ih]
  exact hfold ∅

@[simp] lemma find?_insert_self (t : Table κ α) (k : κ) (a : α) :
    (t.insert k a).find? k = some a := by
  simp [find?, insert, find?_insertEntry_self]

lemma find?_insert_of_ne {k k' : κ} (hk : k ≠ k') (t : Table κ α) (a : α) :
    (t.insert k a).find? k' = t.find? k' := by
  simp [find?, insert, find?_insertEntry_of_ne hk]

lemma find?_insert [DecidableEq κ] (t : Table κ α) (k k' : κ) (a : α) :
    (t.insert k a).find? k' = if k' = k then some a else t.find? k' := by
  split
  · next h => rw [h, find?_insert_self]
  · next h => exact find?_insert_of_ne (Ne.symm h) t a

@[simp] lemma contains_insert (t : Table κ α) (k k' : κ) (a : α) :
    (t.insert k a).contains k' = true ↔ k' = k ∨ t.contains k' = true := by
  by_cases h : k = k'
  · subst h
    simp [contains]
  · simp [contains, find?_insert_of_ne h, Ne.symm h]

lemma entries_foldl_insert (t : Table κ α) {es : List (κ × α)} (h : Ascending (t.entries ++ es)) :
    (es.foldl (fun t e => t.insert e.1 e.2) t).entries = t.entries ++ es := by
  induction es generalizing t with
  | nil => simp
  | cons e es ih =>
    have hins : (t.insert e.1 e.2).entries = t.entries ++ [e] := by
      refine insertEntry_of_greatest fun e' he' => ?_
      exact (List.pairwise_append.mp h).2.2 e' he' e List.mem_cons_self
    rw [List.foldl_cons, ih _ (by rw [hins]; simpa using h), hins, List.append_assoc]
    rfl

/-- A table made of entries that ascend has exactly these entries. -/
theorem entries_ofList {es : List (κ × α)} (h : Ascending es) : (ofList es).entries = es :=
  entries_foldl_insert ∅ h

/-- A property of all entries stays when one is put in. -/
lemma forall_insert {p : κ × α → Prop} {t : Table κ α} {k : κ} {a : α} (h : ∀ e ∈ t.entries, p e)
    (hk : p (k, a)) : ∀ e ∈ (t.insert k a).entries, p e := by
  intro e he
  rcases mem_insertEntry he with rfl | he
  · exact hk
  · exact h e he

lemma forall_ofList {p : κ × α → Prop} {es : List (κ × α)} (h : ∀ e ∈ es, p e) :
    ∀ e ∈ (ofList es).entries, p e := by
  have hfold : ∀ t : Table κ α, (∀ e ∈ t.entries, p e) →
      ∀ e ∈ (es.foldl (fun t e => t.insert e.1 e.2) t).entries, p e := by
    induction es with
    | nil => exact fun t ht => ht
    | cons e es ih =>
      intro t ht
      have he := h e List.mem_cons_self
      exact ih (fun e' he' => h e' (List.mem_cons_of_mem e he')) _ (forall_insert ht he)
  exact hfold ∅ (fun e he => (List.not_mem_nil he).elim)

/-! ### Tables made of entries -/

lemma ofList_concat (es : List (κ × α)) (e : κ × α) :
    ofList (es ++ [e]) = (ofList es).insert e.1 e.2 := by
  simp [ofList]

/-- **A table made of entries binds each key as the last of them for that key does.** -/
theorem find?_ofList_eq_some_iff : (ofList es).find? k = some a ↔ LastBound es k a := by
  classical
  induction es using List.reverseRecOn with
  | nil =>
    refine ⟨fun h => (Option.some_ne_none a h.symm).elim, ?_⟩
    rintro ⟨before, after, hes, -⟩
    simp at hes
  | append_singleton es e ih =>
    rw [ofList_concat, find?_insert, lastBound_concat, ← ih]
    obtain ⟨k', a'⟩ := e
    by_cases hk : k = k'
    · subst hk
      simp
    · simp [hk, Ne.symm hk]

lemma mem_keys_ofList : k ∈ (ofList es).keys ↔ k ∈ es.map Prod.fst := by
  rw [mem_keys_iff, ← exists_lastBound]
  exact exists_congr fun a => find?_ofList_eq_some_iff

lemma lastBound_iff_mem (h : Ascending es) : LastBound es k a ↔ (k, a) ∈ es := by
  rw [← find?_ofList_eq_some_iff, find?_eq_some_iff, entries_ofList h]

/-- Tables with the same keys have them in the same order. -/
lemma keys_eq {t u : Table κ α} (h : ∀ k, k ∈ t.keys ↔ k ∈ u.keys) : t.keys = u.keys := by
  have hascending (t : Table κ α) : t.keys.Pairwise fun a b => compare a b = .lt :=
    ascending_iff_keys.mp t.ascending
  have hnodup (t : Table κ α) : t.keys.Nodup := (hascending t).imp fun hlt heq => by
    rw [heq, Std.ReflOrd.compare_self] at hlt
    cases hlt
  refine List.Perm.eq_of_pairwise (fun a b _ _ hab hba => ?_) (hascending t) (hascending u)
    ((List.perm_ext_iff_of_nodup (hnodup t) (hnodup u)).mpr h)
  exact (Std.OrientedCmp.not_lt_of_lt hab hba).elim

end Table

end ReversePolish

import ReversePolish.Proofs.Value.Placed

/-!
Cells added earlier or later. What is read can be given its cells now, so that what is added afterwards
comes behind them, or it can be given its cells only then. The heaps are the same but for the order of
the cells.
-/

namespace ReversePolish

/-! ### Places -/

/-- The place of a cell when `n` places are left out, from `start` on. -/
def skip (start n c : Nat) : Nat := if c < start then c else c + n

/-- The place of a cell when the places from `start` to `stop` change places with the `n` behind
them. -/
def exchange (start stop n c : Nat) : Nat :=
  if c < start then c
  else if c < stop then c + n
  else if c < stop + n then c - (stop - start)
  else c

section

variable {start stop n c : Nat}

lemma skip_of_lt (h : c < start) : skip start n c = c := if_pos h

lemma skip_add (i : Nat) : skip start n (start + i) = start + n + i := by
  rw [skip, if_neg (by omega)]
  omega

lemma skip_injective : Function.Injective (skip start n) := by
  intro c d
  unfold skip
  split <;> split <;> omega

lemma not_mem_range_skip {i : Nat} (h : i < n) : start + i ∉ Set.range (skip start n) := by
  rintro ⟨c, hc⟩
  unfold skip at hc
  split at hc <;> omega

lemma exchange_of_lt (hc : c < stop) :
    exchange start stop n c = skip start n c := by
  unfold exchange skip
  repeat' split
  all_goals omega

lemma exchange_skip (h : start ≤ stop) (hc : c < start + n) :
    exchange start stop n (skip start (stop - start) c) = c := by
  unfold exchange skip
  repeat' split
  all_goals omega

lemma exchange_add (h : start ≤ stop) (i : Nat) :
    exchange start stop n (stop + n + i) = stop + n + i := by
  unfold exchange
  rw [if_neg (by omega), if_neg (by omega), if_neg (by omega)]

/-- On both sides the same number of places is added to those that there are. -/
lemma sizes_exchange {left right : Nat} (h : start ≤ stop) (hn : start ≤ n)
    (hright : skip start (n - start) stop = right) (hleft : skip start (stop - start) n = left) :
    right = stop + (n - start) ∧ left = stop + (n - start) := by
  unfold skip at hright hleft
  rw [if_neg (by omega)] at hright hleft
  omega

lemma exchange_injective (h : start ≤ stop) : Function.Injective (exchange start stop n) := by
  intro c d
  unfold exchange
  repeat' split
  all_goals omega

end

/-! ### Heaps -/

namespace Heap

variable {h h₀ h₁ h' k : Heap}

/-- Cells added to the first heap go where cells added to the second one do. -/
def skipTo (h h' : Heap) : Renaming where
  list := skip h.lists.size (h'.lists.size - h.lists.size)
  map := skip h.maps.size (h'.maps.size - h.maps.size)
  program := skip h.links.size (h'.links.size - h.links.size)

/-- What has been added to the first heap to come to the second one changes places with what has been
added to it to come to the third one. -/
def exchanged (h₀ h₁ k : Heap) : Renaming where
  list := exchange h₀.lists.size h₁.lists.size (k.lists.size - h₀.lists.size)
  map := exchange h₀.maps.size h₁.maps.size (k.maps.size - h₀.maps.size)
  program := exchange h₀.links.size h₁.links.size (k.links.size - h₀.links.size)

/-- No cell has gone. -/
structure Within (h h' : Heap) : Prop where
  lists : h.lists.size ≤ h'.lists.size
  maps : h.maps.size ≤ h'.maps.size
  links : h.links.size ≤ h'.links.size

lemma Within.trans (hw : h.Within h₁) (hw' : h₁.Within h') : h.Within h' :=
  ⟨hw.lists.trans hw'.lists, hw.maps.trans hw'.maps, hw.links.trans hw'.links⟩

lemma Extends.within (hx : h.Extends h') : h.Within h' :=
  ⟨hx.size_lists, hx.size_maps, hx.size_links⟩

lemma Within.has (hw : h.Within h') {v : Value} (hv : h.Has v) : h'.Has v := by
  cases v with
  | list c => exact Nat.lt_of_lt_of_le hv hw.lists
  | map c => exact Nat.lt_of_lt_of_le hv hw.maps
  | _ => exact hv.elim

/-- What is in storage stays so as long as no cell goes away. -/
lemma Within.stored (hw : h.Within h') {v : Value} (hv : v.Stored h) : v.Stored h' := by
  induction hv with
  | cell hhas => exact .cell (hw.has hhas)
  | int n => exact .int n
  | str s => exact .str s
  | none => exact .none
  | program hcell _ ih => exact .program (fun c hc => (hcell c hc).trans_le hw.links) ih
  | command hcell _ ih =>
    exact .command (fun p hp c hc => (hcell p hp c hc).trans_le hw.links) ih
  | branch _ _ _ ihc iht ihe => exact .branch ihc iht ihe
  | each _ ih => exact .each ih
  | loop _ _ ihc ihb => exact .loop ihc ihb

lemma agreeOn_skipTo (h h' : Heap) : Renaming.AgreeOn h (skipTo h h') .refl :=
  ⟨fun _ => skip_of_lt, fun _ => skip_of_lt, fun _ => skip_of_lt⟩

lemma matched_skipTo (hw : h.Within h') : Matched (skipTo h h') h h' where
  newLists i := by
    have := hw.lists
    simp only [skipTo, skip_add]
    omega
  newMaps i := by
    have := hw.maps
    simp only [skipTo, skip_add]
    omega
  newLinks i := by
    have := hw.links
    simp only [skipTo, skip_add]
    omega

section

variable {ρ σ : Renaming}

lemma AllHold.items_rename (hh : h.AllHold (Value.Stored k)) (hρσ : Renaming.AgreeOn k ρ σ)
    (c : Nat) : (h.items c).map (Value.rename ρ) = (h.items c).map (Value.rename σ) :=
  Array.map_congr_left fun v hv => (hh.items c v hv).rename_congr hρσ

lemma AllHold.entries_rename (hh : h.AllHold (Value.Stored k)) (hρσ : Renaming.AgreeOn k ρ σ)
    (c : Nat) : (h.entries c).map (Value.rename ρ) = (h.entries c).map (Value.rename σ) :=
  Table.map_congr fun e he => (hh.entries c e he).rename_congr hρσ

lemma AllHold.link_rename (hh : h.AllHold (Value.Stored k)) (hρσ : Renaming.AgreeOn k ρ σ)
    (c : Nat) : (h.link c).map ρ.program = (h.link c).map σ.program :=
  hρσ.option_map fun e he => Value.mayLie_stored.mp (hh.links c e he)

end

/-- Cells that are added to a heap, and that nothing names, change nothing about what it holds. -/
theorem renamed_skipTo (hx : h.Extends h') (hh : h.AllHold (Value.Stored h)) :
    h.Renamed (skipTo h h') h' h' where
  toMatched := matched_skipTo hx.within
  listInjective := skip_injective
  mapInjective := skip_injective
  programInjective := skip_injective
  items c := by
    rw [hh.items_rename (agreeOn_skipTo h h'), Value.rename_refl_eq, Array.map_id]
    by_cases hc : c < h.lists.size
    · rw [(agreeOn_skipTo h h').list c hc]
      exact hx.items hc
    · obtain ⟨i, rfl⟩ := Nat.exists_eq_add_of_le (Nat.le_of_not_lt hc)
      rw [(matched_skipTo hx.within).newLists, items_of_le (Nat.le_add_right _ _),
        items_of_le (Nat.le_add_right _ _)]
  entries c := by
    rw [hh.entries_rename (agreeOn_skipTo h h'), Value.rename_refl_eq, Table.map_id]
    by_cases hc : c < h.maps.size
    · rw [(agreeOn_skipTo h h').map c hc]
      exact hx.entries hc
    · obtain ⟨i, rfl⟩ := Nat.exists_eq_add_of_le (Nat.le_of_not_lt hc)
      rw [(matched_skipTo hx.within).newMaps, entries_of_le (Nat.le_add_right _ _),
        entries_of_le (Nat.le_add_right _ _)]
  links c := by
    rw [hh.link_rename (agreeOn_skipTo h h'), Renaming.refl, Option.map_id, id]
    by_cases hc : c < h.links.size
    · rw [(agreeOn_skipTo h h').program c hc]
      exact link_of_extends hx hc
    · obtain ⟨i, rfl⟩ := Nat.exists_eq_add_of_le (Nat.le_of_not_lt hc)
      rw [(matched_skipTo hx.within).newLinks, link_of_le (Nat.le_add_right _ _),
        link_of_le (Nat.le_add_right _ _)]
  otherItems _ _ := rfl
  otherEntries _ _ := rfl
  otherLinks _ _ := rfl

/-- Contents that have changed places. On the one side `early` was added to what there was before, and
what came later behind it; on the other side what was added there is `late`. -/
lemma contents_exchange {α : Type} {start stop n : Nat} {f g r : α → α}
    {early work work' late : Nat → α} (hle : start ≤ stop)
    (hwork : ∀ c, work' (skip start n c) = f (work c)) (hagree : ∀ c, f (work c) = g (work c))
    (hearly : ∀ c, c ∉ Set.range (skip start n) → work' c = early c)
    (hbefore : ∀ c < stop, late c = work c)
    (hlate : ∀ c, start ≤ c → late (skip start (stop - start) c) = r (early c))
    (hback : ∀ c, g (r (early c)) = early c)
    (hend : ∀ i, work' (stop + n + i) = g (late (stop + n + i))) (c : Nat) :
    work' (exchange start stop n c) = g (late c) := by
  -- Cells from before, cells that change places with them, and cells behind both.
  by_cases hc : c < stop
  · rw [exchange_of_lt hc, hwork, hagree, hbefore c hc]
  · obtain ⟨i, rfl⟩ := Nat.exists_eq_add_of_le (Nat.le_of_not_lt hc)
    by_cases hi : i < n
    · have hplace : skip start (stop - start) (start + i) = stop + i := by
        rw [skip_add]
        omega
      rw [← hplace, exchange_skip hle (by omega), hearly _ (not_mem_range_skip hi),
        hlate _ (Nat.le_add_right _ _), hback]
    · obtain ⟨j, rfl⟩ := Nat.exists_eq_add_of_le (Nat.le_of_not_lt hi)
      rw [← Nat.add_assoc, exchange_add hle, hend]

section

variable {start early work late : Heap}

/-- What was there before is named as on the heap that has skipped the cells added early. -/
lemma agreeOn_exchanged (start early work : Heap) :
    Renaming.AgreeOn work (skipTo start early) (exchanged start work early) :=
  ⟨fun _ hc => (exchange_of_lt hc).symm, fun _ hc => (exchange_of_lt hc).symm,
    fun _ hc => (exchange_of_lt hc).symm⟩

/-- What was added early goes to where it is added later, and from there back. -/
lemma agreeOn_back (hx : start.Extends early) (hw : start.Within work) :
    Renaming.AgreeOn early ((skipTo start work).trans (exchanged start work early)) .refl := by
  have hlists := hx.within.lists
  have hmaps := hx.within.maps
  have hlinks := hx.within.links
  exact ⟨fun c hc => exchange_skip hw.lists (by omega), fun c hc => exchange_skip hw.maps (by omega),
    fun c hc => exchange_skip hw.links (by omega)⟩

/-- **What is added later may have been added before.** Heap `h'` is what `work` is, but with what
`early` has in addition to `start`, and to `late` the same has been added behind what is in `work`.
Then `h'` and `late` hold the same. -/
theorem renamed_exchanged (hx : start.Extends early) (hw : start.Within work)
    (hwork : work.Renamed (skipTo start early) h' early)
    (hlate : GrownAlike (skipTo start work) start early work late)
    (hstored : work.AllHold (Value.Stored work)) (hearly : early.AllHold (Value.Stored early)) :
    late.Renamed (exchanged start work early) h' h' := by
  have hagree := agreeOn_exchanged start early work
  have hback := agreeOn_back hx hw
  have hlists := sizes_exchange hw.lists hx.within.lists hwork.newList_eq hlate.newList_eq
  have hmaps := sizes_exchange hw.maps hx.within.maps hwork.newMap_eq hlate.newMap_eq
  have hlinks := sizes_exchange hw.links hx.within.links hwork.newLink_eq hlate.newLink_eq
  exact {
    newLists := fun i => by
      rw [hlists.1, hlists.2]
      exact exchange_add hw.lists i
    newMaps := fun i => by
      rw [hmaps.1, hmaps.2]
      exact exchange_add hw.maps i
    newLinks := fun i => by
      rw [hlinks.1, hlinks.2]
      exact exchange_add hw.links i
    listInjective := exchange_injective hw.lists
    mapInjective := exchange_injective hw.maps
    programInjective := exchange_injective hw.links
    items := contents_exchange hw.lists hwork.items
      (hstored.items_rename hagree) hwork.otherItems (fun c hc => hlate.right.items hc)
      (fun c hc => hlate.items c hc)
      (fun c => by
        rw [Array.map_map, Value.rename_comp, hearly.items_rename hback, Value.rename_refl_eq,
          Array.map_id])
      fun i => by rw [items_of_le (by omega), items_of_le (by omega), Array.map_empty]
    entries := contents_exchange hw.maps hwork.entries
      (hstored.entries_rename hagree) hwork.otherEntries (fun c hc => hlate.right.entries hc)
      (fun c hc => hlate.entries c hc)
      (fun c => by
        rw [Table.map_map, Value.rename_comp, hearly.entries_rename hback, Value.rename_refl_eq,
          Table.map_id])
      fun i => by rw [entries_of_le (by omega), entries_of_le (by omega), Table.map_empty]
    links := contents_exchange hw.links hwork.links
      (hstored.link_rename hagree) hwork.otherLinks (fun c hc => link_of_extends hlate.right hc)
      (fun c hc => hlate.links c hc)
      (fun c => by
        have hlink := hearly.link_rename hback c
        rwa [Renaming.refl, Option.map_id, Renaming.trans, ← Option.map_map] at hlink)
      fun i => by rw [link_of_le (by omega), link_of_le (by omega), Option.map_none]
    otherItems := fun _ _ => rfl
    otherEntries := fun _ _ => rfl
    otherLinks := fun _ _ => rfl }

end

end Heap

end ReversePolish

import ReversePolish.Lifetime
import ReversePolish.Proofs.Value.Cells

/-!
What lasts. The cells that are there are the largest set of cells of which each is held from outside or
by one of them. So all that lies in a value lasts as long as the value does.
-/

namespace ReversePolish

lemma mem_cellsOfAll {vs : List Value} {c : Cell} : c ∈ cellsOfAll vs ↔ ∃ v ∈ vs, c ∈ v.cells := by
  induction vs with
  | nil => simp [cellsOfAll]
  | cons v vs ih => rw [cellsOfAll, List.mem_append, ih, List.exists_mem_cons_iff]

/-- What lies in the bodies of a value is part of it. -/
lemma Value.mem_cells_of_body {v x : Value} {c : Cell} (hx : x ∈ v.bodyItems) (hc : c ∈ x.cells) :
    c ∈ v.cells := by
  have hall {vs : List Value} (hmem : x ∈ vs) : c ∈ cellsOfAll vs := mem_cellsOfAll.mpr ⟨x, hmem, hc⟩
  cases v with
  | program p =>
    cases p
    exact List.mem_append_right _ (hall hx)
  | each body => exact hall hx
  | loop cond body =>
    exact (List.mem_append.mp hx).elim (fun hx => List.mem_append_left _ (hall hx))
      fun hx => List.mem_append_right _ (hall hx)
  | branch cond thn els =>
    rcases List.mem_append.mp hx with hx | hx
    · refine List.mem_append_left _ ?_
      exact (List.mem_append.mp hx).elim (fun hx => List.mem_append_left _ (hall hx))
        fun hx => List.mem_append_right _ (hall hx)
    · exact List.mem_append_right _ (hall hx)
  | _ => exact (List.not_mem_nil hx).elim

namespace Heap

variable {h : Heap} {outside cs : List Cell} {roots : List Value} {c c' : Cell} {v w x : Value}
  {S : Cell → Prop}

/-! ### The cells that are there -/

/-- Each cell of the set is held from outside or by a cell of the set. -/
def Supported (h : Heap) (outside : List Cell) (S : Cell → Prop) : Prop :=
  ∀ c, S c → c ∈ outside ∨ ∃ c', S c' ∧ c ∈ h.contents c'

lemma mem_held : c ∈ h.held outside cs ↔ c ∈ cs ∧ (c ∈ outside ∨ ∃ c' ∈ cs, c ∈ h.contents c') := by
  simp [held]

/-- Nothing is let go that supports itself. -/
lemma mem_release (hS : h.Supported outside S) (hcs : ∀ c, S c → c ∈ cs) (hc : S c) :
    c ∈ h.release outside cs := by
  induction cs using release.induct h outside with
  | case1 cs hlt ih =>
    rw [release, if_pos hlt]
    refine ih fun c hc => mem_held.mpr ⟨hcs c hc, ?_⟩
    exact (hS c hc).imp_right fun ⟨c', hc', hmem⟩ => ⟨c', hcs c' hc', hmem⟩
  | case2 cs hlt =>
    rw [release, if_neg hlt]
    exact hcs c hc

lemma supported_release : h.Supported outside (· ∈ h.release outside cs) := by
  induction cs using release.induct h outside with
  | case1 cs hlt ih =>
    rw [release, if_pos hlt]
    exact ih
  | case2 cs hlt =>
    rw [release, if_neg hlt]
    have hkeep : h.held outside cs = cs :=
      List.filter_sublist.eq_of_length_le (Nat.le_of_not_lt hlt)
    intro c hc
    have hheld : c ∈ h.held outside cs := by rwa [hkeep]
    exact (mem_held.mp hheld).2

/-- Only a list or a map that there is holds anything. -/
lemma mem_inner_of_contents (hc : c ∈ h.contents c') : c ∈ h.inner := by
  cases c' with
  | list i =>
    have hi : i < h.lists.size := by
      by_contra hi
      have hnone : h.items i = #[] := by simp [items, Array.getD_eq_getD_getElem?, hi]
      rw [contents, hnone] at hc
      exact List.not_mem_nil hc
    exact List.mem_append_left _ (List.mem_flatMap.mpr ⟨i, List.mem_range.mpr hi, hc⟩)
  | map i =>
    have hi : i < h.maps.size := by
      by_contra hi
      have hnone : h.entries i = ∅ := by simp [entries, Array.getD_eq_getD_getElem?, hi]
      rw [contents, hnone] at hc
      exact List.not_mem_nil hc
    exact List.mem_append_right _ (List.mem_flatMap.mpr ⟨i, List.mem_range.mpr hi, hc⟩)
  | program i => exact (List.not_mem_nil hc).elim

/-- **The cells that are there** are all those that are held from outside or by one another. -/
theorem mem_alive_iff :
    c ∈ h.alive roots ↔ ∃ S : Cell → Prop, h.Supported (cellsOfAll roots) S ∧ S c := by
  refine ⟨fun hc => ⟨_, supported_release, hc⟩, fun ⟨S, hS, hc⟩ => mem_release hS (fun c hc => ?_) hc⟩
  exact List.mem_append.mpr ((hS c hc).imp_right fun ⟨_, _, hmem⟩ => mem_inner_of_contents hmem)

/-- What is held from outside is there. -/
lemma mem_alive_of_root (hv : v ∈ roots) (hc : c ∈ v.cells) : c ∈ h.alive roots :=
  mem_alive_iff.mpr ⟨(· ∈ cellsOfAll roots), fun _ => .inl, mem_cellsOfAll.mpr ⟨v, hv, hc⟩⟩

/-- What is held by a cell that is there is there as well. -/
lemma mem_alive_of_contents (hc' : c' ∈ h.alive roots) (hc : c ∈ h.contents c') :
    c ∈ h.alive roots := by
  refine mem_alive_iff.mpr ⟨fun a => a ∈ h.alive roots ∨ a = c, fun a ha => ?_, .inr rfl⟩
  rcases ha with ha | rfl
  · exact (supported_release a ha).imp_right fun ⟨b, hb, hmem⟩ => ⟨b, .inl hb, hmem⟩
  · exact .inr ⟨c', .inl hc', hc⟩

/-! ### Values that last -/

/-- The value lasts while these values are held from outside: all cells that it names are there. -/
def Lasts (h : Heap) (roots : List Value) (v : Value) : Prop := ∀ c ∈ v.cells, c ∈ h.alive roots

lemma lasts_of_mem (hv : v ∈ roots) : h.Lasts roots v := fun _ hc => mem_alive_of_root hv hc

/-- **What lies in a value lasts with it.** -/
theorem Lasts.holds (hv : h.Lasts roots v) (hx : h.Holds v x) : h.Lasts roots x := by
  intro c hc
  cases hx with
  | item hmem =>
    exact mem_alive_of_contents (hv _ (List.mem_singleton.mpr rfl)) (mem_cellsOfAll.mpr ⟨x, hmem, hc⟩)
  | entry hmem =>
    exact mem_alive_of_contents (hv _ (List.mem_singleton.mpr rfl))
      (mem_cellsOfAll.mpr ⟨x, List.mem_map.mpr ⟨_, hmem, rfl⟩, hc⟩)
  | body hmem => exact hv c (Value.mem_cells_of_body hmem hc)

end Heap

end ReversePolish

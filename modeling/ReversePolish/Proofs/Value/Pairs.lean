import ReversePolish.Proofs.Reader.Completeness
import ReversePolish.Proofs.Value.Cells

/-!
The pairs of a map. A map is read as keys and values in turn, and of two values for one key the later
one counts. What is then put into the map comes after all that it was read with.
-/

namespace ReversePolish

namespace Datum

variable {κ : Type}

/-- What is read where these pairs stand between the brackets of a map. -/
def ofPairs (es : List (Key × Datum κ)) : Datum κ := .map (Table.ofList es).entries

lemma close_map {es : List (Key × Datum κ)} {o : OpenForm κ} (ho : o.form = .map)
    (he : Grammar.Entries o.items es) (home : String) : o.close home = .ok (.ok (ofPairs es)) := by
  obtain ⟨hlen, hpairs⟩ := Setting.pairs_of_entries he
  simp [OpenForm.close, ho, hlen, hpairs, Except.map, ofPairs]

variable {es : List (Key × Datum Command)} {around : Option Nat} {h h' : Heap} {c : Nat}

/-- The keys of a map with these pairs, and the values that they are bound to when the map is stored on
top of this heap. -/
def storedPairs (es : List (Key × Datum Command)) (around : Option Nat) (h : Heap) :
    List (Key × Value) :=
  (storeEntries (Table.ofList es).entries around h).1

lemma ascending_storedPairs (es : List (Key × Datum Command)) (around : Option Nat) (h : Heap) :
    Ascending (storedPairs es around h) := by
  rw [ascending_iff_keys, storedPairs, keys_storeEntries, ← ascending_iff_keys]
  exact (Table.ofList es).ascending

lemma entries_of_store (hc : ((ofPairs es).store around h).1 = .map c)
    (hx : ((ofPairs es).store around h).2.Extends h') :
    c < h'.maps.size ∧ h'.entries c = Table.ofList (storedPairs es around h) := by
  cases hc
  exact ⟨hx.has (Heap.has_newMap _ _), Heap.entries_newMap hx⟩

end Datum

open Datum

variable {es : List (Key × Datum Command)} {around : Option Nat} {h : Heap}
  {puts : List (Key × Value)} {k : Key} {x : Value}

/-- The value that a key of a map was given last: what was put there, or else what the last pair for the
key was stored as when the map was read. -/
inductive LastGiven (es : List (Key × Datum Command)) (around : Option Nat) (h : Heap)
    (puts : List (Key × Value)) : Key → Value → Prop where
  | put {k : Key} {x : Value} : LastBound puts k x → LastGiven es around h puts k x
  | read {k : Key} {d : Datum Command} {x : Value} : k ∉ puts.map Prod.fst → LastBound es k d →
      (k, x) ∈ storedPairs es around h → StoredAs around h ((ofPairs es).store around h).2 d x →
      LastGiven es around h puts k x

lemma lastGiven_iff :
    LastGiven es around h puts k x ↔ LastBound (storedPairs es around h ++ puts) k x := by
  rw [lastBound_append, Table.lastBound_iff_mem (ascending_storedPairs es around h)]
  constructor
  · rintro (hput | ⟨hk, -, hx, -⟩)
    · exact .inl hput
    · exact .inr ⟨hk, hx⟩
  · rintro (hput | ⟨hk, hx⟩)
    · exact .put hput
    · obtain ⟨d, hd, hst⟩ := storedAs_entry hx
      have hlast : LastBound es k d := by
        rwa [← Table.find?_ofList_eq_some_iff, Table.find?_eq_some_iff]
      exact .read hk hlast hx (hst.mono (.refl h) (Heap.extends_newMap _ _))

/-- The keys are those of the pairs and those for which something was put. -/
lemma exists_lastGiven :
    (∃ x, LastGiven es around h puts k x) ↔ k ∈ es.map Prod.fst ∨ k ∈ puts.map Prod.fst := by
  have hread : k ∈ (storedPairs es around h).map Prod.fst ↔ k ∈ es.map Prod.fst := by
    rw [storedPairs, keys_storeEntries]
    exact Table.mem_keys_ofList
  simp only [lastGiven_iff, exists_lastBound, List.map_append, List.mem_append, hread]

end ReversePolish

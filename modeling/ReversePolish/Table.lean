/-!
Finite maps kept in key order.

The entries are strictly ascending, so two tables that answer every look-up alike are equal.
-/

namespace ReversePolish

universe u v w

variable {κ : Type u} {α : Type v}

/-- Keys strictly ascend along the list. -/
def Ascending [Ord κ] (entries : List (κ × α)) : Prop :=
  entries.Pairwise fun a b => compare a.1 b.1 = .lt

structure Table (κ : Type u) (α : Type v) [Ord κ] where
  entries : List (κ × α)
  ascending : Ascending entries

namespace Table

variable [Ord κ]

def empty : Table κ α := ⟨[], .nil⟩

instance : EmptyCollection (Table κ α) := ⟨empty⟩

instance : Inhabited (Table κ α) := ⟨empty⟩

def size (t : Table κ α) : Nat := t.entries.length

def isEmpty (t : Table κ α) : Bool := t.entries.isEmpty

def keys (t : Table κ α) : List κ := t.entries.map Prod.fst

def values (t : Table κ α) : List α := t.entries.map Prod.snd

/-- The value bound to a key. -/
def find? (t : Table κ α) (k : κ) : Option α :=
  (t.entries.find? fun e => compare e.1 k == .eq).map Prod.snd

def contains (t : Table κ α) (k : κ) : Bool := (t.find? k).isSome

/-- Puts an entry in its place, over an entry of the same key. -/
def insertEntry (k : κ) (a : α) : List (κ × α) → List (κ × α)
  | [] => [(k, a)]
  | e :: es =>
    match compare k e.1 with
    | .lt => (k, a) :: e :: es
    | .eq => (k, a) :: es
    | .gt => e :: insertEntry k a es

theorem mem_insertEntry {k : κ} {a : α} {es : List (κ × α)} {e : κ × α}
    (h : e ∈ insertEntry k a es) : e = (k, a) ∨ e ∈ es := by
  induction es with
  | nil => simpa [insertEntry] using h
  | cons e' es ih =>
    unfold insertEntry at h
    split at h
    · simpa using h
    · rcases List.mem_cons.mp h with h | h
      · exact .inl h
      · exact .inr (.tail _ h)
    · rcases List.mem_cons.mp h with h | h
      · exact .inr (h ▸ .head _)
      · exact (ih h).imp id (.tail _)

theorem ascending_insertEntry [Std.TransOrd κ] [Std.LawfulEqOrd κ] (k : κ) (a : α)
    {es : List (κ × α)} (h : Ascending es) : Ascending (insertEntry k a es) := by
  induction es with
  | nil => exact .cons (by simp) .nil
  | cons e es ih =>
    obtain ⟨h₁, h₂⟩ := List.pairwise_cons.mp h
    unfold insertEntry
    split
    · next hk =>
      refine .cons (fun e' he' => ?_) h
      rcases List.mem_cons.mp he' with rfl | he'
      · exact hk
      · exact Std.TransCmp.lt_trans hk (h₁ _ he')
    · next hk =>
      have : k = e.1 := Std.LawfulEqCmp.eq_of_compare hk
      exact .cons (fun e' he' => this ▸ h₁ _ he') h₂
    · next hk =>
      refine .cons (fun e' he' => ?_) (ih h₂)
      rcases mem_insertEntry he' with rfl | he'
      · exact Std.OrientedCmp.lt_of_gt hk
      · exact h₁ _ he'

def insert [Std.TransOrd κ] [Std.LawfulEqOrd κ] (t : Table κ α) (k : κ) (a : α) : Table κ α :=
  ⟨insertEntry k a t.entries, ascending_insertEntry k a t.ascending⟩

def erase (t : Table κ α) (k : κ) : Table κ α :=
  ⟨t.entries.filter fun e => compare e.1 k != .eq, t.ascending.filter _⟩

/-- Of several entries for one key the last counts. -/
def ofList [Std.TransOrd κ] [Std.LawfulEqOrd κ] (es : List (κ × α)) : Table κ α :=
  es.foldl (fun t e => t.insert e.1 e.2) ∅

/-- The same keys, each with its value replaced. -/
def map {β : Type w} (f : α → β) (t : Table κ α) : Table κ β :=
  ⟨t.entries.map fun e => (e.1, f e.2), by
    simpa [Ascending, List.pairwise_map] using t.ascending⟩

@[ext] theorem ext_entries {t u : Table κ α} (h : t.entries = u.entries) : t = u := by
  cases t; cases u; cases h; rfl

end Table

end ReversePolish

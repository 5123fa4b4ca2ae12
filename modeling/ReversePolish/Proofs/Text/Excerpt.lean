import Mathlib.Tactic.Lemma
import ReversePolish.Reader.Forms

/-!
Places in a text: where they lie in bytes, and what a complaint shows of the text around them. The
excerpt is the text itself from at most 20 characters before the place on, up to 100 characters,
with a mark on each side where it was cut off.
-/

namespace ReversePolish

namespace Cursor

variable {c start rest : Cursor} {text : String}

/-! ### Positions -/

/-- How many bytes of the text lie before the place. -/
def position (c : Cursor) : String.Pos.Raw := (String.ofList c.before.reverse).rawEndPos

/-- A place is a boundary between characters. -/
lemma position_isValid (h : c.chars = text.toList) : c.position.IsValid text := by
  refine String.Pos.Raw.isValid_iff_exists_append.mpr
    ⟨String.ofList c.before.reverse, String.ofList c.after, ?_, rfl⟩
  apply String.toList_inj.mp
  rw [← h]
  simp [chars]

lemma position_lt (hchars : start.chars = rest.chars) {x : List Char} (hx : x ≠ [])
    (hcut : start.after = x ++ rest.after) : start.position < rest.position := by
  have hbefore : rest.before.reverse = start.before.reverse ++ x := by
    rw [chars, chars, hcut, ← List.append_assoc] at hchars
    exact (List.append_cancel_right hchars).symm
  have hpos : 0 < (String.ofList x).utf8ByteSize :=
    Nat.pos_of_ne_zero fun h => hx (by simpa using String.utf8ByteSize_eq_zero_iff.mp h)
  rw [position, position, hbefore, String.ofList_append]
  simp only [String.Pos.Raw.lt_iff, String.byteIdx_rawEndPos, String.utf8ByteSize_append]
  omega

/-- The place where the character that holds a byte begins, or the end of a text that is too short
to hold it. -/
def HoldsByte (c : Cursor) (offset : Nat) : Prop :=
  c.position.byteIdx ≤ offset ∧ ∀ d ∈ c.after.head?, offset < c.position.byteIdx + d.utf8Size

lemma byteIdx_position_cons (d : Char) (before after after' : List Char) :
    (position ⟨d :: before, after⟩).byteIdx =
      (position ⟨before, after'⟩).byteIdx + d.utf8Size := by
  simp [position]

lemma holdsByte_advanceBytes (n : Nat) (before after : List Char) :
    (advanceBytes n before after).HoldsByte ((position ⟨before, after⟩).byteIdx + n) := by
  induction after generalizing n before with
  | nil => exact ⟨Nat.le_add_right _ n, nofun⟩
  | cons d ds ih =>
    unfold advanceBytes
    split
    · next hfits =>
      have hsum : (position ⟨d :: before, ds⟩).byteIdx + (n - d.utf8Size) =
          (position ⟨before, d :: ds⟩).byteIdx + n := by
        rw [byteIdx_position_cons d before ds (d :: ds)]
        omega
      rw [← hsum]
      exact ih _ _
    · next hfits =>
      refine ⟨Nat.le_add_right _ n, fun e he => ?_⟩
      obtain rfl : d = e := by simpa using he
      omega

lemma holdsByte_atByte (text : String) (offset : Nat) :
    (atByte text offset).HoldsByte offset := by
  simpa [atByte, position] using holdsByte_advanceBytes offset [] text.toList

/-! ### Excerpts -/

/-- What the text begins with and the excerpt leaves out. -/
def unshownBefore (c : Cursor) : List Char := (c.before.drop excerptLead).reverse

/-- What the text ends with and the excerpt leaves out. -/
def unshownAfter (c : Cursor) : List Char :=
  ((c.before.take excerptLead).reverse ++ c.after).drop excerptLength

/-- The mark for what is left out. -/
def mark (cs : List Char) : String := if cs = [] then "" else ellipsis

/-- The window is a part of the text. -/
lemma chars_eq_window (c : Cursor) :
    c.chars = c.unshownBefore ++ (c.window ++ c.unshownAfter) := by
  have hbefore : c.before.reverse =
      (c.before.drop excerptLead).reverse ++ (c.before.take excerptLead).reverse := by
    rw [← List.reverse_append, List.take_append_drop]
  rw [window, unshownAfter, List.take_append_drop, chars, hbefore, List.append_assoc]
  rfl

/-- The excerpt is the window, with a mark on each side where the text goes on. -/
lemma excerpt_eq (c : Cursor) :
    c.excerpt = mark c.unshownBefore ++ String.ofList (flatten c.window) ++ mark c.unshownAfter := by
  have hlead : excerptLead < c.before.length ↔ c.unshownBefore ≠ [] := by
    simp [unshownBefore]
  have htail : excerptLength < (c.before.take excerptLead).length + c.after.length ↔
      c.unshownAfter ≠ [] := by
    rw [unshownAfter, ne_eq, List.drop_eq_nil_iff, List.length_append, List.length_reverse,
      Nat.not_le]
  simp only [excerpt, mark, hlead, htail, ite_not]

lemma length_unshownBefore (c : Cursor) :
    c.unshownBefore.length = c.before.length - excerptLead := by
  simp [unshownBefore]

/-- The window ends with the text, or it is as long as it may be. -/
lemma unshownAfter_eq_nil_or (c : Cursor) :
    c.unshownAfter = [] ∨ c.window.length = excerptLength := by
  rcases Nat.le_total ((c.before.take excerptLead).reverse ++ c.after).length excerptLength with h | h
  · exact .inl (List.drop_eq_nil_of_le h)
  · exact .inr (List.length_take_of_le h)

/-- The window holds the character at the place, if there is one. -/
lemma getElem?_window (c : Cursor) :
    c.window[c.before.length - c.unshownBefore.length]? = c.after.head? := by
  have hlead : (c.before.take excerptLead).reverse.length < excerptLength := by
    rw [List.length_reverse, List.length_take]
    exact Nat.lt_of_le_of_lt (Nat.min_le_left _ _) (by decide)
  have hindex : c.before.length - c.unshownBefore.length =
      (c.before.take excerptLead).reverse.length := by
    rw [length_unshownBefore, List.length_reverse, List.length_take]
    omega
  rw [hindex, window, List.getElem?_take_of_lt hlead, List.getElem?_append_right (Nat.le_refl _),
    Nat.sub_self, List.head?_eq_getElem?]

end Cursor

namespace Complaint

/-- **A complaint shows the place where something is wrong.** It is about the character that holds
the given byte, or about the end of the text. What it shows is a part of the text of at most 100
characters, with its lines joined, which begins at most 20 characters before that place and reaches
over the character there. There is a mark in front of it exactly if something comes before it, and
one behind it exactly if something follows. No shorter part is shown than these bounds demand. -/
theorem shows_place (message text : String) (offset : Nat) (found : Option String) :
    ∃ place : Cursor, place.chars = text.toList ∧ place.HoldsByte offset ∧
      ∃ left shown right : List Char, text.toList = left ++ (shown ++ right) ∧
        shown.length ≤ 100 ∧
        left.length ≤ place.before.length ∧ place.before.length ≤ left.length + 20 ∧
        shown[place.before.length - left.length]? = place.after.head? ∧
        (left = [] ∨ left.length + 20 = place.before.length) ∧
        (right = [] ∨ shown.length = 100) ∧
        Complaint.of message (.atByte text offset) found =
          ⟨message, some ((if left = [] then "" else "[...]") ++
            String.ofList (Cursor.flatten shown) ++ (if right = [] then "" else "[...]")), found⟩ := by
  have hchars : (Cursor.atByte text offset).chars = text.toList := by
    simp [Cursor.atByte, Cursor.chars_advanceBytes]
  have hplace := Cursor.holdsByte_atByte text offset
  generalize Cursor.atByte text offset = place at hchars hplace
  have hleft : place.unshownBefore.length = place.before.length - 20 :=
    place.length_unshownBefore
  refine ⟨place, hchars, hplace, place.unshownBefore, place.window, place.unshownAfter,
    hchars ▸ place.chars_eq_window, List.length_take_le _ _, ?_, ?_, place.getElem?_window, ?_,
    place.unshownAfter_eq_nil_or, ?_⟩
  · omega
  · omega
  · rw [← List.length_eq_zero_iff]
    omega
  · rw [Complaint.of, Cursor.excerpt_eq]
    rfl

end Complaint

end ReversePolish

import ReversePolish.Proofs.Text.Excerpt
import ReversePolish.Proofs.Token.Place
import ReversePolish.Proofs.Token.Stretch
import ReversePolish.Proofs.Token.Written

/-!
A text cut up token by token. What is scanned off a text covers it without a hole: gaps, and
stretches that write the tokens. Where scanning stops, either nothing but trivia is left, or what
stands there is no token.
-/

namespace ReversePolish

/-- White space and comments up to the end of a text, which ends a comment as a line feed does. -/
def Trivia (cs : List Char) : Prop := Gap (cs ++ ['\n'])

variable {cs : List Char} {t : Token} {fault : Token.Fault} {c start rest place : Cursor}
  {text : String}

namespace Cursor

/-! ### Gaps -/

lemma gap_hash {d : Char} {g : List Char} (hd : d ≠ '\n') (h : Gap ('#' :: g)) :
    Gap ('#' :: d :: g) := by
  cases h with
  | blank hblank => exact absurd hblank (by decide)
  | @comment x g hx hg =>
    have hdx : '\n' ∉ d :: x := by simpa [Ne.symm hd] using hx
    exact Gap.comment hdx hg

/-- What is stepped over in front of a token is a gap. Inside a comment the `#` is missing to it. -/
lemma skipTriviaFrom_split {comment : Bool} {before z : List Char} {d : Char}
    (h : (skipTriviaFrom comment before cs).after = d :: z) :
    ∃ g, cs = g ++ d :: z ∧ Gap (if comment then '#' :: g else g) := by
  induction cs generalizing comment before with
  | nil => simp [skipTriviaFrom] at h
  | cons e cs ih =>
    unfold skipTriviaFrom at h
    cases comment with
    | true =>
      obtain ⟨g, rfl, hg⟩ := ih h
      refine ⟨e :: g, rfl, ?_⟩
      by_cases he : e = '\n'
      · subst he
        exact Gap.comment (x := []) List.not_mem_nil (by simpa using hg)
      · exact gap_hash he (by simpa [he] using hg)
    | false =>
      simp only [Bool.false_eq_true, if_false] at h ⊢
      split at h
      · next hblank =>
        obtain ⟨g, rfl, hg⟩ := ih h
        exact ⟨e :: g, rfl, .blank hblank (by simpa using hg)⟩
      · split at h
        · next hhash =>
          obtain ⟨g, rfl, hg⟩ := ih h
          exact ⟨e :: g, rfl, by simpa [hhash] using hg⟩
        · cases h
          exact ⟨[], rfl, .nil⟩

/-- In front of a token there is a gap. -/
lemma gap_upTo_skipTrivia (h : c.skipTrivia.after ≠ []) :
    Gap (c.upTo c.skipTrivia) ∧ c.after = c.upTo c.skipTrivia ++ c.skipTrivia.after := by
  obtain ⟨d, z, hd⟩ := List.exists_cons_of_ne_nil h
  obtain ⟨g, hcut, hg⟩ := skipTriviaFrom_split hd
  rw [← hd] at hcut
  rw [upTo_eq hcut]
  exact ⟨by simpa using hg, hcut⟩

/-- **Nothing is stepped up to exactly where nothing but trivia is left.** -/
lemma skipTrivia_eq_nil_iff : c.skipTrivia.after = [] ↔ Trivia c.after := by
  constructor
  · intro h
    -- A token on a line of its own behind the text shows what is stepped over.
    have hline : (skipTriviaFrom false c.before (c.after ++ '\n' :: [']'])).after =
        (skipTriviaFrom false [] [']']).after := after_skipTriviaFrom_line h
    obtain ⟨g, hcut, hg⟩ := skipTriviaFrom_split hline
    have hgap : c.after ++ ['\n'] = g := List.append_cancel_right (by simpa using hcut)
    rw [Trivia, hgap]
    simpa using hg
  · intro h
    by_contra hne
    obtain ⟨b, hb⟩ := skipTriviaFrom_gap h c.before []
    rw [List.append_nil] at hb
    have happend : (skipTriviaFrom false c.before (c.after ++ ['\n'])).after =
        c.skipTrivia.after ++ ['\n'] := after_skipTriviaFrom_append hne
    rw [hb] at happend
    simp [skipTriviaFrom] at happend

/-! ### One call -/

lemma tells_scan (c : Cursor) : Tells c.skipTrivia c.scan :=
  tells_scanToken fun d hd => by
    obtain ⟨z, hz⟩ := List.head?_eq_some_iff.mp hd
    exact skipTriviaFrom_head hz

lemma not_trivia_of_scan (h : c.scan ≠ .finished c.skipTrivia) : c.skipTrivia.after ≠ [] :=
  fun hnil => h (by rw [scan, scanToken_nil hnil])

/-- **A scan that finds a token** steps over a gap and then over characters that write it. -/
lemma scan_token (h : c.scan = .token t start rest) :
    Gap (c.upTo start) ∧ c.after = c.upTo start ++ start.after ∧
      t.WrittenAs (start.upTo rest) ∧ start.after = start.upTo rest ++ rest.after ∧
      start.upTo rest ≠ [] := by
  have hne : c.skipTrivia.after ≠ [] := not_trivia_of_scan (by simp [h])
  obtain ⟨hgap, hcut⟩ := gap_upTo_skipTrivia hne
  have htells := tells_scan c
  rw [h] at htells
  cases htells with
  | @token _ d x _ hafter hwritten =>
    rw [upTo_eq hafter]
    exact ⟨hgap, hcut, hwritten, hafter, List.cons_ne_nil d x⟩

/-- **A scan that finds none** stops in front of what is wrong, and is the same when repeated. -/
lemma scan_bad (h : c.scan = .bad fault start) :
    Gap (c.upTo start) ∧ c.after = c.upTo start ++ start.after ∧ fault.At start.after ∧
      start.scan = .bad fault start := by
  have hne : c.skipTrivia.after ≠ [] := not_trivia_of_scan (by simp [h])
  obtain ⟨hgap, hcut⟩ := gap_upTo_skipTrivia hne
  have htells := tells_scan c
  rw [h] at htells
  cases htells with
  | bad hat => exact ⟨hgap, hcut, hat, by rw [scan_skipTrivia, h]⟩

/-- White space, the delimiters and the characters of words are all characters. -/
lemma scan_ne_unexpected (c : Cursor) (d : Char) (start : Cursor) :
    c.scan ≠ .bad (.unexpected d) start := by
  intro h
  obtain ⟨-, -, hat, -⟩ := scan_bad h
  cases hat

lemma scan_finished_iff : (∃ place, c.scan = .finished place) ↔ Trivia c.after := by
  rw [← skipTrivia_eq_nil_iff]
  exact ⟨fun ⟨_, h⟩ => scanToken_finished h, fun h => ⟨_, scanToken_nil h⟩⟩

/-- **When a text is one word and nothing else.** -/
theorem lex_eq_word_iff {n : String} : (Cursor.start n).lex = ([.word n], none) ↔
    Token.isWordText n = true ∧ Token.keyword? n = none := by
  refine ⟨fun h => ?_, fun h => ?_⟩
  · cases hscan : (Cursor.start n).scan with
    | finished place => simp [lex_finished hscan] at h
    | bad fault start => simp [lex_bad hscan] at h
    | token t start rest =>
      simp only [lex_token hscan, Prod.mk.injEq, List.cons.injEq] at h
      obtain ⟨⟨rfl, -⟩, -⟩ := h
      obtain ⟨-, -, hwritten, -⟩ := scan_token hscan
      exact hwritten.1
  · have hspelt : ∀ t ∈ [Token.word n], t.Spelt := List.forall_mem_singleton.mpr h
    simpa [Token.spelling] using lex_intercalate hspelt

end Cursor

/-! ### All calls -/

/-- A call that gave a token: where it began, and where the token starts and stops. -/
structure Tile where
  token : Token
  place : Cursor
  start : Cursor
  stop : Cursor

namespace Tile

/-- What is stepped over in front of the token. -/
def gap (x : Tile) : List Char := x.place.upTo x.start

/-- The part of the text that the token takes up. -/
def slice (x : Tile) : List Char := x.start.upTo x.stop

/-- The tile is a part of this text: behind a gap its token is written, and ends there. -/
structure Fits (text : String) (x : Tile) : Prop where
  skipped : x.place.after = x.gap ++ x.start.after
  gap : Gap x.gap
  taken : x.start.after = x.slice ++ x.stop.after
  written : x.token.WrittenAs x.slice
  ends : x.token.EndsBefore x.stop.after
  within : x.start.chars = text.toList ∧ x.stop.chars = text.toList
  progress : x.start.position < x.stop.position
  boundaries : x.start.position.IsValid text ∧ x.stop.position.IsValid text

end Tile

/-- `Scans c tiles d`: calls from `c` on, each where the one before it stopped, gave these tiles
and came to `d`. -/
inductive Scans : Cursor → List Tile → Cursor → Prop where
  | nil (c : Cursor) : Scans c [] c
  | cons {c start stop d : Cursor} {t : Token} {tiles : List Tile} :
      c.scan = .token t start stop → Scans stop tiles d → Scans c (⟨t, c, start, stop⟩ :: tiles) d

namespace Cursor

variable {d : Cursor} {tiles : List Tile}

lemma fits_of_scan (hc : c.chars = text.toList) (h : c.scan = .token t start rest) :
    Tile.Fits text ⟨t, c, start, rest⟩ := by
  have hwithin := within_scan c
  rw [h] at hwithin
  obtain ⟨hstart, hrest⟩ := hwithin
  obtain ⟨hgap, hcut, hwritten, hslice, hne⟩ := scan_token h
  obtain ⟨-, hends, -⟩ := scan_cut h
  exact {
    skipped := hcut
    gap := hgap
    taken := hslice
    written := hwritten
    ends := hends
    within := ⟨hstart.trans hc, hrest.trans hc⟩
    progress := position_lt (hstart.trans hrest.symm) hne hslice
    boundaries := ⟨position_isValid (hstart.trans hc), position_isValid (hrest.trans hc)⟩ }

/-- The tiles lie one behind the other, from the first call on up to the place where the calls
came to. -/
lemma scans_cover (h : Scans c tiles d) (hc : c.chars = text.toList) :
    c.after = tiles.flatMap (fun x => x.gap ++ x.slice) ++ d.after ∧ d.chars = text.toList ∧
      ∀ x ∈ tiles, x.Fits text := by
  induction h with
  | nil c => exact ⟨rfl, hc, fun _ hx => absurd hx List.not_mem_nil⟩
  | @cons c start stop d t tiles hscan _ ih =>
    have hfits := fits_of_scan hc hscan
    have hwithin := within_scan c
    rw [hscan] at hwithin
    obtain ⟨hcover, hd, hall⟩ := ih (hwithin.2.trans hc)
    refine ⟨?_, hd, List.forall_mem_cons.mpr ⟨hfits, hall⟩⟩
    have htaken := hfits.taken
    simp only [hcover] at htaken
    rw [hfits.skipped, htaken, List.flatMap_cons]
    simp only [List.append_assoc]

/-- **The calls on a text tile it.** Up to where any number of calls has come, the text consists of
gaps and of stretches that write the tokens, each at least one character long. The next call fails
only in front of something that is wrong there, and then stays in front of it, so that it fails in
the same way when it is repeated. It comes to the end exactly if nothing but trivia is left, and it
never meets a character with which nothing can begin. -/
theorem scans_tile_text (h : Scans (.start text) tiles c) :
    text.toList = tiles.flatMap (fun x => x.gap ++ x.slice) ++ c.after ∧
    (∀ x ∈ tiles, x.Fits text) ∧
    (∀ fault start, c.scan = .bad fault start →
      Gap (c.upTo start) ∧ c.after = c.upTo start ++ start.after ∧
        start.position.IsValid text ∧ fault.At start.after ∧ start.scan = .bad fault start) ∧
    ((∃ place, c.scan = .finished place) ↔ Trivia c.after) ∧
    ∀ d start, c.scan ≠ .bad (.unexpected d) start := by
  have hstart : (Cursor.start text).chars = text.toList := rfl
  obtain ⟨hcover, hchars, hall⟩ := scans_cover h hstart
  refine ⟨hcover, hall, fun fault start hbad => ?_, scan_finished_iff, scan_ne_unexpected c⟩
  obtain ⟨hgap, hcut, hat, hagain⟩ := scan_bad hbad
  have hwithin := within_scan c
  rw [hbad] at hwithin
  exact ⟨hgap, hcut, position_isValid (hwithin.trans hchars), hat, hagain⟩

/-- Two tokens with a comment between them, and then an angle that stands alone. -/
theorem scans_up_to_lone_angle :
    let text := "1 # a\n[ <"
    let one : Cursor := ⟨['1'], " # a\n[ <".toList⟩
    let bracket : Cursor := ⟨"1 # a\n".toList.reverse, "[ <".toList⟩
    let stop : Cursor := ⟨"1 # a\n[".toList.reverse, " <".toList⟩
    let angle : Cursor := ⟨"1 # a\n[ ".toList.reverse, ['<']⟩
    let tiles : List Tile :=
      [⟨.int 1, .start text, .start text, one⟩, ⟨.opener .list, one, bracket, stop⟩]
    Scans (.start text) tiles stop ∧ (∀ x ∈ tiles, x.Fits text) ∧
      stop.scan = .bad (.loneAngle '<') angle ∧ angle.scan = .bad (.loneAngle '<') angle := by
  intro text one bracket stop angle tiles
  have hone : (Cursor.start "1 # a\n[ <").scan =
      .token (.int 1) (.start "1 # a\n[ <") ⟨['1'], " # a\n[ <".toList⟩ := rfl
  have hbracket : one.scan = .token (.opener .list) bracket stop := rfl
  have hangle : stop.scan = .bad (.loneAngle '<') angle := rfl
  have hscans : Scans (.start text) tiles stop := .cons hone (.cons hbracket (.nil stop))
  obtain ⟨-, hfits, hbad, -⟩ := scans_tile_text hscans
  obtain ⟨-, -, -, -, hagain⟩ := hbad _ _ hangle
  exact ⟨hscans, hfits, hangle, hagain⟩

end Cursor

end ReversePolish

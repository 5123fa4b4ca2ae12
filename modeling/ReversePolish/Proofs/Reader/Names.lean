import ReversePolish.Action.Command
import ReversePolish.Proofs.Action
import ReversePolish.Proofs.Reader.Continuation
import ReversePolish.Proofs.Token.Tiling
import ReversePolish.Proofs.Value.RoundTrip

/-!
Names that can be registered. Whether a registry takes a name is decided by looking at its characters,
and whether the name is read back is decided by the scanner, the table of keywords and the suffix that
asks for help. The two agree on every string.
-/

namespace ReversePolish

variable {n w x : String} {cs : List Char} {t : Token}

namespace Token

/-! ### Words by themselves -/

lemma keyword?_ne_word (w x : String) : keyword? w ≠ some (word x) := by
  unfold keyword?
  split <;> simp

/-- A run of characters that is a word is this word, and neither an integer nor a keyword. -/
lemma of_ofWord (h : ofWord cs = .ok (word x)) :
    String.ofList cs = x ∧ integer? cs = Option.none ∧ keyword? x = Option.none := by
  unfold ofWord at h
  split at h
  · split at h <;> cases h
  · next hint =>
    cases hk : keyword? (String.ofList cs) with
    | some t =>
      rw [hk] at h
      obtain rfl : t = word x := Except.ok.inj h
      exact (keyword?_ne_word _ _ hk).elim
    | none =>
      rw [hk] at h
      obtain rfl : String.ofList cs = x := word.inj (Except.ok.inj h)
      exact ⟨rfl, hint, hk⟩

/-- Only the keyword `EXIT` is read as that token. -/
lemma exit_of_ofWord (h : ofWord w.toList = .ok .exit) : w = exitName := by
  unfold ofWord at h
  split at h
  · split at h <;> cases h
  · cases hk : keyword? w with
    | some t =>
      rw [String.ofList_toList, hk] at h
      obtain rfl : t = .exit := Except.ok.inj h
      exact eq_exitName hk
    | none =>
      rw [String.ofList_toList, hk] at h
      cases h

/-- A word is asked about exactly when it ends in `?`. -/
lemma askedName?_eq_none_iff : askedName? n = Option.none ↔ n.toList.getLast? ≠ some '?' := by
  rw [List.getLast?_eq_head?_reverse]
  unfold askedName?
  split
  · next h => simp [h]
  · next hne =>
    simp only [true_iff]
    intro hlast
    obtain ⟨cs, hcs⟩ := List.head?_eq_some_iff.mp hlast
    exact hne cs hcs

lemma eq_asked (h : askedName? w = some x) : w = x ++ "?" := by
  unfold askedName? at h
  split at h
  · next cs hcs =>
    cases h
    apply String.toList_inj.mp
    rw [toList_asked, String.toList_ofList, ← List.reverse_reverse w.toList, hcs, List.reverse_cons]
  · cases h

end Token

/-! ### Bare words -/

namespace Cursor

lemma skipTriviaFrom_unended (h : '\n' ∉ cs) (before : List Char) :
    (skipTriviaFrom true before cs).after = [] := by
  induction cs generalizing before with
  | nil => rfl
  | cons c cs ih =>
    obtain ⟨hc, hcs⟩ := not_or.mp (mt List.mem_cons.mpr h)
    have hgo : (c != '\n') = true := by simpa using Ne.symm hc
    simpa [skipTriviaFrom, hgo] using ih hcs (c :: before)

/-- A text of word characters is a gap, or it is scanned as a whole. -/
lemma scan_bare (hw : ∀ c ∈ w.toList, Token.isWordChar c = true) :
    (Cursor.start w).skipTrivia.after = [] ∨
      (Cursor.start w).scan =
        match Token.ofWord w.toList with
        | .ok t => .token t (.start w) ⟨w.toList.reverse, []⟩
        | .error fault => .bad fault (.start w) := by
  have hword (c : Char) (hc : c ∈ w.toList) : isBlank c = false := by
    have hboth := hw c hc
    simp only [Token.isWordChar, Bool.and_eq_true, Bool.not_eq_true'] at hboth
    exact hboth.1
  cases hcs : w.toList with
  | nil =>
    left
    simp [skipTrivia, Cursor.start, hcs, skipTriviaFrom]
  | cons d cs =>
    rw [hcs] at hw hword
    have hblank := hword d List.mem_cons_self
    by_cases hhash : d = '#'
    · left
      have hline : '\n' ∉ cs := fun hmem => by
        have hbreak := hword '\n' (List.mem_cons_of_mem d hmem)
        revert hbreak
        decide
      obtain rfl := hhash
      simpa [skipTrivia, Cursor.start, hcs, skipTriviaFrom, hblank] using
        skipTriviaFrom_unended hline ['#']
    · right
      have hskip : (Cursor.start w).skipTrivia = .start w :=
        skipTrivia_of_head fun e he => by
          obtain rfl : d = e := by simpa [Cursor.start, hcs] using he
          exact ⟨hblank, hhash⟩
      have hafter : (Cursor.start w).after = d :: cs := hcs
      have htake : (d :: cs).takeWhile Token.isWordChar = d :: cs := List.takeWhile_eq_self_iff.mpr hw
      have hdrop : (d :: cs).dropWhile Token.isWordChar = [] := List.dropWhile_eq_nil_iff.mpr hw
      rw [scan, hskip, scanToken_word hafter (hw d List.mem_cons_self), skipWhile, hafter, htake, hdrop]
      cases Token.ofWord (d :: cs) <;> simp [Cursor.start]

end Cursor

section

variable {κ : Type} {s : Setting κ} {lookup : String → Option κ} {r r' : Reader} {inRoot : Bool}
  {place : Cursor} {forms : List (OpenForm κ)}

/-- Only words and `EXIT` are looked up. -/
lemma Setting.shift_congr (hexit : t = .exit → lookup Token.exitName = s.lookup Token.exitName)
    (hword : ∀ w, t = .word w → lookup w = s.lookup w)
    (hasked : ∀ w x, t = .word w → Token.askedName? w = some x → lookup x = s.lookup x) :
    ({ s with lookup := lookup }).shift inRoot place t forms = s.shift inRoot place t forms := by
  cases t with
  | exit =>
    simp only [shift, hexit rfl]
  | word w =>
    have hresolve : ({ s with lookup := lookup }).resolve w = s.resolve w := by
      simp only [resolve, hword w rfl]
      cases hx : Token.askedName? w with
      | none => rfl
      | some x => simp only [Option.bind_some, hasked w x rfl hx]
    simp only [shift, hresolve]
  | _ => rfl

namespace Reader

/-- Where one token is all that is left of a text, what it is read as says what the text is read as. -/
lemma readAll_lone {s' : Setting κ} (hload : s'.load = s.load)
    (hadv : r.startUnit.advance s.load = .token t place r') (himp : r'.imports = [])
    (hgap : r'.root.skipTrivia.after = [])
    (hshift : s'.shift r.startUnit.inRoot place t [] = s.shift r.startUnit.inRoot place t []) :
    r.readAll s' = r.readAll s := by
  have hrest : r'.advance s.load = .ended { r' with root := r'.root.skipTrivia } :=
    advance_finished himp (by rw [Cursor.scan, Cursor.scanToken_nil hgap])
  have hnext : r.next s' = r.next s := by
    rw [next, next, readInside_token hadv, readInside_token (hload ▸ hadv), hshift]
    split
    · rfl
    · rfl
    · rw [readInside_ended hrest, readInside_ended (hload ▸ hrest)]
  cases hs : r.next s with
  | value d r'' =>
    have hr'' : r'' = r' := by
      rw [next, readInside_token hadv] at hs
      split at hs
      · cases hs
      · cases hs
        rfl
      · rw [readInside_ended hrest] at hs
        split at hs <;> cases hs
    obtain ⟨_, hended⟩ := next_of_gap (s := s) himp hgap
    obtain ⟨_, hended'⟩ := next_of_gap (s := s') himp hgap
    rw [readAll_value hs, readAll_value (hnext.trans hs), hr'', readAll_ended hended,
      readAll_ended hended']
  | ended r'' => rw [readAll_ended hs, readAll_ended (hnext.trans hs)]
  | failed e r'' => rw [readAll_failed hs, readAll_failed (hnext.trans hs)]

/-- **What a bare word is read as** depends on what it stands for, and if it ends in `?` on what the
word before that stands for. -/
theorem readAll_bare_congr (hw : ∀ c ∈ w.toList, Token.isWordChar c = true)
    (hself : lookup w = s.lookup w)
    (hasked : ∀ x, Token.askedName? w = some x → lookup x = s.lookup x) :
    (Reader.ofText w).readAll { s with lookup := lookup } = (Reader.ofText w).readAll s := by
  have hfails {e : Error} {r' : Reader}
      (hadv : (Reader.ofText w).startUnit.advance s.load = .failed e r') :
      (Reader.ofText w).readAll { s with lookup := lookup } = (Reader.ofText w).readAll s := by
    have hread (s' : Setting κ) (hload : s'.load = s.load) :
        (Reader.ofText w).readAll s' = .error e :=
      readAll_failed (readInside_failed (hload ▸ hadv))
    exact (hread { s with lookup := lookup } rfl).trans (hread s rfl).symm
  rcases Cursor.scan_bare hw with hgap | hscan
  · obtain ⟨_, hended⟩ := next_of_gap (s := s) (r := .ofText w) rfl hgap
    obtain ⟨_, hended'⟩ := next_of_gap (s := { s with lookup := lookup }) (r := .ofText w) rfl hgap
    rw [readAll_ended hended, readAll_ended hended']
  · have hscan' : (Reader.ofText w).startUnit.place.scan = (Cursor.start w).scan :=
      Cursor.scan_skipTrivia _
    cases hword : Token.ofWord w.toList with
    | error fault =>
      rw [hword] at hscan
      exact hfails (advance_of_bad (hscan'.trans hscan))
    | ok t =>
      rw [hword] at hscan
      by_cases ht : t = .importing
      · subst ht
        have hend : (Cursor.mk w.toList.reverse []).scan = .finished ⟨w.toList.reverse, []⟩ := rfl
        obtain ⟨e, r', hadv⟩ : ∃ e r', (Reader.ofText w).startUnit.advance s.load = .failed e r' :=
          ⟨_, _, (advance_of_importing (hscan'.trans hscan)).trans (by rw [importText, hend])⟩
        exact hfails hadv
      · refine readAll_lone rfl (advance_token rfl (hscan'.trans hscan) ht) rfl rfl ?_
        refine Setting.shift_congr ?_ ?_ ?_
        · rintro rfl
          obtain rfl := Token.exit_of_ofWord hword
          exact hself
        · rintro x rfl
          obtain ⟨rfl, -⟩ := Token.of_ofWord hword
          rwa [String.ofList_toList]
        · rintro x y rfl hy
          obtain ⟨rfl, -⟩ := Token.of_ofWord hword
          rw [String.ofList_toList] at hy
          exact hasked y hy

end Reader

end

namespace Registry

/-- **A name can be registered if and only if it is read back**: it does not end in `?`, and it is the
one token of its own text, as a word or as the keyword `EXIT`. -/
theorem accepts_iff : accepts n = true ↔ n.toList.getLast? ≠ some '?' ∧
    ((Cursor.start n).lex = ([.word n], none) ∨
      n = Token.exitName ∧ (Cursor.start n).lex = ([.exit], none)) := by
  have hspelt : ∀ t ∈ [Token.exit], t.Spelt := List.forall_mem_singleton.mpr trivial
  have hexit : (Cursor.start Token.exitName).lex = ([.exit], none) := Cursor.lex_intercalate hspelt
  rw [Cursor.lex_eq_word_iff, ← Token.askedName?_eq_none_iff]
  simp only [accepts, Bool.and_eq_true, Option.isNone_iff_eq_none]
  constructor
  · rintro ⟨⟨htext, hasked⟩, hkey⟩
    refine ⟨hasked, ?_⟩
    cases hk : Token.keyword? n with
    | none => exact .inl ⟨htext, rfl⟩
    | some t =>
      rw [hk] at hkey
      obtain rfl : t = .exit := by simpa using hkey
      obtain rfl := Token.eq_exitName hk
      exact .inr ⟨rfl, hexit⟩
  · rintro ⟨hasked, ⟨htext, hkey⟩ | ⟨rfl, -⟩⟩
    · exact ⟨⟨htext, hasked⟩, by rw [hkey]⟩
    · decide

lemma register_eq_ok_iff {r r' : Registry} {c : Command} :
    r.register c = .ok r' ↔ accepts c.name = true ∧ r' = r.insert c.name c := by
  unfold register
  split
  · next h => simp [h, eq_comm]
  · next h => simp [h]

end Registry

/-- A program that is to be registered under a name that is refused changes nothing. -/
lemma Action.run_registerProgram_refused {m : Machine} {p : Program} {below : Stack}
    (hs : m.stack = .str n :: .program p :: below) (hn : Registry.accepts n = false) :
    Action.registerProgram.run m = .error (.failed (.badCommandName n)) m := by
  have hprogram : (Action.peekProgram 1).run m = .ok p m := by
    have hexpect : (Action.demand fun m => m.stack.expect 1 .program).run m = .ok (.program p) m :=
      Action.run_demand_ok (by rw [hs]; rfl)
    exact Action.run_bind_ok hexpect
  have hrefused : (Action.demand fun m => m.registry.register (.ofProgram m.heap n p)).run m =
      .error (.failed (.badCommandName n)) m :=
    Action.run_demand_error (by simp [Registry.register, Command.ofProgram, hn])
  rw [Action.registerProgram, Action.run_bind_ok (Action.run_peekString hs),
    Action.run_bind_ok hprogram, Action.run_bind_error hrefused]

namespace Registry

variable {r : Registry}

/-- **A registered name is read as its command.** -/
lemma readAll_registered {c : Command} (hr : r.WellNamed) (hc : accepts c.name = true)
    (home : String) (load : String → Except Error String) (depth : Nat) :
    let s : Setting Command := ⟨(r.insert c.name c).find?, home, load, depth⟩
    (Reader.ofText c.name).readAll s = .ok [.command c false] ∧
      (Reader.ofText (c.name ++ "?")).readAll s = .ok [.command c true] := by
  intro s
  have hfound : s.lookup c.name = some c := Table.find?_insert_self r c.name c
  have hsuffix : s.lookup (c.name ++ "?") = none := lookup_asked (hr.insert hc) c.name
  have hone {t : Token} {d : Datum Command} {text : String}
      (hlex : (Cursor.start text).lex = ([t], none)) (ht : t ≠ .importing)
      (ha : Grammar.Atom s t d) : (Reader.ofText text).readAll s = .ok [d] :=
    (Reader.readAll_iff (r := .ofText text) rfl hlex (by simpa using ht.symm) [d]).mpr
      (.atom ha .nil)
  obtain ⟨-, hlex⟩ := accepts_iff.mp hc
  constructor
  · rcases hlex with hlex | ⟨hexit, hlex⟩
    · have hres : s.resolve c.name = .command c false := by simp [Setting.resolve, hfound]
      exact hone hlex (by simp) (hres ▸ .word c.name)
    · exact hone hlex (by simp) (.exit (hexit ▸ hfound))
  · have hres : s.resolve (c.name ++ "?") = .command c true := by
      simp [Setting.resolve, hsuffix, Token.askedName?_asked, hfound]
    have htext : Token.isWordText c.name = true := by
      simp only [accepts, Bool.and_eq_true] at hc
      exact hc.1.1
    have hspelt : ∀ t ∈ [Token.word (c.name ++ "?")], t.Spelt :=
      List.forall_mem_singleton.mpr (Token.spelt_asked htext)
    have hlex : (Cursor.start (c.name ++ "?")).lex = ([.word (c.name ++ "?")], none) := by
      simpa [Token.spelling] using Cursor.lex_intercalate hspelt
    exact hone hlex (by simp) (hres ▸ .word (c.name ++ "?"))

/-- **Names are registered that can be read back.** A name is accepted if and only if it does not end in
`?` and is the one token of its own text: a word, or the text `EXIT` itself. Once it has been
registered, the name is read as the command and, with `?` behind it, as the help on it, and every other
bare word is read as it was before. A name that is refused changes nothing. Registries are well named
from the beginning, and registering and removing commands keeps them so. -/
theorem register_iff_read_back {r : Registry} (hr : r.WellNamed) (c : Command) (home : String)
    (load : String → Except Error String) (depth : Nat) :
    let reading (r : Registry) (text : String) :=
      (Reader.ofText text).readAll (⟨r.find?, home, load, depth⟩ : Setting Command)
    ((∃ r', r.register c = .ok r') ↔ c.name.toList.getLast? ≠ some '?' ∧
      ((Cursor.start c.name).lex = ([.word c.name], none) ∨
        c.name = Token.exitName ∧ (Cursor.start c.name).lex = ([.exit], none))) ∧
    (∀ r', r.register c = .ok r' → reading r' c.name = .ok [.command c false] ∧
      reading r' (c.name ++ "?") = .ok [.command c true] ∧
      ∀ w, (∀ ch ∈ w.toList, Token.isWordChar ch = true) → w ≠ c.name → w ≠ c.name ++ "?" →
        reading r' w = reading r w) ∧
    ∀ e, r.register c = .error e → ∀ (m : Machine) (p : Program) (below : Stack),
      m.stack = .str c.name :: .program p :: below →
        Action.registerProgram.run m = .error e m := by
  intro reading
  refine ⟨?_, fun r' hreg => ?_, fun e hrefused m p below hs => ?_⟩
  · rw [← accepts_iff]
    simp [register_eq_ok_iff]
  · obtain ⟨hc, rfl⟩ := register_eq_ok_iff.mp hreg
    obtain ⟨hself, hhelp⟩ := readAll_registered hr hc home load depth
    refine ⟨hself, hhelp, fun w hw hne hasked => ?_⟩
    have hother {x : String} (hx : x ≠ c.name) : (r.insert c.name c).find? x = r.find? x :=
      Table.find?_insert_of_ne hx.symm r c
    refine Reader.readAll_bare_congr (s := ⟨r.find?, home, load, depth⟩) hw (hother hne) ?_
    intro x hx
    refine hother fun heq => hasked ?_
    rw [Token.eq_asked hx, heq]
  · unfold register at hrefused
    split at hrefused
    · cases hrefused
    · next hc =>
      cases hrefused
      exact Action.run_registerProgram_refused hs (by simpa using hc)

/-- `EXIT` has a meaning when it has been registered, and so has `EXIT?`. `IF` still opens a form. -/
theorem exit_read_back :
    let c : Command := ⟨Token.exitName, "system", "", .idle⟩
    let reading (r : Registry) (text : String) :=
      (Reader.ofText text).readAll (⟨r.find?, "main", fun _ => .error .noFrame, 64⟩ : Setting Command)
    WellNamed ∅ ∧ ∃ r', register c ∅ = .ok r' ∧ reading r' "EXIT" = .ok [.command c false] ∧
      reading r' "EXIT?" = .ok [.command c true] ∧ reading r' "IF" = reading ∅ "IF" := by
  intro c reading
  have hreg : register c ∅ = .ok ((∅ : Registry).insert c.name c) :=
    register_eq_ok_iff.mpr ⟨by decide, rfl⟩
  obtain ⟨-, haccepted, -⟩ :=
    register_iff_read_back wellNamed_empty c "main" (fun _ => .error .noFrame) 64
  obtain ⟨hself, hhelp, hothers⟩ := haccepted _ hreg
  exact ⟨wellNamed_empty, _, hreg, hself, hhelp,
    hothers "IF" (List.all_eq_true.mp rfl) (by decide) (by decide)⟩

/-- A blank behind `EXIT` is not part of the token, but it is part of the name. -/
theorem exit_with_blank_refused : ¬ ∀ n : String, accepts n = true ↔
    n.toList.getLast? ≠ some '?' ∧
      ((Cursor.start n).lex = ([.word n], none) ∨ (Cursor.start n).lex = ([.exit], none)) := by
  intro h
  have hscan : (Cursor.start "EXIT ").scan =
      .token .exit (.start "EXIT ") ⟨"TIXE".toList, [' ']⟩ := rfl
  have hend : (Cursor.mk "TIXE".toList [' ']).scan = .finished ⟨" TIXE".toList, []⟩ := rfl
  have hlex : (Cursor.start "EXIT ").lex = ([.exit], none) := by
    rw [Cursor.lex_token hscan, Cursor.lex_finished hend]
  have haccepts : accepts "EXIT " = true := (h "EXIT ").mpr ⟨by decide, .inr hlex⟩
  revert haccepts
  decide

end Registry

end ReversePolish

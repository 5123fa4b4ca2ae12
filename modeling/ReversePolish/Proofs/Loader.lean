import Mathlib
import ReversePolish.Loader

/-!
Where modules are looked for. A name whose parts between dots all are relative leads below the
search directories, and what is read for it depends on nothing but the files there. A part that
begins with a slash leads away from them, to one path that is the same for all.
-/

namespace ReversePolish

variable {c sep : Char} {cs p : List Char} {s base next path name : String}

/-! ### Texts that are cut and put together -/

lemma sublist_of_mem_splitChars (h : p ∈ splitChars sep cs) : p.Sublist cs := by
  induction cs generalizing p with
  | nil =>
    obtain rfl : p = [] := by simpa [splitChars] using h
    exact .slnil
  | cons c cs ih =>
    unfold splitChars at h
    split at h
    · rcases List.mem_cons.mp h with rfl | h
      · exact List.nil_sublist _
      · exact (ih h).cons c
    · split at h
      · next hnil => exact absurd hnil (splitChars_ne_nil sep cs)
      · next part parts hparts =>
        rcases List.mem_cons.mp h with rfl | h
        · exact (ih (hparts ▸ List.mem_cons_self)).cons_cons c
        · exact (ih (hparts ▸ List.mem_cons_of_mem _ h)).cons c

lemma startsWith_slash_iff : s.startsWith "/" = true ↔ s.toList.head? = some '/' := by
  rw [String.startsWith_string_iff]
  cases s.toList with
  | nil => simp
  | cons c cs => simp [eq_comm]

namespace Loader

/-! ### Paths -/

lemma join_absolute (h : next.startsWith "/" = true) (base : String) : join base next = next :=
  if_pos h

/-- What a path that is joined from two is made of, if the second is relative. -/
lemma join_relative (h : next.startsWith "/" = false) (base : String) :
    join base next = base ++ next ∨ base ≠ "" ∧ join base next = base ++ "/" ++ next := by
  unfold join
  rw [if_neg (by simp [h])]
  split
  · exact .inl rfl
  · next hbase => exact .inr ⟨fun hnil => hbase (.inl hnil), rfl⟩

lemma startsWith_append (hbase : base ≠ "") :
    (base ++ next).startsWith "/" = base.startsWith "/" := by
  obtain ⟨c, cs, hc⟩ := List.exists_cons_of_ne_nil (show base.toList ≠ [] by simpa using hbase)
  rw [Bool.eq_iff_iff, startsWith_slash_iff, startsWith_slash_iff, String.toList_append, hc]
  rfl

lemma startsWith_join :
    (join base next).startsWith "/" = (base.startsWith "/" || next.startsWith "/") := by
  cases hnext : next.startsWith "/" with
  | true => rw [join_absolute hnext, hnext, Bool.or_true]
  | false =>
    rw [Bool.or_false]
    rcases join_relative hnext base with h | ⟨hne, h⟩
    · by_cases hbase : base = ""
      · rw [h, hbase, String.empty_append, hnext]
        rfl
      · rw [h, startsWith_append hbase]
    · rw [h, String.append_assoc, startsWith_append hne]

/-- Parts that are put together lead away from the root exactly if one of them does. -/
lemma startsWith_foldl_join (parts : List String) (base : String) :
    (parts.foldl join base).startsWith "/" =
      (base.startsWith "/" || parts.any (·.startsWith "/")) := by
  induction parts generalizing base with
  | nil => simp
  | cons part parts ih => rw [List.foldl_cons, ih, startsWith_join, List.any_cons, Bool.or_assoc]

/-- What the extension is put behind. -/
lemma withExtension_eq (s : String) : withExtension s = s ∨
    ∃ stem slashes : List Char, stem ≠ [] ∧ s = String.ofList stem ++ String.ofList slashes ∧
      withExtension s = String.ofList stem ++ fileExtension := by
  unfold withExtension
  split
  · exact .inl rfl
  · next hne =>
    refine .inr ⟨(s.toList.reverse.dropWhile (· == '/')).reverse,
      (s.toList.reverse.takeWhile (· == '/')).reverse, by simpa using hne, ?_, rfl⟩
    apply String.toList_inj.mp
    rw [← String.ofList_append, String.toList_ofList, ← List.reverse_append,
      List.takeWhile_append_dropWhile, List.reverse_reverse]

lemma startsWith_withExtension : (withExtension s).startsWith "/" = s.startsWith "/" := by
  rcases withExtension_eq s with h | ⟨stem, slashes, hne, hs, h⟩
  · rw [h]
  · have hstem : String.ofList stem ≠ "" := by simpa using hne
    rw [h, hs, startsWith_append hstem, startsWith_append hstem]

/-- **The path of a module is absolute exactly if one of the parts of its name is.** -/
theorem startsWith_relativePath (name : String) :
    (relativePath name).startsWith "/" = (splitText '.' name).any (·.startsWith "/") := by
  rw [relativePath, startsWith_withExtension, startsWith_foldl_join]
  rfl

lemma dot_not_mem_join (hbase : '.' ∉ base.toList) (hnext : '.' ∉ next.toList) :
    '.' ∉ (join base next).toList := by
  unfold join
  split
  · exact hnext
  · split <;> simp [hbase, hnext]

lemma dot_not_mem_foldl_join {parts : List String} (hparts : ∀ part ∈ parts, '.' ∉ part.toList)
    (hbase : '.' ∉ base.toList) : '.' ∉ (parts.foldl join base).toList := by
  induction parts generalizing base with
  | nil => exact hbase
  | cons part parts ih =>
    obtain ⟨hpart, hparts⟩ := List.forall_mem_cons.mp hparts
    exact ih hparts (dot_not_mem_join hbase hpart)

/-- The only dot in the path of a module is that of the extension. -/
lemma count_dot_relativePath (name : String) : (relativePath name).toList.count '.' ≤ 1 := by
  have hparts : ∀ part ∈ splitText '.' name, '.' ∉ part.toList := by
    intro part hpart
    obtain ⟨cs, hcs, rfl⟩ := List.mem_map.mp hpart
    simpa using not_mem_of_mem_splitChars hcs
  have hpath : '.' ∉ ((splitText '.' name).foldl join "").toList :=
    dot_not_mem_foldl_join hparts (by simp)
  rw [relativePath]
  rcases withExtension_eq ((splitText '.' name).foldl join "") with h | ⟨stem, slashes, -, hs, h⟩
  · rw [h, List.count_eq_zero_of_not_mem hpath]
    exact Nat.zero_le 1
  · have hstem : '.' ∉ stem := fun hmem => hpath (by simp [hs, hmem])
    rw [h, String.toList_append, String.toList_ofList, List.count_append,
      List.count_eq_zero_of_not_mem hstem]
    decide

/-- **No part of the path of a module leads upwards.** -/
theorem parent_not_mem_relativePath (name : String) : ".." ∉ splitText '/' (relativePath name) := by
  intro hmem
  obtain ⟨cs, hcs, hparent⟩ := List.mem_map.mp hmem
  have htwo := (sublist_of_mem_splitChars hcs).count_le '.'
  have hcs : cs = "..".toList := by rw [← hparent, String.toList_ofList]
  have hone := count_dot_relativePath name
  rw [hcs] at htwo
  have : "..".toList.count '.' = 2 := by decide
  omega

/-! ### Search -/

/-- `Inside dir p`: the path `p` is the directory followed by a path that is relative and never
leads upwards. -/
def Inside (dir p : String) : Prop :=
  ∃ rel : String, rel.startsWith "/" = false ∧ ".." ∉ splitText '/' rel ∧ p = join dir rel

/-- The paths that are looked at for a module, in order: one for each search directory, up to the
first that is a file. -/
def examined (d : Disk) (name : String) : List String → List String
  | [] => []
  | dir :: dirs =>
    candidate dir name :: if d.isFile (candidate dir name) then [] else examined d name dirs

variable {d d' : Disk} {dir : String} {dirs : List String}

lemma eq_candidate_of_examined (h : path ∈ examined d name dirs) :
    ∃ dir ∈ dirs, path = candidate dir name := by
  induction dirs with
  | nil => cases h
  | cons dir dirs ih =>
    rcases List.mem_cons.mp h with hpath | h
    · exact ⟨dir, List.mem_cons_self, hpath⟩
    · split at h
      · cases h
      · obtain ⟨other, hother, hpath⟩ := ih h
        exact ⟨other, List.mem_cons_of_mem dir hother, hpath⟩

lemma inDirectories_cons_file (h : d.isFile (candidate dir name) = true) (dirs : List String) :
    inDirectories (dir :: dirs) d name =
      (d.read (candidate dir name)).mapError
        fun fault => .failed (.unreadable (candidate dir name) fault) := by
  have hfind : (dir :: dirs).find? (fun dir => d.isFile (candidate dir name)) = some dir :=
    List.find?_cons_of_pos h
  rw [inDirectories, hfind]
  cases hread : d.read (candidate dir name) <;> simp only [hread] <;> rfl

lemma inDirectories_cons_absent (h : d.isFile (candidate dir name) = false) (dirs : List String) :
    inDirectories (dir :: dirs) d name = inDirectories dirs d name := by
  have hfind : (dir :: dirs).find? (fun dir => d.isFile (candidate dir name)) =
      dirs.find? fun dir => d.isFile (candidate dir name) :=
    List.find?_cons_of_neg (by simp [h])
  rw [inDirectories, hfind, inDirectories]

/-- **Nothing else on the disk counts** than what lies at the paths that are looked at. -/
theorem inDirectories_congr (h : ∀ p ∈ examined d name dirs,
    d'.isFile p = d.isFile p ∧ d'.read p = d.read p) :
    inDirectories dirs d' name = inDirectories dirs d name := by
  induction dirs with
  | nil => rfl
  | cons dir dirs ih =>
    obtain ⟨⟨hfile, hread⟩, hrest⟩ := List.forall_mem_cons.mp h
    cases hd : d.isFile (candidate dir name) with
    | true =>
      rw [inDirectories_cons_file hd, inDirectories_cons_file (hfile.trans hd), hread]
    | false =>
      rw [inDirectories_cons_absent hd, inDirectories_cons_absent (hfile.trans hd)]
      exact ih (by simpa [hd] using hrest)

/-- **The first directory that has the file counts.** -/
theorem inDirectories_eq_ok_iff {text : String} : inDirectories dirs d name = .ok text ↔
    ∃ before dir after, dirs = before ++ dir :: after ∧
      (∀ other ∈ before, d.isFile (candidate other name) = false) ∧
      d.isFile (candidate dir name) = true ∧ d.read (candidate dir name) = .ok text := by
  constructor
  · intro h
    unfold inDirectories at h
    split at h
    · next dir hfind =>
      obtain ⟨hfile, before, after, hdirs, hbefore⟩ := List.find?_eq_some_iff_append.mp hfind
      split at h
      · next hread =>
        cases h
        exact ⟨before, dir, after, hdirs, by simpa using hbefore, hfile, hread⟩
      · cases h
    · cases h
  · rintro ⟨before, dir, after, hdirs, hbefore, hfile, hread⟩
    have hfind : dirs.find? (fun dir => d.isFile (candidate dir name)) = some dir :=
      List.find?_eq_some_iff_append.mpr ⟨hfile, before, after, hdirs, by simpa using hbefore⟩
    simp only [inDirectories, hfind, hread]

/-- A module whose name has no absolute part is looked for inside the search directories. -/
lemma inside_candidate (h : ∀ part ∈ splitText '.' name, part.startsWith "/" = false)
    (dir : String) : Inside dir (candidate dir name) := by
  refine ⟨relativePath name, ?_, parent_not_mem_relativePath name, rfl⟩
  rw [startsWith_relativePath]
  simpa using h

/-- A module whose name has one is looked for at the same place whatever the directory is. -/
lemma candidate_absolute (h : ∃ part ∈ splitText '.' name, part.startsWith "/" = true)
    (dir : String) : candidate dir name = relativePath name := by
  refine join_absolute ?_ dir
  rw [startsWith_relativePath]
  simpa using h

/-- **Where a module comes from.** The text is that of the first search directory which has the
file, and no other path counts than those that are looked at, at most one for each directory. If no
part of the name between dots begins with a slash, these paths lie inside the search directories, so
that the files there alone decide what is imported. If one does, they all are one absolute path,
which the search directories have no part in. -/
theorem modules_come_from (dirs : List String) (d : Disk) (name : String) :
    (∀ text, inDirectories dirs d name = .ok text ↔
      ∃ before dir after, dirs = before ++ dir :: after ∧
        (∀ other ∈ before, d.isFile (candidate other name) = false) ∧
        d.isFile (candidate dir name) = true ∧ d.read (candidate dir name) = .ok text) ∧
    (∀ d' : Disk, (∀ p ∈ examined d name dirs, d'.isFile p = d.isFile p ∧ d'.read p = d.read p) →
      inDirectories dirs d' name = inDirectories dirs d name) ∧
    (∀ p ∈ examined d name dirs, ∃ dir ∈ dirs, p = candidate dir name) ∧
    ((∀ part ∈ splitText '.' name, part.startsWith "/" = false) →
      (∀ dir, Inside dir (candidate dir name)) ∧
      ∀ d' : Disk,
        (∀ dir ∈ dirs, ∀ p, Inside dir p → d'.isFile p = d.isFile p ∧ d'.read p = d.read p) →
        inDirectories dirs d' name = inDirectories dirs d name) ∧
    ((∃ part ∈ splitText '.' name, part.startsWith "/" = true) →
      (relativePath name).startsWith "/" = true ∧
      ∀ dir, candidate dir name = relativePath name) := by
  refine ⟨fun text => inDirectories_eq_ok_iff, fun d' => inDirectories_congr,
    fun p => eq_candidate_of_examined, fun hrel => ⟨inside_candidate hrel, fun d' hd' => ?_⟩,
    fun habs => ⟨?_, candidate_absolute habs⟩⟩
  · refine inDirectories_congr fun p hp => ?_
    obtain ⟨dir, hdir, hpath⟩ := eq_candidate_of_examined hp
    exact hd' dir hdir p (hpath ▸ inside_candidate hrel dir)
  · rw [startsWith_relativePath]
    simpa using habs

/-- The name `/x` leads out of every search directory that does not begin with a slash: the file
`/x.rpn` is read, wherever the modules are to lie. -/
theorem absolute_name_leaves_directories :
    (¬ ∀ (dirs : List String) (d : Disk) (name : String), ∀ p ∈ examined d name dirs,
      ∃ dir ∈ dirs, Inside dir p) ∧
    inDirectories ["lib"] (.ofFiles [("/x.rpn", .text "1")]) "/x" = .ok "1" := by
  have hcandidate : candidate "lib" "/x" = "/x.rpn" := by cbv
  constructor
  · intro h
    have hexamined : "/x.rpn" ∈ examined ∅ "/x" ["lib"] := by
      rw [examined, hcandidate]
      exact List.mem_cons_self
    obtain ⟨dir, hdir, rel, hrel, -, hjoin⟩ := h ["lib"] ∅ "/x" "/x.rpn" hexamined
    obtain rfl : dir = "lib" := by simpa using hdir
    have hstart : ("/x.rpn" : String).startsWith "/" = false := by
      rw [hjoin, startsWith_join, hrel]
      simp
    simp at hstart
  · have hbytes : "/x.rpn".utf8ByteSize = 6 := by cbv
    have hlocate : (Disk.ofFiles [("/x.rpn", .text "1")]).locate "/x.rpn" = .ok ["", "x.rpn"] := by
      rw [Disk.locate, if_neg (by simp), if_neg (by simp), if_neg (by rw [hbytes]; decide)]
      cbv
    have hnode : (Disk.ofFiles [("/x.rpn", .text "1")]).node ["", "x.rpn"] = .file (.text "1") := by
      cbv
    refine inDirectories_eq_ok_iff.mpr ⟨[], "lib", [], rfl, by simp, ?_, ?_⟩
    · simp only [hcandidate, Disk.isFile, hlocate, hnode]
    · rw [hcandidate, Disk.read, hlocate]
      simp only [bind, Except.bind, hnode]
      rfl

end Loader

end ReversePolish

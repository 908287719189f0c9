import Stylesheet.Import.Resolver

/-! # The names of files

A name is cut behind the last place where a mark stands (`Source.exists_of_behindLast?`). Behind the last
scheme there is none any more, so taking the scheme away twice is taking it away once
(`Source.stripScheme_stripScheme`), and a directory without one has none below it
(`Source.stripScheme_join`). Behind the last slash stands the name of the file, and the partial has its
underscore there (`Source.partialName_eq`). -/

namespace Stylesheet

namespace Source

variable {mark cs rest : List Char} {name : String}

/-! ## The last mark -/

/-- Where nothing is cut off, the mark does not stand. -/
theorem not_infix_of_behindLast? (marked : mark ≠ []) (h : behindLast? mark cs = none) : ¬ mark <:+: cs := by
  induction cs with
  | nil => simpa using marked
  | cons c cs ih =>
    rw [behindLast?] at h
    split at h
    · cases h
    next nowhere =>
      split at h
      · cases h
      next elsewhere =>
        rw [List.isPrefixOf_iff_prefix] at elsewhere
        rw [List.infix_cons_iff, not_or]
        exact ⟨elsewhere, ih nowhere⟩

/-- What is cut off stands behind the mark, and the mark does not stand in it. -/
theorem exists_of_behindLast? (marked : mark ≠ []) (h : behindLast? mark cs = some rest) :
    ¬ mark <:+: rest ∧ ∃ front, cs = front ++ mark ++ rest := by
  induction cs generalizing rest with
  | nil => cases h
  | cons c cs ih =>
    rw [behindLast?] at h
    split at h
    next later eq =>
      cases h
      obtain ⟨none, front, rfl⟩ := ih eq
      exact ⟨none, c :: front, rfl⟩
    next nowhere =>
      split at h
      next here =>
        obtain ⟨tail, eq⟩ := List.isPrefixOf_iff_prefix.1 here
        cases h
        rw [← eq, List.drop_left]
        refine ⟨fun again => ?_, [], rfl⟩
        -- the mark begins at the first character, so what is behind it stands in the others
        obtain ⟨m, ms, rfl⟩ := List.exists_cons_of_ne_nil marked
        rw [List.cons_append, List.cons.injEq] at eq
        refine not_infix_of_behindLast? marked nowhere (again.trans ?_)
        rw [← eq.2]
        exact (List.suffix_append ms tail).isInfix
      · cases h

/-! ## The scheme -/

/-- A name without a scheme in front stays as it is. -/
theorem stripScheme_of_not_isPrefix (h : ¬ scheme <+: name.toList) : stripScheme name = name := by
  rw [stripScheme, if_neg]
  rwa [List.isPrefixOf_iff_prefix]

/-- A name loses its scheme, and all that stands before the last one. -/
theorem exists_of_isPrefix (h : scheme <+: name.toList) :
    ¬ scheme <:+: (stripScheme name).toList ∧
      ∃ front, name.toList = front ++ scheme ++ (stripScheme name).toList := by
  rw [stripScheme, if_pos (List.isPrefixOf_iff_prefix.2 h)]
  cases cut : behindLast? scheme name.toList with
  | none => exact absurd h.isInfix (not_infix_of_behindLast? (by decide) cut)
  | some rest => simpa using exists_of_behindLast? (by decide) cut

/-- No scheme is left in front. -/
theorem not_isPrefix_stripScheme (name : String) : ¬ scheme <+: (stripScheme name).toList := by
  by_cases h : scheme <+: name.toList
  · exact fun again => (exists_of_isPrefix h).1 again.isInfix
  · rwa [stripScheme_of_not_isPrefix h]

/-- Taking the scheme away twice is taking it away once. -/
@[simp] theorem stripScheme_stripScheme (name : String) :
    stripScheme (stripScheme name) = stripScheme name :=
  stripScheme_of_not_isPrefix (not_isPrefix_stripScheme name)

/-- A scheme in front of a path below a directory stands in front of the directory. -/
theorem isPrefix_of_slash {directory tail : List Char} (h : scheme <+: directory ++ '/' :: tail) :
    scheme <+: directory := by
  rcases List.prefix_or_prefix_of_prefix h (List.prefix_append directory ('/' :: tail)) with short | ⟨more, eq⟩
  · exact short
  · -- otherwise the slash would be part of the scheme
    rw [← eq, List.prefix_append_right_inj] at h
    cases more with
    | nil => exact ⟨[], by simpa using eq.symm⟩
    | cons m ms =>
      obtain ⟨rfl, -⟩ := List.cons_prefix_cons.1 h
      have slash : '/' ∈ scheme := by simp [← eq]
      exact absurd slash (by decide)

/-- Below a directory without a scheme, no path has one, unless the directory is the empty one. -/
theorem stripScheme_join {dir : Path} (hdir : ¬ scheme <+: dir.spelling.toList)
    (hname : ¬ scheme <+: name.toList) :
    stripScheme (dir.join ⟨name⟩).spelling = (dir.join ⟨name⟩).spelling := by
  apply stripScheme_of_not_isPrefix
  unfold Path.join
  split
  · exact hname
  · split
    · exact hname
    next ends =>
      obtain ⟨up, eq⟩ := List.getLast?_eq_some_iff.1 ends
      rw [eq] at hdir
      rw [String.toList_append, eq, List.append_assoc, List.singleton_append]
      exact fun h => hdir ((isPrefix_of_slash h).trans (List.prefix_append up ['/']))
    · rw [String.toList_append, String.toList_append, List.append_assoc]
      exact fun h => hdir (isPrefix_of_slash h)

/-! ## The file -/

/-- A name is made of what ends in the last slash and what stands behind it. -/
structure Cut (name directory file : String) : Prop where
  eq : name = directory ++ file
  file_slash : '/' ∉ file.toList
  directory_slash : directory = "" ∨ ∃ up, directory = up ++ "/"

/-- A suffix without a slash is one of the file. -/
theorem suffix_append_slash {suffix directory file : List Char} (slashless : '/' ∉ suffix)
    (h : directory = [] ∨ ∃ up, directory = up ++ ['/']) : suffix <:+ directory ++ file ↔ suffix <:+ file := by
  refine ⟨fun hs => ?_, fun hs => hs.trans (List.suffix_append _ _)⟩
  obtain rfl | ⟨up, rfl⟩ := h
  · exact hs
  rcases List.suffix_or_suffix_of_suffix hs (List.suffix_append (up ++ ['/']) file) with short | ⟨more, eq⟩
  · exact short
  · -- what is longer than the file ends, in front of it, in the slash
    obtain ⟨before, hb⟩ := hs
    rw [← eq, ← List.append_assoc, List.append_cancel_right_eq] at hb
    rcases List.eq_nil_or_concat more with rfl | ⟨front, m, rfl⟩
    · exact ⟨[], by simpa using eq.symm⟩
    · have last : m = '/' := by simpa using congrArg List.getLast? hb
      exact absurd (by simp [← eq, last]) slashless

/-- A name has the ending of a stylesheet if its file has. -/
theorem hasExtension_append {directory file : String} (h : directory = "" ∨ ∃ up, directory = up ++ "/") :
    hasExtension (directory ++ file) = hasExtension file := by
  have cut : directory.toList = [] ∨ ∃ up, directory.toList = up ++ ['/'] := by
    obtain rfl | ⟨up, rfl⟩ := h
    · exact .inl rfl
    · exact .inr ⟨up.toList, by simp⟩
  rw [Bool.eq_iff_iff, hasExtension, hasExtension, List.isSuffixOf_iff_suffix, List.isSuffixOf_iff_suffix,
    String.toList_append, suffix_append_slash (by decide) cut]

/-- Neither an underscore in front of the file changes that. -/
theorem hasExtension_underscore (file : String) : hasExtension ("_" ++ file) = hasExtension file := by
  have front : ".scss".toList ≠ '_' :: file.toList := fun h => absurd (List.cons.inj h).1 (by decide)
  rw [Bool.eq_iff_iff, hasExtension, hasExtension, List.isSuffixOf_iff_suffix, List.isSuffixOf_iff_suffix,
    String.toList_append, show "_".toList = ['_'] from rfl, List.singleton_append, List.suffix_cons_iff,
    or_iff_right front]

/-- What is cut off at the last slash, or else the whole name, has no slash, and what stands before it is
empty or ends in one. -/
theorem exists_directory (cs : List Char) : ∃ directory : List Char,
    cs = directory ++ (behindLast? ['/'] cs).getD cs ∧ '/' ∉ (behindLast? ['/'] cs).getD cs ∧
      (directory = [] ∨ ∃ up, directory = up ++ ['/']) := by
  have slashless {file : List Char} (h : ¬ ['/'] <:+: file) : '/' ∉ file := by
    intro hm
    obtain ⟨front, tail, rfl⟩ := List.append_of_mem hm
    exact h ⟨front, tail, by simp⟩
  cases h : behindLast? ['/'] cs with
  | none => exact ⟨[], rfl, slashless (not_infix_of_behindLast? (by simp) h), .inl rfl⟩
  | some rest =>
    obtain ⟨none, front, eq⟩ := exists_of_behindLast? (by simp) h
    exact ⟨front ++ ['/'], eq, slashless none, .inr ⟨front, rfl⟩⟩

/-- Every name can be cut, and the partial has an underscore at the cut. -/
theorem exists_cut (name : String) : ∃ directory file, Cut name directory file ∧
    partialName name = directory ++ "_" ++ file ++ if hasExtension name then "" else ".scss" := by
  obtain ⟨directory, eq, slashless, ends⟩ := exists_directory name.toList
  unfold partialName
  generalize (behindLast? ['/'] name.toList).getD name.toList = file at *
  have cut : Cut name (String.ofList directory) (String.ofList file) := by
    refine ⟨?_, by simpa using slashless, ?_⟩
    · rw [← String.ofList_append, ← eq, String.ofList_toList]
    · obtain rfl | ⟨up, rfl⟩ := ends
      · exact .inl rfl
      · exact .inr ⟨String.ofList up, String.ofList_append⟩
  have full : String.ofList (directory ++ '_' :: file) =
      String.ofList directory ++ "_" ++ String.ofList file := by
    rw [String.append_assoc, show "_" = String.ofList ['_'] from rfl, ← String.ofList_append,
      ← String.ofList_append, List.singleton_append]
  -- the underscore stands behind the last slash, so it changes nothing about the extension
  have ending : hasExtension (String.ofList (directory ++ '_' :: file)) = hasExtension name := by
    rw [full, cut.eq, hasExtension_append cut.directory_slash, String.append_assoc,
      hasExtension_append cut.directory_slash, hasExtension_underscore]
  have front : name.toList.take (name.toList.length - file.length) = directory := by
    rw [eq, List.length_append, Nat.add_sub_cancel, List.take_left]
  refine ⟨_, _, cut, ?_⟩
  dsimp only
  rw [front, ending, full]
  split
  · rw [String.append_empty]
  · rfl

end Source

end Stylesheet

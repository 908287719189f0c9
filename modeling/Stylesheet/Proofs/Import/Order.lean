import Mathlib.Data.List.Forall2
import Stylesheet.Proofs.Import.Names
import Stylesheet.Proofs.Import.Parents
import Stylesheet.Proofs.Import.Stability

/-! # The order of the search

For a name three paths are tried (**`Source.Tried`**): the name itself, the name with the ending of a
stylesheet, and the partial. The search tries those of the name and then, unless the name is absolute, those
of the name below each directory of the list, and it finds the file at the first path where there is a text
(**`Source.FirstText`**, `SearchList.resolve_order`). -/

namespace Stylesheet

namespace Source

/-- The paths to try for a name, in order. A name with the ending of a stylesheet gets no other one. The partial
has an underscore in front of what stands behind the last slash. -/
inductive Tried : String → List Path → Prop
  | ended {name directory file : String} : Cut name directory file → hasExtension name = true →
      Tried name [⟨name⟩, ⟨directory ++ "_" ++ file⟩]
  | bare {name directory file : String} : Cut name directory file → hasExtension name = false →
      Tried name [⟨name⟩, ⟨name ++ ".scss"⟩, ⟨directory ++ "_" ++ file ++ ".scss"⟩]

/-- What stands at the first of some paths where there is a text. -/
inductive FirstText (files : Files) : List Path → Option Source → Prop
  | found {before after : List Path} {path : Path} {text : String} : (∀ p ∈ before, files p = none) →
      files path = some text → FirstText files (before ++ path :: after) (some ⟨path, text⟩)
  | missing {paths : List Path} : (∀ p ∈ paths, files p = none) → FirstText files paths none

/-- The first candidate with a text is the one that is found. -/
theorem firstText_first (files : Files) (paths : List Path) : FirstText files paths (first files paths) := by
  cases found : first files paths with
  | none =>
    refine .missing fun p hp => ?_
    simpa using List.findSome?_eq_none_iff.1 found p hp
  | some source =>
    obtain ⟨before, path, after, rfl, read, others⟩ := List.findSome?_eq_some_iff.1 found
    obtain ⟨text, here, rfl⟩ := Option.map_eq_some_iff.1 read
    exact .found (fun p hp => by simpa using others p hp) here

/-- What is found can be read. -/
theorem FirstText.read {files : Files} {paths : List Path} {source : Source}
    (h : FirstText files paths (some source)) : files source.path = some source.contents := by
  cases h
  assumption

/-- The partial of a name has the ending of a stylesheet. -/
theorem hasExtension_partialName (name : String) : hasExtension (partialName name) = true := by
  unfold partialName
  dsimp only
  split
  · assumption
  · rw [hasExtension, String.toList_append, List.isSuffixOf_iff_suffix]
    exact List.suffix_append _ _

/-- For a name without a scheme the three paths are tried. -/
theorem tried_partialCandidates {name : String} (h : stripScheme name = name) :
    Tried name (partialCandidates name) := by
  obtain ⟨directory, file, cut, part⟩ := exists_cut name
  rw [partialCandidates, h, candidates, candidates, hasExtension_partialName, if_pos rfl, part]
  by_cases ended : hasExtension name = true
  · rw [if_pos ended, if_pos ended, String.append_empty]
    exact .ended cut ended
  · rw [if_neg ended, if_neg ended]
    exact .bare cut (by simpa using ended)

end Source

namespace SearchList

open Source

/-- The directory of a file that is found is in the list afterwards, maybe spelled otherwise. -/
theorem exists_directory_of_found {files : Files} {dirs : SearchList} {name : String} {source : Source}
    (found : (resolve files dirs name).1 = some source) (parts : source.path.parts ≠ []) :
    ∃ dir ∈ (resolve files dirs name).2, dir.start = source.path.start ∧
      dir.parts = source.path.parts.dropLast := by
  obtain ⟨dir, parent, start, above⟩ := Path.exists_parent parts
  rw [resolve_snd_eq, found, Option.bind_some, parent, Option.map_some, Option.getD_some, ← start, ← above]
  unfold add
  split
  next present =>
    obtain ⟨d, hd, same⟩ := List.any_eq_true.1 present
    rw [Path.sameAs, Bool.and_eq_true, beq_iff_eq, beq_iff_eq] at same
    exact ⟨d, hd, same⟩
  · exact ⟨dir, by simp, rfl, rfl⟩

/-- **The first file in order is found.** A name loses its scheme once and for all. Then come the paths of the name,
and, if it is not absolute, those of the name below each directory of the list; the first of them with a text is what
is found, and nothing is found if none has one. The directory of a file that is found, which begins as its path does
and has all parts but the last, is in the list afterwards; in a file system a file that is found has a last part. -/
theorem resolve_order (files : Files) (dirs : SearchList) (name : String)
    (plain : ∀ dir ∈ dirs, ¬ scheme <+: dir.spelling.toList) :
    let bare := stripScheme name
    let run := resolve files dirs name
    stripScheme bare = bare ∧
      (∃ own below, Tried bare own ∧
        List.Forall₂ (fun dir paths => Tried (dir.join ⟨bare⟩).spelling paths) dirs below ∧
        FirstText files (own ++ if (Path.mk bare).isAbsolute then [] else below.flatten) run.1) ∧
      (∀ source, run.1 = some source → source.path.parts ≠ [] →
        ∃ dir ∈ run.2, dir.start = source.path.start ∧ dir.parts = source.path.parts.dropLast) ∧
      ∀ fs : FileSystem, files = fs.read? → ∀ source, run.1 = some source → source.path.parts ≠ [] := by
  intro bare run
  have first : FirstText files _ run.1 := resolve_fst_eq_first files dirs name ▸ firstText_first files _
  refine ⟨stripScheme_stripScheme name, ⟨partialCandidates bare,
    dirs.map fun dir => partialCandidates (dir.join ⟨bare⟩).spelling,
    tried_partialCandidates (stripScheme_stripScheme name), ?below, ?found⟩,
    fun source => exists_directory_of_found, ?parts⟩
  case below =>
    rw [List.forall₂_map_right_iff, List.forall₂_same]
    intro dir hdir
    exact tried_partialCandidates (stripScheme_join (plain dir hdir) (not_isPrefix_stripScheme name))
  case found => rwa [← List.flatMap_def]
  case parts =>
    rintro fs rfl source found
    rw [found] at first
    exact FileSystem.parts_ne_nil_of_read? first.read

/-- Directories, a file without a text, and a partial further down the list. -/
def shadowed : FileSystem := .ofList
  [(⟨"x"⟩, .directory), (⟨"x.scss"⟩, .binary), (⟨"_x.scss"⟩, .directory), (⟨"lib/x.scss"⟩, .directory),
    (⟨"lib/_x.scss"⟩, .text "partial"), (⟨"etc/x"⟩, .text "later")]

/-- The partial in the first directory comes before the file of this very name in the second one. -/
theorem resolve_order_shadowed :
    let dirs : SearchList := [⟨"lib/"⟩, ⟨"etc"⟩]
    (∀ dir ∈ dirs, ¬ scheme <+: dir.spelling.toList) ∧
      resolve shadowed.read? dirs "file:file:x" = (some ⟨⟨"lib/_x.scss"⟩, "partial"⟩, dirs) ∧
      (∃ own below, Tried "x" own ∧
        List.Forall₂ (fun dir paths => Tried (dir.join ⟨"x"⟩).spelling paths) dirs below ∧
        FirstText shadowed.read? (own ++ below.flatten) (some ⟨⟨"lib/_x.scss"⟩, "partial"⟩)) ∧
      ∃ dir ∈ dirs, dir.start = [] ∧ dir.parts = ["lib".toList] := by
  intro dirs
  have plain : ∀ dir ∈ dirs, ¬ scheme <+: dir.spelling.toList := by decide
  have run : resolve shadowed.read? dirs "file:file:x" = (some ⟨⟨"lib/_x.scss"⟩, "partial"⟩, dirs) := by
    decide +kernel
  have bare : stripScheme "file:file:x" = "x" := by decide +kernel
  have relative : (Path.mk "x").isAbsolute = false := by decide
  obtain ⟨-, tried, directory, parts⟩ := resolve_order shadowed.read? dirs "file:file:x" plain
  simp only [bare, run, relative, Bool.false_eq_true, if_false] at tried
  rw [run] at directory parts
  obtain ⟨dir, hdir, start, above⟩ := directory _ rfl (parts shadowed rfl _ rfl)
  exact ⟨plain, run, tried, dir, hdir, start.trans (by decide +kernel), above.trans (by decide +kernel)⟩

end SearchList

end Stylesheet

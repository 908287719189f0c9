import Stylesheet.Import.Resolver

/-! # What was found is found again

A search list is used again and again, to find files and to add directories (**`SearchList.Use`**), and each
file that is found adds the directory in which it stands. So later searches look in more places than earlier
ones did. But a list only gains at its end (**`SearchList.Gains`**), where nothing is looked at that was found
without it; so a name goes on to lead to the same file, whatever the list has been used for meanwhile
(`SearchList.resolve_stable`). -/

namespace Stylesheet

/-- Paths that are tried behind those with a text among them do not matter. -/
theorem Source.first_of_isPrefix {files : Files} {ps qs : List Path} {source : Source} (h : ps <+: qs)
    (found : first files ps = some source) : first files qs = some source := by
  obtain ⟨rest, rfl⟩ := h
  rw [first_append, found, Option.some_or]

namespace SearchList

variable {files : Files} {dirs dirs' : SearchList} {name : String} {source : Source}

/-! ## Longer lists -/

/-- More directories at the end mean more paths to try at the end. -/
theorem candidates_of_isPrefix (h : dirs <+: dirs') (name : String) :
    candidates dirs name <+: candidates dirs' name := by
  obtain ⟨rest, rfl⟩ := h
  unfold candidates candidatesIn
  rw [List.prefix_append_right_inj]
  split
  · exact List.prefix_refl _
  · rw [List.flatMap_append]
    exact List.prefix_append _ _

/-- What is found in a list is found in every longer one. -/
theorem resolve_of_isPrefix (h : dirs <+: dirs') (found : (resolve files dirs name).1 = some source) :
    (resolve files dirs' name).1 = some source := by
  rw [resolve_fst_eq_first] at found ⊢
  exact Source.first_of_isPrefix (candidates_of_isPrefix h name) found

/-! ## What a list gains -/

/-- A list stays as it is, or one of some directories comes to stand at its end, which has not been in it
under any spelling. -/
def Gains (new : Option Path) (dirs dirs' : SearchList) : Prop :=
  dirs' = dirs ∨ ∃ dir, new = some dir ∧ (∀ d ∈ dirs, d.sameAs dir = false) ∧ dirs' = dirs ++ [dir]

/-- What is gained comes behind what was listed. -/
theorem Gains.isPrefix {new : Option Path} (h : Gains new dirs dirs') : dirs <+: dirs' := by
  obtain rfl | ⟨dir, -, -, rfl⟩ := h
  · exact List.prefix_refl _
  · exact List.prefix_append _ _

/-- Adding a directory gains that directory, or nothing if it is listed. -/
theorem gains_add (dirs : SearchList) (dir : Path) : Gains (some dir) dirs (dirs.add dir) := by
  unfold add
  split
  · exact .inl rfl
  · rename_i absent
    exact .inr ⟨dir, rfl, by simpa using absent, rfl⟩

/-- A search adds the directory of the file that is found. -/
theorem resolve_snd_eq (files : Files) (dirs : SearchList) (name : String) :
    (resolve files dirs name).2 =
      (((resolve files dirs name).1.bind fun source => source.path.parent?).map dirs.add).getD dirs := by
  unfold resolve
  dsimp only
  generalize Option.bind _ _ = new
  cases new <;> rfl

/-- A search gains the directory of the file that is found, at most. -/
theorem gains_resolve (files : Files) (dirs : SearchList) (name : String) :
    Gains ((resolve files dirs name).1.bind fun source => source.path.parent?) dirs
      (resolve files dirs name).2 := by
  rw [resolve_snd_eq]
  generalize Option.bind _ _ = new
  cases new with
  | none => exact .inl rfl
  | some dir => exact gains_add dirs dir

/-! ## Uses -/

/-- What a search list is used for. -/
inductive Use
  | find (name : String)
  | add (dir : Path)
  deriving Repr, DecidableEq

/-- The list that a use leaves. -/
def use (files : Files) (dirs : SearchList) : Use → SearchList
  | .find name => (resolve files dirs name).2
  | .add dir => dirs.add dir

/-- The list that uses leave, one after the other. -/
def useAll (files : Files) (dirs : SearchList) (uses : List Use) : SearchList :=
  uses.foldl (use files) dirs

/-- No use takes anything out of a list or changes its order. -/
theorem isPrefix_use (files : Files) (dirs : SearchList) (u : Use) : dirs <+: use files dirs u :=
  match u with
  | .find name => (gains_resolve files dirs name).isPrefix
  | .add dir => (gains_add dirs dir).isPrefix

/-- However a list has been used, what was listed stays in front. -/
theorem isPrefix_useAll (files : Files) (dirs : SearchList) (uses : List Use) :
    dirs <+: useAll files dirs uses :=
  List.foldlRecOn uses _ (List.prefix_refl dirs) fun dirs' before u _ => before.trans (isPrefix_use files dirs' u)

/-- **Searching is stable.** Once a file has been found for a name, it is found for it again after any uses of
the list, with the same text. A search adds at most one directory, that of the file found, at the end of the
list and only if it is not in the list; and a search that finds nothing leaves the list as it is. -/
theorem resolve_stable (files : Files) (dirs : SearchList) (name : String) :
    let run := resolve files dirs name
    (∀ source uses, run.1 = some source → (resolve files (useAll files run.2 uses) name).1 = some source) ∧
      Gains (run.1.bind fun source => source.path.parent?) dirs run.2 ∧ (run.1 = none → run.2 = dirs) := by
  have gains := gains_resolve files dirs name
  refine ⟨fun source uses found => ?_, gains, fun nothing => ?_⟩
  · exact resolve_of_isPrefix (gains.isPrefix.trans (isPrefix_useAll files _ uses)) found
  · rw [resolve_snd_eq, nothing]
    rfl

/-- Two directories with a file of one name. -/
def twinFiles : Files := FileSystem.read? (.ofList
  [(⟨"lib/a.scss"⟩, .text "first"), (⟨"etc/a.scss"⟩, .text "second"), (⟨"etc/_b.scss"⟩, .text "partial")])

/-- The file beside one that has been found meanwhile does not come in front, nor does one in a directory that
has been added. -/
theorem resolve_stable_twin :
    let run := resolve twinFiles [⟨"lib"⟩] "a"
    let uses : List Use := [.find "etc/b", .add ⟨"etc/."⟩, .find "none", .add ⟨"."⟩, .find "b"]
    run = (some ⟨⟨"lib/a.scss"⟩, "first"⟩, [⟨"lib"⟩]) ∧
      useAll twinFiles run.2 uses = [⟨"lib"⟩, ⟨"etc"⟩, ⟨"."⟩] ∧
      (resolve twinFiles (useAll twinFiles run.2 uses) "a").1 = some ⟨⟨"lib/a.scss"⟩, "first"⟩ := by
  intro run uses
  have found : run = (some ⟨⟨"lib/a.scss"⟩, "first"⟩, [⟨"lib"⟩]) := by decide +kernel
  have left : useAll twinFiles run.2 uses = [⟨"lib"⟩, ⟨"etc"⟩, ⟨"."⟩] := by decide +kernel
  refine ⟨found, left, ?_⟩
  exact (resolve_stable twinFiles [⟨"lib"⟩] "a").1 _ uses (congrArg Prod.fst found)

end SearchList

end Stylesheet

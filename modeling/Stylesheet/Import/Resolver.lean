import Stylesheet.Expansion.Basic
import Stylesheet.Import.FileSystem

/-! # Finding imports

The name in an import is tried as a path, with and without `.scss` behind it (**`locate`**), then as
a **partial**, whose file name has an underscore in front (**`locatePartial`**), and then in the same way
below each directory of a **`SearchList`** (**`SearchList.resolve`**). The directory of every file found
joins the list, so that the imports in that file are found beside it. Nothing but the paths listed by
**`SearchList.candidates`** is looked at, and the first of them with a text is what is found
(`SearchList.resolve_fst_eq_first`). -/

namespace Stylesheet

/-- A stylesheet that was found. -/
structure Source where
  path : Path
  contents : String
  deriving Repr, DecidableEq

namespace Source

/-! ## Names -/

/-- A text without the part up to and including the last place where `mark` stands. -/
def behindLast? (mark : List Char) : List Char → Option (List Char)
  | [] => none
  | c :: cs =>
    match behindLast? mark cs with
    | some rest => some rest
    | none => if mark.isPrefixOf (c :: cs) then some ((c :: cs).drop mark.length) else none

/-- The scheme of the names of files. -/
def scheme : List Char := "file:".toList

/-- A name without its scheme. When the scheme stands there repeatedly, all up to the last one goes. -/
def stripScheme (name : String) : String :=
  if scheme.isPrefixOf name.toList then
    String.ofList ((behindLast? scheme name.toList).getD name.toList)
  else name

/-- Whether a name ends like that of a stylesheet. -/
def hasExtension (name : String) : Bool := ".scss".toList.isSuffixOf name.toList

/-- The name of the partial: an underscore in front of what follows the last slash, and `.scss` at the
end. -/
def partialName (name : String) : String :=
  let file := (behindLast? ['/'] name.toList).getD name.toList
  let directory := name.toList.take (name.toList.length - file.length)
  let full := String.ofList (directory ++ '_' :: file)
  if hasExtension full then full else full ++ ".scss"

/-- The paths to try for a name. -/
def candidates (name : String) : List Path :=
  if hasExtension name then [⟨name⟩] else [⟨name⟩, ⟨name ++ ".scss"⟩]

/-- The paths to try for a name without its scheme, and then for its partial. -/
def partialCandidates (name : String) : List Path :=
  candidates (stripScheme name) ++ candidates (partialName (stripScheme name))

/-! ## Files -/

/-- The first of some paths at which there is a text. -/
def first (files : Files) (paths : List Path) : Option Source :=
  paths.findSome? fun p => (files p).map fun contents => ⟨p, contents⟩

/-- Without candidates nothing is found. -/
@[simp] theorem first_nil (files : Files) : first files [] = none := rfl

/-- Paths that are tried later count only when none of those before has a text. -/
@[simp] theorem first_append (files : Files) (ps qs : List Path) :
    first files (ps ++ qs) = (first files ps).or (first files qs) := by
  simp [first, List.findSome?_append]

/-- Only the paths that are tried matter. -/
theorem first_congr {files files' : Files} {ps : List Path} (h : ∀ p ∈ ps, files p = files' p) :
    first files ps = first files' ps := by
  induction ps with
  | nil => rfl
  | cons p ps ih =>
    have hp : files p = files' p := h p List.mem_cons_self
    have hps : first files ps = first files' ps := ih fun q hq => h q (List.mem_cons_of_mem p hq)
    simp only [first, List.findSome?_cons, hp] at hps ⊢
    rw [hps]

/-- The file for a name. -/
def locate (files : Files) (name : String) : Option Source := first files (candidates name)

/-- The file for a name without its scheme, or else its partial. -/
def locatePartial (files : Files) (name : String) : Option Source :=
  let path := stripScheme name
  (locate files path).or (locate files (partialName path))

/-- A partial is looked for among its candidates, in their order. -/
theorem locatePartial_eq_first (files : Files) (name : String) :
    locatePartial files name = first files (partialCandidates name) := by
  simp [locatePartial, locate, partialCandidates]

end Source

/-! ## Search lists -/

/-- The directories to search, in order. -/
abbrev SearchList := List Path

namespace SearchList

/-- Add a directory at the end, unless it is in the list. -/
def add (dirs : SearchList) (p : Path) : SearchList :=
  if dirs.any (·.sameAs p) then dirs else dirs ++ [p]

/-- Take a directory out of the list. -/
def remove (dirs : SearchList) (p : Path) : SearchList := dirs.filter fun d => !d.sameAs p

/-- The file for a name in the first directory that has one. -/
def locateIn (files : Files) (dirs : SearchList) (name : String) : Option Source :=
  dirs.findSome? fun dir => Source.locatePartial files (dir.join ⟨name⟩).spelling

/-- Find the file for a name: as it stands, or else, unless it is absolute, in the directories of the
list. The list then has the directory of the file, too. -/
def resolve (files : Files) (dirs : SearchList) (name : String) : Option Source × SearchList :=
  let stripped := Source.stripScheme name
  let found := (Source.locatePartial files stripped).or
    (if (Path.mk stripped).isAbsolute then none else locateIn files dirs stripped)
  (found, match found.bind fun source => source.path.parent? with
    | some dir => dirs.add dir
    | none => dirs)

/-- A loader of imports that finds their files by a search list, which it keeps as its state, and reads
them by `parse`. -/
def load (files : Files) (parse : Source → Except Error Tree) (name : String) (dirs : SearchList) :
    Except Error (Option Tree) × SearchList :=
  let (found, dirs) := resolve files dirs name
  (match found with
    | none => .ok none
    | some source => (parse source).map some, dirs)

/-! ## What is tried -/

/-- The paths below the directories of a list, in order. -/
def candidatesIn (dirs : SearchList) (name : String) : List Path :=
  dirs.flatMap fun dir => Source.partialCandidates (dir.join ⟨name⟩).spelling

/-- All paths that are tried for a name, in order. -/
def candidates (dirs : SearchList) (name : String) : List Path :=
  let stripped := Source.stripScheme name
  Source.partialCandidates stripped ++
    if (Path.mk stripped).isAbsolute then [] else candidatesIn dirs stripped

/-- A name is looked for among its candidates in all directories, in their order. -/
theorem locateIn_eq_first (files : Files) (dirs : SearchList) (name : String) :
    locateIn files dirs name = Source.first files (candidatesIn dirs name) := by
  induction dirs with
  | nil => simp [locateIn, candidatesIn]
  | cons dir dirs ih =>
    rw [candidatesIn, List.flatMap_cons, Source.first_append, ← Source.locatePartial_eq_first]
    simp only [locateIn, List.findSome?_cons] at ih ⊢
    cases Source.locatePartial files (dir.join ⟨name⟩).spelling with
    | none => exact ih
    | some source => rfl

/-- What is found stands at the first path tried at which there is a text. -/
theorem resolve_fst_eq_first (files : Files) (dirs : SearchList) (name : String) :
    (resolve files dirs name).1 = Source.first files (candidates dirs name) := by
  simp only [resolve, candidates, Source.first_append, Source.locatePartial_eq_first,
    locateIn_eq_first]
  split <;> rfl

/-- Files that are not tried do not matter. -/
theorem resolve_congr {files files' : Files} {dirs : SearchList} {name : String}
    (h : ∀ p ∈ candidates dirs name, files p = files' p) :
    resolve files dirs name = resolve files' dirs name := by
  have found : (resolve files dirs name).1 = (resolve files' dirs name).1 := by
    rw [resolve_fst_eq_first, resolve_fst_eq_first, Source.first_congr h]
  simp only [resolve] at found ⊢
  rw [found]

end SearchList

end Stylesheet

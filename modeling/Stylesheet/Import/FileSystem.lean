import Stylesheet.Import.Path

/-! # Files

A **`FileSystem`** is what can be reached from the directory in which a program runs: texts, files that
are no texts, and directories. A path is followed name by name (**`FileSystem.follow?`**), and every name
but the last has to be that of a directory. Nothing outside of the starting directory can be reached. -/

namespace Stylesheet

/-- What can be read: the text of the file at a path, if there is a file and it is a text. -/
abbrev Files := Path → Option String

/-- What stands at a place in the file system. -/
inductive Entry
  | text (contents : String)
  /-- A file whose bytes are no text. -/
  | binary
  | directory
  deriving Repr, DecidableEq

/-- A place in the file system: the names that lead there, the last one first. -/
abbrev Place := List (List Char)

/-- Places with what stands there. Directories around them need not be listed. -/
structure FileSystem where
  entries : List (Place × Entry)

namespace FileSystem

/-- Go on from a place by one name. -/
def advance (place : Place) (name : List Char) : Option Place :=
  if Path.isIdle name then some place
  else if name = ['.', '.'] then
    match place with
    | [] => none
    | _ :: up => some up
  else some (name :: place)

/-- The place that names lead to when all of them can be followed. -/
def placeOf (names : List (List Char)) : Option Place := names.foldlM advance []

/-- The file system that holds these entries and nothing else. -/
def ofList (entries : List (Path × Entry)) : FileSystem :=
  ⟨entries.filterMap fun (p, e) => (placeOf p.names).map (·, e)⟩

/-- What stands at a place. -/
def entry? (fs : FileSystem) (place : Place) : Option Entry :=
  match fs.entries.lookup place with
  | some e => some e
  | none =>
    if place.isEmpty || fs.entries.any fun (other, _) => place.isSuffixOf other then some .directory
    else none

/-- Follow names from a place. -/
def follow? (fs : FileSystem) : List (List Char) → Place → Option Place
  | [], place => some place
  | name :: names, place =>
    if fs.entry? place = some .directory then (advance place name).bind (fs.follow? names) else none

/-- The text of the file at a path. -/
def read? (fs : FileSystem) : Files := fun p =>
  if p.isAbsolute then none
  else
    match (fs.follow? p.names []).bind fs.entry? with
    | some (.text contents) => some contents
    | _ => none

end FileSystem

end Stylesheet

import Stylesheet.Import.Resolver

/-! # The command line

The program tells which file an import would load. Its arguments are read by **`Command.ofArguments`**.
The files that a search may look at are read before it starts, which makes no difference to what it
finds (`SearchList.resolve_congr`). -/

namespace Stylesheet

/-- What the program is asked to do. -/
inductive Command
  /-- Find the file for a name by a search list. -/
  | resolve (dirs : SearchList) (name : String)
  | showVersion
  | showHelp
  | nothing
  deriving Repr, DecidableEq

namespace Command

/-- The version of the program. -/
def version : String := "0.1.0"

/-- How the program is to be called. -/
def usage : String :=
  "Usage:\n" ++
  "    stylesheet resolve [-I <path>]... <identifier>\n" ++
  "    stylesheet [-vh]\n" ++
  "\n" ++
  "Options:\n" ++
  "    -h, --help                   Show this message\n" ++
  "    -v, --version                Show the version\n" ++
  "    -I <path>, --include <path>  Directory to search for imports"

/-- The arguments of the program, sorted. -/
structure Arguments where
  dirs : SearchList := []
  words : List String := []
  version : Bool := false
  help : Bool := false

namespace Arguments

/-- What follows an opening in a text. -/
def behind? (opening text : String) : Option String :=
  if opening.toList.isPrefixOf text.toList then
    some (String.ofList (text.toList.drop opening.length))
  else none

/-- Take note of an argument that stands on its own. -/
def note (a : Arguments) (text : String) : Option Arguments :=
  if text = "-v" || text = "--version" then some { a with version := true }
  else if text = "-h" || text = "--help" then some { a with help := true }
  else if text = "-vh" || text = "-hv" then some { a with version := true, help := true }
  else
    match (behind? "--include=" text).or (behind? "-I" text) with
    | some dir => some { a with dirs := a.dirs ++ [⟨dir⟩] }
    | none =>
      -- a lone minus is a word
      if (behind? "-" text).any (· != "") then none else some { a with words := a.words ++ [text] }

/-- Sort the rest of the arguments; `none` for an option that there is not. -/
def sort (a : Arguments) : List String → Option Arguments
  | [] => some a
  | [text] => if text = "-I" || text = "--include" then none else a.note text
  | text :: next :: texts =>
    if text = "-I" || text = "--include" then sort { a with dirs := a.dirs ++ [⟨next⟩] } texts
    else (a.note text).bind fun a => a.sort (next :: texts)

end Arguments

/-- The command that arguments give; `none` if they give none. Help goes before everything else. -/
def ofArguments (texts : List String) : Option Command :=
  (Arguments.sort {} texts).bind fun a =>
    if a.help then some showHelp
    else
      match a.words with
      | [] => if !a.dirs.isEmpty then none else some (if a.version then showVersion else nothing)
      | [command, name] =>
        if command = "resolve" && !a.version then some (resolve a.dirs name) else none
      | _ => none

/-- Without arguments nothing is asked for. -/
@[simp] theorem ofArguments_nil : ofArguments [] = some nothing := rfl

end Command

/-- The texts at some paths, read now. -/
def readFiles (paths : List Path) : IO Files := do
  let texts ← paths.mapM fun p => do
    try
      let contents ← IO.FS.readFile p.spelling
      pure (p, some contents)
    catch _ => pure (p, none)
  pure fun p => (texts.lookup p).bind id

/-- Carry out a command, and give the exit code. -/
def Command.run : Command → IO UInt32
  | resolve dirs name => do
    let files ← readFiles (dirs.candidates name)
    match (dirs.resolve files name).1 with
    | some source => do
      IO.println source.path.spelling
      pure 0
    | none => do
      IO.eprintln ("Import not found: " ++ name)
      pure 1
  | showVersion => do
    IO.println version
    pure 0
  | showHelp => do
    IO.println usage
    pure 0
  | nothing => pure 0

end Stylesheet

/-- Run the program on its arguments. -/
def main (texts : List String) : IO UInt32 :=
  match Stylesheet.Command.ofArguments texts with
  | some command => command.run
  | none => do
    IO.eprintln ("Invalid arguments.\n\n" ++ Stylesheet.Command.usage)
    pure 1

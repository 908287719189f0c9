/-! # Paths

A **`Path`** is kept as it is spelled and compared by its **parts**: the names between the slashes, where
empty names and single dots do not count, except for a dot in front. A path that begins with a slash is
absolute. -/

namespace Stylesheet

/-- A path as it is spelled. -/
structure Path where
  spelling : String
  deriving Repr, DecidableEq

namespace Path

/-- The texts between the separators in a list of characters. -/
def splitAt (separator : Char) : List Char → List (List Char)
  | [] => [[]]
  | c :: cs =>
    match splitAt separator cs with
    | [] => [[]]
    | piece :: pieces => if c == separator then [] :: piece :: pieces else (c :: piece) :: pieces

/-- There is at least one text. -/
theorem splitAt_ne_nil (separator : Char) (cs : List Char) : splitAt separator cs ≠ [] := by
  induction cs with
  | nil => simp [splitAt]
  | cons c cs ih =>
    unfold splitAt
    split
    · simp
    · split <;> simp

/-- The names between the slashes of a path, empty ones and dots among them. -/
def names (p : Path) : List (List Char) := splitAt '/' p.spelling.toList

/-- Whether a path begins at the root of the file system. -/
def isAbsolute (p : Path) : Bool := p.spelling.toList.head? == some '/'

/-- Whether a name leads nowhere. -/
def isIdle (name : List Char) : Bool := name == [] || name == ['.']

/-- Whether the first name is a dot, which counts as a part. -/
def startsWithDot (p : Path) : Bool := p.names.head? == some ['.']

/-- What stands in front of the names that count: the slash of an absolute path, or a dot. -/
def start (p : Path) : List Char :=
  if p.isAbsolute then ['/'] else if p.startsWithDot then ['.'] else []

/-- The names that count. -/
def parts (p : Path) : List (List Char) := p.names.filter (!isIdle ·)

/-- Whether two paths have the same parts. -/
def sameAs (p q : Path) : Bool := p.start == q.start && p.parts == q.parts

/-- A path is the same as itself. -/
@[simp] theorem sameAs_refl (p : Path) : sameAs p p = true := by simp [sameAs]

/-- A path below a directory. A slash goes between the two unless there is one or the directory is
empty; an absolute path stays as it is. -/
def join (directory p : Path) : Path :=
  if p.isAbsolute then p
  else
    match directory.spelling.toList.getLast? with
    | none => p
    | some '/' => ⟨directory.spelling ++ p.spelling⟩
    | some _ => ⟨directory.spelling ++ "/" ++ p.spelling⟩

/-- Names without those at the end that lead nowhere. -/
def trimNames (names : List (List Char)) : List (List Char) :=
  (names.reverse.dropWhile isIdle).reverse

/-- Names with slashes between them. -/
def spell (names : List (List Char)) : List Char := ['/'].intercalate names

/-- The directory of a path: the path without its last part. The root and the empty path have none. -/
def parent? (p : Path) : Option Path :=
  let start := p.start
  let behind := splitAt '/' (p.spelling.toList.drop start.length)
  -- what stands in front of the last part may end in idle names again
  match (trimNames behind).dropLast, (trimNames behind).isEmpty with
  | names, false => some ⟨String.ofList (start ++ spell (trimNames names))⟩
  | _, true => if start == ['.'] then some ⟨""⟩ else none

end Path

end Stylesheet

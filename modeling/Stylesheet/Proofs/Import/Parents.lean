import Stylesheet.Import.FileSystem

/-! # The directory of a path

The directory in which a path lies has all of its parts but the last (`Path.exists_parent`). Only a path
without parts may lie in none, and there nothing can be read (`FileSystem.parts_ne_nil_of_read?`). -/

namespace Stylesheet

namespace Path

variable {separator : Char} {cs name : List Char} {names : List (List Char)} {p : Path}

/-! ## Names between separators -/

/-- A text is split in front of its separators. -/
theorem splitAt_cons (separator c : Char) (cs : List Char) :
    splitAt separator (c :: cs) = if c = separator then [] :: splitAt separator cs
      else (splitAt separator cs).modifyHead (c :: ·) := by
  rw [splitAt]
  cases h : splitAt separator cs with
  | nil => exact absurd h (splitAt_ne_nil separator cs)
  | cons piece pieces => simp

/-- A text is split as a list is by the library. -/
theorem splitAt_eq_splitOn (separator : Char) (cs : List Char) :
    splitAt separator cs = cs.splitOn separator := by
  induction cs with
  | nil => simp [splitAt]
  | cons c cs ih => simp [splitAt_cons, List.splitOn_cons_eq_if_modifyHead, ih]

/-- No name has a separator in it. -/
theorem not_mem_of_mem_splitAt (h : name ∈ splitAt separator cs) : separator ∉ name := by
  induction cs generalizing name with
  | nil => simp_all [splitAt]
  | cons c cs ih =>
    rw [splitAt_cons] at h
    split at h
    · rcases List.mem_cons.1 h with rfl | h
      · exact List.not_mem_nil
      · exact ih h
    next ne =>
      cases eq : splitAt separator cs with
      | nil => exact absurd eq (splitAt_ne_nil separator cs)
      | cons first others =>
        rw [eq, List.modifyHead_cons] at h
        rcases List.mem_cons.1 h with rfl | h
        · have rest : separator ∉ first := ih (by simp [eq])
          simpa [rest] using fun e : separator = c => ne e.symm
        · exact ih (by simp [eq, h])

/-- Names without slashes are found again where they have been spelled. -/
theorem splitAt_spell (h : ∀ name ∈ names, '/' ∉ name) (some : names ≠ []) : splitAt '/' (spell names) = names := by
  rw [splitAt_eq_splitOn, spell, List.splitOn_intercalate '/' h some]

/-- Without any name an idle one is found. -/
theorem filter_splitAt_spell (h : ∀ name ∈ names, '/' ∉ name) :
    (splitAt '/' (spell names)).filter (!isIdle ·) = names.filter (!isIdle ·) := by
  by_cases none : names = []
  · rw [none]
    rfl
  · rw [splitAt_spell h none]

/-! ## What stands in front -/

/-- A path that begins with a slash. -/
theorem start_of_slash (h : p.spelling.toList = '/' :: cs) :
    p.start = ['/'] ∧ p.parts = (splitAt '/' cs).filter (!isIdle ·) := by
  constructor
  · simp [start, isAbsolute, h]
  · rw [parts, Path.names, h, splitAt_cons, if_pos rfl]
    rfl

/-- A path that begins with a dot and goes on with a slash, if at all. -/
theorem start_of_dot (h : p.spelling.toList = '.' :: cs) (first : (splitAt '/' cs).head? = some []) :
    p.start = ['.'] ∧ p.parts = (splitAt '/' cs).filter (!isIdle ·) := by
  obtain ⟨others, eq⟩ := List.head?_eq_some_iff.1 first
  have named : p.names = ['.'] :: others := by
    rw [Path.names, h, splitAt_cons, if_neg (by decide), eq]
    rfl
  constructor
  · simp [start, isAbsolute, startsWithDot, named, h]
  · rw [parts, named, eq]
    rfl

/-- A path that begins with a name that counts, or is empty. -/
theorem start_of_name (h : ∀ first ∈ p.names.head?, isIdle first = true → p.spelling.toList = []) :
    p.start = [] ∧ p.parts = (splitAt '/' p.spelling.toList).filter (!isIdle ·) := by
  refine ⟨?_, rfl⟩
  rw [Path.names] at h
  unfold start isAbsolute startsWithDot Path.names
  generalize p.spelling.toList = chars at h ⊢
  cases chars with
  | nil => rfl
  | cons c cs =>
    have slash : c ≠ '/' := by
      rintro rfl
      exact absurd (h [] (by rw [splitAt_cons]; rfl) rfl) (List.cons_ne_nil _ _)
    have dot : (splitAt '/' (c :: cs)).head? ≠ some ['.'] := fun e =>
      absurd (h ['.'] e rfl) (List.cons_ne_nil _ _)
    simp [slash, dot]

/-- One of the three begins every path. -/
theorem start_cases (p : Path) :
    (∃ cs, p.spelling.toList = '/' :: cs) ∨
      (∃ cs, p.spelling.toList = '.' :: cs ∧ (splitAt '/' cs).head? = some []) ∨
      ∀ first ∈ p.names.head?, isIdle first = true → p.spelling.toList = [] := by
  rw [Path.names]
  generalize p.spelling.toList = chars
  cases chars with
  | nil => exact .inr (.inr fun _ _ _ => rfl)
  | cons c cs =>
    by_cases slash : c = '/'
    · exact .inl ⟨cs, by rw [slash]⟩
    right
    rw [splitAt_cons, if_neg slash]
    cases eq : splitAt '/' cs with
    | nil => exact absurd eq (splitAt_ne_nil '/' cs)
    | cons first others =>
      by_cases dot : c = '.' ∧ first = []
      · obtain ⟨rfl, rfl⟩ := dot
        exact .inl ⟨cs, rfl, by rw [eq]; rfl⟩
      · right
        intro name hm idle
        rw [List.modifyHead_cons, List.head?_cons, Option.mem_some_iff] at hm
        subst hm
        -- a name that begins with this character does not count only if it is a dot
        refine absurd ?_ dot
        simpa [isIdle] using idle

/-- Names behind what stands in front of a path make a path that begins in the same way, also when some of them
are left out at the end. -/
theorem exists_behind (p : Path) : ∃ cs, p.spelling.toList = p.start ++ cs ∧
    p.parts = (splitAt '/' cs).filter (!isIdle ·) ∧
    ∀ {names} {q : Path}, names <+: splitAt '/' cs → q.spelling.toList = p.start ++ spell names →
      q.start = p.start ∧ q.parts = names.filter (!isIdle ·) := by
  have slashless {cs : List Char} {names : List (List Char)} (h : names <+: splitAt '/' cs) :
      ∀ name ∈ names, '/' ∉ name := fun name hm => not_mem_of_mem_splitAt (h.subset hm)
  rcases start_cases p with ⟨cs, eq⟩ | ⟨cs, eq, first⟩ | own
  · obtain ⟨front, parts⟩ := start_of_slash eq
    rw [front]
    refine ⟨cs, eq, parts, fun {names q} h hq => ?_⟩
    rw [← filter_splitAt_spell (slashless h)]
    exact start_of_slash hq
  · obtain ⟨front, parts⟩ := start_of_dot eq first
    rw [front]
    refine ⟨cs, eq, parts, fun {names q} h hq => ?_⟩
    rw [← filter_splitAt_spell (slashless h)]
    refine start_of_dot hq ?_
    cases names with
    | nil => rfl
    | cons name others =>
      rw [splitAt_spell (slashless h) (List.cons_ne_nil _ _)]
      obtain ⟨rest, split⟩ := h
      rwa [← split] at first
  · obtain ⟨front, parts⟩ := start_of_name own
    rw [front]
    refine ⟨p.spelling.toList, rfl, parts, fun {names q} h hq => ?_⟩
    rw [List.nil_append] at hq
    rw [← filter_splitAt_spell (slashless h), ← hq]
    refine start_of_name fun name hm idle => ?_
    cases names with
    | nil => exact hq
    | cons first others =>
      rw [Path.names, hq, splitAt_spell (slashless h) (List.cons_ne_nil _ _), List.head?_cons,
        Option.mem_some_iff] at hm
      subst hm
      obtain ⟨rest, split⟩ := h
      -- the first name of the path does not count either, so there is no other
      have empty := own first (by rw [Path.names, ← split]; rfl) idle
      rw [empty, splitAt, List.cons_append, List.cons.injEq, List.append_eq_nil_iff] at split
      rw [hq, split.1, split.2.1]
      rfl

/-! ## The last part -/

/-- Names that do not count may go at the end. -/
theorem exists_trimNames (names : List (List Char)) :
    ∃ idle, names = trimNames names ++ idle ∧ (∀ name ∈ idle, isIdle name = true) ∧
      ∀ last ∈ (trimNames names).getLast?, isIdle last = false := by
  refine ⟨(names.reverse.takeWhile isIdle).reverse, ?_, fun name hm => ?_, fun last hl => ?_⟩
  · rw [trimNames, ← List.reverse_append, List.takeWhile_append_dropWhile, List.reverse_reverse]
  · exact List.all_eq_true.1 List.all_takeWhile name (List.mem_reverse.1 hm)
  · rw [trimNames, List.getLast?_reverse] at hl
    have := List.head?_dropWhile_not isIdle names.reverse
    rw [hl] at this
    simpa using this

/-- They do not count. -/
theorem filter_trimNames (names : List (List Char)) :
    (trimNames names).filter (!isIdle ·) = names.filter (!isIdle ·) := by
  obtain ⟨idle, eq, all, -⟩ := exists_trimNames names
  have cut := congrArg (List.filter (!isIdle ·)) eq
  have none : idle.filter (!isIdle ·) = [] := List.filter_eq_nil_iff.2 fun name hm => by simp [all name hm]
  rw [List.filter_append, none, List.append_nil] at cut
  exact cut.symm

/-- Without the last name that counts, and those behind it, there is one part less. -/
theorem filter_parentNames (h : names.filter (!isIdle ·) ≠ []) :
    (trimNames names).isEmpty = false ∧ trimNames (trimNames names).dropLast <+: names ∧
      (trimNames (trimNames names).dropLast).filter (!isIdle ·) = (names.filter (!isIdle ·)).dropLast := by
  obtain ⟨idle, eq, all, ends⟩ := exists_trimNames names
  rw [← filter_trimNames] at h
  rcases List.eq_nil_or_concat (trimNames names) with none | ⟨front, last, cut⟩
  · simp [none] at h
  · have counts : isIdle last = false := ends last (by simp [cut])
    obtain ⟨gap, within, -⟩ := exists_trimNames front
    refine ⟨by simp [cut], ?_, ?_⟩
    · rw [cut, List.concat_eq_append, List.dropLast_concat]
      exact ⟨gap ++ [last] ++ idle, by
        rw [eq, cut, List.concat_eq_append, ← List.append_assoc, ← List.append_assoc, ← within]⟩
    · rw [filter_trimNames, ← filter_trimNames names, cut, List.concat_eq_append, List.dropLast_concat,
        List.filter_append]
      simp [counts]

/-- The directory of a path with parts begins as the path does, and has all of its parts but the last. -/
theorem exists_parent (h : p.parts ≠ []) :
    ∃ dir, p.parent? = some dir ∧ dir.start = p.start ∧ dir.parts = p.parts.dropLast := by
  obtain ⟨cs, eq, parts, below⟩ := p.exists_behind
  rw [parts] at h ⊢
  obtain ⟨some, sub, left⟩ := filter_parentNames h
  have tail : p.spelling.toList.drop p.start.length = cs := by rw [eq, List.drop_left]
  refine ⟨⟨String.ofList (p.start ++ spell (trimNames (trimNames (splitAt '/' cs)).dropLast))⟩, ?_, ?_⟩
  · unfold parent?
    dsimp only
    rw [tail, some]
  · rw [← left]
    exact below sub String.toList_ofList

end Path

namespace FileSystem

variable {fs : FileSystem} {place : Place} {names : List (List Char)}

/-- Names that do not count are followed from a directory to itself. -/
theorem follow?_idle (idle : ∀ name ∈ names, Path.isIdle name = true) {reached : Place}
    (h : fs.follow? names place = some reached) :
    reached = place ∧ (names ≠ [] → fs.entry? place = some .directory) := by
  induction names with
  | nil => exact ⟨(Option.some.inj h).symm, fun ne => absurd rfl ne⟩
  | cons name names ih =>
    rw [follow?] at h
    split at h
    next here =>
      have still : advance place name = some place := by
        unfold advance
        rw [if_pos (idle name (by simp))]
      rw [still, Option.bind_some] at h
      exact ⟨(ih (fun n hn => idle n (by simp [hn])) h).1, fun _ => here⟩
    · cases h

/-- Where there is a text, the path has parts. -/
theorem parts_ne_nil_of_read? {p : Path} {text : String} (h : fs.read? p = some text) : p.parts ≠ [] := by
  intro none
  have idle : ∀ name ∈ p.names, Path.isIdle name = true := by
    intro name hm
    simpa using List.filter_eq_nil_iff.1 none name hm
  rw [read?] at h
  split at h
  · cases h
  · split at h
    next contents found =>
      obtain ⟨reached, followed, here⟩ := Option.bind_eq_some_iff.1 found
      obtain ⟨rfl, directory⟩ := follow?_idle idle followed
      rw [directory (Path.splitAt_ne_nil '/' _)] at here
      cases here
    · cases h

end FileSystem

end Stylesheet

import Mathlib.Data.List.Chain
import Stylesheet.Proofs.Selector.Closure

/-! # Extending selectors made of simple ones

A **simple selector** is a name, alone or with a mark in front (**`Selector.Simple`**). A **complex selector**
is a row of simple selectors and combinators, in which no bare name stands right behind a simple selector,
since the two would be read as one (**`Selector.Complex`**). Its text is searched for a target character by
character, with nothing but the neighbouring characters to tell where a name begins and ends; still the places
found are those of simple selectors (`Selector.Complex.piecesFor_text`). So extending adds the variants in
which simple selectors are replaced (`Selector.extend_complex`).

A target without a mark is found behind marks too, where it is the name of a class, say. -/

namespace Stylesheet

namespace Selector

/-! ## Grammar -/

/-- A name: characters that continue one. -/
structure Name where
  chars : List Char
  ne_nil : chars ≠ []
  continues : ∀ c ∈ chars, continuesName c = true
  deriving DecidableEq

/-- What stands in front of the name of a class, an identifier or a pseudo-class. -/
inductive Mark
  | period
  | hash
  | colon
  deriving Repr, DecidableEq

/-- A mark as a character. -/
def Mark.char : Mark → Char
  | period => '.'
  | hash => '#'
  | colon => ':'

/-- A simple selector. -/
inductive Simple
  | bare (name : Name)
  | marked (mark : Mark) (name : Name)
  deriving DecidableEq

namespace Simple

/-- The characters of a simple selector. -/
def chars : Simple → List Char
  | bare name => name.chars
  | marked mark name => mark.char :: name.chars

/-- A simple selector as text. -/
def text (s : Simple) : String := String.ofList s.chars

/-- The mark in front of the name, if there is one. -/
def markChars : Simple → List Char
  | bare _ => []
  | marked mark _ => [mark.char]

/-- The name alone. -/
def bared : Simple → Simple
  | bare name => bare name
  | marked _ name => bare name

/-- A target stands in a simple selector: it is the same, or it is the name behind its mark. -/
def Shows (s target : Simple) : Prop := s = target ∨ s.bared = target

/-- Whether a simple selector shows a target can be decided. -/
instance (s target : Simple) : Decidable (s.Shows target) := inferInstanceAs (Decidable (_ ∨ _))

/-- A simple selector with a target replaced. A mark in front of a bare target stays. -/
def replaced (s target : Simple) (extender : List Char) : List Char :=
  if s = target then extender
  else if s.bared = target then s.markChars ++ extender
  else s.chars

end Simple

/-- What stands between simple selectors: characters that are part of none. -/
structure Combinator where
  chars : List Char
  ne_nil : chars ≠ []
  separates : ∀ c ∈ chars, continuesName c = false ∧ marksStart c = false

/-- A part of a complex selector. -/
inductive Part
  | simple (s : Simple)
  | combinator (c : Combinator)

namespace Part

/-- The characters of a part. -/
def chars : Part → List Char
  | simple s => s.chars
  | combinator c => c.chars

/-- Whether a part may stand right in front of another one. -/
def MayPrecede : Part → Part → Prop
  | simple _, simple (.bare _) => False
  | _, _ => True

/-- A part with a target replaced. -/
def replaced (target : Simple) (extender : List Char) : Part → List Char
  | simple s => s.replaced target extender
  | combinator c => c.chars

end Part

/-- A complex selector. -/
structure Complex where
  parts : List Part
  apart : parts.IsChain Part.MayPrecede

namespace Complex

/-- A complex selector as text. -/
def text (s : Complex) : String := String.ofList (s.parts.flatMap Part.chars)

/-- A target stands in one of the simple selectors. -/
def Shows (s : Complex) (target : Simple) : Prop := ∃ x, .simple x ∈ s.parts ∧ x.Shows target

/-- A complex selector with a target replaced wherever it stands. -/
def replaced (s : Complex) (target : Simple) (extender : String) : String :=
  String.ofList (s.parts.flatMap (Part.replaced target extender.toList))

end Complex

/-! ## Characters -/

/-- A mark is no part of a name. -/
theorem not_continuesName_of_marksStart {c : Char} (h : marksStart c = true) : continuesName c = false := by
  simp only [marksStart, Bool.or_eq_true, beq_iff_eq] at h
  obtain ((rfl | rfl) | rfl) | rfl := h <;> decide

/-- The character of a mark starts a selector with that mark. -/
theorem Mark.marksStart_char (m : Mark) : marksStart m.char = true := by
  cases m <;> rfl

/-- The character of a mark continues no name. -/
theorem Mark.continuesName_char (m : Mark) : continuesName m.char = false :=
  not_continuesName_of_marksStart m.marksStart_char

/-- A mark is known by its character. -/
theorem Mark.char_injective {m m' : Mark} (h : m.char = m'.char) : m = m' := by
  revert h
  cases m <;> cases m' <;> decide

/-- What continues a name is no mark. -/
theorem not_marksStart_of_continuesName {c : Char} (h : continuesName c = true) : marksStart c = false := by
  by_contra marks
  rw [Bool.not_eq_false] at marks
  rw [not_continuesName_of_marksStart marks] at h
  cases h

/-- A mark does not occur among the characters of names. -/
theorem not_mem_of_marksStart {t : Char} {text : List Char} (ht : marksStart t = true)
    (h : ∀ c ∈ text, continuesName c = true) : t ∉ text := by
  intro member
  have continues := h t member
  rw [not_continuesName_of_marksStart ht] at continues
  cases continues

/-- Characters of names that begin what a name begins do not go beyond the name. -/
theorem isPrefix_of_continues {ts name rest : List Char} (ht : ∀ c ∈ ts, continuesName c = true)
    (hr : rest.head?.any continuesName = false) (h : ts <+: name ++ rest) : ts <+: name := by
  obtain ⟨more, eq⟩ := h
  obtain ⟨behind, rfl, -⟩ | ⟨beyond, rfl, rfl⟩ := List.append_eq_append_iff.1 eq
  · exact List.prefix_append ts behind
  · cases beyond with
    | nil => simp
    | cons c beyond =>
      -- the next character would be one of the rest
      have continues := ht c (by simp)
      simp [continues] at hr

/-! ## The search for a target -/

section

variable {t : Char} {ts : List Char}

/-- Where the target begins a text, it is a place or not, and the search goes on behind it. -/
theorem pieces_append (t : Char) (ts : List Char) (before : Option Char) (rest : List Char) :
    pieces t ts before (t :: ts ++ rest) =
      (if standsClear t before rest.head? then [.target] else (t :: ts).map .char) ++
        pieces t ts (t :: ts).getLast? rest := by
  have front : (t :: ts).isPrefixOf (t :: (ts ++ rest)) = true := by simp
  rw [List.cons_append, pieces, if_pos front, List.drop_left, List.getLast?_cons, List.getLastD_eq_getLast?]

/-- A target without a mark stands in a name if it is the name and nothing continues it in front. -/
theorem pieces_name (ht : ∀ c ∈ t :: ts, continuesName c = true) {name rest : List Char}
    (hn : ∀ c ∈ name, continuesName c = true) (hr : rest.head?.any continuesName = false)
    (before : Option Char) :
    pieces t ts before (name ++ rest) =
      (if before.any continuesName = false ∧ name = t :: ts then [.target] else name.map .char) ++
        pieces t ts (name.getLast?.or before) rest := by
  -- the induction is on the length, since a place that does not count is passed as a whole
  obtain ⟨k, hk⟩ : ∃ k, name.length = k := ⟨_, rfl⟩
  induction k using Nat.strongRecOn generalizing name before with
  | ind k ih =>
    cases name with
    | nil => simp
    | cons c cs =>
      by_cases front : t :: ts <+: c :: cs
      · obtain ⟨behind, eq⟩ := front
        have unmarked := not_marksStart_of_continuesName (ht t (by simp))
        rw [← eq, List.append_assoc, pieces_append]
        cases behind with
        | nil => simp [standsClear, unmarked, hr, List.getLast?_cons]
        | cons d behind =>
          -- the name goes on behind the target
          have goes : continuesName d = true := hn d (by simp [← eq])
          have within : ¬ ((t :: ts).getLast?.any continuesName = false ∧ d :: behind = t :: ts) := by
            rintro ⟨ends, -⟩
            rw [List.getLast?_eq_some_getLast (List.cons_ne_nil t ts), Option.any_some,
              ht _ (List.getLast_mem _)] at ends
            cases ends
          have shorter : (d :: behind).length < k := by
            simp only [← hk, ← eq, List.length_append, List.length_cons]
            omega
          rw [ih _ shorter (fun c hc => hn c (by rw [← eq]; exact List.mem_append_right _ hc)) _ rfl,
            if_neg within, List.getLast?_append, Option.or_assoc]
          simp [standsClear, goes, List.getLast?_cons]
      · have whole : c :: cs ≠ t :: ts := fun e => front (e ▸ List.prefix_refl _)
        have apart : ¬ t :: ts <+: c :: (cs ++ rest) := fun e =>
          front (isPrefix_of_continues ht hr (by rwa [List.cons_append]))
        have goes : continuesName c = true := hn c (by simp)
        rw [List.cons_append, pieces_cons apart,
          ih cs.length (by simp [← hk]) (fun c hc => hn c (by simp [hc])) _ rfl]
        simp [whole, goes, List.getLast?_cons]

/-- A target with a mark stands in a name with a mark if it is the same. -/
theorem pieces_marked (ht : marksStart t = true) (hts : ∀ c ∈ ts, continuesName c = true) {m : Char}
    {name rest : List Char} (hn : ∀ c ∈ name, continuesName c = true)
    (hr : rest.head?.any continuesName = false) (before : Option Char) :
    pieces t ts before (m :: name ++ rest) =
      (if m :: name = t :: ts then [.target] else (m :: name).map .char) ++
        pieces t ts (m :: name).getLast? rest := by
  by_cases front : t :: ts <+: m :: name
  · obtain ⟨behind, eq⟩ := front
    have out : t ∉ behind := not_mem_of_marksStart ht fun c hc => hn c (by
      rw [List.cons_append, List.cons.injEq] at eq
      rw [← eq.2]
      exact List.mem_append_right ts hc)
    rw [← eq, List.append_assoc, pieces_append, pieces_append_of_not_mem out]
    cases behind with
    | nil => simp [standsClear, ht, hr]
    | cons d behind =>
      -- the name goes on behind the target
      have goes : continuesName d = true := by
        rw [List.cons_append, List.cons.injEq] at eq
        exact hn d (by rw [← eq.2]; simp)
      rw [List.getLast?_append]
      simp [standsClear, goes]
  · have whole : m :: name ≠ t :: ts := fun e => front (e ▸ List.prefix_refl _)
    have apart : ¬ t :: ts <+: m :: (name ++ rest) := by
      intro e
      obtain ⟨rfl, below⟩ := List.cons_prefix_cons.1 e
      exact front (List.cons_prefix_cons.2 ⟨rfl, isPrefix_of_continues hts hr below⟩)
    rw [List.cons_append, pieces_cons apart, pieces_append_of_not_mem (not_mem_of_marksStart ht hn),
      if_neg whole, List.map_cons, List.cons_append, List.getLast?_cons]
    cases name <;> simp [List.getLast?_cons]

end

/-! ## Parts -/

/-- A simple selector as the search for a target takes it apart. -/
def Simple.pieces (s target : Simple) : List Piece :=
  if s = target then [.target]
  else if s.bared = target then s.markChars.map .char ++ [.target]
  else s.chars.map .char

/-- A part as the search for a target takes it apart. -/
def Part.pieces (target : Simple) : Part → List Piece
  | simple s => s.pieces target
  | combinator c => c.chars.map .char

/-- Names are set apart by their characters. -/
theorem Name.chars_inj {n n' : Name} : n.chars = n'.chars ↔ n = n' := by
  cases n
  cases n'
  simp

/-- Nothing that continues a name stands in front of a bare name. -/
def Part.MayFollow (before : Option Char) : Part → Prop
  | .simple (.bare _) => before.any continuesName = false
  | _ => True

/-- Nothing that continues a name stands behind a simple selector. -/
def Part.MayEnd (after : Option Char) : Part → Prop
  | .simple _ => after.any continuesName = false
  | _ => True

/-- No part is empty. -/
theorem Part.chars_ne_nil (p : Part) : p.chars ≠ [] := by
  match p with
  | .simple (.bare n) => exact n.ne_nil
  | .simple (.marked _ _) => exact List.cons_ne_nil _ _
  | .combinator c => exact c.ne_nil

/-- What is left alone by a part stands in front of it alone. -/
theorem Part.getLast?_or (p : Part) (before : Option Char) :
    p.chars.getLast?.or before = p.chars.getLast? := by
  rw [List.getLast?_eq_some_getLast p.chars_ne_nil, Option.some_or]

section

variable {t : Char} {ts rest : List Char} {before : Option Char} {p : Part}

/-- A part in which a target with this first character stands nowhere. -/
theorem pieces_part_of_not_mem (h : t ∉ p.chars) :
    pieces t ts before (p.chars ++ rest) = p.chars.map .char ++ pieces t ts p.chars.getLast? rest := by
  rw [pieces_append_of_not_mem h, p.getLast?_or]

/-- Combinators hold nothing that a simple selector begins with. -/
theorem Combinator.not_mem (c : Combinator) (h : continuesName t = true ∨ marksStart t = true) :
    t ∉ c.chars := by
  intro member
  obtain ⟨continues, marks⟩ := c.separates t member
  rw [continues, marks] at h
  obtain h | h := h <;> cases h

/-- A part of a text is taken apart by itself when the target is a bare name. -/
theorem pieces_part_bare {m : Name} (hm : m.chars = t :: ts) (hb : p.MayFollow before)
    (hr : p.MayEnd rest.head?) :
    pieces t ts before (p.chars ++ rest) = p.pieces (.bare m) ++ pieces t ts p.chars.getLast? rest := by
  have ht : ∀ c ∈ t :: ts, continuesName c = true := hm ▸ m.continues
  have same (n : Name) : n.chars = t :: ts ↔ n = m := by rw [← hm, Name.chars_inj]
  match p with
  | .combinator c => exact pieces_part_of_not_mem (c.not_mem (.inl (ht t (by simp))))
  | .simple (.bare n) =>
    rw [← Part.getLast?_or _ before]
    refine (pieces_name ht n.continues hr before).trans ?_
    rw [show before.any continuesName = false from hb]
    by_cases e : n = m <;>
      simp [Part.pieces, Simple.pieces, Simple.bared, Part.chars, Simple.chars, same, e]
  | .simple (.marked k n) =>
    have apart : ¬ t :: ts <+: k.char :: (n.chars ++ rest) := by
      intro e
      obtain ⟨rfl, -⟩ := List.cons_prefix_cons.1 e
      have continues := ht k.char (by simp)
      rw [k.continuesName_char] at continues
      cases continues
    show pieces t ts before (k.char :: (n.chars ++ rest)) = _
    -- the mark in front of the name does not continue it
    rw [pieces_cons apart, pieces_name ht n.continues hr, Option.any_some, k.continuesName_char]
    by_cases e : n = m <;> simp [Part.pieces, Simple.pieces, Simple.bared, Simple.markChars, Part.chars,
      Simple.chars, List.getLast?_cons, List.getLast?_eq_some_getLast n.ne_nil, same, e]

/-- A part of a text is taken apart by itself when the target has a mark. -/
theorem pieces_part_marked {k : Mark} {m : Name} (hr : p.MayEnd rest.head?) :
    pieces k.char m.chars before (p.chars ++ rest) =
      p.pieces (.marked k m) ++ pieces k.char m.chars p.chars.getLast? rest := by
  have marks := k.marksStart_char
  match p with
  | .combinator c => exact pieces_part_of_not_mem (c.not_mem (.inr marks))
  | .simple (.bare n) =>
    rw [pieces_part_of_not_mem (p := .simple (.bare n)) (not_mem_of_marksStart marks n.continues)]
    simp [Part.pieces, Simple.pieces, Simple.bared, Part.chars]
  | .simple (.marked k' n) =>
    refine (pieces_marked marks m.continues n.continues hr before).trans ?_
    have same : k'.char :: n.chars = k.char :: m.chars ↔ Simple.marked k' n = .marked k m := by
      rw [List.cons.injEq, Simple.marked.injEq, Name.chars_inj]
      exact and_congr_left fun _ => ⟨Mark.char_injective, fun e => e ▸ rfl⟩
    by_cases e : Simple.marked k' n = .marked k m
    · rw [if_pos (same.2 e)]
      simp [Part.pieces, Simple.pieces, Part.chars, Simple.chars, e]
    · rw [if_neg (e ∘ same.1)]
      simp [Part.pieces, Simple.pieces, Simple.bared, Part.chars, Simple.chars, e]

/-- Behind a combinator, or in front of a mark, a name is on its own. -/
theorem Part.MayPrecede.mayFollow {q : Part} (h : p.MayPrecede q) : q.MayFollow p.chars.getLast? := by
  match p, q with
  | .combinator c, .simple (.bare _) =>
    show c.chars.getLast?.any continuesName = false
    rw [List.getLast?_eq_some_getLast c.ne_nil, Option.any_some]
    exact (c.separates _ (List.getLast_mem c.ne_nil)).1
  | .simple _, .simple (.bare _) => exact h.elim
  | _, .simple (.marked _ _) => trivial
  | _, .combinator _ => trivial

/-- A part may end in front of every part that it may precede. -/
theorem Part.MayPrecede.mayEnd {q : Part} (h : p.MayPrecede q) (rest : List Char) :
    p.MayEnd (q.chars ++ rest).head? := by
  match p, q with
  | .simple _, .combinator c =>
    show (c.chars ++ rest).head?.any continuesName = false
    rw [List.head?_append, List.head?_eq_some_head c.ne_nil, Option.some_or, Option.any_some]
    exact (c.separates _ (List.head_mem c.ne_nil)).1
  | .simple _, .simple (.marked k _) => exact k.continuesName_char
  | .simple _, .simple (.bare _) => exact h.elim
  | .combinator _, _ => trivial

/-- When each part is taken apart by itself, a row of parts is taken apart part by part. -/
theorem pieces_parts {target : Simple}
    (part : ∀ {p : Part} {before : Option Char} {rest : List Char}, p.MayFollow before → p.MayEnd rest.head? →
      pieces t ts before (p.chars ++ rest) = p.pieces target ++ pieces t ts p.chars.getLast? rest)
    {parts : List Part} (apart : parts.IsChain Part.MayPrecede)
    (first : ∀ p ∈ parts.head?, p.MayFollow before) :
    pieces t ts before (parts.flatMap Part.chars) = parts.flatMap (Part.pieces target) := by
  induction parts generalizing before with
  | nil => rw [List.flatMap_nil, List.flatMap_nil, pieces]
  | cons p ps ih =>
    have ends : p.MayEnd (ps.flatMap Part.chars).head? := by
      cases ps with
      | nil => cases p <;> trivial
      | cons q qs =>
        rw [List.flatMap_cons]
        exact (List.isChain_cons_cons.1 apart).1.mayEnd _
    have next : ∀ q ∈ ps.head?, q.MayFollow p.chars.getLast? := by
      rintro q hq
      cases ps with
      | nil => cases hq
      | cons q' qs =>
        obtain rfl : q' = q := by simpa using hq
        exact (List.isChain_cons_cons.1 apart).1.mayFollow
    rw [List.flatMap_cons, List.flatMap_cons, part (first p rfl) ends, ih apart.of_cons next]

end

/-! ## Complex selectors -/

/-- A target filled in where a simple selector shows it. -/
theorem Simple.flatMap_pieces (s target : Simple) (extender : List Char) :
    ((s.pieces target).flatMap fun
      | .char c => [c]
      | .target => extender) = s.replaced target extender := by
  have plain (cs : List Char) : ((cs.map Piece.char).flatMap fun
      | .char c => [c]
      | .target => extender) = cs := by
    rw [List.flatMap_map]
    exact List.flatMap_singleton' cs
  unfold pieces replaced
  split
  · simp
  · split
    · rw [List.flatMap_append, plain]
      simp
    · exact plain _

/-- A target is found in a simple selector exactly if the selector shows it. -/
theorem Simple.target_mem_pieces {s target : Simple} : Piece.target ∈ s.pieces target ↔ s.Shows target := by
  unfold pieces Shows
  split
  · simp [*]
  · split <;> simp [*]

namespace Complex

variable (s : Complex) (target : Simple)

/-- The places that are found in the text are those of the simple selectors that show the target. -/
theorem piecesFor_text : piecesFor target.text s.text = s.parts.flatMap (Part.pieces target) := by
  have first : ∀ p ∈ s.parts.head?, p.MayFollow none := by
    intro p _
    match p with
    | .simple (.bare _) => rfl
    | .simple (.marked _ _) => trivial
    | .combinator _ => trivial
  unfold piecesFor text Simple.text
  rw [String.toList_ofList, String.toList_ofList]
  match target with
  | .bare m =>
    obtain ⟨t, ts, hm⟩ := List.exists_cons_of_ne_nil m.ne_nil
    rw [show (Simple.bare m).chars = t :: ts from hm]
    exact pieces_parts (pieces_part_bare hm) s.apart first
  | .marked k m => exact pieces_parts (fun _ => pieces_part_marked) s.apart first

/-- A simple selector mentions a target exactly if it shows it. -/
theorem mentions_iff : mentions target.text s.text = true ↔ s.Shows target := by
  rw [mentions, piecesFor_text, List.contains_iff_mem, List.mem_flatMap]
  constructor
  · rintro ⟨p, hp, member⟩
    cases p with
    | simple x => exact ⟨x, hp, Simple.target_mem_pieces.1 member⟩
    | combinator c => simp [Part.pieces] at member
  · rintro ⟨x, hx, shows⟩
    exact ⟨_, hx, Simple.target_mem_pieces.2 shows⟩

/-- Replacing a target in the text of a simple selector replaces what shows it. -/
theorem replace_eq (extender : String) : replace target.text extender s.text = s.replaced target extender := by
  rw [replace, piecesFor_text, fill, List.flatMap_assoc, replaced]
  congr 2
  funext p
  cases p with
  | simple x => exact x.flatMap_pieces target extender.toList
  | combinator c =>
    show ((c.chars.map Piece.char).flatMap _) = c.chars
    rw [List.flatMap_map]
    exact List.flatMap_singleton' c.chars

end Complex

/-- No variant is added twice. -/
theorem nodup_variants (selectors : List String) (target : String) (extenders : List String) :
    (variants selectors target extenders).Nodup := by
  refine List.foldlRecOn _ _ List.nodup_nil fun found once s _ => ?_
  refine List.foldlRecOn extenders _ once fun found once e _ => ?_
  dsimp only
  split
  · exact once
  · rename_i absent
    rw [Bool.or_eq_true, not_or, List.contains_iff_mem] at absent
    exact List.nodup_append.2 ⟨once, by simp, fun x hx y hy e => by
      rw [List.mem_singleton] at hy
      subst hy
      subst e
      exact absent.2 (List.contains_iff_mem.2 hx)⟩

/-- **Extending replaces simple selectors.** To a list of complex selectors it adds, once each and behind them,
the variants that are not among them already: for each selector in which the target is one of the simple
selectors, or the name in one of them when it has no mark, and for each extender, the selector with the extender
in all these places. -/
theorem extend_complex (selectors : List Complex) (target : Simple) (extenders : List String) :
    ∃ added, extend (selectors.map Complex.text) target.text extenders =
        selectors.map Complex.text ++ added ∧
      added.Nodup ∧ ∀ v, v ∈ added ↔ v ∉ selectors.map Complex.text ∧
        ∃ s ∈ selectors, s.Shows target ∧ ∃ e ∈ extenders, v = s.replaced target e := by
  refine ⟨_, rfl, nodup_variants _ _ _, fun v => ?_⟩
  rw [mem_variants]
  refine and_congr_right fun _ => ?_
  simp only [List.mem_map, exists_exists_and_eq_and, Complex.mentions_iff, Complex.replace_eq]

example : extend [".error", ".error-icon", "p .error:hover"] ".error" [".serious"] =
    [".error", ".error-icon", "p .error:hover", ".serious", "p .serious:hover"] := by decide +kernel

/-- A class selector is extended although the target, the element of this name, is none of its simple
selectors, and what is added is no selector. -/
theorem extend_name_of_class :
    let a : Name := ⟨['a'], by simp, fun c hc => by rw [List.mem_singleton.1 hc]; rfl⟩
    let s : Complex := ⟨[.simple (.marked .period a)], .singleton _⟩
    (∀ x, .simple x ∈ s.parts → x ≠ .bare a) ∧ s.text = ".a" ∧ (Simple.bare a).text = "a" ∧
      extend [".a"] "a" [".x"] = [".a", "..x"] := by
  refine ⟨?_, rfl, rfl, by decide +kernel⟩
  simp

end Selector

end Stylesheet

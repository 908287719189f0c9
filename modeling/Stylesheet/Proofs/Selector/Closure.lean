import Mathlib.Data.Set.Lattice
import Mathlib.Order.Bounds.Defs
import Stylesheet.Selector

/-! # Extending class selectors

A **class selector** is a period with a name behind it (**`Selector.IsClass`**). It mentions no class but
itself, so extending a list of class selectors by targets either adds all extenders or nothing
(`Selector.mem_extendAll`).

What extensions ask of the selectors of several blocks at once is a closure: where a target is mentioned,
all selectors of the extending block belong (**`Selector.Closed`**). An extension is carried out once only
(**`Selector.spread`**), while the extending block may go on to grow; still the family that has been spread
once for each extension, in any order, is the least closed one (`Selector.isLeast_spread`), since what was
closed before stays closed. -/

namespace Stylesheet

namespace Selector

/-! ## Class selectors -/

/-- The characters of a class name. -/
def isClassChar (c : Char) : Bool := c.isAlphanum || c == '-' || c == '_'

/-- A selector of a single class. -/
def IsClass (s : String) : Prop := ∃ name, s.toList = '.' :: name ∧ ∀ c ∈ name, isClassChar c = true

/-- The characters of a class name continue a name. -/
theorem continuesName_of_isClassChar {c : Char} (h : isClassChar c = true) : continuesName c = true := by
  simp only [isClassChar, Bool.or_eq_true] at h
  rcases h with (word | dash) | low
  · have ascii := Text.isAscii_of_isAlphanum word
    rw [Char.isAlphanum] at word
    simp [continuesName, Text.isAlphanumeric, Text.isAlphabetic, Text.isNumeric, ascii, word]
  · simp [continuesName, dash]
  · simp [continuesName, low]

/-- A class name has no period. -/
theorem not_mem_of_isClassChar {name : List Char} (h : ∀ c ∈ name, isClassChar c = true) : '.' ∉ name :=
  fun member => absurd (h _ member) (by decide)

section

variable {t : Char} {ts : List Char}

/-- Where a target does not begin a text, the search for it goes on at the next character. -/
theorem pieces_cons {c : Char} {cs : List Char} (h : ¬ t :: ts <+: c :: cs) (before : Option Char) :
    pieces t ts before (c :: cs) = .char c :: pieces t ts (some c) cs := by
  have front : (t :: ts).isPrefixOf (c :: cs) ≠ true := fun e => h (List.isPrefixOf_iff_prefix.1 e)
  rw [pieces, if_neg front]

/-- Where the first character of a target does not occur, the search goes on behind. -/
theorem pieces_append_of_not_mem {text : List Char} (h : t ∉ text) (before : Option Char) (rest : List Char) :
    pieces t ts before (text ++ rest) =
      text.map .char ++ pieces t ts (text.getLast?.or before) rest := by
  induction text generalizing before with
  | nil => simp
  | cons c cs ih =>
    rw [List.mem_cons, not_or] at h
    have apart : ¬ t :: ts <+: c :: (cs ++ rest) := fun e => h.1 (List.cons_prefix_cons.1 e).1
    rw [List.cons_append, pieces_cons apart, ih h.2, List.map_cons, List.cons_append]
    cases cs <;> simp [List.getLast?_cons]

end

/-- So the target stands nowhere in a text without it. -/
theorem pieces_of_not_mem {t : Char} {text : List Char} (h : t ∉ text) (ts : List Char)
    (before : Option Char) : pieces t ts before text = text.map .char := by
  simpa [pieces] using @pieces_append_of_not_mem t ts text h before []

/-- One class stands in another one as a whole exactly if it is the same. -/
theorem IsClass.piecesFor {target s : String} (ht : IsClass target) (hs : IsClass s) :
    piecesFor target s = if target = s then [.target] else s.toList.map .char := by
  obtain ⟨ts, eqt, -⟩ := ht
  obtain ⟨name, eqs, chars⟩ := hs
  have none := not_mem_of_isClassChar chars
  have same : target = s ↔ ts = name := by
    rw [← String.toList_inj, eqt, eqs, List.cons_inj_right]
  rw [Selector.piecesFor, eqt, eqs]
  dsimp only
  rw [pieces]
  by_cases front : ts <+: name
  · obtain ⟨rest, rfl⟩ := front
    have prefixed : ('.' :: ts).isPrefixOf ('.' :: (ts ++ rest)) = true := by simp
    rw [if_pos prefixed, List.drop_left]
    dsimp only
    rw [pieces_of_not_mem fun h => none (List.mem_append_right ts h)]
    cases rest with
    | nil => simp [same, standsClear, marksStart]
    | cons c rest =>
      -- a longer name continues behind the target
      have goes : continuesName c = true := continuesName_of_isClassChar (chars c (by simp))
      simp [same, standsClear, goes]
  · have apart : ('.' :: ts).isPrefixOf ('.' :: name) ≠ true :=
      fun h => front (by simpa using h)
    have ne : ts ≠ name := fun e => front (e ▸ List.prefix_refl ts)
    rw [if_neg apart, pieces_of_not_mem none, if_neg (by rwa [same]), List.map_cons]

/-- A class is mentioned by itself only. -/
theorem IsClass.mentions_iff {target s : String} (ht : IsClass target) (hs : IsClass s) :
    mentions target s = true ↔ s = target := by
  rw [mentions, ht.piecesFor hs]
  split
  · rename_i e
    simp [e]
  · rename_i ne
    simp [Ne.symm ne]

/-- A class is replaced by the extender. -/
theorem IsClass.replace_self {target : String} (ht : IsClass target) (extender : String) :
    replace target extender target = extender := by
  rw [replace, ht.piecesFor ht, if_pos rfl, fill, List.flatMap_singleton, String.ofList_toList]

/-! ## Extending lists of classes -/

section

variable {selectors extenders targets : List String} {target s : String}

/-- Adding one by one what is neither listed nor found already leaves all of it. -/
theorem mem_foldl_add {f : String → String} (found : List String) :
    s ∈ extenders.foldl (fun found e => if selectors.contains (f e) || found.contains (f e) then found
        else found ++ [f e]) found ↔ s ∈ found ∨ (s ∉ selectors ∧ ∃ e ∈ extenders, s = f e) := by
  induction extenders generalizing found with
  | nil => simp
  | cons e extenders ih =>
    rw [List.foldl_cons, ih]
    simp only [List.mem_cons, exists_eq_or_imp]
    by_cases listed : f e ∈ selectors
    · rw [if_pos (by simp [listed])]
      grind
    · by_cases member : f e ∈ found
      · rw [if_pos (by simp [member])]
        grind
      · rw [if_neg (by simp [listed, member])]
        grind

/-- The variants are what the target can be replaced by in the selectors, if it is not there yet. -/
theorem mem_variants : s ∈ variants selectors target extenders ↔
    s ∉ selectors ∧ ∃ m ∈ selectors, mentions target m = true ∧
      ∃ e ∈ extenders, s = replace target e m := by
  have all (ms found : List String) : s ∈ ms.foldl (fun found m =>
      extenders.foldl (fun found e =>
        let candidate := replace target e m
        if selectors.contains candidate || found.contains candidate then found
        else found ++ [candidate]) found) found ↔
      s ∈ found ∨ (s ∉ selectors ∧ ∃ m ∈ ms, ∃ e ∈ extenders, s = replace target e m) := by
    induction ms generalizing found with
    | nil => simp
    | cons m ms ih =>
      rw [List.foldl_cons, ih]
      dsimp only
      rw [mem_foldl_add]
      simp only [List.mem_cons, exists_eq_or_imp]
      rw [or_assoc, ← and_or_left]
  rw [variants, all]
  simp only [List.not_mem_nil, false_or, List.mem_filter, and_assoc]

/-- Extending adds exactly the replacements. -/
theorem mem_extend : s ∈ extend selectors target extenders ↔
    s ∈ selectors ∨ ∃ m ∈ selectors, mentions target m = true ∧
      ∃ e ∈ extenders, s = replace target e m := by
  rw [extend, List.mem_append, mem_variants]
  tauto

/-- Classes gain all extenders if the target is one of them, and nothing otherwise. -/
theorem mem_extend_class (classes : ∀ s ∈ selectors, IsClass s) (ht : IsClass target) :
    s ∈ extend selectors target extenders ↔ s ∈ selectors ∨ (target ∈ selectors ∧ s ∈ extenders) := by
  rw [mem_extend]
  refine or_congr_right ⟨?_, fun ⟨member, hs⟩ => ?_⟩
  · rintro ⟨m, member, mentioned, e, he, rfl⟩
    obtain rfl := (ht.mentions_iff (classes m member)).1 mentioned
    exact ⟨member, by rwa [ht.replace_self]⟩
  · exact ⟨target, member, (ht.mentions_iff ht).2 rfl, s, hs, (ht.replace_self s).symm⟩

/-- Extend by the same extenders, target after target. -/
def extendAll (selectors targets extenders : List String) : List String :=
  targets.foldl (extend · · extenders) selectors

/-- Classes gain all extenders if one of the targets is among them, and nothing otherwise. -/
theorem mem_extendAll (classes : ∀ s ∈ selectors, IsClass s) (ht : ∀ t ∈ targets, IsClass t)
    (he : ∀ e ∈ extenders, IsClass e) :
    s ∈ extendAll selectors targets extenders ↔
      s ∈ selectors ∨ ((∃ t ∈ targets, t ∈ selectors) ∧ s ∈ extenders) := by
  unfold extendAll
  induction targets generalizing selectors with
  | nil => simp
  | cons t targets ih =>
    have step {s : String} :
        s ∈ extend selectors t extenders ↔ s ∈ selectors ∨ (t ∈ selectors ∧ s ∈ extenders) :=
      mem_extend_class classes (ht t (by simp))
    have classes' : ∀ s ∈ extend selectors t extenders, IsClass s := by
      intro s hs
      rcases step.1 hs with hs | ⟨-, hs⟩
      · exact classes s hs
      · exact he s hs
    rw [List.foldl_cons, ih classes' fun t' h => ht t' (.tail t h)]
    simp only [step, List.mem_cons, exists_eq_or_imp]
    -- a target that is found among the extenders has been added with all of them
    grind

/-- Extending selectors leaves them in front. -/
theorem isPrefix_extendAll (selectors targets extenders : List String) :
    selectors <+: extendAll selectors targets extenders :=
  List.foldlRecOn targets _ (List.prefix_refl selectors) fun _ before _ _ =>
    before.trans (isPrefix_extend _ _ _)

end

/-! ## Closed families -/

section

variable {ι : Type} {own S : ι → Set String} {X Y : Set (ι × List String)} {e : ι} {targets : List String}

/-- A family of sets of selectors holds its own ones, and wherever it holds a target of an extension, it
holds all that the extending member does. -/
structure Closed (own : ι → Set String) (X : Set (ι × List String)) (S : ι → Set String) : Prop where
  own_le : own ≤ S
  extends_le : ∀ x ∈ X, ∀ t ∈ x.2, ∀ b, t ∈ S b → S x.1 ⊆ S b

/-- Carry out one extension on a family. -/
def spread (S : ι → Set String) (x : ι × List String) : ι → Set String :=
  fun b => {s | s ∈ S b ∨ ((∃ t ∈ x.2, t ∈ S b) ∧ s ∈ S x.1)}

/-- What is closed under extensions stays closed under them when another one is carried out, and is closed
under that one as well. -/
theorem Closed.spread (h : Closed own X S) (x : ι × List String) :
    Closed own (insert x X) (spread S x) where
  own_le b s hs := .inl (h.own_le b hs)
  extends_le := by
    -- the extending member itself gains nothing
    have self : Selector.spread S x x.1 ⊆ S x.1 := by
      rintro s (hs | ⟨-, hs⟩) <;> exact hs
    rintro y (rfl | hy) t ht b hb
    · have mentions : ∃ t ∈ y.2, t ∈ S b := by
        rcases hb with hb | ⟨hb, -⟩
        · exact ⟨t, ht, hb⟩
        · exact hb
      exact fun s hs => .inr ⟨mentions, self hs⟩
    · -- what `y` brings along was in `b` before, or it comes by `x` and belongs to its extender
      have gained : S y.1 ⊆ Selector.spread S x b := by
        rcases hb with hb | ⟨mentions, hb⟩
        · exact fun s hs => .inl (h.extends_le y hy t ht b hb hs)
        · exact fun s hs => .inr ⟨mentions, h.extends_le y hy t ht x.1 hb hs⟩
      rintro s (hs | ⟨⟨t', ht', hx⟩, hs⟩)
      · exact gained hs
      · -- `x` reaches `y`, so it reaches `b` too
        rcases gained hx with hx | ⟨mentions, -⟩
        · exact .inr ⟨⟨t', ht', hx⟩, hs⟩
        · exact .inr ⟨mentions, hs⟩

/-- Carrying out one more extension on the least closed family gives the least one that is closed under it
as well. -/
theorem isLeast_spread (h : IsLeast {S | Closed own X S} S) (x : ι × List String) :
    IsLeast {S | Closed own (insert x X) S} (spread S x) := by
  refine ⟨h.1.spread x, fun T hT => ?_⟩
  have below : S ≤ T := h.2 ⟨hT.own_le, fun y hy => hT.extends_le y (.inr hy)⟩
  rintro b s (hs | ⟨⟨t, ht, hb⟩, hs⟩)
  · exact below b hs
  · exact hT.extends_le x (.inl rfl) t ht b (below b hb) (below x.1 hs)

/-- Without extensions the own selectors are least. -/
theorem isLeast_own (own : ι → Set String) : IsLeast {S | Closed own ∅ S} own :=
  ⟨⟨le_refl own, fun _ h => h.elim⟩, fun _ h => h.own_le⟩

end

end Selector

end Stylesheet

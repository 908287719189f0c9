import Stylesheet.Text.Blank
import Stylesheet.Text.Word

/-! # Selectors

The selectors of a block are a list of texts. **Nesting** puts each of them under each selector of the
block around it: `&` stands for the outer selector, and without it the two are joined as descendants
(**`Selector.nestUnder`**). **Extending** adds, to every selector that mentions a target, the variants
with the target replaced (**`Selector.extend`**); the target has to stand as a whole, not inside
a longer name. -/

namespace Stylesheet

namespace Selector

/-! ## Nesting -/

/-- One selector under an outer one, blanks around the outer one left out. -/
def under (outer own : String) : String :=
  let outer := Text.trim outer.toList
  if own.toList.contains '&' then
    String.ofList (own.toList.flatMap fun c => if c == '&' then outer else [c])
  else String.ofList (outer ++ ' ' :: own.toList)

/-- Selectors under those of the block around them, in the order of the outer ones. Without outer ones
they stay as they are. -/
def nestUnder (own outer : List String) : List String :=
  if outer.isEmpty then own else outer.flatMap fun p => own.map (under p)

/-- Without outer selectors, a block keeps its own. -/
@[simp] theorem nestUnder_nil (own : List String) : nestUnder own [] = own := rfl

/-! ## Extending -/

/-- A piece of a selector: a character, or a place where the target stands. -/
inductive Piece
  | char (c : Char)
  | target
  deriving Repr, DecidableEq

/-- Whether a character continues a name. -/
def continuesName (c : Char) : Bool := Text.isAlphanumeric c || c == '-' || c == '_'

/-- Whether the first character of a target marks where it begins by itself. -/
def marksStart (c : Char) : Bool := c == '.' || c == '#' || c == '[' || c == ':'

/-- Whether the target `t :: ts` stands as a whole between these neighbours. -/
def standsClear (t : Char) (before after : Option Char) : Bool :=
  (marksStart t || !before.any continuesName) && !after.any continuesName

/-- The pieces of a selector for the target `t :: ts`; `before` is the character in front. The places
where the target's text stands are taken from left to right without overlap. -/
def pieces (t : Char) (ts : List Char) (before : Option Char) (text : List Char) : List Piece :=
  match text with
  | [] => []
  | c :: cs =>
    if (t :: ts).isPrefixOf (c :: cs) then
      let rest := cs.drop ts.length
      (if standsClear t before rest.head? then [.target] else (t :: ts).map .char) ++
        pieces t ts (some (ts.getLastD t)) rest
    else .char c :: pieces t ts (some c) cs
termination_by text.length
decreasing_by
  all_goals simp only [List.length_cons, List.length_drop]; omega

/-- The pieces of a selector for a target; a target without characters stands nowhere. -/
def piecesFor (target selector : String) : List Piece :=
  match target.toList with
  | [] => selector.toList.map .char
  | t :: ts => pieces t ts none selector.toList

/-- Put a text in the places of the target. -/
def fill (extender : String) (ps : List Piece) : String :=
  String.ofList (ps.flatMap fun
    | .char c => [c]
    | .target => extender.toList)

/-- Whether a selector mentions a target. -/
def mentions (target selector : String) : Bool := (piecesFor target selector).contains .target

/-- A selector with the target replaced. -/
def replace (target extender selector : String) : String := fill extender (piecesFor target selector)

/-- The variants that extending adds to a list of selectors, in the order in which they are found, each
of them once and none that is in the list already. -/
def variants (selectors : List String) (target : String) (extenders : List String) : List String :=
  (selectors.filter (mentions target)).foldl (fun found s =>
    extenders.foldl (fun found e =>
      let candidate := replace target e s
      if selectors.contains candidate || found.contains candidate then found
      else found ++ [candidate]) found) []

/-- The selectors with the variants behind them. -/
def extend (selectors : List String) (target : String) (extenders : List String) : List String :=
  selectors ++ variants selectors target extenders

/-- Extending keeps the selectors in front. -/
theorem isPrefix_extend (selectors : List String) (target : String) (extenders : List String) :
    selectors <+: extend selectors target extenders := ⟨_, rfl⟩

/-- A target without characters is mentioned nowhere. -/
@[simp] theorem mentions_empty (selector : String) : mentions "" selector = false := by
  simp only [mentions, piecesFor, String.toList_empty, List.contains_eq_any_beq, List.any_map,
    List.any_eq_false, Function.comp_apply]
  intro c _
  exact Bool.false_ne_true

/-- A target without characters adds nothing. -/
@[simp] theorem variants_empty (selectors extenders : List String) :
    variants selectors "" extenders = [] := by
  have h : selectors.filter (mentions "") = [] := by simp [List.filter_eq_nil_iff]
  rw [variants, h, List.foldl_nil]

end Selector

end Stylesheet

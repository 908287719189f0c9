import Stylesheet.Proofs.Expansion.Flattening
import Stylesheet.Proofs.Interpolation.Texts

/-! # Placeholders in expanded nodes

Expanding a node resolves the placeholders in its texts for the variables as they are when the walk comes
to it, at the top as in any body (`traverse_resolves`). The texts of plain lines, of the blocks of
keyframes and of extensions are an exception (**`Node.keepsTexts`**): they are taken as they stand, and are
resolved only where a body is copied. -/

namespace Stylesheet

open Expansion

/-- Whether expanding a node takes its texts as they stand. -/
def Node.keepsTexts : Node → Bool
  | .plain _ | .keyframeBlock _ | .extend _ => true
  | _ => false

/-- A node with the placeholders resolved that expanding it resolves. -/
def Node.resolve (lookup : Lookup) (n : Node) : Node :=
  if n.keepsTexts then n else n.interpolate lookup

variable {σ : Type}

/-- What expanding a node under `p` leaves behind when the texts of the node come to those of `n`. -/
def Leaves (services : Services σ) (mode : Mode) (p id : NodeId) (w w' : World σ) (n : Node) : Prop :=
  match n with
  | .block _ | .media _ | .keyframes _ _ | .keyframeBlock _ | .plain _ =>
    w'.tree.node id = n ∧ w'.tree.parent? id = some p
  | .declaration name _ important => ∃ value,
    w'.tree.node id = .declaration name value important ∧ w'.tree.parent? id = some p
  -- the declarations in it move out, with longer names
  | .nesting name => ∃ depth w₁,
    ((walker services depth).walkChildren id mode).exec w = (.ok .finished, w₁) ∧
      ∀ x own value important, w₁.tree.parent? x = some id →
        w₁.tree.node x = .declaration own value important →
          w'.tree.node x = .declaration (name ++ "-" ++ own) value important ∧ w'.tree.parent? x = some p
  | .importing i =>
    if i.isPlain then w'.tree.node id = .plain i.text ∧ w'.tree.parent? id = some p
    else ∃ source, (services.load i.uri w.loader).1 = .ok (some source)
  | .extend targets =>
    w'.context.extensions = w.context.extensions ++
      ((w.tree.enclosingBlock? w.tree.size id).map fun block => (block, targets)).toList
  | _ => True

section

variable {w w' : World σ}

/-- A text is resolved by the variables of the world. -/
theorem Walker.exec_resolve_bind {β : Type} (text : String) (f : String → Expansion σ β) :
    (Walker.resolve text >>= f).exec w = (f (interpolate w.context.scope.get? text)).exec w := rfl

variable (services : Services σ) (depth : Nat) (mode : Mode) {p id : NodeId} {d : Nat}

/-- Walking through the children of a node leaves the node where it is and what it is. -/
theorem walkChildren_spares (hl : w.tree.LinkedFrom 0) (hd : w.tree.Depth id d) {r : Except Stop Flow}
    (walk : ((walker services depth).walkChildren id mode).exec w = (r, w')) :
    w.tree.Spares id [] w'.tree := by
  rw [walkChildren_eq_visit services depth mode hl hd] at walk
  exact (visit_spares services depth mode depth hl hd
    (show w.tree.children id = [] ++ w.tree.children id ++ [] by simp) walk).1

/-- A node that is changed before the walk through its children is found changed behind the walk. -/
theorem walkChildren_setNode (hl : w.tree.LinkedFrom 0) (hd : w.tree.Depth p d)
    (parent : w.tree.parent? id = some p) (n : Node) {x : Except Stop Flow}
    (walk : ((walker services depth).walkChildren id mode).exec { w with tree := w.tree.setNode id n } =
      (x, w')) :
    w'.tree.LinkedFrom 0 ∧ w'.tree.node id = n ∧ w'.tree.parent? id = some p := by
  have set := Tree.Relabeled.setNode w.tree id n
  have spares := walkChildren_spares services depth mode (set.linkedFrom hl) (set.depth (.under parent hd)) walk
  exact ⟨spares.linked, spares.node_eq.trans (Tree.node_setNode_self _ _ _ (Tree.lt_size_of_parent? parent)),
    spares.parent?_eq.trans ((Tree.parent?_setNode _ _ _ _).trans parent)⟩

/-! ## Node by node -/

/-- Evaluating a value moves neither the variables nor any node. -/
theorem evaluate_spares (value : Value) :
    let w₁ := ((evaluate services depth value).exec w).2
    w₁.context = w.context ∧ w.tree.Grown w₁.tree := by
  have echoes := (walker_realizes_bodyDeriver services depth).evaluate value
  exact ⟨(echoes.unmoved (.aside w)).context, echoes.grown (.aside w)⟩

/-- A declaration leaves its name resolved, as interpolating the node would. -/
theorem leaves_declaration (parent : w.tree.parent? id = some p) {name : String} {value : Value}
    {important : Bool}
    (run : (do
      let result ← (walker services depth).evaluate value
      let name ← Walker.resolve name
      modifyTree (·.setNode id (.declaration name result important))
      pure Flow.finished : Expansion σ Flow).exec w = (.ok .finished, w')) :
    Leaves services mode p id w w' (.declaration (interpolate w.context.scope.get? name) value important) := by
  obtain ⟨result, w₁, evaluated, run⟩ := exec_bind_ok run
  have spares := evaluate_spares services depth (w := w) value
  rw [show (evaluate services depth value).exec w = _ from evaluated] at spares
  obtain ⟨context, grown⟩ := spares
  dsimp only at context grown
  rw [Walker.exec_resolve_bind, exec_modifyTree_bind, context] at run
  cases run
  have created := Tree.lt_size_of_parent? parent
  refine ⟨result, Tree.node_setNode_self _ _ _ (created.trans_le grown.size_le), ?_⟩
  rw [Tree.parent?_setNode, Tree.parent?_eq, grown.slot_eq created, ← Tree.parent?_eq]
  exact parent

/-- A block leaves its selectors resolved, as interpolating the node would. -/
theorem leaves_block (hl : w.tree.LinkedFrom 0) (hd : w.tree.Depth p d)
    (parent : w.tree.parent? id = some p) {selectors : List String}
    (run : ((walker services depth).traverseBlock id selectors mode).exec w = (.ok .finished, w')) :
    Leaves services mode p id w w' (.block (selectors.map (interpolate w.context.scope.get?))) := by
  obtain ⟨w₁, walk, out⟩ := traverseBlock_finished services depth mode run
  obtain ⟨linked, node, parent₁⟩ := walkChildren_setNode services depth mode hl hd parent _ walk
  have stays := linked.nestOut_self parent₁ (hl.ne_parent hd parent)
    (selectors.map (interpolate w.context.scope.get?)) (fun c => (w₁.tree.node c).isBlock)
  dsimp only at stays
  rw [← out p parent₁] at stays
  exact ⟨stays.2.trans node, stays.1⟩

/-- A nested declaration leaves its name resolved, as interpolating the node would. -/
theorem leaves_nesting (hl : w.tree.LinkedFrom 0) (hd : w.tree.Depth p d)
    (parent : w.tree.parent? id = some p) {name : String}
    (run : ((walker services depth).traverseNesting id name mode).exec w = (.ok .finished, w')) :
    Leaves services mode p id w w' (.nesting (interpolate w.context.scope.get? name)) := by
  rw [Walker.traverseNesting, Walker.exec_resolve_bind] at run
  generalize interpolate w.context.scope.get? name = name at *
  obtain ⟨flow, w₁, walk, run⟩ := exec_bind_ok run
  have spares := walkChildren_spares services depth mode hl (.under parent hd) walk
  have linked := spares.linked
  have parent₁ : w₁.tree.parent? id = some p := spares.parent?_eq.trans parent
  cases flow with
  | returned value => cases run
  | finished =>
    dsimp only at run
    have parentOf : w₁.tree.parentOf id = .ok p := by rw [Tree.parentOf, parent₁]
    rw [exec_tree_bind, parentOf, exec_ofExcept_ok_bind, exec_modifyTree_bind] at run
    cases run
    refine ⟨depth, w₁, walk, fun x own value important hx declared => ?_⟩
    have ne : id ≠ p := hl.ne_parent hd parent
    obtain ⟨pre, post, hc⟩ := List.append_of_mem (linked.parent (Nat.zero_le _) parent₁).2
    have moved := linked.spliceAfter_moved (Tree.renodes_lengthenName name) ne (Nat.zero_le _) (Nat.zero_le _)
      (linked.nodup (Nat.zero_le _)) hc fun c hc => hc
    have moves : x ∈ w₁.tree.children id := (linked.parent (Nat.zero_le _) hx).2
    -- the node that goes is none of those that move out
    have other : x ≠ id := by
      rintro rfl
      exact ne (Option.some.inj (hx.symm.trans parent₁))
    have node := moved.node_eq x
    have parent' := moved.parent?_eq x
    rw [if_pos moves] at node parent'
    dsimp only
    rw [Tree.node_detach, Tree.parent?_detach, if_neg other, node, declared]
    exact ⟨rfl, parent'⟩

/-- An import leaves its address resolved, as interpolating the node would. -/
theorem leaves_importing (parent : w.tree.parent? id = some p) {i : Import}
    (run : (Walker.traverseImport services (walker services depth) id i mode).exec w =
      (.ok .finished, w')) :
    Leaves services mode p id w w' (.importing { i with uri := interpolate w.context.scope.get? i.uri }) := by
  rw [Walker.traverseImport, Walker.exec_resolve_bind] at run
  generalize interpolate w.context.scope.get? i.uri = uri at *
  dsimp only at run
  rw [Leaves]
  split at run
  · next plain =>
    rw [exec_modifyTree_bind] at run
    cases run
    rw [if_pos plain]
    exact ⟨Tree.node_setNode_self _ _ _ (Tree.lt_size_of_parent? parent),
      (Tree.parent?_setNode _ _ _ _).trans parent⟩
  · next plain =>
    rw [if_neg plain]
    obtain ⟨source, w₁, loaded, -⟩ := exec_bind_ok run
    rw [Walker.exec_load] at loaded
    have found := congrArg Prod.fst loaded
    dsimp only at found
    split at found
    · next h => exact ⟨_, h⟩
    · cases found
    · cases found

/-- An extension has no text that is resolved. -/
theorem leaves_extend {targets : List String}
    (run : (do
      Walker.recordExtension id targets
      pure Flow.finished : Expansion σ Flow).exec w = (.ok .finished, w')) :
    Leaves services mode p id w w' (.extend targets) := by
  rw [Leaves]
  obtain ⟨u, w₁, noted, run⟩ := exec_bind_ok run
  cases run
  rw [Walker.recordExtension, exec_tree_bind] at noted
  cases h : w.tree.enclosingBlock? w.tree.size id with
  | none =>
    rw [h] at noted
    cases noted
    simp
  | some block =>
    rw [h] at noted
    cases noted
    rfl

/-- **A node that has been expanded has its texts resolved** for the variables as they were when the walk came
to it, but for the texts that are taken as they stand. -/
theorem traverse_leaves (hl : w.tree.LinkedFrom 0) (hd : w.tree.Depth p d)
    (parent : w.tree.parent? id = some p)
    (run : (traverse services depth id mode).exec w = (.ok .finished, w')) :
    Leaves services mode p id w w' ((w.tree.node id).resolve w.context.scope.get?) := by
  cases depth with
  | zero => cases run
  | succ depth =>
    have renamed (n : Node) (walk : ((walker services depth).walkChildren id mode).exec
        { w with tree := w.tree.setNode id n } = (.ok .finished, w')) :
        w'.tree.node id = n ∧ w'.tree.parent? id = some p :=
      (walkChildren_setNode services depth mode hl hd parent n walk).2
    have same : (⟨depth, evaluate services depth, traverse services depth⟩ : Walker σ) =
      walker services depth := rfl
    rw [traverse, same, Walker.traverseWith, exec_tree_bind] at run
    generalize hn : w.tree.node id = n at *
    dsimp only at run
    cases allowed : mode.allows n with
    | error e => rw [allowed] at run; cases run
    | ok u =>
      rw [allowed, exec_ofExcept_ok_bind] at run
      cases n with
      | declaration name value important => exact leaves_declaration services depth mode parent run
      | block selectors => exact leaves_block services depth mode hl hd parent run
      | nesting name => exact leaves_nesting services depth mode hl hd parent run
      | media query =>
        rw [Walker.exec_resolve_bind, exec_modifyTree_bind] at run
        exact renamed _ run
      | keyframes keyword name =>
        rw [Walker.exec_resolve_bind, exec_modifyTree_bind] at run
        exact renamed _ run
      | importing i => exact leaves_importing services depth mode parent run
      | extend targets => exact leaves_extend services mode run
      | keyframeBlock selectors =>
        refine renamed (.keyframeBlock selectors) ?_
        rw [Tree.setNode_eq_self hn]
        exact run
      | plain text =>
        cases run
        exact ⟨hn, parent⟩
      | _ => trivial

end

/-- What is reached from a node without a parent is at some depth. -/
theorem Tree.Reaches.exists_depth {t : Tree} {top p id : NodeId} (reached : t.Reaches top p)
    (linked : t.LinkedFrom 0) (alone : t.parent? top = none) (child : t.parent? id = some p) :
    ∃ d, t.Depth p d := by
  have created : top.index < t.size := by
    rcases reached.eq_or_exists_child with rfl | ⟨c, hc, -⟩
    · exact Tree.lt_size_of_mem_children (linked.parent (Nat.zero_le _) child).2
    · exact Tree.lt_size_of_mem_children hc
  exact (reached.depth linked (Nat.zero_le _) (.top created alone)).2

/-- **Placeholders of bound variables are resolved when the walk comes to them**, in a node of any kind but
plain lines, blocks of keyframes and extensions, whose texts are taken as they stand. -/
theorem traverse_resolves (services : Services σ) (depth : Nat) (mode : Mode) {w w' : World σ}
    {top p id : NodeId} (linked : w.tree.LinkedFrom 0) (alone : w.tree.parent? top = none)
    (reached : w.tree.Reaches top p) (child : w.tree.parent? id = some p)
    (run : (traverse services depth id mode).exec w = (.ok .finished, w')) :
    Leaves services mode p id w w' ((w.tree.node id).resolve w.context.scope.get?) ∧
      ∀ name value placeholder, w.context.scope.get? name = some value → IsPlaceholder name placeholder →
        ∀ l r, interpolate w.context.scope.get? (l ++ placeholder ++ r) =
          interpolate w.context.scope.get? l ++ value.unquoted ++ interpolate w.context.scope.get? r := by
  obtain ⟨d, hd⟩ := reached.exists_depth linked alone child
  exact ⟨traverse_leaves services depth mode linked hd child run,
    fun _ _ _ found h l r => interpolate_placeholder found h l r⟩

/-- A block with a comment in it, in a world that knows a variable with a string value. -/
def placeholderBlock : World Unit :=
  ⟨Tree.ofNodes [⟨.block [".a-#\x7b $x \x7d:hover"], [⟨.comment "c", []⟩]⟩],
    { Context.empty with scope := Scope.empty.define "x" [.str "b"] }, ()⟩

/-- The string stands in the selector without its quotes. -/
theorem traverse_resolves_block :
    ((traverse Services.plain 5 ⟨1⟩ .stylesheet).exec placeholderBlock).2.tree.node ⟨1⟩ =
      .block [".a-b:hover"] := by
  have alone : placeholderBlock.tree.parent? Tree.root = none := by decide +kernel
  have child : placeholderBlock.tree.parent? ⟨1⟩ = some Tree.root := by decide +kernel
  have linked : placeholderBlock.tree.LinkedFrom 0 := (Tree.ofNodes_isStylesheet _).linked
  have node : placeholderBlock.tree.node ⟨1⟩ = .block [".a-#\x7b $x \x7d:hover"] := rfl
  have run : (traverse Services.plain 5 ⟨1⟩ .stylesheet).exec placeholderBlock =
      (.ok .finished, ((traverse Services.plain 5 ⟨1⟩ .stylesheet).exec placeholderBlock).2) :=
    Prod.ext rfl rfl
  obtain ⟨⟨block, -⟩, placed⟩ := traverse_resolves Services.plain 5 .stylesheet linked alone .self child run
  have written : IsPlaceholder "x" "#\x7b $x \x7d" :=
    ⟨⟨by decide, by decide⟩, [' '], [' '], by decide, by decide⟩
  have text := placed "x" [.str "b"] "#\x7b $x \x7d" rfl written ".a-" ":hover"
  have around : ".a-" ++ "#\x7b $x \x7d" ++ ":hover" = ".a-#\x7b $x \x7d:hover" := by decide
  rw [around, (show Interpolation.Plain ".a-" by decide).interpolate,
    (show Interpolation.Plain ":hover" by decide).interpolate] at text
  exact block.trans (congrArg (fun selector => Node.block [selector]) text)

/-- A plain line, a block of keyframes and an extension with placeholders of a variable that is bound. -/
def unresolvedTexts : Tree := Tree.ofNodes
  [⟨.assignment "x" [.ident "a"] false, []⟩, ⟨.plain "s-#\x7b$x\x7d", []⟩,
    ⟨.keyframes "@keyframes" "k", [⟨.keyframeBlock ["#\x7b$x\x7d"], []⟩]⟩,
    ⟨.block [".a"], []⟩, ⟨.block [".b"], [⟨.extend [".#\x7b$x\x7d"], []⟩]⟩]

/-- Outside of copied bodies the placeholders stay, and the extension finds no block. -/
theorem compile_keeps_placeholders :
    let run := (compile Services.plain 9).exec ⟨unresolvedTexts, .empty, ()⟩
    run.1 = .ok () ∧ run.2.context.scope.get? "x" = some [.ident "a"] ∧
      run.2.tree.outline = "s-#\x7b$x\x7d\n@keyframes k\n  #\x7b$x\x7d\n.a\n.b" :=
  ⟨rfl, rfl, by decide +kernel⟩

end Stylesheet

import Mathlib.Data.List.Range
import Stylesheet.Proofs.Derivation.Settled
import Stylesheet.Proofs.Expansion.Flattening
import Stylesheet.Proofs.Expansion.Output

/-! # Compiling twice

A stylesheet is **at rest** when it is plain and all its declarations have settled values
(**`Tree.AtRest`**). That is how a compilation leaves it when its expressions are sound (`compile_atRest`),
and where no variable and no function is known there is nothing more to be done in it
(`Tree.AtRest.compile_eq`). So to compile a stylesheet a second time changes nothing
(`compile_idempotent`). -/

namespace Stylesheet

open Expansion

namespace Tree

variable {t t' : Tree} {ids : List NodeId} {rs : List (Rose NodeId)} {made : List (Rose Stem)} {x : NodeId}

/-- It is a stylesheet, no directive is left in it, no block is right inside of another one, and nothing is
left to be computed in the values of declarations. -/
structure AtRest (t : Tree) : Prop where
  stylesheet : t.IsStylesheet
  plain : ∀ x, t.Reaches root x → t.PlainAt x
  settled : ∀ x, t.Reaches root x → (t.node x).isSettled = true

/-- What holds of all nodes derived holds of the nodes that carry them. -/
theorem Shows.forall_node {P : Node → Prop} (h : t.Shows ids rs made)
    (hP : ∀ o ∈ made, ∀ s ∈ o.labels, P s.node) : ∀ x ∈ rs.flatMap Rose.labels, P (t.node x) := by
  obtain ⟨zs, rfl, rfl, hz⟩ := h.pairs
  intro x hx
  obtain ⟨r, hr, hx⟩ := List.mem_flatMap.1 hx
  obtain ⟨z, hzs, rfl⟩ := List.mem_map.1 hr
  obtain ⟨y, hy, rfl⟩ := Rose.mem_labels_map.1 hx
  rw [(hz z hzs y hy).node]
  exact hP _ (List.mem_map_of_mem hzs) _ (Rose.mem_labels_map.2 ⟨y, hy, rfl⟩)

/-- Other selectors do not make a value less settled. -/
theorem Restyled.isSettled_eq (h : Restyled t t') (x : NodeId) :
    (t'.node x).isSettled = (t.node x).isSettled := by
  rcases h.node_eq x with e | ⟨hb, selectors, e⟩
  · rw [e]
  · rw [e]
    revert hb
    cases t.node x <;> simp [Node.isBlock, Node.isSettled]

/-- The root is no block, so it stays as it is. -/
theorem IsStylesheet.applyExtensions (h : t.IsStylesheet) (extensions : List (NodeId × List String)) :
    (t.applyExtensions extensions).IsStylesheet := by
  refine related_applyExtensions (R := fun t t' => t.IsStylesheet → t'.IsStylesheet) (fun _ h => h)
    (fun h h' hs => h' (h hs)) (fun targets extenders t id h => ?_) t extensions h
  unfold extendBlock
  split
  next selectors hn =>
    refine ⟨h.linked.setNode id _, ?_, ?_, ?_⟩
    · rw [size_setNode]
      exact h.created
    · rw [parent?_setNode]
      exact h.alone
    · rw [node_setNode_of_ne, h.node_root]
      rintro rfl
      rw [h.node_root] at hn
      cases hn
  · exact h

/-- Carrying out extensions leaves a tree at rest. -/
theorem AtRest.applyExtensions (h : t.AtRest) (extensions : List (NodeId × List String)) :
    (t.applyExtensions extensions).AtRest := by
  have restyled := restyled_applyExtensions t extensions
  exact ⟨h.stylesheet.applyExtensions extensions,
    fun x hx => restyled.plainAt (h.plain x (restyled.reaches hx)),
    fun x hx => by rw [restyled.isSettled_eq]; exact h.settled x (restyled.reaches hx)⟩

end Tree

/-! ## The first time -/

section

variable {σ : Type}

/-- Expanding all that stands under the root leaves a stylesheet at rest. -/
theorem walkChildren_atRest (services : Services σ) (loads : Contract.settled.Loads services) (depth : Nat)
    {w w' : World σ} (stylesheet : w.tree.IsStylesheet) (leaves : w.tree.LeavesBare)
    (sound : w.tree.Expresses Value.Sound) (meets : w.context.Meets .settled)
    (run : ((walker services depth).walkChildren Tree.root .stylesheet).exec w = (.ok .finished, w')) :
    w'.tree.AtRest := by
  have loaded : services.LoadsBare := fun uri s source h => (loads uri s source h).2
  obtain ⟨expanded, ids, rs, made, site, shows, settled⟩ :=
    walkChildren_shows Contract.settled_evaluates services
    loads depth stylesheet leaves sound meets run
  refine ⟨expanded, walkChildren_plain services depth w stylesheet leaves meets.leaves loaded w' run, ?_⟩
  intro x hx
  rcases hx.eq_or_exists_child with rfl | ⟨c, hc, hx⟩
  · rw [expanded.node_root]
    rfl
  · refine shows.forall_node (P := (·.isSettled = true)) settled x (site.mem_iff.2 ?_)
    rw [site.children] at hc
    obtain ⟨r, hr, rfl⟩ := List.mem_map.1 (by simpa using hc)
    exact ⟨r, hr, hx⟩

/-- So does a compilation. -/
theorem compile_atRest (services : Services σ) (loads : Contract.settled.Loads services) (depth : Nat)
    {w w' : World σ} (stylesheet : w.tree.IsStylesheet) (leaves : w.tree.LeavesBare)
    (sound : w.tree.Expresses Value.Sound) (meets : w.context.Meets .settled)
    (run : (compile services depth).exec w = (.ok (), w')) : w'.tree.AtRest := by
  obtain ⟨w₁, walk, rfl⟩ := compile_eq_ok_iff.1 run
  have walked : w₁.tree.AtRest :=
    walkChildren_atRest (w := { w with context := { w.context with extensions := [] } }) services loads depth
      stylesheet leaves sound ⟨meets.values, meets.expressions, meets.leaves⟩ walk
  exact walked.applyExtensions _

/-! ## The second time -/

/-- No variable has a value, and no function has been defined. -/
structure World.Blank (w : World σ) : Prop where
  unbound : ∀ name, w.context.scope.get? name = none
  undefined : ∀ name, w.context.hasFunction name = false

namespace World.Blank

variable {w : World σ}

mutual

/-- Where no variable and no function is known, quiet terms stay as they are. -/
theorem term_substitute (h : w.Blank) (v : Walker σ) (nested : Bool) : ∀ {t : Term}, t.isQuiet = true →
    (t.substitute v.live nested).exec w = (.ok [t], w)
  | .number _, _ | .color _, _ | .ident _, _ | .str _, _ | .op _, _ => by
    unfold Term.substitute
    rfl
  | .var name, _ => by
    unfold Term.substitute Walker.live
    rw [bind_assoc, exec_scope_bind, h.unbound]
    rfl
  | .call name parameters, quiet => by
    rw [Term.isQuiet, Bool.and_eq_true, Bool.not_eq_true'] at quiet
    have inside := h.value_substitute v true quiet.2
    unfold Term.substitute
    rw [exec_bind]
    have stays : (v.live.ofCall name parameters).exec w = (.ok none, w) := by
      unfold Walker.live
      dsimp only
      rw [exec_context_bind, quiet.1, h.undefined]
      rfl
    rw [stays]
    dsimp only
    rw [exec_bind, inside]
    rfl
  | .list items, quiet => by
    rw [Term.isQuiet] at quiet
    have inside := h.value_substitute v true quiet
    unfold Term.substitute
    rw [exec_bind, inside]
    rfl

/-- So do quiet chains. -/
theorem value_substitute (h : w.Blank) (v : Walker σ) (nested : Bool) :
    ∀ {ts : List Term}, Value.isQuiet ts = true →
    (Value.substitute v.live nested ts).exec w = (.ok ts, w)
  | [], _ => by
    unfold Value.substitute
    rfl
  | t :: ts, quiet => by
    rw [Value.isQuiet, Bool.and_eq_true] at quiet
    unfold Value.substitute
    rw [exec_bind, h.term_substitute v nested quiet.1]
    dsimp only
    rw [exec_bind, h.value_substitute v nested quiet.2]
    rfl

end

variable (h : w.Blank) (services : Services σ)

include h

/-- Settled values are evaluated to themselves. -/
theorem evaluate {value : Value} (settled : Value.isSettled value = true) (depth : Nat) :
    (Stylesheet.evaluate services (depth + 1) value).exec w = (.ok value, w) := by
  unfold Stylesheet.evaluate Walker.evaluateWith Walker.replaceVariables
  rw [exec_bind, h.value_substitute _ false (Value.isQuiet_of_isSettled settled)]
  dsimp only
  rw [Value.asksArithmetic_of_isSettled settled]
  rfl

/-- Texts are resolved to themselves. -/
theorem interpolate (text : String) : Stylesheet.interpolate w.context.scope.get? text = text := by
  unfold Stylesheet.interpolate
  rw [Text.replaceMatches_of_forall_suffix, String.ofList_toList]
  intro c cs _
  unfold Interpolation.writing
  split
  · rfl
  · rw [h.unbound]
    rfl

end World.Blank

section

variable (services : Services σ) {w : World σ} {d depth : Nat} {id : NodeId}

/-- Visiting nodes that are left as they are. -/
theorem visit_idle {mode : Mode} {ids : List NodeId}
    (idle : ∀ id ∈ ids, (traverse services depth id mode).exec w = (.ok .finished, w)) (steps : Nat)
    (enough : ids.length ≤ steps) :
    ((walker services depth).visit mode steps ids).exec w = (.ok .finished, w) := by
  induction ids generalizing steps with
  | nil =>
    rw [Walker.visit.eq_1]
    rfl
  | cons id ids ih =>
    obtain ⟨steps, rfl⟩ := Nat.exists_eq_succ_of_ne_zero (Nat.ne_zero_of_lt enough)
    have first : ((walker services depth).traverse id mode).exec w = (.ok .finished, w) := idle id (.head _)
    rw [Walker.visit, exec_bind, first]
    exact ih (fun id h => idle id (.tail _ h)) steps (Nat.le_of_succ_le_succ enough)

/-- A node has fewer children than there are nodes. -/
theorem Tree.LinkedFrom.length_children_le {t : Tree} (hl : t.LinkedFrom 0) (id : NodeId) :
    (t.children id).length ≤ t.size := by
  have nodup : ((t.children id).map NodeId.index).Nodup :=
    (hl.nodup (Nat.zero_le _)).map fun x y => Tree.nodeId_ext
  have below : (t.children id).map NodeId.index ⊆ List.range t.size := by
    intro i hi
    obtain ⟨c, hc, rfl⟩ := List.mem_map.1 hi
    exact List.mem_range.2 (Tree.lt_size_of_parent? (hl.child (Nat.zero_le _) hc).2)
  simpa using (nodup.subperm below).length_le

/-- Walking through children that are left as they are. -/
theorem walkChildren_idle (hl : w.tree.LinkedFrom 0) (hd : w.tree.Depth id d) (enough : w.tree.size ≤ depth)
    (idle : ∀ c ∈ w.tree.children id, (traverse services depth c .stylesheet).exec w = (.ok .finished, w)) :
    ((walker services depth).walkChildren id .stylesheet).exec w = (.ok .finished, w) := by
  rw [walkChildren_eq_visit services depth .stylesheet hl hd]
  exact visit_idle services idle depth ((hl.length_children_le id).trans enough)

/-- **Nothing is left to be done** at a node of a stylesheet at rest: expanding it leaves the world as it is,
given enough levels. -/
theorem Tree.AtRest.traverse_eq (h : w.tree.AtRest) (blank : w.Blank) (hx : w.tree.Reaches Tree.root id)
    (hd : w.tree.Depth id d) (enough : 2 * w.tree.size ≤ d + depth) :
    (traverse services depth id .stylesheet).exec w = (.ok .finished, w) := by
  have shallow := hd.lt_size
  induction depth generalizing id d with
  | zero => omega
  | succ depth ih =>
    have children (c : NodeId) (hc : c ∈ w.tree.children id) :
        (traverse services depth c .stylesheet).exec w = (.ok .finished, w) := by
      have deeper : w.tree.Depth c (d + 1) := .under (h.stylesheet.linked.child (Nat.zero_le _) hc).2 hd
      exact ih (hx.child hc) deeper (by omega) deeper.lt_size
    have walked : ((walker services depth).walkChildren id .stylesheet).exec w = (.ok .finished, w) :=
      walkChildren_idle services h.stylesheet.linked hd (by omega) children
    have plain := h.plain id hx
    have settled := h.settled id hx
    have same {n : Node} (hn : w.tree.node id = n) : { w with tree := w.tree.setNode id n } = w := by
      rw [Tree.setNode_eq_self hn]
    -- the text is resolved to itself before the children are walked through
    have reworded (kind : String → Node) (text : String) (hn : w.tree.node id = kind text) :
        (Walker.resolve text >>= fun text => modifyTree (·.setNode id (kind text)) >>= fun _ =>
          (walker services depth).walkChildren id .stylesheet).exec w = (.ok .finished, w) := by
      rw [Walker.resolve, bind_assoc, exec_scope_bind, exec_pure_bind, blank.interpolate, exec_modifyTree_bind,
        same hn]
      exact walked
    rw [traverse, Walker.traverseWith, exec_tree_bind]
    cases hn : w.tree.node id with
    | root | fontFace | keyframeBlock _ => exact walked
    | comment _ | plain _ | vendor _ _ => rfl
    | declaration name value important =>
      rw [hn] at settled
      obtain ⟨depth, rfl⟩ := Nat.exists_eq_succ_of_ne_zero (show depth ≠ 0 by omega)
      dsimp only
      rw [Mode.allows_stylesheet, exec_ofExcept_ok_bind]
      rw [exec_bind, blank.evaluate services settled]
      dsimp only
      rw [Walker.resolve, bind_assoc, exec_scope_bind, exec_pure_bind, blank.interpolate, exec_modifyTree_bind,
        same hn]
      rfl
    | block selectors =>
      -- no block is right inside of it, so none moves out
      have none : ((w.tree.children id).filter fun c => (w.tree.node c).isBlock) = [] := by
        refine List.filter_eq_nil_iff.2 fun c hc => ?_
        rw [plain.block (by rw [hn]; rfl) c hc]
        exact Bool.false_ne_true
      have texts : selectors.map (Stylesheet.interpolate w.context.scope.get?) = selectors := by
        rw [List.map_congr_left fun s _ => blank.interpolate s, List.map_id']
      dsimp only
      rw [Mode.allows_stylesheet, exec_ofExcept_ok_bind]
      have walked' : ((⟨depth, evaluate services depth, traverse services depth⟩ : Walker σ).walkChildren id
          .stylesheet).exec w = (.ok .finished, w) := walked
      rw [Walker.traverseBlock, exec_scope_bind, texts, exec_modifyTree_bind, same hn, exec_bind, walked']
      dsimp only
      rw [exec_tree_bind, none]
      rfl
    | keyframes keyword name =>
      dsimp only
      rw [Mode.allows_stylesheet, exec_ofExcept_ok_bind]
      exact reworded (.keyframes keyword) name hn
    | media query =>
      dsimp only
      rw [Mode.allows_stylesheet, exec_ofExcept_ok_bind]
      exact reworded .media query hn
    | _ =>
      have := plain.directive
      rw [hn] at this
      cases this

/-- Nothing is left to be done in a stylesheet at rest. -/
theorem Tree.AtRest.compile_eq (h : w.tree.AtRest) (blank : w.Blank) (fresh : w.context.extensions = [])
    (enough : 2 * w.tree.size ≤ depth) : (compile services depth).exec w = (.ok (), w) := by
  have root := h.stylesheet.depth
  have children (c : NodeId) (hc : c ∈ w.tree.children Tree.root) :
      (traverse services depth c .stylesheet).exec w = (.ok .finished, w) :=
    h.traverse_eq services blank (.child .self hc)
      (.under (h.stylesheet.linked.child (Nat.zero_le _) hc).2 root) (by omega)
  have walked := walkChildren_idle services h.stylesheet.linked root (by omega) children
  obtain ⟨t, c, l⟩ := w
  obtain ⟨scope, extensions, definitions, functions, mixins⟩ := c
  obtain rfl : extensions = [] := fresh
  exact compile_eq_ok_iff.2 ⟨_, walked, rfl⟩

end

/-- **To compile a stylesheet a second time changes nothing.** Leaves have no children, and in all expressions,
those of the stylesheets that are loaded included, parentheses match, there is no slash, and lists hold no
operators but commas. When such a stylesheet has been compiled with nothing known before, compiling what is
left with nothing known before succeeds and leaves it as it is, given enough levels. -/
theorem compile_idempotent {σ' : Type} (services : Services σ) (services' : Services σ') (depth : Nat)
    {t : Tree} (stylesheet : t.IsStylesheet) (leaves : t.LeavesBare) (sound : t.Expresses Value.Sound)
    (loads : ∀ uri s source, (services.load uri s).1 = .ok (some source) →
      source.LeavesBare ∧ source.Expresses Value.Sound)
    (state : σ) {w : World σ} (run : (compile services depth).exec ⟨t, .empty, state⟩ = (.ok (), w)) :
    ∀ depth', 2 * w.tree.size ≤ depth' → ∀ state' : σ',
      (compile services' depth').exec ⟨w.tree, .empty, state'⟩ = (.ok (), ⟨w.tree, .empty, state'⟩) := by
  have empty : Context.empty.Meets .settled :=
    ⟨.empty, Tree.expresses_empty, Tree.leavesBare_empty⟩
  have rest := compile_atRest services (fun uri s source h => (loads uri s source h).symm) depth
    (w := ⟨t, .empty, state⟩) stylesheet leaves sound empty run
  intro depth' enough state'
  exact Tree.AtRest.compile_eq services' (w := ⟨w.tree, .empty, state'⟩) rest
    ⟨fun _ => rfl, fun _ => rfl⟩ rfl enough

/-- A block in a block and a value with a variable and a call: the second time nothing is left to be done. -/
theorem compile_idempotent_computed :
    let rs : List (Rose Node) := [⟨.assignment "x" [.ident "a", .op .plus, .ident "b"] false, []⟩,
      ⟨.block [".s"], [⟨.block ["&:hover"],
        [⟨.declaration "w" [.var "x", .call "join" [.ident "c", .op .comma, .var "x"]] false, []⟩]⟩]⟩]
    let w := ((compile Services.plain 9).exec ⟨Tree.ofNodes rs, .empty, ()⟩).2
    (∀ r ∈ rs, r.LeavesBare ∧ r.Expresses Value.Sound) ∧
      w.tree.outline = ".s\n.s:hover\n  w: ab c ab" ∧
      ∀ depth, 2 * w.tree.size ≤ depth → ∀ state : Unit,
        (compile Services.plain depth).exec ⟨w.tree, .empty, state⟩ = (.ok (), ⟨w.tree, .empty, state⟩) := by
  intro rs w
  have x : Value.Sound [.ident "a", .op .plus, .ident "b"] := by decide
  have declared : Value.Sound [.var "x", .call "join" [.ident "c", .op .comma, .var "x"]] := by decide
  have source : ∀ r ∈ rs, r.LeavesBare ∧ r.Expresses Value.Sound := by
    simp [rs, Rose.leavesBare_mk, Rose.expresses_mk, Node.isLeaf, Node.expressions, x, declared]
  refine ⟨source, by decide +kernel, ?_⟩
  exact compile_idempotent Services.plain Services.plain 9 (Tree.ofNodes_isStylesheet rs)
    (Tree.leavesBare_ofNodes fun r hr => (source r hr).1) (Tree.expresses_ofNodes fun r hr => (source r hr).2)
    (fun _ _ _ h => by cases h) () (Prod.fst_eq_iff.1 (by decide +kernel))

/-- It is not enough that there is no slash and that parentheses match: operators in a list come free when the
list is joined to another, and are carried out the second time. -/
theorem compile_carries_out_freed :
    let rs : List (Rose Node) := [⟨.declaration "w" [.call "join" [.list [.ident "a", .op .plus, .ident "b",
      .op .comma, .ident "c"], .op .comma, .ident "d"]] false, []⟩]
    let t := Tree.ofNodes rs
    (t.IsStylesheet ∧ t.LeavesBare ∧ t.Expresses Value.Proper) ∧
      ∃ w w' : World Unit, (compile Services.plain 9).exec ⟨t, .empty, ()⟩ = (.ok (), w) ∧
        (compile Services.plain 9).exec ⟨w.tree, .empty, ()⟩ = (.ok (), w') ∧
        w.tree.outline = "w: a + b, c, d" ∧ w'.tree.outline = "w: ab, c, d" := by
  intro rs t
  have joined : Value.Proper [.call "join" [.list [.ident "a", .op .plus, .ident "b", .op .comma, .ident "c"],
    .op .comma, .ident "d"]] := by decide
  have source : ∀ r ∈ rs, r.LeavesBare ∧ r.Expresses Value.Proper := by
    simp [rs, Rose.leavesBare_mk, Rose.expresses_mk, Node.isLeaf, Node.expressions, joined]
  refine ⟨⟨Tree.ofNodes_isStylesheet rs, Tree.leavesBare_ofNodes fun r hr => (source r hr).1,
    Tree.expresses_ofNodes fun r hr => (source r hr).2⟩, ?_⟩
  exact ⟨_, _, Prod.fst_eq_iff.1 (by decide +kernel), Prod.fst_eq_iff.1 (by decide +kernel), by decide +kernel,
    by decide +kernel⟩

end

end Stylesheet

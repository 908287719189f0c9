import Mathlib.Tactic.Tauto
import Stylesheet.Proofs.Expansion.Locality
import Stylesheet.Proofs.Selector.Nesting

/-! # Flattening nested blocks

A chain of blocks, each directly in the one before it (**`Tree.Nested`**), is flattened from the inside out:
when the outermost block has been expanded, the innermost one stands behind it, with the selectors that are
left when all are flattened (`traverse_nested`). -/

namespace Stylesheet

open Expansion

/-! ## Plain text -/

/-- There is no placeholder in a text. -/
def Interpolation.Plain (text : String) : Prop := ¬ ['#', '\x7b'] <:+: text.toList

/-- Whether a text has a placeholder can be decided. -/
instance (text : String) : Decidable (Interpolation.Plain text) := inferInstanceAs (Decidable (¬ _))

/-- What matches nowhere in a text leaves it as it is. -/
theorem Text.replaceMatches_of_forall_suffix {cut? : List Char → Option (List Char × List Char)}
    {text : List Char} (h : ∀ c cs, c :: cs <:+ text → cut? (c :: cs) = none) :
    replaceMatches cut? text = text := by
  induction text with
  | nil => simp
  | cons c cs ih =>
    rw [replaceMatches_of_none (h c cs (List.suffix_refl _)),
      ih fun d ds hd => h d ds (hd.trans (List.suffix_cons c cs))]

/-- A text without placeholders is left as it is. -/
theorem Interpolation.Plain.interpolate {text : String} (h : Plain text) (lookup : Lookup) :
    interpolate lookup text = text := by
  rw [Stylesheet.interpolate, Text.replaceMatches_of_forall_suffix, String.ofList_toList]
  intro c cs hc
  have front : ∀ rest, c :: cs ≠ '#' :: '\x7b' :: rest := by
    intro rest e
    have opened : ['#', '\x7b'] <+: c :: cs := ⟨rest, e.symm⟩
    exact h (opened.isInfix.trans hc.isInfix)
  have uncut : cutPlaceholder? (c :: cs) = none := by
    unfold cutPlaceholder?
    split
    · exact absurd ‹_› (front _)
    · rfl
  rw [writing, uncut]

namespace Tree

variable {t t' t'' : Tree} {p id x s : NodeId} {kept : List NodeId}

/-! ## What is spared -/

/-- Links still agree, and neither `p` nor what stands under these children of it has changed. -/
structure Spares (p : NodeId) (kept : List NodeId) (t t' : Tree) : Prop where
  linked : t'.LinkedFrom 0
  depth : ∃ d, t'.Depth p d
  node_eq : t'.node p = t.node p
  parent?_eq : t'.parent? p = t.parent? p
  slot_eq : ∀ s ∈ kept, ∀ x, t.Reaches s x → t'.slot x = t.slot x

/-- Where nothing under a node has changed, the same is reached from it. -/
theorem Reaches.congr (h : ∀ x, t.Reaches s x → t'.slot x = t.slot x) (hx : t.Reaches s x) :
    t'.Reaches s x := by
  induction hx with
  | self => exact .self
  | child hy hc ih => exact ih.child (by rwa [children_eq, h _ hy, ← children_eq])

/-- Where nothing changes, all nodes are spared. -/
theorem Spares.refl (hl : t.LinkedFrom 0) {d : Nat} (hd : t.Depth p d) (kept : List NodeId) :
    Spares p kept t t := ⟨hl, ⟨d, hd⟩, rfl, rfl, fun _ _ _ _ => rfl⟩

/-- What is spared by two changes is spared by both together. -/
theorem Spares.trans (h : Spares p kept t t') (h' : Spares p kept t' t'') : Spares p kept t t'' where
  linked := h'.linked
  depth := h'.depth
  node_eq := h'.node_eq.trans h.node_eq
  parent?_eq := h'.parent?_eq.trans h.parent?_eq
  slot_eq s hs x hx := by
    rw [h'.slot_eq s hs x (.congr (h.slot_eq s hs) hx), h.slot_eq s hs x hx]

/-- Fewer nodes are spared as well. -/
theorem Spares.mono (h : Spares p kept t t') {fewer : List NodeId} (sub : ∀ s ∈ fewer, s ∈ kept) :
    Spares p fewer t t' :=
  { h with slot_eq := fun s hs => h.slot_eq s (sub s hs) }

/-! ## Nested blocks -/

/-- Each of these blocks stands directly in the one before it, and the first one under `p`. -/
def Nested (t : Tree) (p : NodeId) : List (NodeId × List String) → Prop
  | [] => True
  | (id, own) :: inner => t.parent? id = some p ∧ t.node id = .block own ∧ t.Nested id inner

/-- The innermost of some blocks. -/
def innermost (id : NodeId) : List (NodeId × List String) → NodeId
  | [] => id
  | (id', _) :: inner => innermost id' inner

/-- A node that is put in its own place changes nothing. -/
theorem setNode_eq_self {n : Node} (h : t.node id = n) : t.setNode id n = t := by
  subst h
  unfold setNode modify
  congr 1
  refine Array.ext (by simp) fun i hi hi' => ?_
  rw [Array.getElem_modify]
  split
  · rename_i e
    subst e
    simp [node, slot, hi']
  · rfl

/-- Children of a node move out behind it, under its selectors. -/
theorem LinkedFrom.nestOut (hl : t.LinkedFrom 0) (parent : t.parent? id = some p) (ne : id ≠ p)
    (own : List String) (b : NodeId → Bool) (x : NodeId) :
    let ids := (t.children id).filter b
    let t' := (spliceAfter (nestBlock own) p id ids t).2
    t'.parent? x = (if x ∈ ids then some p else t.parent? x) ∧
      t'.node x = if x ∈ ids then nestNode own (t.node x) else t.node x := by
  intro ids t'
  obtain ⟨pre, post, hc⟩ := List.append_of_mem (hl.parent (Nat.zero_le _) parent).2
  have moved := LinkedFrom.spliceAfter_moved (renodes_nestBlock own) ne (Nat.zero_le _) (Nat.zero_le _)
    ((hl.nodup (Nat.zero_le _)).filter b) hl hc fun c hc => (List.mem_filter.1 hc).1
  exact ⟨moved.parent?_eq x, moved.node_eq x⟩

/-- The node itself is none of its children, and stays. -/
theorem LinkedFrom.nestOut_self (hl : t.LinkedFrom 0) (parent : t.parent? id = some p) (ne : id ≠ p)
    (own : List String) (b : NodeId → Bool) :
    let t' := (spliceAfter (nestBlock own) p id ((t.children id).filter b) t).2
    t'.parent? id = some p ∧ t'.node id = t.node id := by
  have stays : id ∉ (t.children id).filter b := fun member =>
    ne (Option.some.inj ((hl.child (Nat.zero_le _) (List.mem_filter.1 member).1).2.symm.trans parent))
  obtain ⟨parent', node⟩ := hl.nestOut parent ne own b id
  rw [if_neg stays] at parent' node
  exact ⟨parent'.trans parent, node⟩

/-- Nested blocks are reached from the outermost one. -/
theorem Nested.reaches (hl : t.LinkedFrom 0) {inner : List (NodeId × List String)}
    (h : t.Nested id inner) : t.Reaches id (innermost id inner) := by
  induction inner generalizing id with
  | nil => exact .self
  | cons b inner ih =>
    obtain ⟨hp, -, h⟩ := h
    exact (Reaches.self.child (hl.parent (Nat.zero_le _) hp).2).trans (ih h)

/-- Blocks are nested as before where nothing under the outermost one has changed. -/
theorem Nested.congr (hl : t.LinkedFrom 0) {inner : List (NodeId × List String)}
    (same : ∀ x, t.Reaches id x → t'.slot x = t.slot x) (h : t.Nested id inner) : t'.Nested id inner := by
  induction inner generalizing id with
  | nil => trivial
  | cons b inner ih =>
    obtain ⟨hp, hn, h⟩ := h
    have below : t.Reaches id b.1 := .child .self (hl.parent (Nat.zero_le _) hp).2
    refine ⟨?_, ?_, ih (fun x hx => same x (below.trans hx)) h⟩
    · rwa [parent?_eq, same _ below, ← parent?_eq]
    · rwa [node_eq, same _ below, ← node_eq]

end Tree

section

variable {σ : Type} (services : Services σ) (depth : Nat) (mode : Mode) {w w' : World σ} {p id : NodeId}
  {before mids after : List NodeId}

/-! ## Visits -/

/-- Expanding a child spares the children around it, whether it succeeds or not. -/
theorem traverse_spares {r : Except Stop Flow} {d : Nat} (hl : w.tree.LinkedFrom 0) (hd : w.tree.Depth p d)
    (hc : w.tree.children p = before ++ id :: after)
    (run : (traverse services depth id mode).exec w = (r, w')) :
    w.tree.Spares p (before ++ after) w'.tree ∧
      ∃ made, w'.tree.children p = before ++ made ++ after ∧
        ∀ x ∈ made, w.tree.Reaches id x ∨ w.tree.size ≤ x.index := by
  obtain ⟨cs, hs⟩ := hl.exists_site (Nat.zero_le _) hd hc
  have contained := traverse_contained services depth mode hs
  rw [run] at contained
  obtain ⟨rewrites, made, hmade, from'⟩ := contained
  refine ⟨⟨rewrites.linked, hs.depth_of_rewrites rewrites, rewrites.node_eq, rewrites.parent?_eq,
    fun s hsib x hx => ?_⟩, made, hmade, fun x hx => (from' x hx).imp_left fun hx => ?_⟩
  · obtain ⟨hlt, hp, hm⟩ := hs.apart hsib hx
    exact rewrites.slot_eq hlt hp hm
  · rw [hs.mem_iff] at hx
    simpa using hx

/-- Visiting some children next to each other spares the children around them. -/
theorem visit_spares (steps : Nat) {r : Except Stop Flow} {d : Nat} (hl : w.tree.LinkedFrom 0)
    (hd : w.tree.Depth p d) (hc : w.tree.children p = before ++ mids ++ after)
    (run : ((walker services depth).visit mode steps mids).exec w = (r, w')) :
    w.tree.Spares p (before ++ after) w'.tree ∧ ∃ made, w'.tree.children p = before ++ made ++ after := by
  induction mids generalizing steps w before d with
  | nil =>
    rw [Walker.visit.eq_1, exec_pure] at run
    cases run
    exact ⟨.refl hl hd _, [], hc⟩
  | cons id mids ih =>
    cases steps with
    | zero =>
      cases run
      exact ⟨.refl hl hd _, id :: mids, hc⟩
    | succ steps =>
      rw [Walker.visit, exec_bind] at run
      rcases visited : ((walker services depth).traverse id mode).exec w with ⟨x, w₁⟩
      rw [visited] at run
      obtain ⟨spares, made, hmade, -⟩ := traverse_spares services depth mode hl hd
        (show w.tree.children p = before ++ id :: (mids ++ after) by simpa using hc) visited
      have first : w.tree.Spares p (before ++ after) w₁.tree := spares.mono fun s => by simp; tauto
      have stop : w.tree.Spares p (before ++ after) w₁.tree ∧
          ∃ made, w₁.tree.children p = before ++ made ++ after :=
        ⟨first, made ++ mids, by simpa using hmade⟩
      rcases x with e | flow
      · cases run
        exact stop
      cases flow with
      | returned value =>
        cases run
        exact stop
      | finished =>
        -- what the first node has left stands in front of the others now
        obtain ⟨d₁, hd₁⟩ := spares.depth
        obtain ⟨rest, made', hmade'⟩ := ih steps spares.linked hd₁
          (show w₁.tree.children p = (before ++ made) ++ mids ++ after by simpa using hmade) run
        exact ⟨first.trans (rest.mono fun s => by simp; tauto), made ++ made', by simpa using hmade'⟩

/-- A visit that finishes has finished the first nodes, and then the others. -/
theorem visit_append (steps : Nat) {rest : List NodeId}
    (run : ((walker services depth).visit mode steps (mids ++ rest)).exec w = (.ok .finished, w')) :
    ∃ w₁ steps', ((walker services depth).visit mode steps mids).exec w = (.ok .finished, w₁) ∧
      ((walker services depth).visit mode steps' rest).exec w₁ = (.ok .finished, w') := by
  induction mids generalizing steps w with
  | nil => exact ⟨w, steps, by rw [Walker.visit.eq_1, exec_pure], run⟩
  | cons id mids ih =>
    cases steps with
    | zero => cases run
    | succ steps =>
      rw [List.cons_append, Walker.visit, exec_bind] at run
      rw [Walker.visit, exec_bind]
      rcases hx : ((walker services depth).traverse id mode).exec w with ⟨_ | _ | value, w₁⟩ <;>
        rw [hx] at run
      · cases run
      · exact ih steps run
      · cases run

/-- What a visit that finishes has done at one of the nodes. -/
theorem visit_cons (steps : Nat) {rest : List NodeId}
    (run : ((walker services depth).visit mode steps (id :: rest)).exec w = (.ok .finished, w')) :
    ∃ w₁ steps', (traverse services depth id mode).exec w = (.ok .finished, w₁) ∧
      ((walker services depth).visit mode steps' rest).exec w₁ = (.ok .finished, w') := by
  cases steps with
  | zero => cases run
  | succ steps =>
    rw [Walker.visit, exec_bind] at run
    rcases hx : ((walker services depth).traverse id mode).exec w with ⟨_ | _ | value, w₁⟩ <;>
      rw [hx] at run
    · cases run
    · exact ⟨w₁, steps, hx, run⟩
    · cases run

/-- Expanding a block resolves the placeholders in its selectors and expands its children. Then the blocks
among them move out behind it, under its selectors. -/
theorem traverseBlock_finished {own : List String}
    (run : ((walker services depth).traverseBlock id own mode).exec w = (.ok .finished, w')) :
    let selectors := own.map (interpolate w.context.scope.get?)
    ∃ w₁, ((walker services depth).walkChildren id mode).exec
        { w with tree := w.tree.setNode id (.block selectors) } = (.ok .finished, w₁) ∧
      ∀ p, w₁.tree.parent? id = some p → w'.tree =
        (Tree.spliceAfter (Tree.nestBlock selectors) p id
          ((w₁.tree.children id).filter fun c => (w₁.tree.node c).isBlock) w₁.tree).2 := by
  intro selectors
  rw [Walker.traverseBlock, exec_scope_bind] at run
  dsimp only at run
  rw [exec_modifyTree_bind] at run
  obtain ⟨flow, w₁, walk, run⟩ := exec_bind_ok run
  cases flow with
  | returned value => cases run
  | finished =>
    refine ⟨w₁, walk, fun p parent => ?_⟩
    dsimp only at run
    rw [exec_tree_bind] at run
    split at run
    · next none =>
      cases run
      rw [List.isEmpty_iff.1 none]
      rfl
    · have parentOf : w₁.tree.parentOf id = .ok p := by rw [Tree.parentOf, parent]
      rw [parentOf, exec_ofExcept_ok_bind, exec_modifyTree_bind] at run
      cases run
      rfl

/-- A block that has been expanded has been expanded so. -/
theorem traverse_block {own : List String} (block : w.tree.node id = .block own)
    (run : (traverse services depth id mode).exec w = (.ok .finished, w')) :
    let selectors := own.map (interpolate w.context.scope.get?)
    ∃ depth' w₁, ((walker services depth').walkChildren id mode).exec
        { w with tree := w.tree.setNode id (.block selectors) } = (.ok .finished, w₁) ∧
      ∀ p, w₁.tree.parent? id = some p → w'.tree =
        (Tree.spliceAfter (Tree.nestBlock selectors) p id
          ((w₁.tree.children id).filter fun c => (w₁.tree.node c).isBlock) w₁.tree).2 := by
  obtain ⟨depth', allowed, run⟩ := exec_traverse_ok run
  rw [Walker.traverseWith, exec_tree_bind] at run
  dsimp only at run
  rw [allowed, exec_ofExcept_ok_bind, block] at run
  exact ⟨depth', traverseBlock_finished services depth' mode run⟩

/-- Without placeholders the selectors are those that the block had. -/
theorem traverse_plain_block {own : List String} (block : w.tree.node id = .block own)
    (plain : ∀ s ∈ own, Interpolation.Plain s)
    (run : (traverse services depth id mode).exec w = (.ok .finished, w')) :
    ∃ depth' w₁, ((walker services depth').walkChildren id mode).exec w = (.ok .finished, w₁) ∧
      ∀ p, w₁.tree.parent? id = some p → w'.tree =
        (Tree.spliceAfter (Tree.nestBlock own) p id
          ((w₁.tree.children id).filter fun c => (w₁.tree.node c).isBlock) w₁.tree).2 := by
  have unplaced : own.map (interpolate w.context.scope.get?) = own := by
    rw [List.map_congr_left fun s hs => (plain s hs).interpolate _, List.map_id']
  obtain ⟨depth', w₁, walk, out⟩ := traverse_block services depth mode block run
  rw [unplaced, Tree.setNode_eq_self block] at walk
  rw [unplaced] at out
  exact ⟨depth', w₁, walk, out⟩

/-- Walking through the children of a node is to visit them. -/
theorem walkChildren_eq_visit {d : Nat} (hl : w.tree.LinkedFrom 0) (hd : w.tree.Depth id d) :
    ((walker services depth).walkChildren id mode).exec w =
      ((walker services depth).visit mode depth (w.tree.children id)).exec w := by
  rw [Walker.walkChildren, exec_tree_bind]
  exact walkFrom_eq_visit services depth mode depth (w.tree.children id) hl hd (List.nil_append _).symm

/-- A child of a node that is reached from its parent. -/
theorem Tree.LinkedFrom.ne_parent {t : Tree} {d : Nat} (hl : t.LinkedFrom 0) (hd : t.Depth p d)
    (parent : t.parent? id = some p) : id ≠ p := by
  obtain ⟨before, after, hc⟩ := List.append_of_mem (hl.parent (Nat.zero_le _) parent).2
  obtain ⟨cs, hs⟩ := hl.exists_site (Nat.zero_le _) hd hc
  rintro rfl
  exact hs.parent_not_mem (by simp [Rose.labels_mk])

/-- Visiting the children of a node leaves the innermost of the blocks nested in it as it is when the
outermost of them has been expanded, and among the children. -/
theorem visit_nested {id₂ : NodeId} {own₂ : List String} {inner : List (NodeId × List String)} {d : Nat}
    (flat : ∀ {depth : Nat} {w w' : World σ} {d : Nat}, w.tree.LinkedFrom 0 → w.tree.Depth id d →
      w.tree.Nested id ((id₂, own₂) :: inner) →
      (traverse services depth id₂ mode).exec w = (.ok .finished, w') →
      w'.tree.parent? (Tree.innermost id₂ inner) = some id ∧
        w'.tree.node (Tree.innermost id₂ inner) = .block (Selector.flattened (own₂ :: inner.map Prod.snd)))
    (hl : w.tree.LinkedFrom 0) (hd : w.tree.Depth id d) (nested : w.tree.Nested id ((id₂, own₂) :: inner))
    (steps : Nat)
    (run : ((walker services depth).visit mode steps (w.tree.children id)).exec w = (.ok .finished, w')) :
    w'.tree.parent? (Tree.innermost id₂ inner) = some id ∧
      w'.tree.node (Tree.innermost id₂ inner) =
        .block (Selector.flattened (own₂ :: inner.map Prod.snd)) := by
  obtain ⟨pre, post, hc⟩ := List.append_of_mem (hl.parent (Nat.zero_le _) nested.1).2
  rw [hc] at run
  -- the children in front spare the chain
  obtain ⟨w₁, steps₁, run₁, run⟩ := visit_append services depth mode steps run
  obtain ⟨spares₁, made₁, hc₁⟩ := visit_spares services depth mode steps hl hd
    (show w.tree.children id = [] ++ pre ++ (id₂ :: post) from hc) run₁
  obtain ⟨d₁, hd₁⟩ := spares₁.depth
  have nested₁ : w₁.tree.Nested id ((id₂, own₂) :: inner) := by
    obtain ⟨parent, block, nested⟩ := nested
    have same := spares₁.slot_eq id₂ (.head _)
    refine ⟨?_, ?_, nested.congr hl same⟩
    · rwa [Tree.parent?_eq, same _ .self, ← Tree.parent?_eq]
    · rwa [Tree.node_eq, same _ .self, ← Tree.node_eq]
  -- then the chain is flattened
  obtain ⟨w₂, steps₂, run₂, run⟩ := visit_cons services depth mode steps₁ run
  obtain ⟨parent, block⟩ := flat spares₁.linked hd₁ nested₁ run₂
  obtain ⟨spares₂, made₂, hc₂, -⟩ := traverse_spares services depth mode spares₁.linked hd₁ hc₁ run₂
  obtain ⟨d₂, hd₂⟩ := spares₂.depth
  generalize hlast : Tree.innermost id₂ inner = last at *
  have front : last ∈ made₁ ++ made₂ := by
    have member := (spares₂.linked.parent (Nat.zero_le _) parent).2
    rw [hc₂, List.mem_append] at member
    refine member.resolve_right fun behind => ?_
    -- a child behind the chain is not reached from it
    obtain ⟨cs, hs⟩ := spares₁.linked.exists_site (Nat.zero_le _) hd₁ hc₁
    refine (hs.apart (List.mem_append_right _ behind) .self).2.2
      (hs.mem_iff.2 ⟨_, List.mem_singleton.2 rfl, ?_⟩)
    have reached := (nested₁.2.2).reaches spares₁.linked
    rwa [hlast] at reached
  -- the children behind spare the innermost block
  obtain ⟨spares₃, -⟩ := visit_spares services depth mode steps₂ spares₂.linked hd₂
    (show w₂.tree.children id = (made₁ ++ made₂) ++ post ++ [] by simpa using hc₂) run
  have same := spares₃.slot_eq last (by simpa using front) _ .self
  rw [Tree.parent?_eq, same, ← Tree.parent?_eq, Tree.node_eq, same, ← Tree.node_eq]
  exact ⟨parent, block⟩

/-- A block that has been expanded stands where it was, and the blocks among its children have moved out
behind it, under its selectors. -/
theorem leave_block {own : List String} {d : Nat} (hl : w.tree.LinkedFrom 0) (hd : w.tree.Depth p d)
    (parent : w.tree.parent? id = some p) (block : w.tree.node id = .block own)
    (plain : ∀ s ∈ own, Interpolation.Plain s)
    (run : (traverse services depth id mode).exec w = (.ok .finished, w')) :
    (w'.tree.parent? id = some p ∧ w'.tree.node id = .block own) ∧
      ∃ depth' w₁, ((walker services depth').visit mode depth' (w.tree.children id)).exec w =
        (.ok .finished, w₁) ∧ ∀ x selectors, w₁.tree.parent? x = some id →
          w₁.tree.node x = .block selectors → w'.tree.parent? x = some p ∧
            w'.tree.node x = .block (Selector.nestUnder selectors own) := by
  obtain ⟨depth', w₁, walk, out⟩ := traverse_plain_block services depth mode block plain run
  rw [walkChildren_eq_visit services depth' mode hl (.under parent hd)] at walk
  obtain ⟨spares, -⟩ := visit_spares services depth' mode depth' hl (.under parent hd)
    (show w.tree.children id = [] ++ w.tree.children id ++ [] by simp) walk
  have ne := hl.ne_parent hd parent
  have parent₁ := spares.parent?_eq.trans parent
  have moved := spares.linked.nestOut parent₁ ne own (fun c => (w₁.tree.node c).isBlock)
  have stays := spares.linked.nestOut_self parent₁ ne own (fun c => (w₁.tree.node c).isBlock)
  dsimp only at moved stays
  rw [← out p parent₁] at moved stays
  refine ⟨⟨stays.1, stays.2.trans (spares.node_eq.trans block)⟩, depth', w₁, walk, fun x selectors hx hb => ?_⟩
  have moves : x ∈ (w₁.tree.children id).filter fun c => (w₁.tree.node c).isBlock :=
    List.mem_filter.2 ⟨(spares.linked.parent (Nat.zero_le _) hx).2, by rw [hb]; rfl⟩
  obtain ⟨parent', node'⟩ := moved x
  rw [if_pos moves] at parent' node'
  exact ⟨parent', by rw [node', hb]; rfl⟩

/-- **Nested blocks are flattened from the inside out.** When the outermost of some blocks, each directly in
the one before it, has been expanded, the innermost one stands beside it with the selectors that flattening
leaves. -/
theorem traverse_nested {inner : List (NodeId × List String)} {own : List String} {depth : Nat} {d : Nat}
    (hl : w.tree.LinkedFrom 0) (hd : w.tree.Depth p d) (nested : w.tree.Nested p ((id, own) :: inner))
    (plain : ∀ b ∈ (id, own) :: inner, ∀ s ∈ b.2, Interpolation.Plain s)
    (run : (traverse services depth id mode).exec w = (.ok .finished, w')) :
    w'.tree.parent? (Tree.innermost id inner) = some p ∧
      w'.tree.node (Tree.innermost id inner) =
        .block (Selector.flattened (own :: inner.map Prod.snd)) := by
  induction inner generalizing id own depth d w w' p with
  | nil =>
    obtain ⟨parent, block, -⟩ := nested
    exact (leave_block services depth mode hl hd parent block (plain _ (.head _)) run).1
  | cons b inner ih =>
    obtain ⟨parent, block, rest⟩ := nested
    obtain ⟨-, depth', w₁, walk, moved⟩ :=
      leave_block services depth mode hl hd parent block (plain _ (.head _)) run
    obtain ⟨parent₁, block₁⟩ := visit_nested services depth' mode
      (fun hl hd nested run => ih hl hd nested (fun b hb => plain b (.tail _ hb)) run) hl (.under parent hd)
      rest depth' walk
    -- the innermost block moves out, under the selectors of this one
    exact moved _ _ parent₁ block₁

end

/-! ## Extensions -/

/-- Selectors that have been extended, again and again. -/
def Selector.Extended (selectors extended : List String) : Prop :=
  ∃ es : List (String × List String), extended = es.foldl (fun s e => extend s e.1 e.2) selectors

/-- Selectors extend themselves. -/
theorem Selector.Extended.refl (selectors : List String) : Extended selectors selectors := ⟨[], rfl⟩

/-- Extending what has been extended extends the first selectors. -/
theorem Selector.Extended.trans {a b c : List String} (h : Extended a b) (h' : Extended b c) :
    Extended a c := by
  obtain ⟨es, rfl⟩ := h
  obtain ⟨es', rfl⟩ := h'
  exact ⟨es ++ es', by rw [List.foldl_append]⟩

/-- Extending by one target after the other. -/
theorem Selector.Extended.targets (targets extenders selectors : List String) :
    Extended selectors (targets.foldl (extend · · extenders) selectors) :=
  ⟨targets.map fun target => (target, extenders), by rw [List.foldl_map]⟩

namespace Tree

variable {t : Tree} {id x : NodeId} {selectors : List String}

/-- A block goes on to be a block, with extended selectors. -/
def ExtendsBlock (x : NodeId) (t t' : Tree) : Prop :=
  ∀ selectors, t.node x = .block selectors →
    ∃ extended, t'.node x = .block extended ∧ Selector.Extended selectors extended

/-- A block that is not changed has not lost any selectors. -/
theorem ExtendsBlock.refl (x : NodeId) (t : Tree) : ExtendsBlock x t t :=
  fun selectors h => ⟨selectors, h, .refl selectors⟩

/-- Blocks may be extended one time after the other. -/
theorem ExtendsBlock.trans {t' t'' : Tree} (h : ExtendsBlock x t t') (h' : ExtendsBlock x t' t'') :
    ExtendsBlock x t t'' := by
  intro selectors block
  obtain ⟨extended, block', ext⟩ := h selectors block
  obtain ⟨extended', block'', ext'⟩ := h' extended block'
  exact ⟨extended', block'', ext.trans ext'⟩

/-- Extending a block leaves every block extended or as it was. -/
theorem extendsBlock_extendBlock (targets extenders : List String) (t : Tree) (id x : NodeId) :
    ExtendsBlock x t (t.extendBlock targets extenders id) := by
  unfold extendBlock
  split
  · rename_i own block
    by_cases e : x = id
    · subst e
      intro selectors block'
      obtain rfl := Node.block.inj (block.symm.trans block')
      exact ⟨_, node_setNode_self t x _ (lt_size_of_node_ne (by rw [block]; nofun)), .targets _ _ _⟩
    · intro selectors block'
      exact ⟨selectors, by rw [node_setNode_of_ne t _ e, block'], .refl selectors⟩
  · exact .refl x t

/-- Extensions extend the selectors of a block, and add none when there are none. -/
theorem extendsBlock_applyExtensions (t : Tree) (extensions : List (NodeId × List String)) (x : NodeId) :
    ExtendsBlock x t (t.applyExtensions extensions) :=
  related_applyExtensions (.refl x) .trans
    (fun targets extenders t id => extendsBlock_extendBlock targets extenders t id x) t extensions

end Tree

/-! ## Compilation -/

section

variable {σ : Type} (services : Services σ) (depth : Nat) {w w' : World σ}

/-- The extensions that a compilation notes on the way. -/
def notedExtensions (w : World σ) : List (NodeId × List String) :=
  (((walker services depth).walkChildren Tree.root .stylesheet).exec
    { w with context := { w.context with extensions := [] } }).2.context.extensions

/-- A compilation that succeeds has visited all that stands under the root, and has carried out the
extensions. -/
theorem compile_finished (stylesheet : w.tree.IsStylesheet)
    (run : (compile services depth).exec w = (.ok (), w')) :
    ∃ c w₁, ((walker services depth).visit .stylesheet depth (w.tree.children Tree.root)).exec
        { w with context := c } = (.ok .finished, w₁) ∧
      w'.tree = w₁.tree.applyExtensions (notedExtensions services depth w) := by
  obtain ⟨w₁, walk, rfl⟩ := compile_eq_ok_iff.1 run
  refine ⟨{ w.context with extensions := [] }, w₁, ?_, ?_⟩
  · rw [← walk]
    exact (walkChildren_eq_visit services depth .stylesheet
      (w := { w with context := { w.context with extensions := [] } }) stylesheet.linked stylesheet.depth).symm
  · rw [notedExtensions, walk]

/-- **Blocks in blocks** of a stylesheet are compiled to the selectors seen from the top. When some blocks
stand directly in each other, the first one under the root, and those from the third one on mention the
outer selector at most at the front, the innermost one ends with its combined selectors, extended by what
extensions have been noted. -/
theorem compile_nested (stylesheet : w.tree.IsStylesheet) {id : NodeId} {own : List String}
    {inner : List (NodeId × List String)} (nested : w.tree.Nested Tree.root ((id, own) :: inner))
    (some : ∀ b ∈ (id, own) :: inner, b.2 ≠ [])
    (trimmed : ∀ b ∈ (id, own) :: inner, ∀ s ∈ b.2, Selector.Trimmed s)
    (plain : ∀ b ∈ (id, own) :: inner, ∀ s ∈ b.2, Interpolation.Plain s)
    (leading : ∀ b ∈ inner.tail, ∀ s ∈ b.2, Selector.Leading s)
    (run : (compile services depth).exec w = (.ok (), w')) :
    let combined := Selector.combined (own :: inner.map Prod.snd)
    ∃ selectors, w'.tree.node (Tree.innermost id inner) = .block selectors ∧
      Selector.Extended combined selectors ∧
      (notedExtensions services depth w = [] → selectors = combined) := by
  intro combined
  obtain ⟨c, w₁, walk, eq⟩ := compile_finished services depth stylesheet run
  obtain ⟨-, block⟩ := visit_nested services depth .stylesheet
    (fun hl hd nested run => traverse_nested services .stylesheet hl hd nested plain run)
    (w := { w with context := c }) stylesheet.linked stylesheet.depth nested depth walk
  have levels {P : List String → Prop} (h : ∀ b ∈ (id, own) :: inner, P b.2) :
      ∀ o ∈ own :: inner.map Prod.snd, P o := List.forall_mem_map.2 h
  -- flattening from the inside out gives what is seen from the top
  have agree : Selector.flattened (own :: inner.map Prod.snd) = combined := by
    refine Selector.flattened_eq_combined (levels some) (levels trimmed) ?_
    rw [List.drop_succ_cons, List.drop_one, ← List.map_tail]
    exact List.forall_mem_map.2 leading
  rw [agree] at block
  obtain ⟨selectors, block', extended⟩ :=
    Tree.extendsBlock_applyExtensions w₁.tree (notedExtensions services depth w) _ _ block
  refine ⟨selectors, by rw [eq, block'], extended, fun none => ?_⟩
  rw [none, Tree.applyExtensions_nil, block] at block'
  exact (Node.block.inj block').symm

end

/-- Blocks three deep. -/
def deepBlocks : Tree := Tree.ofNodes
  [⟨.comment "x", []⟩, ⟨.block ["a", "b"], [⟨.block [".c &"], [⟨.comment "y", []⟩,
    ⟨.block ["&:hover", "d"], [⟨.comment "z", []⟩]⟩]⟩]⟩]

/-- With `&` at the end in the second block and at the front in the third one. -/
theorem compile_nested_three :
    deepBlocks.Nested Tree.root [(⟨2⟩, ["a", "b"]), (⟨3⟩, [".c &"]), (⟨5⟩, ["&:hover", "d"])] ∧
      ((compile Services.plain 9).exec ⟨deepBlocks, .empty, ()⟩).1 = .ok () ∧
      ((compile Services.plain 9).exec ⟨deepBlocks, .empty, ()⟩).2.tree.node ⟨5⟩ =
        .block [".c a:hover", ".c a d", ".c b:hover", ".c b d"] := by
  have nested : deepBlocks.Nested Tree.root
      [(⟨2⟩, ["a", "b"]), (⟨3⟩, [".c &"]), (⟨5⟩, ["&:hover", "d"])] :=
    ⟨by decide +kernel, rfl, by decide +kernel, rfl, by decide +kernel, rfl, trivial⟩
  refine ⟨nested, rfl, ?_⟩
  obtain ⟨selectors, block, -, exact'⟩ := compile_nested Services.plain 9 (w := ⟨deepBlocks, .empty, ()⟩)
    (Tree.ofNodes_isStylesheet _) nested (by decide) (by decide) (by decide) (by decide) rfl
  rw [exact' rfl] at block
  exact block

/-- Where `&` stands at the end of a selector in the third block, the outermost selector comes to stand in
front of all, and not where the full selector of the block around it belongs. -/
theorem compile_mention_at_end :
    let blocks := Tree.ofNodes [⟨.block ["a"], [⟨.block ["b"], [⟨.block [".x &"], [⟨.comment "c", []⟩]⟩]⟩]⟩]
    blocks.Nested Tree.root [(⟨1⟩, ["a"]), (⟨2⟩, ["b"]), (⟨3⟩, [".x &"])] ∧
      ((compile Services.plain 9).exec ⟨blocks, .empty, ()⟩).1 = .ok () ∧
      ((compile Services.plain 9).exec ⟨blocks, .empty, ()⟩).2.tree.node ⟨3⟩ = .block ["a .x b"] ∧
      Selector.combined [["a"], ["b"], [".x &"]] = [".x a b"] :=
  ⟨⟨by decide +kernel, rfl, by decide +kernel, rfl, by decide +kernel, rfl, trivial⟩, rfl,
    by with_unfolding_all rfl, by decide⟩

end Stylesheet

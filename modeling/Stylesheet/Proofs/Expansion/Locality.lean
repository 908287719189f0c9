import Stylesheet.Proofs.Derivation.Depth
import Stylesheet.Proofs.Tree.Reach

/-! # Expansion is local

Expanding a node changes what stands under it and the children of its parent, between the siblings
before it and those behind it (`traverse_contained`). So a walk through the children of a node finds the
next child where it was, and it comes to **visiting** the children as they stood at the start
(**`Walker.visit`**, `walkFrom_eq_visit`). -/

namespace Stylesheet

open Expansion

/-- Expand nodes one after the other, in a given number of steps. -/
def Walker.visit {σ : Type} (w : Walker σ) (mode : Mode) : Nat → List NodeId → Expansion σ Flow
  | _, [] => pure .finished
  | 0, _ :: _ => throw .tooDeep
  | steps + 1, id :: ids => do
    match ← w.traverse id mode with
    | .returned value => pure (.returned value)
    | .finished => w.visit mode steps ids

section

variable {σ τ : Type} {L : σ → τ → Prop} {old : List (NodeId × List String)} {ids : List NodeId}
  {floor : Nat} {t : Tree} {p id : NodeId} {before after : List NodeId} {cs : List (Rose NodeId)}

/-- There is a block around every place, or none. -/
theorem Tree.Depth.exists_around {d : Nat} (hd : t.Depth p d) : ∃ ids block, t.Around ids p block := by
  induction hd with
  | @top p hlt hp =>
    by_cases hb : (t.node p).isBlock = true
    · exact ⟨[p], some ⟨0⟩, .here hb rfl⟩
    · exact ⟨[], none, .top (by simpa using hb) hp⟩
  | @under x p d hp _ ih =>
    by_cases hb : (t.node x).isBlock = true
    · exact ⟨[x], some ⟨0⟩, .here hb rfl⟩
    · obtain ⟨ids, block, around⟩ := ih
      exact ⟨ids, block, .above (by simpa using hb) hp around⟩

/-- However expanding a node ends, what changes is contained in its place. -/
theorem traverse_contained (services : Services σ) (depth : Nat) (mode : Mode) {w : World σ}
    (hs : w.tree.Site floor p before [⟨id, cs⟩] after) :
    w.tree.Contained floor p before ([Rose.mk id cs].flatMap Rose.labels) after
      ((traverse services depth id mode).exec w).2.tree := by
  obtain ⟨d, hd⟩ := hs.depth
  obtain ⟨ids, block, around⟩ := hd.exists_around
  -- the place keeps to itself since the step matches that of a derivation, whatever is derived
  have matching : Matches _ _ ((traverse services depth id mode).exec w) _ :=
    (walker_realizes rfl services.loadsAlike_refl depth).traverse mode (fun _ => trivial) hs around
      (mirrors_bare ids w)
  generalize (traverse services depth id mode).exec w = x at matching ⊢
  generalize ((deriver services depth).derive block mode _).exec _ = y at matching
  cases matching with
  | error hk => exact hk.contained
  | @ok flow _ yield _ hend =>
    match flow, yield, hend with
    | .finished, .finished _, hend => exact hend.kept.contained
    | .returned _, .returned _, ⟨_, hk⟩ => exact hk.contained

/-- A walk that goes on at the sibling that stood behind each child visits the children in order. -/
theorem walkFrom_eq_visit (services : Services σ) (depth : Nat) (mode : Mode) (steps : Nat)
    (rest : List NodeId) :
    ∀ {w : World σ} {before : List NodeId} {d : Nat}, w.tree.LinkedFrom 0 → w.tree.Depth p d →
      w.tree.children p = before ++ rest →
      ((walker services depth).walkFrom p mode steps rest.head?).exec w =
        ((walker services depth).visit mode steps rest).exec w := by
  induction rest generalizing steps with
  | nil =>
    intro w before d _ _ _
    rw [List.head?_nil, Walker.walkFrom.eq_1, Walker.visit.eq_1]
  | cons id rest ih =>
    intro w before d hl hd hc
    cases steps with
    | zero => rfl
    | succ steps =>
      obtain ⟨cs, hs⟩ := hl.exists_site (Nat.zero_le _) hd hc
      have contained := traverse_contained services depth mode hs
      rw [List.head?_cons, Walker.walkFrom, Walker.visit, exec_tree_bind, hs.head?_after, exec_bind, exec_bind]
      rcases visited : ((walker services depth).traverse id mode).exec w with ⟨x, w'⟩
      rw [show (traverse services depth id mode).exec w = (x, w') from visited] at contained
      obtain ⟨rewrites, mid, hmid, -⟩ := contained
      obtain ⟨d', hd'⟩ := hs.depth_of_rewrites rewrites
      rcases x with e | flow
      · rfl
      cases flow with
      | returned value => rfl
      | finished =>
        -- the sibling behind the child has not been moved
        have stays : (rest.head?.filter fun id => w'.tree.parent? id == some p) = rest.head? := by
          cases rest with
          | nil => rfl
          | cons s rest =>
            have := (rewrites.linked.child (c := s) (Nat.zero_le p.index) (by simp [hmid])).2
            simp [this]
        show ((tree >>= fun t => (walker services depth).walkFrom p mode steps
          (rest.head?.filter fun id => t.parent? id == some p)).exec w') = _
        rw [exec_tree_bind, stays]
        exact ih steps rewrites.linked hd' hmid

/-- What stands under a sibling is not reached from a node, nor is the parent. -/
theorem Tree.Site.apart {s x : NodeId} (h : t.Site floor p before [⟨id, cs⟩] after)
    (hs : s ∈ before ++ after) (hx : t.Reaches s x) :
    x.index < t.size ∧ x ≠ p ∧ x ∉ [Rose.mk id cs].flatMap Rose.labels := by
  obtain ⟨d, hd⟩ := h.depth
  have hc := h.children
  have nodup := h.linked.nodup h.floor_le
  have member : s ∈ t.children p := by
    rw [hc]
    rcases List.mem_append.1 hs with hs | hs
    · simp [hs]
    · simp [hs]
  -- no child stands twice under its parent
  have ne : s ≠ id := by
    rintro rfl
    rw [hc, List.map_singleton, Rose.label_mk, List.append_assoc, List.singleton_append,
      List.nodup_append, List.nodup_cons] at nodup
    rcases List.mem_append.1 hs with hs | hs
    · exact nodup.2.2 s hs s (by simp) rfl
    · exact nodup.2.1.1 hs
  have link := h.linked.child h.floor_le member
  have own := h.parent?_label (List.mem_singleton.2 rfl)
  obtain ⟨r, rfl, shape⟩ := h.linked.exists_shape (.under link.2 hd) link.1
  have inside := shape.mem_labels_iff.2 hx
  refine ⟨shape.index_lt h.linked link.1 (lt_size_of_parent? link.2) inside, ?_, ?_⟩
  · rintro rfl
    exact shape.parent_not_mem h.linked link.1 link.2 hd inside
  · rw [List.flatMap_singleton]
    exact shape.disjoint_of_siblings h.linked (h.shapes _ (List.mem_singleton.2 rfl)) link.1 own.1 hd link.2
      own.2 ne inside

/-- Expanding a child of a node that is reached from the top changes only what stands under the child and
the children of the node. The siblings before and behind it stay as they are, with all that stands under
them, and what was moved or made stands between them. So the sibling behind the child is still where it
was, and walking through the children of the node visits all of them in order. -/
theorem traverse_local (services : Services σ) (depth : Nat) (mode : Mode) (w : World σ)
    {top p id : NodeId} (linked : w.tree.LinkedFrom 0) (alone : w.tree.parent? top = none)
    (reached : w.tree.Reaches top p) (child : w.tree.parent? id = some p) :
    let w' := ((traverse services depth id mode).exec w).2
    ∃ before mid after, w.tree.children p = before ++ id :: after ∧
      w'.tree.children p = before ++ mid ++ after ∧
      (∀ x ∈ mid, w.tree.Reaches id x ∨ w.tree.size ≤ x.index) ∧
      (w'.tree.node p = w.tree.node p ∧ w'.tree.parent? p = w.tree.parent? p) ∧
      (∀ x : NodeId, x.index < w.tree.size → x ≠ p → ¬ w.tree.Reaches id x →
        w'.tree.slot x = w.tree.slot x) ∧
      (∀ s ∈ before ++ after, ∀ x, w.tree.Reaches s x → w'.tree.slot x = w.tree.slot x) ∧
      (∀ s, w.tree.nextSibling? id = some s → w'.tree.parent? s = some p) ∧
      ((walker services depth).walkChildren p mode).exec w =
        ((walker services depth).visit mode depth (w.tree.children p)).exec w := by
  intro w'
  have member := (linked.parent (Nat.zero_le _) child).2
  have created : top.index < w.tree.size := by
    rcases reached.eq_or_exists_child with rfl | ⟨c, hc, -⟩
    · exact Tree.lt_size_of_mem_children member
    · exact Tree.lt_size_of_mem_children hc
  obtain ⟨-, d, hd⟩ := reached.depth linked (Nat.zero_le _) (.top created alone)
  obtain ⟨before, after, hc⟩ := List.append_of_mem member
  obtain ⟨cs, hs⟩ := linked.exists_site (Nat.zero_le _) hd hc
  -- the nodes of the place are those that are reached from the child
  have inside (x : NodeId) : x ∈ [Rose.mk id cs].flatMap Rose.labels ↔ w.tree.Reaches id x := by
    rw [hs.mem_iff]
    simp
  obtain ⟨rewrites, mid, hmid, hmade⟩ := traverse_contained services depth mode hs
  refine ⟨before, mid, after, hc, hmid, fun x hx => ?_, ⟨rewrites.node_eq, rewrites.parent?_eq⟩,
    fun x hlt hp hx => ?_, fun s hsib x hx => ?_, fun s hnext => ?_, ?_⟩
  · rw [← inside]
    exact hmade x hx
  · exact rewrites.slot_eq hlt hp fun hm => hx ((inside x).1 hm)
  · obtain ⟨hlt, hp, hm⟩ := hs.apart hsib hx
    exact rewrites.slot_eq hlt hp hm
  · have next := hs.head?_after
    rw [hnext] at next
    refine (rewrites.linked.child (c := s) (Nat.zero_le p.index) ?_).2
    rw [hmid]
    exact List.mem_append_right _ (List.mem_of_head? next.symm)
  · unfold Walker.walkChildren
    rw [exec_tree_bind]
    exact walkFrom_eq_visit services depth mode depth (w.tree.children p) linked hd (List.nil_append _).symm

/-- A conditional between two comments gives way to the two comments in its branch; the comment behind it
is still a child of the root, and all three children of the root are visited. -/
theorem traverse_local_conditional :
    let t := Tree.ofNodes [⟨.comment "a", []⟩, ⟨.conditional, [⟨.otherwise, [⟨.comment "b", []⟩,
      ⟨.comment "c", []⟩]⟩]⟩, ⟨.comment "d", []⟩]
    let w : World Unit := ⟨t, .empty, ()⟩
    let w' := ((traverse Services.plain 5 ⟨2⟩ .stylesheet).exec w).2
    t.children Tree.root = [⟨1⟩, ⟨2⟩, ⟨6⟩] ∧ w'.tree.children Tree.root = [⟨1⟩, ⟨4⟩, ⟨5⟩, ⟨6⟩] ∧
      w'.tree.parent? ⟨6⟩ = some Tree.root ∧
      ((walker Services.plain 5).walkChildren Tree.root .stylesheet).exec w =
        ((walker Services.plain 5).visit .stylesheet 5 (t.children Tree.root)).exec w := by
  intro t w w'
  have alone : t.parent? Tree.root = none := by decide +kernel
  have child : t.parent? ⟨2⟩ = some Tree.root := by decide +kernel
  obtain ⟨-, -, -, -, -, -, -, -, -, next, walk⟩ :=
    traverse_local Services.plain 5 .stylesheet w (Tree.ofNodes_isStylesheet _).linked alone .self child
  exact ⟨by decide +kernel, by decide +kernel, next ⟨6⟩ (by decide +kernel), walk⟩

end

end Stylesheet

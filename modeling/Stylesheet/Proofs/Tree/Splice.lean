import Mathlib.Data.List.Forall2
import Stylesheet.Proofs.Tree.Relabel

/-! # Copies in a row

Loops, imports and contents put copies behind a child, one after the other. What makes them
**produces** the same copy wherever only children of the parent have changed (**`Tree.Produces`**); then
the copies stand in a row behind the anchor (`Tree.Site.splice`). -/

namespace Stylesheet

namespace Tree

section

variable {floor : Nat} {t t' t'' : Tree} {p a c : NodeId} {before after : List NodeId}
  {rs us : List (Rose NodeId)} {produce : NodeId → Tree → NodeId × Tree}

/-! ## Copies behind an anchor -/

/-- What is made for a node is a copy of this tree, whatever became of the children of `p`. -/
def Produces (floor : Nat) (t : Tree) (p : NodeId) (produce : NodeId → Tree → NodeId × Tree)
    (c : NodeId) (r : Rose Node) : Prop :=
  ∀ t', Rewrites floor [] p t t' → Planted t' r (produce c t').1 (produce c t').2

/-- Copies in a row behind an anchor. -/
structure Spliced (floor : Nat) (t : Tree) (p : NodeId) (before : List NodeId)
    (rs copies us : List (Rose NodeId)) (after : List NodeId) (made : List (Rose Node)) (t' : Tree) :
    Prop where
  site : t'.Site floor p before (rs ++ copies ++ us) after
  rewrites : Rewrites floor [] p t t'
  nodes : copies.map (Rose.map t'.node) = made
  fresh : ∀ x ∈ copies.flatMap Rose.labels, t.size ≤ x.index

/-- One copy is put behind an anchor. -/
theorem Site.splice_one {s : Rose NodeId} {r : Rose Node} {id : NodeId}
    (h : t.Site floor p before (rs ++ s :: us) after) (hp : Planted t r id t') :
    ∃ copy : Rose NodeId, copy.label = id ∧
      Spliced floor t p before (rs ++ [s]) [copy] us after [r] (t'.insertAfter p s.label id) := by
  obtain ⟨copy, rfl, hshape, rfl, hfresh⟩ := hp.exists_fresh
  have hsite := h.of_grown hp.grown
  have outside : p ∉ copy.labels := fun hm => by
    have := hfresh p hm
    have := h.lt_size
    omega
  have old : floor ≤ t.size := h.floor_le.trans (Nat.le_of_lt h.lt_size)
  have row : t'.children p = (before ++ rs.map Rose.label) ++ s.label :: (us.map Rose.label ++ after) := by
    simp [hsite.children]
  have joins := joins_insertAfter hsite.linked hsite.lt_size hp.lt_size hsite.floor_le
    (old.trans (hfresh _ copy.label_mem_labels)) hp.alone row
  -- the anchor belongs to what stands before the copy
  have behind : Joins floor t' p copy.label (before ++ (rs ++ [s]).map Rose.label)
      (us.map Rose.label ++ after) (t'.insertAfter p s.label copy.label) := by simpa using joins
  have whole : t'.Site floor p before ((rs ++ [s]) ++ us) after := by simpa using hsite
  have hsite' : (t'.insertAfter p s.label copy.label).Site floor p before
      ((rs ++ [s]) ++ copy :: us) after := behind.site whole hshape outside
  refine ⟨copy, rfl, by simpa using hsite', ?_, ?_, by simpa using hfresh⟩
  · have grown := Rewrites.of_grown hp.grown h.linked h.lt_size h.floor_le []
    exact grown.trans (joins.rewrites hsite.linked outside hsite'.depth) fun x hx => .inr (hfresh x hx)
  · rw [List.map_singleton, List.cons.injEq]
    exact ⟨Rose.map_congr fun x _ => joins.node_eq x, rfl⟩

/-- Where nothing is to be placed, nothing changes. -/
@[simp] theorem spliceAfter_nil (produce : NodeId → Tree → NodeId × Tree) (p a : NodeId) (t : Tree) :
    spliceAfter produce p a [] t = ([], t) := rfl

/-- The first node is placed behind the anchor, and the others are placed behind it. -/
theorem spliceAfter_cons (produce : NodeId → Tree → NodeId × Tree) (p a id : NodeId)
    (ids : List NodeId) (t : Tree) :
    spliceAfter produce p a (id :: ids) t =
      ((produce id t).1 :: (spliceAfter produce p (produce id t).1 ids
          ((produce id t).2.insertAfter p a (produce id t).1)).1,
        (spliceAfter produce p (produce id t).1 ids
          ((produce id t).2.insertAfter p a (produce id t).1)).2) := rfl

/-- Copies are put in a row behind an anchor. -/
theorem Site.splice {ids : List NodeId} {made : List (Rose Node)} :
    ∀ {t : Tree} {rs : List (Rose NodeId)} {s : Rose NodeId},
    t.Site floor p before (rs ++ s :: us) after →
    List.Forall₂ (Produces floor t p produce) ids made →
    ∃ copies : List (Rose NodeId),
      copies.map Rose.label = (spliceAfter produce p s.label ids t).1 ∧
        Spliced floor t p before (rs ++ [s]) copies us after made
          (spliceAfter produce p s.label ids t).2 := by
  induction ids generalizing made with
  | nil =>
    intro t rs s h hmade
    cases hmade
    rw [spliceAfter_nil]
    exact ⟨[], rfl, by simpa using h, .refl h.linked _ _, rfl, by simp⟩
  | cons id ids ih =>
    intro t rs s h hmade
    rcases hmade with _ | ⟨hr, hmade⟩
    obtain ⟨copy, hcopy, hone⟩ := h.splice_one (hr t (.refl h.linked _ _))
    rw [spliceAfter_cons, ← hcopy]
    rw [← hcopy] at hone
    -- the next copy is put behind this one
    have whole : ((produce id t).2.insertAfter p s.label copy.label).Site floor p before
        ((rs ++ [s]) ++ copy :: us) after := by simpa using hone.site
    obtain ⟨copies, hcopies, hrest⟩ := ih whole
      (hmade.imp fun id r hr t' hr' => hr t' (hone.rewrites.trans hr' (by simp)))
    refine ⟨copy :: copies, by rw [List.map_cons, hcopies], ?_, ?_, ?_, ?_⟩
    · simpa using hrest.site
    · exact hone.rewrites.trans hrest.rewrites (by simp)
    · rw [List.map_cons, hrest.nodes, ← List.singleton_inj.1 hone.nodes]
      congr 1
      -- the copies that follow leave the nodes of this one alone
      refine Rose.map_congr fun x hx => ?_
      have hm : x ∈ (rs ++ [s] ++ [copy] ++ us).flatMap Rose.labels := by simp [hx]
      rw [node_eq, hrest.rewrites.slot_eq (hone.site.index_lt hm) _ (by simp), ← node_eq]
      exact fun e => hone.site.parent_not_mem (e ▸ hm)
    · intro x hx
      rw [List.flatMap_cons, List.mem_append] at hx
      rcases hx with hx | hx
      · exact hone.fresh x (by simpa using hx)
      · exact hone.rewrites.size_le.trans (hrest.fresh x hx)

/-! ## What copies are made -/

/-- The children of a node elsewhere can be copied, in order. -/
theorem Site.forall₂_produces {q : NodeId} {cs : List (Rose NodeId)} {f : Rose Node → Rose Node}
    (h : t.Site floor q [] cs []) (hq : p ≠ q) (hp : p ∉ cs.flatMap Rose.labels)
    (hprod : ∀ t' (c : NodeId) (r : Rose Node), t'.rose t'.size c = r →
      Planted t' (f r) (produce c t').1 (produce c t').2) :
    List.Forall₂ (Produces floor t p produce) (t.children q) (cs.map fun c => f (c.map t.node)) := by
  have hc := h.children
  rw [List.nil_append, List.append_nil] at hc
  rw [hc, List.forall₂_map_left_iff, List.forall₂_map_right_iff, List.forall₂_same]
  intro r hr t' hrw
  -- what stands under `q` is not touched by a change among the children of `p`
  have hsite : t'.Site floor q [] cs [] := by
    refine h.unaffected hrw (by simp) fun x hx => ⟨?_, by simp⟩
    rcases hx with rfl | hx
    · exact hq.symm
    · rintro rfl
      exact hp hx
  refine hprod t' _ _ ((hsite.rose_eq hr).trans (Rose.map_congr fun x hx => ?_))
  have hm : x ∈ cs.flatMap Rose.labels := List.mem_flatMap.2 ⟨r, hr, hx⟩
  rw [node_eq, hrw.slot_eq (h.index_lt hm) (fun e => hp (e ▸ hm)) (by simp), ← node_eq]

/-- A subtree that reads off as `r` is copied as `r`. -/
theorem copySubtree_planted {r : Rose Node} (h : t.rose t.size c = r) :
    Planted t r (t.copySubtree c).1 (t.copySubtree c).2 := h ▸ graft_planted t t c

/-- The copies that loops make have their placeholders resolved. -/
theorem copyInterpolated_planted (lookup : Lookup) {r : Rose Node} (h : t.rose t.size c = r) :
    Planted t (r.interpolate lookup) (copyInterpolated lookup c t).1 (copyInterpolated lookup c t).2 :=
  (copySubtree_planted h).interpolate lookup

end

end Tree

end Stylesheet

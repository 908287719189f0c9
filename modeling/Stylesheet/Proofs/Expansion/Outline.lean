import Stylesheet.Proofs.Derivation.Cutting
import Stylesheet.Proofs.Derivation.Marks
import Stylesheet.Proofs.Expansion.Extensions
import Stylesheet.Proofs.Expansion.Idempotence

/-! # The outline of what was derived

Extensions can be carried out on derived trees as they are in the tree that shows them
(**`Deriver.extendMade`**). So the nodes that are left by a compilation, and with them the outline, depend on
what was derived and on the extensions noted only (`Tree.rose_applyExtensions`). Where counting loops are cut
in what was derived makes no difference for the extensions (`Deriver.recut_extendMade`). -/

namespace Stylesheet

open Expansion

/-! ## Lines -/

/-- The lines of what stands under the top, each with as many steps of indentation as it is deep. -/
def Rose.linesUnder : Nat → Rose Node → List String
  | level, ⟨_, rs⟩ => rs.flatMap fun r =>
      (String.ofList (List.replicate (2 * level) ' ') ++ r.label.text) :: linesUnder (level + 1) r

/-- The outline of some trees. -/
def Rose.outline (rs : List (Rose Node)) : String := "\n".intercalate (linesUnder 0 ⟨.root, rs⟩)

namespace Tree

/-- The lines under a node are those of what is read off there. -/
theorem linesUnder_eq (t : Tree) (depth level : Nat) (id : NodeId) :
    t.linesUnder depth level id = (t.rose depth id).linesUnder level := by
  induction depth generalizing level id with
  | zero => rw [linesUnder, rose, Rose.linesUnder, List.flatMap_nil]
  | succ depth ih =>
    rw [linesUnder, rose, Rose.linesUnder, List.flatMap_map]
    congr 1
    funext c
    rw [ih, label_rose]

/-- The outline can be read off from the nodes. -/
theorem outline_eq (t : Tree) : t.outline = "\n".intercalate ((t.rose t.size root).linesUnder 0) := by
  rw [outline, linesUnder_eq]

end Tree

/-! ## Extensions of derived trees -/

namespace Deriver

variable {made made' : List (Rose Stem)}

/-- Carry out one extension on derived trees. -/
def extendMade (made : List (Rose Stem)) (extension : NodeId × List String) : List (Rose Stem) :=
  match (made.flatMap Rose.labels).find? fun s => s.mark = some extension.1 with
  | some ⟨.block extenders, _⟩ =>
    made.map (Rose.map fun s => ⟨Tree.extendNode extension.2 extenders s.node, s.mark⟩)
  | _ => made

/-- Every block keeps its number. -/
theorem mem_marks_extendMade {k : NodeId} (extension : NodeId × List String) (hk : k ∈ marks made) :
    k ∈ marks (extendMade made extension) := by
  unfold extendMade
  split
  · obtain ⟨o, ho, s, hs, mark⟩ := mem_marks.1 hk
    exact mem_marks.2 ⟨_, List.mem_map_of_mem ho, _, Rose.mem_labels_map.2 ⟨s, hs, rfl⟩, mark⟩
  · exact hk

end Deriver

namespace Tree

variable {floor : Nat} {t : Tree} {ids blocks : List NodeId} {rs : List (Rose NodeId)} {made : List (Rose Stem)}

/-- One extension changes selectors only. -/
theorem restyled_extendBlocks (blocks : List NodeId) (t : Tree) (extension : NodeId × List String) :
    Restyled t (t.extendBlocks blocks extension) := by
  unfold extendBlocks
  split
  · exact List.foldlRecOn blocks _ (.refl t) fun t' before id _ => before.trans (restyled_extendBlock _ _ t' id)
  · exact .refl t

namespace Shows

/-- What is shown has the nodes of the tree. -/
theorem map_node (h : t.Shows ids rs made) : rs.map (Rose.map t.node) = made.map (Rose.map Stem.node) := by
  obtain ⟨zs, rfl, rfl, hz⟩ := h.pairs
  rw [List.map_map, List.map_map]
  refine List.map_congr_left fun z hm => ?_
  rw [Function.comp_apply, Function.comp_apply, Rose.map_map, Rose.map_map]
  exact Rose.map_congr fun y hy => (hz z hm y hy).node

/-- A block among what is made is a node that is shown. -/
theorem node_of_mark (h : t.Shows ids rs made) {s : Stem} (hs : s ∈ made.flatMap Rose.labels) {k x : NodeId}
    (mark : s.mark = some k) (hx : ids[k.index]? = some x) : t.node x = s.node := by
  obtain ⟨zs, rfl, rfl, hz⟩ := h.pairs
  obtain ⟨o, ho, hs⟩ := List.mem_flatMap.1 hs
  obtain ⟨z, hm, rfl⟩ := List.mem_map.1 ho
  obtain ⟨y, hy, rfl⟩ := Rose.mem_labels_map.1 hs
  have carried := hz z hm y hy
  obtain rfl : y.1 = x := Option.some.inj ((carried.mark k mark).symm.trans hx)
  exact carried.node

/-- An extension in the tree is one of what is shown. -/
theorem extendBlocks (h : t.Shows ids rs made) (nodup : blocks.Nodup)
    (all : ∀ x ∈ rs.flatMap Rose.labels, (t.node x).isBlock = true → x ∈ blocks) {k x : NodeId}
    {targets : List String} (hx : ids[k.index]? = some x) (owned : k ∈ Deriver.marks made) :
    (t.extendBlocks blocks (x, targets)).Shows ids rs (Deriver.extendMade made (k, targets)) := by
  obtain ⟨o, ho, s, hs, mark⟩ := Deriver.mem_marks.1 owned
  have present : ((made.flatMap Rose.labels).find? fun s => s.mark = some k).isSome := by
    rw [List.find?_isSome]
    exact ⟨s, List.mem_flatMap.2 ⟨o, ho, hs⟩, by simpa using mark⟩
  obtain ⟨s, found⟩ := Option.isSome_iff_exists.1 present
  -- the block that extends is the one found
  have node : t.node x = s.node := h.node_of_mark (List.mem_of_find?_eq_some found)
    (by simpa using List.find?_some found) hx
  unfold Tree.extendBlocks Deriver.extendMade
  dsimp only
  rw [found, node]
  obtain ⟨n, mark⟩ := s
  cases n with
  | block extenders =>
    obtain ⟨zs, rfl, rfl, hz⟩ := h.pairs
    dsimp only
    refine ⟨zs.map (Rose.map fun y => (y.1, ⟨extendNode targets extenders y.2.node, y.2.mark⟩)), ?_, ?_, ?_⟩
    · rw [List.map_map]
      exact List.map_congr_left fun z _ => by rw [Function.comp_apply, Rose.map_map]; rfl
    · rw [List.map_map, List.map_map]
      exact List.map_congr_left fun z _ => by
        rw [Function.comp_apply, Function.comp_apply, Rose.map_map, Rose.map_map]; rfl
    · intro z' hz' y' hy'
      obtain ⟨z, hm, rfl⟩ := List.mem_map.1 hz'
      obtain ⟨y, hy, rfl⟩ := Rose.mem_labels_map.1 hy'
      have carried := hz z hm y hy
      refine ⟨?_, carried.mark⟩
      rw [node_foldl_extendBlock nodup, ← carried.node]
      split
      · rfl
      · rename_i other
        -- what is no block is not changed by an extension
        have still : (t.node y.1).isBlock = false := by
          by_contra block
          exact other
            (all _ (List.mem_flatMap.2 ⟨_, List.mem_map_of_mem hm, Rose.mem_labels_map.2 ⟨y, hy, rfl⟩⟩)
            (by simpa using block))
        revert still
        cases t.node y.1 <;> simp [extendNode, Node.isBlock]
  | _ => exact h

/-- So are extensions one after the other. -/
theorem foldl_extendBlocks (h : t.Shows ids rs made) (nodup : blocks.Nodup)
    (all : ∀ x ∈ rs.flatMap Rose.labels, (t.node x).isBlock = true → x ∈ blocks)
    {noted extensions : List (NodeId × List String)} (notes : List.Forall₂ (Notes ids) noted extensions)
    (owned : ∀ e ∈ extensions, e.1 ∈ Deriver.marks made) :
    (noted.foldl (Tree.extendBlocks blocks) t).Shows ids rs (extensions.foldl Deriver.extendMade made) := by
  induction notes generalizing t made with
  | nil => exact h
  | @cons a b noted extensions note _ ih =>
    obtain ⟨x, targets⟩ := a
    obtain ⟨k, _⟩ := b
    obtain ⟨block, rfl⟩ := note
    rw [List.foldl_cons, List.foldl_cons]
    refine ih (h.extendBlocks nodup all block (owned _ (.head _))) (fun y hy isBlock => all y hy ?_)
      fun e he => Deriver.mem_marks_extendMade _ (owned e (.tail _ he))
    rwa [← (restyled_extendBlocks blocks t _).isBlock_eq]

end Shows

/-- What stands under the root is the root and what stands in the place under it. -/
theorem IsStylesheet.descendants_eq (h : t.IsStylesheet) (hs : t.Site 0 root [] rs []) :
    t.descendants root = root :: rs.flatMap Rose.labels := by
  have shape : t.Shape ⟨root, rs⟩ := .mk root rs (by simpa using hs.children) hs.shapes
  rw [← Rose.labels_mk]
  exact shape.descendantsTo_eq hs.linked h.depth (Nat.zero_le _) (by omega)

/-- In a stylesheet, what stands under the root is a place for expansion. -/
theorem IsStylesheet.exists_site (h : t.IsStylesheet) : ∃ rs, t.Site 0 root [] rs [] := by
  obtain ⟨⟨_, rs⟩, rfl, shape⟩ := h.linked.exists_shape h.depth (Nat.zero_le _)
  exact ⟨rs, h.linked, Nat.zero_le _, ⟨0, h.depth⟩, by simpa using shape.children, fun _ => shape.of_mem⟩

/-- **What is left is what was derived**, with the extensions carried out. -/
theorem rose_applyExtensions (h : t.IsStylesheet) (hs : t.Site 0 root [] rs []) (shows : t.Shows ids rs made)
    {noted extensions : List (NodeId × List String)} (notes : List.Forall₂ (Notes ids) noted extensions)
    (owned : ∀ e ∈ extensions, e.1 ∈ Deriver.marks made) :
    (t.applyExtensions noted).rose (t.applyExtensions noted).size root =
      ⟨.root, (extensions.foldl Deriver.extendMade made).map (Rose.map Stem.node)⟩ := by
  have shape : t.Shape ⟨root, rs⟩ := .mk root rs (by simpa using hs.children) hs.shapes
  have listed := h.descendants_eq hs
  have nodup := shape.nodup_labels hs.linked (Nat.zero_le _) h.depth
  have extended : (t.applyExtensions noted).Shows ids rs _ := shows.foldl_extendBlocks
    (by rw [listed, ← Rose.labels_mk]; exact nodup.filter _)
    (fun x hx block => List.mem_filter.2 ⟨by rw [listed]; exact .tail _ hx, block⟩) notes owned
  have restyled := restyled_applyExtensions t noted
  have site : (t.applyExtensions noted).Site 0 root [] rs [] := by
    have h' := h.applyExtensions noted
    exact ⟨h'.linked, Nat.zero_le _, ⟨0, h'.depth⟩, by rw [restyled.children_eq]; exact hs.children,
      fun r hr => (hs.shapes r hr).congr fun x _ => restyled.children_eq x⟩
  rw [(h.applyExtensions noted).rose_eq site]
  congr 1
  exact extended.map_node

end Tree

/-! ## Loops cut elsewhere -/

namespace Deriver

variable {cuts : Counting → Prop} {made made' : List (Rose Stem)}

/-- A block is found wherever loops are cut. -/
theorem find?_mark_eq (recut : Rose.Recut (Stem.Cut cuts) made made') (k : NodeId) :
    (made.flatMap Rose.labels).find? (fun s => s.mark = some k) =
      (made'.flatMap Rose.labels).find? fun s => s.mark = some k := by
  have unmarked {a b c : Stem} (h : Stem.Cut cuts a b c) : a.mark = none ∧ b.mark = none ∧ c.mark = none := by
    obtain ⟨⟩ := h
    exact ⟨rfl, rfl, rfl⟩
  have skip {s : Stem} (h : s.mark = none) (rest : List Stem) :
      (s :: rest).find? (fun s => s.mark = some k) = rest.find? fun s => s.mark = some k :=
    List.find?_cons_of_neg (by simp [h])
  -- what is found in one half is found in the other
  have again (x y : Option Stem) : x.or y = x.or (x.or y) := by cases x <;> rfl
  induction recut with
  | nil => rfl
  | cons _ _ under rest =>
    simp only [List.flatMap_cons, Rose.labels_mk, List.find?_append, List.find?_cons, under, rest]
  | cut h _ _ _ first second rest =>
    obtain ⟨ha, hb, hc⟩ := unmarked h
    simp only [List.flatMap_cons, Rose.labels_mk, List.find?_append, skip ha, skip hb, skip hc]
    rw [← first, ← second, rest]
    exact again _ _
  | join h _ _ _ first second rest =>
    obtain ⟨ha, hb, hc⟩ := unmarked h
    simp only [List.flatMap_cons, Rose.labels_mk, List.find?_append, skip ha, skip hb, skip hc]
    rw [first, second, rest]
    exact (again _ _).symm

/-- Extensions are carried out alike wherever loops are cut. -/
theorem recut_extendMade (recut : Rose.Recut (Stem.Cut cuts) made made') (extension : NodeId × List String) :
    Rose.Recut (Stem.Cut cuts) (extendMade made extension) (extendMade made' extension) := by
  unfold extendMade
  rw [find?_mark_eq recut]
  split
  · refine recut.map ?_
    rintro _ _ _ ⟨⟨one, ha, hm, hn, hb, le, lt⟩⟩
    exact .still (.counting one ha hm hn hb le lt)
  · exact recut

/-- Extending what has been made touches blocks only, so loops stay cut as they were. -/
theorem recut_foldl_extendMade (recut : Rose.Recut (Stem.Cut cuts) made made')
    (extensions : List (NodeId × List String)) :
    Rose.Recut (Stem.Cut cuts) (extensions.foldl extendMade made) (extensions.foldl extendMade made') := by
  induction extensions generalizing made made' with
  | nil => exact recut
  | cons e extensions ih => exact ih (recut_extendMade recut e)

end Deriver

/-- What stands under the root of a stylesheet may be changed. -/
theorem Tree.Reworked.isStylesheet {t t' : Tree} {inside : List NodeId} {rs : List (Rose NodeId)}
    (h : Reworked 0 t root [] inside [] rs t') (hs : t.IsStylesheet) : t'.IsStylesheet :=
  ⟨h.site.linked, h.site.lt_size, h.rewrites.parent?_eq.trans hs.alone, h.rewrites.node_eq.trans hs.node_root⟩

end Stylesheet

import Mathlib.Data.Finset.Card
import Stylesheet.Proofs.Tree.Edit

/-! # Recursions that end

Listing, copying and printing what stands under a node goes from children to children, and nothing but the
links bounds how deep. What such a recursion has come to when it ends is told by **`Tree.Lists`**,
**`Tree.Copies`** and **`Tree.Prints`**; where links run in a circle it may come to nothing. In an intact
tree every node has a depth (`Tree.Intact.rooted`), and so all three end (**`Tree.Ends`**,
`Tree.Intact.ends`), with what `Tree.descendants`, `Tree.copySubtree` and `Tree.outline` give. -/

namespace Stylesheet

namespace Tree

/-! ## Recursions without a bound -/

/-- Nodes taken from a stack, each of them replaced by its children, until none is left. -/
inductive Lists (t : Tree) : List NodeId → List NodeId → Prop
  | done : Lists t [] []
  | next {id : NodeId} {stack ids : List NodeId} :
      Lists t (t.children id ++ stack) ids → Lists t (id :: stack) (id :: ids)

/-- The lines of some nodes, each followed by those of its children, one step further in. -/
inductive Prints (t : Tree) : Nat → List NodeId → List String → Prop
  | done {level : Nat} : Prints t level [] []
  | next {level : Nat} {c : NodeId} {cs : List NodeId} {below lines : List String} :
      Prints t (level + 1) (t.children c) below → Prints t level cs lines →
        Prints t level (c :: cs)
          ((String.ofList (List.replicate (2 * level) ' ') ++ (t.node c).text) :: below ++ lines)

mutual

/-- A node has been copied, with all that stands under it. -/
inductive Copies : NodeId → Tree → NodeId × Tree → Prop
  | copy {id : NodeId} {t t' : Tree} :
      CopiesUnder (t.create (t.node id)).1 ((t.create (t.node id)).2.children id)
        (t.create (t.node id)).2 t' →
        Copies id t ((t.create (t.node id)).1, t')

/-- Nodes have been copied, and the copies have become children of `p`. -/
inductive CopiesUnder : NodeId → List NodeId → Tree → Tree → Prop
  | done {p : NodeId} {t : Tree} : CopiesUnder p [] t t
  | next {p c made : NodeId} {cs : List NodeId} {t t₁ t' : Tree} :
      Copies c t (made, t₁) → CopiesUnder p cs (t₁.attach p made) t' → CopiesUnder p (c :: cs) t t'

end

/-- Everything that goes down the tree ends. -/
structure Ends (t : Tree) : Prop where
  descendants : ∀ id : NodeId, id.index < t.size → t.Lists [id] (t.descendants id)
  copySubtree : ∀ id : NodeId, id.index < t.size → Copies id t (t.copySubtree id)
  outline : ∃ lines, t.Prints 0 (t.children root) lines ∧ t.outline = "\n".intercalate lines

/-! ## Depths -/

variable {t t₀ : Tree} {id p x : NodeId} {d depth : Nat}

/-- In an intact tree the way up from a node ends. -/
theorem Intact.rooted (h : t.Intact) : t.Rooted 0 := by
  classical
  let above (x : NodeId) := (Finset.range t.size).filter fun i => t.Reaches ⟨i⟩ x
  intro x _ hx
  -- the nodes above a node are fewer than those above its children
  induction hn : (above x).card using Nat.strong_induction_on generalizing x with
  | _ n ih =>
    cases hp : t.parent? x with
    | none => exact ⟨0, .top hx hp⟩
    | some p =>
      have member := (h.consistent.mem_children_iff p x).2 hp
      have fewer : above p ⊂ above x := by
        refine Finset.ssubset_iff_of_subset ?_ |>.2 ⟨x.index, ?_, ?_⟩
        · intro i hi
          obtain ⟨hlt, reached⟩ := Finset.mem_filter.1 hi
          exact Finset.mem_filter.2 ⟨hlt, reached.child member⟩
        · exact Finset.mem_filter.2 ⟨Finset.mem_range.2 hx, .self⟩
        · exact fun hi => h.acyclic p x member (Finset.mem_filter.1 hi).2
      obtain ⟨d, hd⟩ := ih _ (hn ▸ Finset.card_lt_card fewer) p (Nat.zero_le _)
        (lt_size_of_mem_children member) rfl
      exact ⟨d + 1, .under hp hd⟩

/-- In an intact tree a child stands in a place. -/
theorem Intact.exists_site (h : t.Intact) (hp : t.parent? id = some p) :
    ∃ before cs after, t.Site 0 p before [⟨id, cs⟩] after := by
  have member := (h.consistent.mem_children_iff p id).2 hp
  obtain ⟨d, hd⟩ := h.rooted p (Nat.zero_le _) (lt_size_of_mem_children member)
  obtain ⟨before, after, hc⟩ := List.append_of_mem member
  obtain ⟨cs, site⟩ := h.consistent.linked.exists_site (Nat.zero_le _) hd hc
  exact ⟨before, cs, after, site⟩

/-- Children of a node are one step deeper. -/
theorem LinkedFrom.depth_child (hl : t.LinkedFrom 0) (hd : t.Depth id d) :
    ∀ c ∈ t.children id, t.Depth c (d + 1) :=
  fun _ hc => .under (hl.child (Nat.zero_le _) hc).2 hd

/-! ## Going down -/

/-- Listing a node and what stands under it ends, and then it is the turn of the others on the stack. -/
theorem LinkedFrom.lists (hl : t.LinkedFrom 0) (hd : t.Depth id d) (hs : t.size ≤ d + depth)
    {stack ids : List NodeId} (rest : t.Lists stack ids) :
    t.Lists (id :: stack) (t.descendantsTo depth id ++ ids) := by
  induction depth generalizing id d stack ids with
  | zero =>
    -- no node is as deep as there are nodes
    have := hd.lt_size
    omega
  | succ depth ih =>
    have all (cs : List NodeId) (deeper : ∀ c ∈ cs, t.Depth c (d + 1)) :
        t.Lists (cs ++ stack) (cs.flatMap (t.descendantsTo depth) ++ ids) := by
      induction cs with
      | nil => exact rest
      | cons c cs ihc =>
        have others := ihc fun c hc => deeper c (by simp [hc])
        rw [List.flatMap_cons, List.append_assoc]
        exact ih (deeper c (by simp)) (by omega) others
    exact .next (all _ (hl.depth_child hd))

/-- Printing what stands under a node ends. -/
theorem LinkedFrom.prints (hl : t.LinkedFrom 0) (hd : t.Depth id d) (hs : t.size ≤ d + depth)
    (level : Nat) : t.Prints level (t.children id) (t.linesUnder depth level id) := by
  induction depth generalizing id d level with
  | zero =>
    have := hd.lt_size
    omega
  | succ depth ih =>
    have all (cs : List NodeId) (deeper : ∀ c ∈ cs, t.Depth c (d + 1)) :
        t.Prints level cs (cs.flatMap fun c =>
          (String.ofList (List.replicate (2 * level) ' ') ++ (t.node c).text) ::
            t.linesUnder depth (level + 1) c) := by
      induction cs with
      | nil => exact .done
      | cons c cs ihc =>
        have below := ih (deeper c (by simp)) (by omega) (level + 1)
        exact .next below (ihc fun c hc => deeper c (by simp [hc]))
    exact all _ (hl.depth_child hd)

/-- The nodes of the first tree are in the second one as they were. -/
structure Extends (t₀ t : Tree) : Prop where
  size_le : t₀.size ≤ t.size
  slot_eq : ∀ {x : NodeId}, x.index < t₀.size → t.slot x = t₀.slot x

/-- Nothing is added, so everything is kept. -/
theorem Extends.refl (t : Tree) : Extends t t := ⟨Nat.le_refl _, fun _ => rfl⟩

/-- The first node of a copy is the next one to be created. -/
theorem graftFrom_fst (source : Tree) (depth : Nat) (id : NodeId) (t : Tree) :
    (graftFrom source depth id t).1 = ⟨t.size⟩ := by
  cases depth <;> rfl

/-- A copy that has become a child of a new node leaves the old ones as they were. -/
theorem Extends.attach (h : Extends t₀ t) (source : Tree) (depth : Nat) (id : NodeId)
    (hp : t₀.size ≤ p.index) :
    Extends t₀ ((graftFrom source depth id t).2.attach p (graftFrom source depth id t).1) := by
  have grown : Grown t (graftFrom source depth id t).2 := by
    rw [graftFrom_eq_plant]
    exact (plant_planted _ t).grown
  constructor
  case size_le =>
    rw [size_attach]
    exact h.size_le.trans grown.size_le
  case slot_eq =>
    intro x hx
    have made : x ≠ (graftFrom source depth id t).1 := by
      rw [graftFrom_fst]
      rintro rfl
      exact Nat.lt_irrefl _ (hx.trans_le h.size_le)
    have parent : x ≠ p := by
      rintro rfl
      exact Nat.lt_irrefl _ (hx.trans_le hp)
    rw [Tree.attach, slot_modify_of_ne _ _ made, slot_modify_of_ne _ _ parent,
      grown.slot_eq (hx.trans_le h.size_le), h.slot_eq hx]

/-- Copying a node and what stands under it ends, also when the tree it is read from grows meanwhile. -/
theorem LinkedFrom.copies (hl : t₀.LinkedFrom 0) (hd : t₀.Depth id d) (hs : t₀.size ≤ d + depth)
    (he : Extends t₀ t) : Copies id t (graftFrom t₀ depth id t) := by
  induction depth generalizing id d t with
  | zero =>
    have := hd.lt_size
    omega
  | succ depth ih =>
    -- the copies of the children are made one after the other, each below the new node `p`
    have all (p : NodeId) (hp : t₀.size ≤ p.index) (cs : List NodeId)
        (deeper : ∀ c ∈ cs, t₀.Depth c (d + 1)) : ∀ {t : Tree}, Extends t₀ t →
          CopiesUnder p cs t (cs.foldl (fun t c =>
            (graftFrom t₀ depth c t).2.attach p (graftFrom t₀ depth c t).1) t) := by
      induction cs with
      | nil => exact fun _ => .done
      | cons c cs ihc =>
        intro t he
        have first := ih (deeper c (by simp)) (by omega) he
        exact .next first (ihc (fun c hc => deeper c (by simp [hc])) (he.attach t₀ depth c hp))
    have created : Extends t₀ (t.create (t.node id)).2 := by
      have grown := grown_create t (t.node id)
      exact ⟨he.size_le.trans grown.size_le, fun hx =>
        (grown.slot_eq (hx.trans_le he.size_le)).trans (he.slot_eq hx)⟩
    have node : t₀.node id = t.node id := by rw [node_eq, node_eq, he.slot_eq hd.index_lt]
    have children : t₀.children id = (t.create (t.node id)).2.children id := by
      rw [children_eq, children_eq, created.slot_eq hd.index_lt]
    have copied := all (t.create (t.node id)).1 he.size_le _ (hl.depth_child hd) created
    rw [graftFrom, node]
    rw [children] at copied ⊢
    exact .copy copied

/-- In an intact tree everything that goes down ends. -/
theorem Intact.ends (h : t.Intact) : t.Ends where
  descendants id hlt := by
    obtain ⟨d, hd⟩ := h.rooted id (Nat.zero_le _) hlt
    have listed := h.consistent.linked.lists hd (Nat.le_add_left _ d) .done
    rwa [List.append_nil] at listed
  copySubtree id hlt := by
    obtain ⟨d, hd⟩ := h.rooted id (Nat.zero_le _) hlt
    exact h.consistent.linked.copies hd (Nat.le_add_left _ d) (.refl t)
  outline := by
    refine ⟨t.linesUnder t.size 0 root, ?_, rfl⟩
    by_cases hlt : root.index < t.size
    · obtain ⟨d, hd⟩ := h.rooted root (Nat.zero_le _) hlt
      exact h.consistent.linked.prints hd (Nat.le_add_left _ d) 0
    · -- without any node there is nothing to print
      have none : t.size = 0 := Nat.eq_zero_of_not_pos hlt
      rw [children_of_size_le (Nat.not_lt.1 hlt), none]
      exact .done

end Tree

end Stylesheet

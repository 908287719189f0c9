import Stylesheet.Expansion.Compile
import Stylesheet.Proofs.Tree.Ending
import Stylesheet.Proofs.Tree.Fill

/-! # Changes that are proper edits

Whatever expansion does to a tree in one go is made of proper edits, as long as the tree is intact. Nodes
change in place (`Tree.edited_setNode`), go (`Tree.edited_detach`), are copied in a row behind another
(`Tree.Intact.splice`) or moved there (`Tree.Intact.move`). A row of copies is proper under every node that
was there before, since a new node leads to new nodes only; nodes that are moved come from under the node
that they are moved behind, so they do not lead up to its parent (`Tree.Intact.apart`). -/

namespace Stylesheet

/-- Another node is put in a place. -/
def Edit.Relabeling (_ : Tree) (e : Edit) : Prop := ∃ id n, e = .setNode id n

namespace Tree

section

variable {floor : Nat} {t t' : Tree} {p id c y : NodeId} {ids : List NodeId}
  {allowed allowed' : Tree → Edit → Prop} {produce : NodeId → Tree → NodeId × Tree}

/-! ## Rows of edits -/

/-- Edits that are allowed stay so when more is allowed. -/
theorem Edited.mono (h : t.Edited allowed t') (wider : ∀ t e, allowed t e → allowed' t e) :
    t.Edited allowed' t' := by
  induction h with
  | refl => exact .refl t
  | tail _ step ih =>
    obtain ⟨e, created, ok, rfl⟩ := step
    exact ih.trans (.single e created (wider _ e ok))

/-- Edits for the members of a list are edits in a row. -/
theorem edited_foldl {α : Type} {f : Tree → α → Tree} (h : ∀ (t : Tree) a, t.Edited allowed (f t a))
    (as : List α) (t : Tree) : t.Edited allowed (as.foldl f t) :=
  List.foldlRecOn as f (.refl t) fun t' before a _ => before.trans (h t' a)

/-- So are proper ones in an intact tree, which stays intact meanwhile. -/
theorem Intact.edited_foldl {α : Type} {f : Tree → α → Tree}
    (h : ∀ (t : Tree) a, t.Intact → t.Edited Edit.Proper (f t a)) (as : List α) (hi : t.Intact) :
    t.Edited Edit.Proper (as.foldl f t) :=
  List.foldlRecOn as f (.refl t) fun t' before a _ => before.trans (h t' a (before.intact hi))

/-! ## Nodes in place -/

/-- A slot that has not been created is not changed. -/
theorem modify_of_size_le (f : Slot → Slot) (h : t.size ≤ id.index) : t.modify id f = t := by
  have created (i : Nat) (hi : i < t.slots.size) : id.index ≠ i := by
    have : t.slots.size ≤ id.index := h
    omega
  unfold modify
  congr 1
  refine Array.ext (by simp) fun i hi hi' => ?_
  rw [Array.getElem_modify, if_neg (created i hi')]

/-- Another node in a place is a relabeling. -/
theorem edited_setNode (t : Tree) (id : NodeId) (n : Node) : t.Edited Edit.Relabeling (t.setNode id n) := by
  by_cases hlt : id.index < t.size
  · exact .single (.setNode id n) (by simpa [Edit.nodes] using hlt) ⟨id, n, rfl⟩
  · rw [setNode, modify_of_size_le _ (Nat.not_lt.1 hlt)]
    exact .refl t

/-- Another node in a place is a proper edit. -/
theorem Edited.proper (h : t.Edited Edit.Relabeling t') : t.Edited Edit.Proper t' :=
  h.mono fun _ e he => by
    obtain ⟨id, n, rfl⟩ := he
    trivial

/-- Other nodes in some places leave the links alone. -/
theorem Edited.linkedFrom (h : t.Edited Edit.Relabeling t') (hl : t.LinkedFrom floor) :
    t'.LinkedFrom floor := by
  induction h with
  | refl => exact hl
  | tail _ step ih =>
    obtain ⟨_, -, ⟨id, n, rfl⟩, rfl⟩ := step
    exact ih.setNode id n

/-- Resolving placeholders changes nodes in place. -/
theorem edited_interpolateTo (lookup : Lookup) (depth : Nat) (id : NodeId) (t : Tree) :
    t.Edited Edit.Relabeling (interpolateTo lookup depth id t) :=
  related_interpolateTo .refl .trans lookup (fun t id => edited_setNode t id _) depth id t

/-- Interpolating below several nodes is a row of relabelings. -/
theorem edited_interpolateAll (lookup : Lookup) (t : Tree) (ids : List NodeId) :
    t.Edited Edit.Relabeling (t.interpolateAll lookup ids) :=
  Tree.edited_foldl (fun t id => edited_interpolateTo lookup t.size id t) ids t

/-- Putting selectors in front of those of a block is a relabeling. -/
theorem edited_nestBlock (outer : List String) (id : NodeId) (t : Tree) :
    t.Edited Edit.Relabeling (nestBlock outer id t).2 := by
  unfold nestBlock
  split
  · exact edited_setNode t id _
  · exact .refl t

/-- Lengthening the name of a declaration is a relabeling. -/
theorem edited_lengthenName (name : String) (id : NodeId) (t : Tree) :
    t.Edited Edit.Relabeling (lengthenName name id t).2 := by
  unfold lengthenName
  split
  · exact edited_setNode t id _
  · exact .refl t

/-- So does carrying out extensions. -/
theorem edited_applyExtensions (t : Tree) (extensions : List (NodeId × List String)) :
    t.Edited Edit.Relabeling (t.applyExtensions extensions) := by
  refine related_applyExtensions .refl .trans (fun targets extenders t id => ?_) t extensions
  unfold extendBlock
  split
  · exact edited_setNode t id _
  · exact .refl t

/-! ## Nodes that go -/

/-- Detaching a node is a proper edit. -/
theorem edited_detach (t : Tree) (id : NodeId) : t.Edited Edit.Proper (t.detach id) := by
  cases hp : t.parent? id with
  | none =>
    rw [detach_of_alone hp]
    exact .refl t
  | some p => exact .single (.detach id) (by simpa [Edit.nodes] using lt_size_of_parent? hp) trivial

/-- Removing a child is a proper edit, or nothing at all. -/
theorem edited_remove (t : Tree) (p id : NodeId) : t.Edited Edit.Proper (t.remove p id) := by
  rcases remove_eq t p id with eq | eq <;> rw [eq]
  · exact edited_detach t id
  · exact .refl t

/-- Taking all children away is a proper edit. -/
theorem edited_setChildren_nil (t : Tree) (id : NodeId) : t.Edited Edit.Proper (t.setChildren id []) := by
  by_cases hlt : id.index < t.size
  · exact .single (.setChildren id []) (by simpa [Edit.nodes] using hlt) (by simp [Edit.Proper])
  · rw [setChildren_nil, modify_of_size_le _ (Nat.not_lt.1 hlt), children_of_size_le (Nat.not_lt.1 hlt)]
    exact .refl t

/-- A node is dropped with all that stands under it. -/
theorem edited_drop (t : Tree) (p id : NodeId) :
    t.Edited Edit.Proper ((t.setChildren id []).remove p id) :=
  (edited_setChildren_nil t id).trans (edited_remove _ p id)

/-! ## Rows of nodes -/

/-- A graft is a row of proper edits. -/
theorem edited_graft (t source : Tree) (id : NodeId) : t.Edited Edit.Proper (t.graft source id).2 :=
  .single (.graft source id) (by simp [Edit.nodes]) trivial

/-- Nodes numbered from the floor on lead to such nodes only. -/
theorem LinkedFrom.floor_le_of_reaches (hl : t.LinkedFrom floor) (hf : floor ≤ c.index)
    (h : t.Reaches c y) : floor ≤ y.index := by
  induction h with
  | self => exact hf
  | child _ hc ih => exact (hl.child ih hc).1

/-- Nodes are placed in a row as long as each of them is ready to be placed when its turn comes. -/
theorem Intact.edited_spliceAfter (ready : Tree → NodeId → Prop)
    (produces : ∀ {t : Tree} {c}, t.Intact → p.index < t.size → ready t c →
      t.Edited Edit.Proper (produce c t).2 ∧ (produce c t).1.index < (produce c t).2.size ∧
        ¬ (produce c t).2.Reaches (produce c t).1 p)
    (stays : ∀ {t : Tree} {c d} a, p.index < t.size → ready t c → ready t d →
      ready ((produce c t).2.insertAfter p a (produce c t).1) d)
    (a : NodeId) (hi : t.Intact) (hp : p.index < t.size) (all : ∀ c ∈ ids, ready t c) :
    t.Edited Edit.Proper (spliceAfter produce p a ids t).2 := by
  induction ids generalizing t a with
  | nil => exact .refl t
  | cons c ids ih =>
    obtain ⟨made, created, apart⟩ := produces hi hp (all c (by simp))
    have hp' := hp.trans_le made.size_le
    have placed : (produce c t).2.Edited Edit.Proper ((produce c t).2.insertAfter p a (produce c t).1) := by
      refine .single (.insertAfter p a (produce c t).1) (fun x hx => ?_) apart
      rcases List.mem_pair.1 hx with rfl | rfl
      · exact hp'
      · exact created
    have first := made.trans placed
    have rest := ih (produce c t).1 (first.intact hi) (hp.trans_le first.size_le) fun d hd =>
      stays a hp (all c (by simp)) (all d (by simp [hd]))
    rw [spliceAfter_cons]
    exact first.trans rest

/-- A node that has just been planted does not lead to any that was there. -/
theorem Planted.not_reaches {r : Rose Node} {made : NodeId} (h : Planted t r made t')
    (hp : p.index < t.size) : ¬ t'.Reaches made p := by
  intro back
  obtain ⟨s, rfl, -, -, fresh⟩ := h.exists_fresh
  have := h.grown.linked.floor_le_of_reaches (fresh _ s.label_mem_labels) back
  omega

/-- Copies are placed in a row. -/
theorem Intact.splice (copies : ∀ (t : Tree) c, t.Edited Edit.Proper (produce c t).2 ∧
      ∃ r, Planted t r (produce c t).1 (produce c t).2)
    (a : NodeId) (ids : List NodeId) (hi : t.Intact) (hp : p.index < t.size) :
    t.Edited Edit.Proper (spliceAfter produce p a ids t).2 := by
  refine Intact.edited_spliceAfter (fun _ _ => True) (fun {t c} _ hp _ => ?_)
    (fun _ _ _ _ => trivial) a hi hp fun _ _ => trivial
  obtain ⟨made, r, planted⟩ := copies t c
  exact ⟨made, planted.lt_size, planted.not_reaches hp⟩

/-- Copies of nodes are placed behind another by proper edits. -/
theorem Intact.copyAfter (hi : t.Intact) (a : NodeId) (ids : List NodeId) (hp : p.index < t.size) :
    t.Edited Edit.Proper (spliceAfter (fun id t => t.copySubtree id) p a ids t).2 :=
  hi.splice (fun t c => ⟨edited_graft t t c, _, graft_planted t t c⟩) a ids hp

/-- Nodes that do not lead to the parent are moved in a row. -/
theorem Intact.move {f : Node → Node} (hr : Renodes produce f)
    (relabels : ∀ c (t : Tree), t.Edited Edit.Relabeling (produce c t).2) (a : NodeId) (hi : t.Intact)
    (hp : p.index < t.size) (apart : ∀ c ∈ ids, c.index < t.size ∧ ¬ t.Reaches c p) :
    t.Edited Edit.Proper (spliceAfter produce p a ids t).2 := by
  have sub (c : NodeId) (t : Tree) : ∀ y, ∀ z ∈ (produce c t).2.children y, z ∈ t.children y := by
    intro y z hz
    rwa [(hr.relabeled c t).children_eq] at hz
  refine Intact.edited_spliceAfter (fun t c => c.index < t.size ∧ ¬ t.Reaches c p)
    (fun {t c} _ _ h => ?_) (fun {t c d} a hp h h' => ?_) a hi hp apart
  · refine ⟨(relabels c t).proper, ?_, fun back => h.2 ?_⟩
    · rw [hr.same, (hr.relabeled c t).size_eq]
      exact h.1
    · rw [hr.same] at back
      exact back.mono (sub c t)
  · have hp' : p.index < (produce c t).2.size := by rwa [(hr.relabeled c t).size_eq]
    refine ⟨by rw [size_insertAfter, (hr.relabeled c t).size_eq]; exact h'.1, fun back => h'.2 ?_⟩
    -- a way to `p` over the new link has led to `p` before
    rcases back.of_added (added_insertAfter a _ hp') with back | ⟨back, -⟩
    · exact back.mono (sub c t)
    · exact back.mono (sub c t)

/-- What stands further down does not lead back up. -/
theorem Intact.apart (h : t.Intact) (below : t.Reaches p y) (hc : c ∈ t.children y) :
    c.index < t.size ∧ ¬ t.Reaches c p :=
  ⟨h.consistent.linked.lt_size_of_mem (Nat.zero_le y.index) hc, fun back =>
    h.acyclic y c hc (back.trans below)⟩

/-- A child is reached from its parent, which has been created. -/
theorem Intact.reaches_child (h : t.Intact) (hp : t.parent? id = some p) :
    p.index < t.size ∧ t.Reaches p id := by
  have member := (h.consistent.mem_children_iff p id).2 hp
  exact ⟨lt_size_of_mem_children member, .child .self member⟩

/-! ## Contents -/

/-- A slot is filled by proper edits. -/
theorem Intact.edited_fillSlot (hi : t.Intact) (source slot : NodeId) :
    t.Edited Edit.Proper (t.fillSlot source slot) := by
  unfold fillSlot
  split
  · exact .refl t
  next p hp => exact (hi.copyAfter slot _ (hi.reaches_child hp).1).trans (edited_remove _ p slot)

/-- All slots of a body are filled by proper edits. -/
theorem Intact.edited_fillContent (hi : t.Intact) (body source : NodeId) :
    t.Edited Edit.Proper (t.fillContent body source) :=
  Intact.edited_foldl (fun _ slot hi => hi.edited_fillSlot source slot) _ hi

end

end Tree

end Stylesheet

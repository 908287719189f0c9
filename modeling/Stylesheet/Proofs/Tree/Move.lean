import Stylesheet.Expansion.Traversal
import Stylesheet.Proofs.Tree.Splice

/-! # Moves

Children of one node are moved in a row behind a child of another one, and may be given other nodes on
the way (**`Tree.Renodes`**). **`Tree.Moved`** says what becomes of the links, and `Tree.Site.move` what
becomes of the places: the shapes of what moved stand behind the anchor. A child can also be taken out,
with its own children let go (`Tree.Site.drop`) or not (`Tree.Site.detach`), and then it may give way to
the children of another node (`Tree.Site.replace`): of one that stands under it (`Tree.Site.take`) or of
a new one (`Tree.Site.replaceByNew`). -/

namespace Stylesheet

namespace Tree

/-- What is made for a node is this node, with another content. -/
structure Renodes (produce : NodeId → Tree → NodeId × Tree) (f : Node → Node) : Prop where
  same : ∀ c t, (produce c t).1 = c
  relabeled : ∀ c t, Relabeled [c] t (produce c t).2
  node_self : ∀ c t, (produce c t).2.node c = f (t.node c)

/-- Moving as such leaves nodes as they are. -/
theorem renodes_id : Renodes (fun id t => (id, t)) id :=
  ⟨fun _ _ => rfl, fun _ t => .refl _ t, fun _ _ => rfl⟩

/-- A node other than a root has been created. -/
theorem lt_size_of_node_ne {t : Tree} {c : NodeId} (h : t.node c ≠ .root) : c.index < t.size := by
  by_cases hs : c.index < t.size
  · exact hs
  · refine absurd ?_ h
    rw [node_eq, slot_of_size_le t c (Nat.not_lt.1 hs)]

/-- What changes created nodes in place, and none of the others, gives them other contents. -/
theorem renodes_of_setNode {produce : NodeId → Tree → NodeId × Tree} {f : Node → Node}
    (h : ∀ c t, produce c t = (c, t.setNode c (f (t.node c))) ∧ t.node c ≠ .root ∨
      produce c t = (c, t) ∧ f (t.node c) = t.node c) : Renodes produce f where
  same c t := by
    obtain ⟨eq, -⟩ | ⟨eq, -⟩ := h c t <;> rw [eq]
  relabeled c t := by
    obtain ⟨eq, -⟩ | ⟨eq, -⟩ := h c t
    · rw [eq]
      exact .setNode t c _
    · rw [eq]
      exact .refl _ t
  node_self c t := by
    obtain ⟨eq, created⟩ | ⟨eq, still⟩ := h c t
    · rw [eq]
      exact node_setNode_self t c _ (lt_size_of_node_ne created)
    · rw [eq, still]

/-- Put the selectors of a block under outer ones. -/
def nestNode (outer : List String) : Node → Node
  | .block own => .block (Selector.nestUnder own outer)
  | n => n

/-- Putting selectors in front of those of a block changes the node in its place. -/
theorem renodes_nestBlock (outer : List String) : Renodes (nestBlock outer) (nestNode outer) := by
  refine renodes_of_setNode fun c t => ?_
  unfold nestBlock
  cases t.node c with
  | block own => exact .inl ⟨rfl, nofun⟩
  | _ => exact .inr ⟨rfl, rfl⟩

/-- Put a name in front of that of a declaration. -/
def lengthenNode (name : String) : Node → Node
  | .declaration own value important => .declaration (name ++ "-" ++ own) value important
  | n => n

/-- Lengthening the name of a declaration changes the node in its place. -/
theorem renodes_lengthenName (name : String) : Renodes (lengthenName name) (lengthenNode name) := by
  refine renodes_of_setNode fun c t => ?_
  unfold lengthenName
  cases t.node c with
  | declaration own value important => exact .inl ⟨rfl, nofun⟩
  | _ => exact .inr ⟨rfl, rfl⟩

section

variable {floor : Nat} {t t' t'' : Tree} {p q a : NodeId} {before after ids pre post : List NodeId}
  {rs us qs : List (Rose NodeId)} {produce : NodeId → Tree → NodeId × Tree} {f : Node → Node}

/-! ## Links -/

/-- Children of `q` have been moved among those of `p`. -/
structure Moved (floor : Nat) (f : Node → Node) (q p : NodeId) (pre ids post : List NodeId) (t t' : Tree) :
    Prop where
  parent?_eq : ∀ x, t'.parent? x = if x ∈ ids then some p else t.parent? x
  children_eq : ∀ x, t'.children x =
    if x = p then pre ++ ids ++ post else if x = q then (t.children q).filter (· ∉ ids) else t.children x
  node_eq : ∀ x, t'.node x = if x ∈ ids then f (t.node x) else t.node x
  size_eq : t'.size = t.size
  linked : t'.LinkedFrom floor

namespace Moved

/-- Where no nodes are to be moved, none have moved. -/
theorem nil (hl : t.LinkedFrom floor) (hqp : q ≠ p) (hc : t.children p = pre ++ post) :
    Moved floor f q p pre [] post t t := by
  refine ⟨by simp, fun x => ?_, by simp, rfl, hl⟩
  by_cases hx : x = p
  · simp [hx, hc]
  · by_cases hxq : x = q
    · simp [hxq, hqp]
    · simp [hx, hxq]

/-- One child is moved behind an anchor. -/
theorem one (hr : Renodes produce f) (hqp : q ≠ p) (hfp : floor ≤ p.index) (hfq : floor ≤ q.index)
    {c : NodeId} (hl : t.LinkedFrom floor) (hc : t.children p = pre ++ a :: post) (hm : c ∈ t.children q) :
    Moved floor f q p (pre ++ [a]) [c] post t ((produce c t).2.insertAfter p a c) := by
  have link := hl.child hfq hm
  have set := hr.relabeled c t
  have hlt : c.index < (produce c t).2.size := by
    rw [set.size_eq]
    exact lt_size_of_parent? link.2
  have hp : p.index < (produce c t).2.size := by
    rw [set.size_eq]
    exact lt_size_of_mem_children (c := a) (by simp [hc])
  have notIn : a ∉ pre := hl.not_mem_of_children hfp hc
  constructor
  case parent?_eq =>
    intro x
    rw [parent?_insertAfter _ _ _ _ hlt, set.parent?_eq]
    simp only [List.mem_singleton]
  case children_eq =>
    intro x
    rw [children_insertAfter _ _ _ _ hp, Tree.children_detach, Tree.children_detach, set.parent?_eq,
      set.children_eq, set.children_eq, link.2, hc]
    simp only [Option.some.injEq, hqp, if_false, List.mem_singleton]
    rw [placeAfter_append notIn]
    by_cases hx : x = p
    · simp [hx]
    · by_cases hxq : x = q
      · -- the node that the child leaves keeps the others
        rw [if_neg hx, if_neg hx, if_pos hxq, if_pos hxq.symm, hxq]
        exact List.filter_congr fun y _ => by simp [bne, beq_eq_decide]
      · rw [if_neg hx, if_neg hx, if_neg hxq, if_neg fun e => hxq e.symm]
  case node_eq =>
    intro x
    rw [node_insertAfter]
    by_cases hx : x = c
    · rw [hx, if_pos (by simp), hr.node_self]
    · rw [set.node_eq (by simpa using hx), if_neg (by simpa using hx)]
  case size_eq => rw [size_insertAfter, set.size_eq]
  case linked => exact (set.linkedFrom hl).insertAfter a hp hlt hfp link.1

/-- Children that are moved one behind the other stand in a row. -/
theorem cons {c : NodeId} (hqp : q ≠ p) (hn : c ∉ ids) (first : Moved floor f q p pre [c] post t t')
    (rest : Moved floor f q p (pre ++ [c]) ids post t' t'') :
    Moved floor f q p pre (c :: ids) post t t'' := by
  constructor
  case parent?_eq =>
    intro x
    rw [rest.parent?_eq, first.parent?_eq]
    by_cases hx : x = c
    · simp [hx]
    · simp [hx]
  case children_eq =>
    intro x
    rw [rest.children_eq, first.children_eq, first.children_eq, if_neg hqp, if_pos rfl]
    by_cases hx : x = p
    · simp [hx]
    · by_cases hxq : x = q
      · simp only [hxq, hqp, if_false, if_true, List.filter_filter]
        refine List.filter_congr fun y _ => ?_
        by_cases hy : y = c <;> simp [hy]
      · simp [hx, hxq]
  case node_eq =>
    intro x
    rw [rest.node_eq, first.node_eq]
    by_cases hx : x = c
    · simp [hx, hn]
    · simp [hx]
  case size_eq => rw [rest.size_eq, first.size_eq]
  case linked => exact rest.linked

/-- The node that the others leave keeps those that do not go. -/
theorem left {b : NodeId → Bool} (moved : Moved floor f q p pre ((t.children q).filter b) post t t')
    (hqp : q ≠ p) : t'.children q = (t.children q).filter fun c => !b c := by
  rw [moved.children_eq, if_neg hqp, if_pos rfl]
  refine List.filter_congr fun c hc => ?_
  cases goes : b c <;> simp [hc, goes]

variable {inside : List NodeId} (moved : Moved floor f q p pre ids post t t')
  (hids : ∀ x ∈ ids, x ∈ inside) (hp : p ∉ inside)

include moved hids hp

/-- A node stays as deep as it was when what moves to it comes from a part of the tree that it is not in. -/
theorem depth {d : Nat} (hl : t.LinkedFrom floor) (hf : floor ≤ p.index)
    (closed : ∀ x ∈ inside, ∀ c ∈ t.children x, c ∈ inside) (hd : t.Depth p d) : t'.Depth p d := by
  refine hd.of_outside hl hf (Nat.le_of_eq moved.size_eq.symm) (· ∈ inside) closed hp fun x _ _ hx => ?_
  rw [moved.parent?_eq, if_neg fun hm => hx (hids x hm)]

/-- A move rewrites what moves and the two nodes that it moves between. -/
theorem rewrites {d : Nat} (hl : t.LinkedFrom floor) (hd : t'.Depth p d) :
    Rewrites floor (q :: inside) p t t' := by
  have still : p ∉ ids := fun hm => hp (hids p hm)
  constructor
  case size_le => exact Nat.le_of_eq moved.size_eq.symm
  case slot_eq =>
    intro x _ hx hm
    simp only [List.mem_cons, not_or] at hm
    have out : x ∉ ids := fun h => hm.2 (hids x h)
    apply slot_ext
    · rw [moved.node_eq, if_neg out]
    · rw [moved.parent?_eq, if_neg out]
    · rw [moved.children_eq, if_neg hx, if_neg hm.1]
  case node_eq => rw [moved.node_eq, if_neg still]
  case parent?_eq => rw [moved.parent?_eq, if_neg still]
  case linked => exact moved.linked
  case rooted =>
    intro hroot
    refine hroot.of_joined hl moved.size_eq ⟨d, hd⟩ fun x => ?_
    rw [moved.parent?_eq]
    split
    · exact .inl rfl
    · exact .inr rfl

omit hids hp

/-- What stands under neither of the two nodes keeps its shape. -/
theorem shape {r : Rose NodeId} (hr : t.Shape r) (apart : ∀ x ∈ r.labels, x ≠ p ∧ x ≠ q) : t'.Shape r := by
  refine hr.congr fun x hx => ?_
  rw [moved.children_eq, if_neg (apart x hx).1, if_neg (apart x hx).2]

end Moved

/-- Nodes that are moved behind an anchor stand there in a row. -/
theorem LinkedFrom.spliceAfter_moved (hr : Renodes produce f) (hqp : q ≠ p) (hfp : floor ≤ p.index)
    (hfq : floor ≤ q.index) (hn : ids.Nodup) :
    ∀ {t : Tree} {pre : List NodeId} {a : NodeId}, t.LinkedFrom floor →
      t.children p = pre ++ a :: post → (∀ c ∈ ids, c ∈ t.children q) →
        Moved floor f q p (pre ++ [a]) ids post t (spliceAfter produce p a ids t).2 := by
  induction ids with
  | nil =>
    intro t pre a hl hc _
    rw [spliceAfter_nil]
    exact .nil hl hqp (by simp [hc])
  | cons c ids ih =>
    intro t pre a hl hc hm
    rw [List.nodup_cons] at hn
    have first := Moved.one hr hqp hfp hfq hl hc (hm c (by simp))
    -- the next one is moved behind the one that has just been moved
    have row : ((produce c t).2.insertAfter p a c).children p = (pre ++ [a]) ++ c :: post := by
      simp [first.children_eq]
    have others : ∀ d ∈ ids, d ∈ ((produce c t).2.insertAfter p a c).children q := by
      intro d hd
      rw [first.children_eq, if_neg hqp, if_pos rfl, List.mem_filter]
      refine ⟨hm d (by simp [hd]), ?_⟩
      simpa using fun e : d = c => hn.1 (e ▸ hd)
    rw [spliceAfter_cons, hr.same]
    exact first.cons hqp hn.1 (ih hn.2 first.linked row others)

/-! ## Places -/

/-- Some children of `q` are moved behind a child of `p`, and stand there in a row. -/
theorem Site.move {s : Rose NodeId} (b : NodeId → Bool) (hr : Renodes produce f)
    (h : t.Site floor p before (rs ++ s :: us) after) (hq : t.Site floor q [] qs []) (hqp : q ≠ p)
    (apart : ∀ x, x = q ∨ x ∈ qs.flatMap Rose.labels → x ≠ p ∧ x ∉ (rs ++ us).flatMap Rose.labels)
    (hs : s.label ∉ qs.flatMap Rose.labels) :
    let ms := qs.filter fun r => b r.label
    let t' := (spliceAfter produce p s.label ((t.children q).filter b) t).2
    (∃ s' : Rose NodeId, s'.label = s.label ∧ t'.Site floor p before (rs ++ s' :: ms ++ us) after) ∧
      Rewrites floor (q :: qs.flatMap Rose.labels) p t t' ∧
      (t'.children q = (qs.filter fun r => !b r.label).map Rose.label ∧ ∀ r ∈ qs, t'.Shape r) ∧
      ∀ x, t'.node x = if x ∈ ms.map Rose.label then f (t.node x) else t.node x := by
  intro ms t'
  have hc : t.children q = qs.map Rose.label := by simpa using hq.children
  have hms : (t.children q).filter b = ms.map Rose.label := by
    rw [hc, List.filter_map]
    rfl
  have moving : ∀ x ∈ ms.map Rose.label, x ∈ qs.flatMap Rose.labels := by
    intro x hx
    obtain ⟨m, hm, rfl⟩ := List.mem_map.1 hx
    exact List.mem_flatMap.2 ⟨m, (List.mem_filter.1 hm).1, m.label_mem_labels⟩
  have moved : Moved floor f q p (before ++ rs.map Rose.label ++ [s.label]) ((t.children q).filter b)
      (us.map Rose.label ++ after) t t' := by
    refine LinkedFrom.spliceAfter_moved hr hqp h.floor_le hq.floor_le ?_ h.linked ?_ ?_
    · exact (h.linked.nodup hq.floor_le).filter _
    · simp [h.children]
    · exact fun c hc => (List.mem_filter.1 hc).1
  have left := moved.left hqp
  rw [hms] at moved
  have notIn : p ∉ qs.flatMap Rose.labels := fun hp => (apart p (.inr hp)).1 rfl
  obtain ⟨d, hd⟩ := h.depth
  have depth : t'.Depth p d := moved.depth moving notIn h.linked h.floor_le hq.closed hd
  have carried {r : Rose NodeId} (hr : r ∈ qs) : t'.Shape r := by
    refine moved.shape (hq.shapes r hr) fun x hx => ?_
    have hx' := List.mem_flatMap.2 ⟨r, hr, hx⟩
    exact ⟨(apart x (.inr hx')).1, fun e => hq.parent_not_mem (e ▸ hx')⟩
  refine ⟨?_, moved.rewrites moving notIn h.linked depth, ⟨?_, fun r hr => carried hr⟩, moved.node_eq⟩
  · -- the anchor still stands there, over whatever is left under it
    have link := h.parent?_label (r := s) (by simp)
    have still : t'.parent? s.label = some p := by
      rw [moved.parent?_eq, if_neg fun hm => hs (moving _ hm), link.2]
    obtain ⟨s', hs', hshape⟩ := moved.linked.exists_shape (.under still depth) link.1
    refine ⟨s', hs', moved.linked, h.floor_le, ⟨d, depth⟩, ?_, fun r hr => ?_⟩
    · rw [moved.children_eq, if_pos rfl]
      simp [hs']
    · rw [List.append_assoc, List.cons_append, List.perm_middle.mem_iff, List.mem_cons,
        List.perm_append_comm_assoc rs ms us |>.mem_iff, List.mem_append] at hr
      rcases hr with rfl | hr | hr
      · exact hshape
      · exact carried (List.mem_filter.1 hr).1
      · have hr' : r ∈ rs ++ s :: us := List.perm_middle.mem_iff.2 (List.mem_cons_of_mem s hr)
        refine moved.shape (h.shapes r hr') fun x hx => ⟨?_, ?_⟩
        · rintro rfl
          exact h.parent_not_mem (List.mem_flatMap.2 ⟨r, hr', hx⟩)
        · rintro rfl
          exact (apart x (.inl rfl)).2 (List.mem_flatMap.2 ⟨r, hr, hx⟩)
  · rw [left, hc, List.filter_map]
    rfl

/-- Some children of a node are moved behind it. -/
theorem Site.moveOut (rs us : List (Rose NodeId)) {id : NodeId} {cs : List (Rose NodeId)} (b : NodeId → Bool)
    (hr : Renodes produce f) (h : t.Site floor p before (rs ++ ⟨id, cs⟩ :: us) after) :
    let ms := cs.filter fun r => b r.label
    let rest := cs.filter fun r => !b r.label
    let t' := (spliceAfter produce p id ((t.children id).filter b) t).2
    t'.Site floor p before (rs ++ ⟨id, rest⟩ :: ms ++ us) after ∧
      Rewrites floor ([Rose.mk id cs].flatMap Rose.labels) p t t' ∧
      ∀ x, t'.node x = if x ∈ ms.map Rose.label then f (t.node x) else t.node x := by
  intro ms rest t'
  have hsite : t.Site floor p before (rs ++ [⟨id, cs⟩] ++ us) after := by simpa using h
  have hq : t.Site floor id [] cs [] := hsite.middle.under
  have apart : ∀ x, x = id ∨ x ∈ cs.flatMap Rose.labels →
      x ≠ p ∧ x ∉ (rs ++ us).flatMap Rose.labels := by
    intro x hx
    have hm : x ∈ [Rose.mk id cs].flatMap Rose.labels := by simpa using hx
    refine ⟨?_, fun hx' => (hsite.around hx').2.2 hm⟩
    rintro rfl
    exact hsite.middle.parent_not_mem hm
  obtain ⟨⟨s, hs, hsite'⟩, hrew, ⟨hc, hshapes⟩, hnode⟩ :=
    Site.move b hr h hq (apart id (.inl rfl)).1 apart hq.parent_not_mem
  refine ⟨?_, by simpa using hrew, hnode⟩
  have left : t'.Shape ⟨id, rest⟩ :=
    .mk id rest hc fun r hr => hshapes r (List.mem_filter.1 hr).1
  rw [← (hsite'.shapes s (by simp)).unique left hs]
  exact hsite'

/-- The place of the node is reworked then, and no other node is touched. -/
theorem Site.reworked_moveOut {id : NodeId} {cs : List (Rose NodeId)} (b : NodeId → Bool)
    (hr : Renodes produce f) (h : t.Site floor p before [⟨id, cs⟩] after) :
    let ms := cs.filter fun r => b r.label
    let rest := cs.filter fun r => !b r.label
    let t' := (spliceAfter produce p id ((t.children id).filter b) t).2
    t.Reworked floor p before ([Rose.mk id cs].flatMap Rose.labels) after (⟨id, rest⟩ :: ms) t' ∧
      ∀ x, t'.node x = if x ∈ ms.map Rose.label then f (t.node x) else t.node x := by
  intro ms rest t'
  obtain ⟨hsite, hrew, hnode⟩ := Site.moveOut [] [] b hr h
  rw [List.append_nil] at hsite
  refine ⟨⟨hsite, hrew, fun x hx => .inl ?_⟩, hnode⟩
  rw [List.flatMap_cons, Rose.labels_mk, List.mem_append, List.mem_cons] at hx
  rw [List.flatMap_singleton, Rose.labels_mk, List.mem_cons]
  rcases hx with (rfl | hx) | hx
  · exact .inl rfl
  · obtain ⟨r, hm, hx⟩ := List.mem_flatMap.1 hx
    exact .inr (List.mem_flatMap.2 ⟨r, (List.mem_filter.1 hm).1, hx⟩)
  · obtain ⟨r, hm, hx⟩ := List.mem_flatMap.1 hx
    exact .inr (List.mem_flatMap.2 ⟨r, (List.mem_filter.1 hm).1, hx⟩)

/-- A list without one member of it. -/
theorem filter_ne_of_nodup {id : NodeId} {pre post : List NodeId} (h : (pre ++ id :: post).Nodup) :
    (pre ++ id :: post).filter (· != id) = pre ++ post := by
  rw [List.nodup_append, List.nodup_cons] at h
  obtain ⟨-, ⟨hpost, -⟩, hpre⟩ := h
  rw [List.filter_append, List.filter_cons_of_neg (by simp), List.filter_eq_self.2, List.filter_eq_self.2]
  · intro x hx
    have : x ≠ id := fun e => hpost (e ▸ hx)
    simpa using this
  · intro x hx
    have : x ≠ id := fun e => hpre x hx id (by simp) e
    simpa using this

/-- Taking a child out rewrites its place. -/
theorem Rewrites.detach (hl : t.LinkedFrom floor) {c : NodeId} (parent : t.parent? c = some p) (ne : p ≠ c) :
    Rewrites floor [c] p t (t.detach c) where
  size_le := Nat.le_of_eq (size_detach t c).symm
  slot_eq := by
    intro x _ hp hx
    refine slot_detach_of_ne t (by simpa using hx) ?_
    rw [parent, ne_eq, Option.some.injEq]
    exact fun e => hp e.symm
  node_eq := node_detach t c p
  parent?_eq := by rw [parent?_detach, if_neg ne]
  linked := hl.detach c
  rooted hr := hr.detach hl c

/-- Letting children go rewrites any place that they and their parent stand in. -/
theorem Rewrites.setChildren_nil (hl : t.LinkedFrom floor) {c : NodeId} (hf : floor ≤ c.index)
    (apart : p ∉ t.children c) : Rewrites floor (c :: t.children c) p t (t.setChildren c []) where
  size_le := Nat.le_of_eq (size_setChildren_nil t c).symm
  slot_eq := by
    intro x _ _ hx
    rw [List.mem_cons, not_or] at hx
    exact slot_setChildren_nil_of_ne t hx.1 hx.2
  node_eq := node_setChildren_nil t c p
  parent?_eq := by rw [parent?_setChildren_nil, if_neg apart]
  linked := hl.setChildren_nil hf
  rooted hr := hr.setChildren_nil hl c

/-- A child is taken out. What stands under it stays there. -/
theorem Site.detach (rs us : List (Rose NodeId)) {s : Rose NodeId} (h : t.Site floor p before (rs ++ s :: us) after) :
    (t.detach s.label).Site floor p before (rs ++ us) after ∧
      Rewrites floor [s.label] p t (t.detach s.label) := by
  have link := h.parent?_label (r := s) (by simp)
  have hsite : t.Site floor p before (rs ++ [s] ++ us) after := by simpa using h
  have ne : p ≠ s.label := fun e => hsite.middle.parent_not_mem (by simp [e, s.label_mem_labels])
  have rewrites := Rewrites.detach h.linked link.2 ne
  refine ⟨⟨rewrites.linked, h.floor_le, ?_, ?_, fun r hr => ?_⟩, rewrites⟩
  · exact hsite.middle.depth_of_rewrites (rewrites.mono (by simp [s.label_mem_labels]))
  · have nodup := h.linked.nodup h.floor_le
    have row : t.children p = (before ++ rs.map Rose.label) ++ s.label :: (us.map Rose.label ++ after) := by
      simp [h.children]
    rw [children_detach, link.2, if_pos rfl, row, filter_ne_of_nodup (row ▸ nodup)]
    simp
  · -- no other node loses a child
    have hr' : r ∈ rs ++ s :: us := List.perm_middle.mem_iff.2 (List.mem_cons_of_mem s hr)
    refine (h.shapes r hr').congr fun x hx => ?_
    rw [children_detach, link.2, if_neg]
    rintro ⟨⟩
    exact h.parent_not_mem (List.mem_flatMap.2 ⟨r, hr', hx⟩)

/-- The children of a child are let go. -/
theorem Site.setChildren_nil {s : Rose NodeId} (h : t.Site floor p before (rs ++ s :: us) after) :
    (t.setChildren s.label []).Site floor p before (rs ++ ⟨s.label, []⟩ :: us) after ∧
      Rewrites floor (s.label :: t.children s.label) p t (t.setChildren s.label []) := by
  have link := h.parent?_label (r := s) (by simp)
  have hsite : t.Site floor p before (rs ++ [s] ++ us) after := by simpa using h
  have hp : p ∉ s.labels := by simpa using hsite.middle.parent_not_mem
  have ne : p ≠ s.label := fun e => hp (e ▸ s.label_mem_labels)
  have inside {x : NodeId} (hx : x ∈ t.children s.label) : x ∈ s.labels :=
    (h.shapes s (by simp)).mem_of_child s.label_mem_labels hx
  have rewrites := Rewrites.setChildren_nil h.linked link.1 fun hm => hp (inside hm)
  refine ⟨⟨rewrites.linked, h.floor_le, ?_, ?_, fun r hr => ?_⟩, rewrites⟩
  · refine hsite.middle.depth_of_rewrites (rewrites.mono fun x hx => ?_)
    rw [List.flatMap_singleton]
    rcases List.mem_cons.1 hx with rfl | hx
    · exact s.label_mem_labels
    · exact inside hx
  · rw [children_setChildren_nil, if_neg ne, h.children]
    simp
  · rw [List.perm_middle.mem_iff, List.mem_cons] at hr
    rcases hr with rfl | hr
    · exact .mk _ [] (by rw [children_setChildren_nil, if_pos rfl]; rfl) (by simp)
    · have hr' : r ∈ rs ++ s :: us := List.perm_middle.mem_iff.2 (List.mem_cons_of_mem s hr)
      refine (h.shapes r hr').congr fun x hx => ?_
      rw [children_setChildren_nil, if_neg]
      rintro rfl
      exact (hsite.around (List.mem_flatMap.2 ⟨r, hr, hx⟩)).2.2 (by simp [s.label_mem_labels])

/-- A child is taken out of its parent. -/
theorem Site.remove {s : Rose NodeId} (h : t.Site floor p before (rs ++ s :: us) after) :
    t.remove p s.label = t.detach s.label := by
  unfold Tree.remove
  rw [if_pos (h.parent?_label (by simp)).2]

/-- A child is taken out and its own children are let go. -/
theorem Site.drop (rs us : List (Rose NodeId)) {s : Rose NodeId} (h : t.Site floor p before (rs ++ s :: us) after) :
    ((t.setChildren s.label []).remove p s.label).Site floor p before (rs ++ us) after ∧
      Rewrites floor (s.label :: t.children s.label) p t
        ((t.setChildren s.label []).remove p s.label) ∧
      ∀ x, ((t.setChildren s.label []).remove p s.label).node x = t.node x := by
  obtain ⟨hsite, hrew⟩ := h.setChildren_nil
  obtain ⟨hsite', hrew'⟩ := hsite.detach rs us
  have hremove : (t.setChildren s.label []).remove p s.label = (t.setChildren s.label []).detach s.label :=
    hsite.remove
  rw [Rose.label_mk] at hsite' hrew'
  rw [hremove]
  refine ⟨hsite', hrew.trans hrew' (by simp), fun x => ?_⟩
  rw [node_detach, node_setChildren_nil]

/-- A child gives way to the children of another node, which stands elsewhere or under it. -/
theorem Site.replace (rs us : List (Rose NodeId)) {s : Rose NodeId}
    (h : t.Site floor p before (rs ++ s :: us) after)
    (hq : t.Site floor q [] qs []) (hqp : q ≠ p) (hqs : s.label ≠ q)
    (apart : ∀ x, x = q ∨ x ∈ qs.flatMap Rose.labels → x ≠ p ∧ x ∉ (rs ++ us).flatMap Rose.labels)
    (hs : s.label ∉ qs.flatMap Rose.labels) :
    let t' := ((t.moveAfter p s.label (t.children q)).setChildren s.label []).remove p s.label
    t'.Site floor p before (rs ++ qs ++ us) after ∧
      Rewrites floor (q :: s.label :: t.children s.label ++ qs.flatMap Rose.labels) p t t' ∧
      ∀ x, t'.node x = t.node x := by
  intro t'
  -- all children of `q` are moved behind `s`, which then lets its own go and is taken out
  obtain ⟨⟨s', hs', hsite⟩, hrew, -, hnode⟩ := Site.move (fun _ => true) renodes_id h hq hqp apart hs
  have hall : (t.children q).filter (fun _ => true) = t.children q := by simp
  have hqs' : qs.filter (fun _ => true) = qs := by simp
  rw [hall] at hsite hrew hnode
  rw [hqs'] at hsite
  obtain ⟨hsite', hrew', hnode'⟩ := Site.drop rs (qs ++ us) (by simpa using hsite)
  have link := h.parent?_label (r := s) (by simp)
  have hsp : s.label ≠ p := by
    rintro e
    have : s.label ∈ (rs ++ s :: us).flatMap Rose.labels := by simp [s.label_mem_labels]
    exact h.parent_not_mem (e ▸ this)
  have hc : (spliceAfter (fun id t => (id, t)) p s.label (t.children q) t).2.children s.label =
      t.children s.label := by
    rw [children_eq, hrew.slot_eq (lt_size_of_parent? link.2) hsp (by simp [hqs, hs]), ← children_eq]
  rw [hs', hc] at hrew'
  rw [hs'] at hsite' hnode'
  refine ⟨?_, ?_, fun x => ?_⟩
  · rw [List.append_assoc]
    exact hsite'
  · refine (hrew.mono fun x hx => ?_).trans hrew' fun x hx => .inl ?_
    · rcases List.mem_cons.1 hx with rfl | hx
      · simp
      · simp [hx]
    · rcases List.mem_cons.1 hx with rfl | hx
      · simp
      · simp [hx]
  · refine (hnode' x).trans ((hnode x).trans ?_)
    split <;> rfl

/-- A node gives way to what stands under one of its children. -/
theorem Site.take {id branch : NodeId} {cs bs : List (Rose NodeId)} (h : t.Site floor p before [⟨id, cs⟩] after)
    (hm : ⟨branch, bs⟩ ∈ cs) :
    let t' := ((t.moveAfter p id (t.children branch)).setChildren id []).remove p id
    Reworked floor t p before ([Rose.mk id cs].flatMap Rose.labels) after bs t' ∧
      ∀ x, t'.node x = t.node x := by
  intro t'
  obtain ⟨pre, post, rfl⟩ := List.append_of_mem hm
  have branches : t.Site floor id [] (pre ++ [⟨branch, bs⟩] ++ post) [] := by simpa using h.under
  have hq : t.Site floor branch [] bs [] := branches.middle.under
  have within (x : NodeId) (hx : x = branch ∨ x ∈ bs.flatMap Rose.labels) :
      x ∈ (pre ++ ⟨branch, bs⟩ :: post).flatMap Rose.labels := by
    refine List.mem_flatMap.2 ⟨⟨branch, bs⟩, hm, ?_⟩
    rw [Rose.labels_mk]
    exact List.mem_cons.2 hx
  have own (x : NodeId) (hx : x = branch ∨ x ∈ bs.flatMap Rose.labels) :
      x ∈ [Rose.mk id (pre ++ ⟨branch, bs⟩ :: post)].flatMap Rose.labels :=
    Rose.mem_labels_of_under id (within x hx)
  have apart (x : NodeId) (hx : x = branch ∨ x ∈ bs.flatMap Rose.labels) : x ≠ p := by
    rintro rfl
    exact h.parent_not_mem (own x hx)
  have below (x : NodeId) (hx : x = branch ∨ x ∈ bs.flatMap Rose.labels) : x ≠ id := by
    rintro rfl
    exact h.under.parent_not_mem (within x hx)
  -- what stands in the branch stands under the node, so it is neither the node nor `p`
  obtain ⟨hsite, hrew, hnode⟩ := Site.replace [] [] h hq (apart branch (.inl rfl))
    (below branch (.inl rfl)).symm (fun x hx => ⟨apart x hx, by simp⟩) fun hm => below id (.inr hm) rfl
  rw [Rose.label_mk] at hrew hnode
  rw [List.nil_append, List.append_nil, Rose.label_mk] at hsite
  have hc : t.children id = (pre ++ ⟨branch, bs⟩ :: post).map Rose.label := by simpa using h.under.children
  refine ⟨h.reworked.trans hrew (fun x hx => .inl ?_) hsite fun x hx => .inl (own x (.inr hx)), hnode⟩
  simp only [List.cons_append, List.mem_cons, List.mem_append] at hx
  rcases hx with rfl | rfl | hx | hx
  · exact own x (.inl rfl)
  · exact Rose.mem_labels_of_top List.mem_cons_self
  · rw [hc] at hx
    exact Rose.mem_labels_of_top (List.mem_cons_of_mem _ hx)
  · exact own x (.inr hx)

/-- A node gives way to what stands under a new one that stands alone. -/
theorem Site.replaceByNew {id : NodeId} {cs : List (Rose NodeId)} (h : t.Site floor p before [⟨id, cs⟩] after)
    (g : t.Grown t') (hq : t'.Site t.size q [] qs []) :
    let t'' := ((t'.moveAfter p id (t'.children q)).setChildren id []).remove p id
    Reworked floor t p before ([Rose.mk id cs].flatMap Rose.labels) after qs t'' ∧
      ∀ x, t''.node x = t'.node x := by
  intro t''
  have hs := h.of_grown g
  have hf : floor ≤ t.size := h.floor_le.trans (Nat.le_of_lt h.lt_size)
  have new (x : NodeId) (hx : x = q ∨ x ∈ qs.flatMap Rose.labels) : t.size ≤ x.index := by
    rcases hx with rfl | hx
    · exact hq.floor_le
    · exact hq.floor_le_index hx
  -- what has been created before is not among the new nodes
  have old (y : NodeId) (hy : y.index < t.size) (x : NodeId) (hx : x = q ∨ x ∈ qs.flatMap Rose.labels) :
      x ≠ y := by
    rintro rfl
    exact Nat.not_lt.2 (new x hx) hy
  have apart := old p h.lt_size
  have below := old id h.under.lt_size
  obtain ⟨hsite, hrew, hnode⟩ := Site.replace [] [] hs (hq.lower hs.linked hf) (apart q (.inl rfl))
    (below q (.inl rfl)).symm (fun x hx => ⟨apart x hx, by simp⟩) fun hm => below id (.inr hm) rfl
  rw [Rose.label_mk] at hsite hrew hnode
  rw [List.nil_append, List.append_nil] at hsite
  refine ⟨⟨hsite, ?_, fun x hx => .inr (new x (.inr hx))⟩, hnode⟩
  refine (Rewrites.of_grown g h.linked h.lt_size h.floor_le _).trans hrew fun x hx => ?_
  have hc : t'.children id = cs.map Rose.label := by simpa using hs.under.children
  simp only [List.cons_append, List.mem_cons, List.mem_append] at hx
  rcases hx with rfl | rfl | hx | hx
  · exact .inr (new x (.inl rfl))
  · exact .inl (Rose.mem_labels_of_top List.mem_cons_self)
  · rw [hc] at hx
    exact .inl (Rose.mem_labels_of_top (List.mem_cons_of_mem id hx))
  · exact .inr (new x (.inr hx))

/-- A node is dropped from its place, and what has been made behind it is left. -/
theorem Reworked.drop {id : NodeId} {cs : List (Rose NodeId)}
    (h : Reworked floor t p before ([Rose.mk id cs].flatMap Rose.labels) after (⟨id, cs⟩ :: us) t') :
    let t'' := (t'.setChildren id []).remove p id
    Reworked floor t p before ([Rose.mk id cs].flatMap Rose.labels) after us t'' ∧
      ∀ x, t''.node x = t'.node x := by
  intro t''
  obtain ⟨hsite, hrew, hnode⟩ := Site.drop [] us h.site
  have hc : t'.children id = cs.map Rose.label := (h.site.shapes ⟨id, cs⟩ List.mem_cons_self).children
  rw [Rose.label_mk, hc] at hrew
  refine ⟨h.trans hrew (fun x hx => .inl (Rose.mem_labels_of_top hx)) hsite fun x hx => .inl ?_, hnode⟩
  rw [List.flatMap_cons]
  exact List.mem_append_right _ hx

/-- A node is dropped from its place, whatever stands behind it by now. -/
theorem Contained.drop {id : NodeId} {cs : List (Rose NodeId)} (h : t.Site floor p before [⟨id, cs⟩] after)
    (hc : Contained floor t p (before ++ [id]) [] after t') :
    Contained floor t p before ([Rose.mk id cs].flatMap Rose.labels) after
      ((t'.setChildren id []).remove p id) := by
  obtain ⟨hrew, mid, hmid, made⟩ := hc
  have hsite : t'.Site floor p before [⟨id, cs⟩] (mid ++ after) := by
    obtain ⟨d, hd⟩ := h.depth
    refine ⟨hrew.linked, h.floor_le, ⟨d, hrew.depth h.linked (by simp) hd h.floor_le (by simp)⟩, ?_,
      fun r hr => ?_⟩
    · simpa using hmid
    · refine (h.shapes r hr).congr fun x hx => ?_
      have hx' := List.mem_flatMap.2 ⟨r, hr, hx⟩
      rw [children_eq, hrew.slot_eq (h.index_lt hx') (fun e => h.parent_not_mem (e ▸ hx')) (by simp),
        ← children_eq]
  obtain ⟨hsite', hrew', -⟩ := Site.drop [] [] hsite
  have top : t'.children id = cs.map Rose.label := (hsite.shapes ⟨id, cs⟩ List.mem_cons_self).children
  rw [Rose.label_mk, top] at hrew'
  refine ⟨(hrew.mono (by simp)).trans hrew' fun x hx => .inl (Rose.mem_labels_of_top hx), mid, ?_, ?_⟩
  · simpa using hsite'.children
  · exact fun x hx => .inr ((made x hx).resolve_left (by simp))

end

end Tree

end Stylesheet

import Stylesheet.Proofs.Tree.Listing
import Stylesheet.Proofs.Tree.Upkeep

/-! # Contents are substituted

Filling the children of a node in for the places for content under another one is a substitution
(**`Tree.Substituted`**, `Tree.substituted_fillContent`): read off as values, the trees under the other node have
become what `Rose.fill` makes of them. On the way, places are **shed** (**`Tree.Sheds`**) while all nodes that stay
keep what they carry and their order, and nothing changes elsewhere. -/

namespace Stylesheet

namespace Tree

variable {t t' t'' : Tree} {body source p c x : NodeId} {gone gone' own ids : List NodeId}
  {ms : List (Rose NodeId)}

/-! ## What stays -/

/-- The nodes that were there carry what they did, and those of them that are still children stand in order; children
that are missing are among those that are `gone`. -/
structure Sheds (gone : List NodeId) (t t' : Tree) : Prop where
  size_le : t.size ≤ t'.size
  node : ∀ x : NodeId, x.index < t.size → t'.node x = t.node x
  children : ∀ x : NodeId, x.index < t.size →
    (t'.children x).filter (·.index < t.size) = (t.children x).filter (· ∉ gone)

namespace Sheds

/-- What is shed in two changes is shed in both together. -/
theorem trans (h : Sheds gone t t') (h' : Sheds gone' t' t'') : Sheds (gone ++ gone') t t'' where
  size_le := h.size_le.trans h'.size_le
  node x hx := (h'.node x (hx.trans_le h.size_le)).trans (h.node x hx)
  children x hx := by
    -- what was there at first was there in between
    have between : (t''.children x).filter (·.index < t.size) =
        ((t''.children x).filter (·.index < t'.size)).filter (·.index < t.size) := by
      rw [List.filter_filter]
      refine List.filter_congr fun c _ => ?_
      have := h.size_le
      grind
    calc (t''.children x).filter (·.index < t.size)
      _ = ((t'.children x).filter (· ∉ gone')).filter (·.index < t.size) := by
        rw [between, h'.children x (hx.trans_le h.size_le)]
      _ = ((t'.children x).filter (·.index < t.size)).filter (· ∉ gone') := by
        rw [List.filter_filter, List.filter_filter]
        exact List.filter_congr fun c _ => Bool.and_comm _ _
      _ = (t.children x).filter (· ∉ gone ++ gone') := by
        rw [h.children x hx, List.filter_filter]
        refine List.filter_congr fun c _ => ?_
        simp [Bool.and_comm]

end Sheds

/-- Nothing is missing where children have been created and all links are kept. -/
theorem Intact.sheds_refl (h : t.Intact) (out : ∀ x, ∀ c ∈ t.children x, c ∉ gone) : Sheds gone t t where
  size_le := Nat.le_refl _
  node _ _ := rfl
  children x _ := by
    have old (c : NodeId) (hc : c ∈ t.children x) : c.index < t.size :=
      h.consistent.linked.lt_size_of_mem (Nat.zero_le _) hc
    rw [List.filter_eq_self.2 fun c hc => by simpa using old c hc,
      List.filter_eq_self.2 fun c hc => by simpa using out x c hc]

/-- A member that is put in a list is all that is new. -/
theorem filter_placeAfter {q : NodeId → Bool} (anchor : NodeId) (hc : q c = false) :
    (placeAfter anchor c ids).filter q = ids.filter q := by
  induction ids with
  | nil => simp [placeAfter, hc]
  | cons id ids ih =>
    rw [placeAfter]
    split <;> simp [List.filter_cons, hc, ih]

namespace Intact

variable (h : t.Intact)

include h

/-- A copy that is placed is new. -/
theorem sheds_place (a c : NodeId) (hp : p.index < t.size) :
    Sheds [] t ((t.copySubtree c).2.insertAfter p a (t.copySubtree c).1) := by
  have planted : Planted t _ (t.copySubtree c).1 (t.copySubtree c).2 := graft_planted t t c
  obtain ⟨s, top, -, -, fresh⟩ := planted.exists_fresh
  generalize (t.copySubtree c).1 = made, (t.copySubtree c).2 = t' at planted top ⊢
  have new : (decide (made.index < t.size)) = false := by
    have := fresh made (top ▸ s.label_mem_labels)
    simpa using this
  constructor
  case size_le =>
    rw [size_insertAfter]
    exact planted.grown.size_le
  case node =>
    intro x hx
    rw [node_insertAfter, planted.grown.node_eq hx]
  case children =>
    intro x hx
    have stays : Sheds [] t t := h.sheds_refl (by simp)
    have same := stays.children x hx
    rw [children_insertAfter _ _ _ _ (hp.trans_le planted.grown.size_le), detach_of_alone planted.alone]
    split
    next e => rw [filter_placeAfter a new, ← e, planted.grown.children_eq hx, same]
    next => rw [planted.grown.children_eq hx, same]

/-- So are copies in a row. -/
theorem sheds_splice (a : NodeId) (ids : List NodeId) (hp : p.index < t.size) :
    Sheds [] t (spliceAfter (fun id t => t.copySubtree id) p a ids t).2 := by
  induction ids generalizing t a with
  | nil => exact h.sheds_refl (by simp)
  | cons c ids ih =>
    have placed := h.sheds_place a c hp
    have next : ((t.copySubtree c).2.insertAfter p a (t.copySubtree c).1).Intact :=
      (h.copyAfter a [c] hp).intact h
    rw [spliceAfter_cons]
    exact placed.trans (ih next _ (hp.trans_le placed.size_le))

/-- A node that is taken out is missing. -/
theorem sheds_detach (slot : NodeId) : Sheds [slot] t (t.detach slot) where
  size_le := Nat.le_of_eq (size_detach t slot).symm
  node x _ := node_detach t slot x
  children x hx := by
    have old (c : NodeId) (hc : c ∈ t.children x) : c.index < t.size :=
      h.consistent.linked.lt_size_of_mem (Nat.zero_le _) hc
    rw [children_detach]
    split
    next =>
      rw [List.filter_filter]
      exact List.filter_congr fun c hc => by simp [old c hc, bne, beq_eq_decide]
    next other =>
      -- where it is no child, nothing is taken out
      have out : slot ∉ t.children x := fun hm => other ((h.consistent.mem_children_iff x slot).1 hm)
      refine List.filter_congr fun c hc => ?_
      have : c ≠ slot := fun e => out (e ▸ hc)
      simp [old c hc, this]

/-- A place for content is missing once it is filled. -/
theorem sheds_fillSlot (source slot : NodeId) : Sheds [slot] t (t.fillSlot source slot) := by
  unfold fillSlot
  split
  next none =>
    refine h.sheds_refl fun x c hc e => ?_
    have := (h.consistent.mem_children_iff x c).1 hc
    simp_all
  next p hp =>
    have member := (h.consistent.mem_children_iff p slot).2 hp
    have hp' := lt_size_of_mem_children member
    have kept := h.sheds_splice slot (t.children source) hp'
    have intact := (h.copyAfter slot (t.children source) hp').intact h
    generalize (spliceAfter (fun id t => t.copySubtree id) p slot (t.children source) t).2 = t' at kept intact ⊢
    -- the place is still a child of its parent
    have still : slot ∈ t'.children p := by
      have : slot ∈ (t.children p).filter (· ∉ ([] : List NodeId)) := by simpa using member
      rw [← kept.children p hp'] at this
      exact List.mem_of_mem_filter this
    rw [remove, if_pos ((intact.consistent.mem_children_iff p slot).1 still)]
    exact kept.trans (intact.sheds_detach slot)

/-- All of them are missing once all are filled. -/
theorem sheds_fillSlots (source : NodeId) (slots : List NodeId) : Sheds slots t (fillSlots source slots t) := by
  induction slots generalizing t with
  | nil => exact h.sheds_refl (by simp)
  | cons slot slots ih => exact (h.sheds_fillSlot source slot).trans (ih ((h.edited_fillSlot source slot).intact h))

end Intact

/-! ## Substitution -/

/-- In the second tree, contents have been filled in under `body`: copies of the children of `source`. -/
structure Substituted (t : Tree) (body source : NodeId) (t' : Tree) : Prop where
  intact : t'.Intact
  /-- The trees under the body are the former ones, with the contents in the places for them. -/
  forest : (t'.rose t'.size body).children =
    (t.rose t.size body).children.flatMap (Rose.fill (t.rose t.size source).children)
  /-- Nodes carry what they did. Of their children all stay, in order, but for the places for content. -/
  kept : ∀ x, t.Reaches body x → t'.node x = t.node x ∧
    (t'.children x).filter (·.index < t.size) = (t.children x).filter (!t.isContent ·)
  /-- What has come under the body is new. -/
  owned : ∀ x, t'.Reaches body x → t.Reaches body x ∨ t.size ≤ x.index
  source : ∀ x, t.Reaches source x → t'.slot x = t.slot x
  outside : ∀ x : NodeId, x.index < t.size → ¬ t.Reaches body x →
    (t.isContent body = true → t.parent? body ≠ some x) → t'.slot x = t.slot x

/-- If the body is a place for content itself, it is filled first, and what stands under it stays. -/
theorem Intact.fillBody (h : t.Intact) (site : t.Site 0 body [] ms []) {contents : List (Rose Node)}
    (hoff : Offers t source own contents) (apart : ∀ p, t.parent? body = some p → p ∉ own) :
    let t' := if t.isContent body then t.fillSlot source body else t
    t'.Site 0 body [] ms [] ∧ t.size ≤ t'.size ∧
      ∀ x : NodeId, x.index < t.size → x ≠ body → (t.isContent body = true → t.parent? body ≠ some x) →
        t'.slot x = t.slot x := by
  intro t'
  by_cases content : t.isContent body = true
  · cases hp : t.parent? body with
    | none =>
      have same : t' = t := by simp [t', content, fillSlot, hp]
      rw [same]
      exact ⟨site, Nat.le_refl _, fun _ _ _ _ => rfl⟩
    | some p =>
      obtain ⟨before, cs, after, around⟩ := h.exists_site hp
      -- what stands under the body in its place is what stands under it
      have shape : t.Shape ⟨body, ms⟩ := .mk body ms (by simpa using site.children) site.shapes
      have unique := (around.shapes ⟨body, cs⟩ (by simp)).unique shape rfl
      obtain rfl : cs = ms := by simpa using unique
      obtain ⟨copies, -, rewrites, -, -, alone, children⟩ := Site.fillSlot [] [] hoff (apart p hp) around
      have filled : t' = t.fillSlot source body := by simp [t', content]
      rw [filled]
      refine ⟨(around.aside rewrites alone children).1, rewrites.size_le, fun x hx ne other => ?_⟩
      exact rewrites.slot_eq hx (fun e => other content (e ▸ rfl)) (by simpa using ne)
  · have same : t' = t := by simp [t', content]
    rw [same]
    exact ⟨site, Nat.le_refl _, fun _ _ _ _ => rfl⟩

/-- Then contents are filled in under the body. -/
theorem Intact.fillUnderBody {cs : List (Rose NodeId)} (h : t.Intact) (hb : body.index < t.size)
    (hs : source.index < t.size) (shape : t.Shape ⟨body, ms⟩) (shape' : t.Shape ⟨source, cs⟩)
    (apart : (Rose.mk source cs).labels.Disjoint (Rose.mk body ms).labels) :
    ∃ filled, (t.fillContent body source).Site 0 body [] filled [] ∧
      filled.map (Rose.map (t.fillContent body source).node) =
        (ms.map (Rose.map t.node)).flatMap (Rose.fill (cs.map (Rose.map t.node))) ∧
      (∀ x ∈ filled.flatMap Rose.labels, x ∈ ms.flatMap Rose.labels ∨ t.size ≤ x.index) ∧
      ∀ x : NodeId, x.index < t.size → x ∉ (Rose.mk body ms).labels →
        (t.isContent body = true → t.parent? body ≠ some x) → (t.fillContent body source).slot x = t.slot x := by
  have linked := h.consistent.linked
  have parent_iff {p c : NodeId} : t.parent? c = some p ↔ c ∈ t.children p :=
    (h.consistent.mem_children_iff p c).symm
  obtain ⟨d, hd⟩ := h.rooted body (Nat.zero_le _) hb
  obtain ⟨d', hd'⟩ := h.rooted source (Nat.zero_le _) hs
  have site : t.Site 0 body [] ms [] :=
    ⟨linked, Nat.zero_le _, ⟨d, hd⟩, by simpa using shape.children, fun _ hr => shape.of_mem hr⟩
  have offers := shape'.offers (shape'.nodup_labels linked (Nat.zero_le _) hd') fun x hx =>
    shape'.index_lt linked (Nat.zero_le _) hs hx
  rw [Rose.labels_mk body] at apart ⊢
  -- with the parent of the body, the body would be one of the nodes of the source
  have parent (p : NodeId) (hp : t.parent? body = some p) : p ∉ (Rose.mk source cs).labels := fun hm =>
    apart (shape'.mem_of_child hm (parent_iff.1 hp)) List.mem_cons_self
  obtain ⟨start, size, frame⟩ := h.fillBody site offers parent
  rw [site.fillContent_eq source]
  generalize (if t.isContent body then t.fillSlot source body else t) = t₁ at start size frame ⊢
  have inside (x : NodeId) (hx : x ∈ ms.flatMap Rose.labels) : t₁.slot x = t.slot x := by
    refine frame x (site.index_lt hx) (fun e => site.parent_not_mem (e ▸ hx)) fun _ hp => ?_
    have below : t.Reaches body x := shape.mem_labels_iff.1 (by simp [hx])
    exact h.acyclic x body (parent_iff.1 hp) below
  have others (x : NodeId) (hx : x ∈ (Rose.mk source cs).labels) : t₁.slot x = t.slot x :=
    frame x (offers.created x hx) (fun e => apart hx (by simp [e])) fun _ hp => parent x hp hx
  obtain ⟨filled, reworked, nodes⟩ := (start.fillUnder (g := t.isContent) (offers.of_slot_eq size others) apart
    fun x hx => by rw [isContent_eq, node_eq t₁, inside x hx, ← node_eq]).reworked
  refine ⟨filled, reworked.site, nodes.trans ?_, fun x hx => (reworked.owned x hx).imp_right size.trans,
    fun x hx out other => ?_⟩
  · congr 1
    refine List.map_congr_left fun r hr => Rose.map_congr fun x hx => ?_
    rw [node_eq, inside x (List.mem_flatMap.2 ⟨r, hr, hx⟩), ← node_eq]
  · rw [List.mem_cons, not_or] at out
    rw [reworked.rewrites.slot_eq (hx.trans_le size) out.1 out.2, frame x hx out.1 other]

/-- **Contents are substituted.** In an intact tree, let the body and the source have no node under both. Filling in
the contents leaves the tree intact. The trees under the body become the former ones with every place for content, at
any depth and with whatever was under it, replaced by copies of the children of the source, in order; places for
content in those copies stay. All other nodes under the body stay as they were and in order, the nodes of the source
and all others outside do not change. -/
theorem substituted_fillContent (h : t.Intact) (hb : body.index < t.size) (hs : source.index < t.size)
    (apart : ∀ x, t.Reaches body x → ¬ t.Reaches source x) :
    Substituted t body source (t.fillContent body source) := by
  obtain ⟨ms, shape, listed, rose⟩ := h.exists_under hb
  obtain ⟨cs, shape', -, rose'⟩ := h.exists_under hs
  have under_iff {x : NodeId} : x ∈ (Rose.mk body ms).labels ↔ t.Reaches body x := shape.mem_labels_iff
  have own_iff {x : NodeId} : x ∈ (Rose.mk source cs).labels ↔ t.Reaches source x := shape'.mem_labels_iff
  have created {x : NodeId} (hx : t.Reaches body x) : x.index < t.size :=
    shape.index_lt h.consistent.linked (Nat.zero_le _) hb (under_iff.2 hx)
  obtain ⟨filled, site, nodes, owned, frame⟩ := h.fillUnderBody hb hs shape shape' fun x hx hm =>
    apart x (under_iff.1 hm) (own_iff.1 hx)
  have intact := (h.edited_fillContent body source).intact h
  have sheds : Sheds ((t.descendants body).filter t.isContent) t (t.fillContent body source) :=
    h.sheds_fillSlots source _
  generalize t.fillContent body source = t' at *
  have shape'' : t'.Shape ⟨body, filled⟩ := .mk body filled (by simpa using site.children) site.shapes
  constructor
  case intact => exact intact
  case forest =>
    obtain ⟨d, hd⟩ := site.depth
    have read : t'.rose t'.size body = (Rose.mk body filled).map t'.node :=
      shape''.rose_eq site.linked hd (Nat.zero_le _) (by omega)
    simpa [read, rose, rose'] using nodes
  case kept =>
    intro x hx
    refine ⟨sheds.node x (created hx), (sheds.children x (created hx)).trans ?_⟩
    refine List.filter_congr fun c hc => ?_
    have below : c ∈ t.descendants body := listed ▸ under_iff.2 (hx.child hc)
    simp [below]
  case owned =>
    intro x hx
    rcases List.mem_cons.1 (Rose.labels_mk body filled ▸ shape''.mem_labels_iff.2 hx) with rfl | hx
    · exact .inl .self
    · refine (owned x hx).imp_left fun hm => under_iff.1 ?_
      rw [Rose.labels_mk]
      exact List.mem_cons_of_mem body hm
  case source =>
    intro x hx
    have old := shape'.index_lt h.consistent.linked (Nat.zero_le _) hs (own_iff.2 hx)
    refine frame x old (fun hm => apart x (under_iff.1 hm) hx) fun _ hp => ?_
    -- otherwise the body would be under the source
    exact apart body .self (hx.child ((h.consistent.mem_children_iff x body).2 hp))
  case outside => exact fun x hx out => frame x hx fun hm => out (under_iff.1 hm)

/-- Places for content under another one, beside one, and in the contents themselves. -/
theorem substituted_fillContent_nested :
    let t := ofNodes [⟨.block ["a"], [⟨.content, [⟨.content, []⟩]⟩, ⟨.comment "b", []⟩, ⟨.content, []⟩]⟩,
      ⟨.mixinCall ⟨"m", []⟩, [⟨.comment "c", []⟩, ⟨.content, []⟩]⟩]
    let t' := t.fillContent ⟨1⟩ ⟨6⟩
    (∀ x, t.Reaches ⟨1⟩ x → ¬ t.Reaches ⟨6⟩ x) ∧
      (t'.rose t'.size ⟨1⟩).children = [⟨.comment "c", []⟩, ⟨.content, []⟩, ⟨.comment "b", []⟩,
        ⟨.comment "c", []⟩, ⟨.content, []⟩] ∧
      (t'.children ⟨1⟩).filter (·.index < t.size) = [⟨4⟩] ∧ t'.slot ⟨6⟩ = t.slot ⟨6⟩ := by
  intro t t'
  have h : t.Intact := ofNodes_intact _
  have apart (x : NodeId) (hx : t.Reaches ⟨1⟩ x) : ¬ t.Reaches ⟨6⟩ x := by
    have disjoint : ∀ x ∈ t.descendants ⟨1⟩, x ∉ t.descendants ⟨6⟩ := by decide
    rw [← (h.listed (by decide)).mem_iff] at hx ⊢
    exact disjoint x hx
  have same := substituted_fillContent h (show (⟨1⟩ : NodeId).index < t.size by decide)
    (show (⟨6⟩ : NodeId).index < t.size by decide) apart
  have block : t.rose t.size ⟨1⟩ =
      ⟨.block ["a"], [⟨.content, [⟨.content, []⟩]⟩, ⟨.comment "b", []⟩, ⟨.content, []⟩]⟩ := rfl
  have call : t.rose t.size ⟨6⟩ = ⟨.mixinCall ⟨"m", []⟩, [⟨.comment "c", []⟩, ⟨.content, []⟩]⟩ := rfl
  have forest := same.forest
  rw [block, call] at forest
  exact ⟨apart, by simpa [Rose.fill, Node.isContent] using forest, (same.kept ⟨1⟩ .self).2.trans (by decide),
    same.source ⟨6⟩ .self⟩

end Tree

end Stylesheet

import Stylesheet.Proofs.Derivation.Calls

/-! # Loops and conditionals that match

Each pass of a loop puts copies of its body behind those of the passes before; so the passes take place
in an empty place behind the loop, which grows (**`LoopState`**, `Walker.Realizes.pass`), and in the end
the loop itself is dropped (`LoopState.dropped`). Of a conditional the children of one branch
take its place (`Walker.Realizes.expandConditional`). -/

namespace Stylesheet

open Expansion

namespace Tree

/-- What stands before a member of a list is the last of those before it. -/
theorem preceding?_append {a x : NodeId} {pre : List NodeId} (h : a ∉ pre ++ [x]) (post : List NodeId) :
    preceding? a (pre ++ x :: a :: post) = some x := by
  induction pre with
  | nil =>
    have hx : x ≠ a := by simpa using fun e : x = a => h (by simp [e])
    simp [preceding?, hx]
  | cons c cs ih =>
    have hc : c ≠ a := fun e => h (by simp [e])
    have hrest : a ∉ cs ++ [x] := fun hm => h (by simpa using .inr (by simpa using hm))
    cases cs with
    | nil =>
      have hx : x ≠ a := fun e => hrest (by simp [e])
      have := ih hrest
      simp only [List.nil_append] at this
      simp [preceding?, hc, hx]
    | cons d ds =>
      have hd : d ≠ a := fun e => hrest (by simp [e])
      have := ih hrest
      rw [List.cons_append] at this
      simp [preceding?, hc, hd, this]

section

variable {floor : Nat} {t : Tree} {p id : NodeId} {before after : List NodeId} {rs : List (Rose NodeId)}

/-- The copies of a pass are put behind the last node before the sibling that stood behind the loop. -/
theorem Site.passAnchor {s : Rose NodeId} (h : t.Site floor p before (rs ++ [s]) after) :
    t.passAnchor p id after.head? = s.label := by
  have hc : t.children p = before ++ rs.map Rose.label ++ s.label :: after := by simp [h.children]
  unfold Tree.passAnchor
  cases after with
  | nil =>
    rw [hc]
    simp
  | cons a after =>
    have notIn : a ∉ before ++ rs.map Rose.label ++ [s.label] := by
      rw [List.append_cons] at hc
      exact h.linked.not_mem_of_children h.floor_le hc
    rw [hc]
    have contains : (before ++ rs.map Rose.label ++ s.label :: a :: after).contains a = true := by simp
    have found : (some a).filter (before ++ rs.map Rose.label ++ s.label :: a :: after).contains = some a := by
      rw [Option.filter_some, contains]
      rfl
    rw [List.head?_cons]
    dsimp only
    rw [found]
    dsimp only
    rw [preceding?_append notIn]
    rfl

/-- The copies of a pass are put in the empty place behind what the passes before have made. -/
theorem Site.copies {cs outs : List (Rose NodeId)} (lookup : Lookup)
    (hs : t.Site floor p before (⟨id, cs⟩ :: outs) after) {ids : List NodeId} {t' : Tree}
    (he : spliceAfter (copyInterpolated lookup) p (t.passAnchor p id after.head?) (t.children id) t =
      (ids, t')) :
    ∃ copies : List (Rose NodeId), ids = copies.map Rose.label ∧
      t.Reworked floor p (before ++ (⟨id, cs⟩ :: outs : List (Rose NodeId)).map Rose.label) [] after copies t' ∧
      copies.map (Rose.map t'.node) = (cs.map (Rose.map t.node)).map (Rose.interpolate lookup) ∧
      ∀ x ∈ copies.flatMap Rose.labels, t.size ≤ x.index := by
  -- they are put behind the last node that an earlier pass has made, or the loop
  obtain ⟨init, s, hlast⟩ : ∃ init s, (⟨id, cs⟩ :: outs : List (Rose NodeId)) = init ++ [s] :=
    ⟨_, _, (List.dropLast_append_getLast (List.cons_ne_nil _ _)).symm⟩
  have whole : t.Site floor p before ([] ++ [⟨id, cs⟩] ++ outs) after := hs
  have under := whole.middle.under
  have outside : p ∉ [Rose.mk id cs].flatMap Rose.labels := whole.middle.parent_not_mem
  have hprod : List.Forall₂ (Produces floor t p (copyInterpolated lookup)) (t.children id)
      (cs.map fun c => Rose.interpolate lookup (c.map t.node)) :=
    under.forall₂_produces (fun e => outside (by simp [e])) (fun hp => outside (Rose.mem_labels_of_under id hp))
      fun t' c r hr => copyInterpolated_planted lookup hr
  have hs' := hs
  rw [hlast] at hs' ⊢
  rw [hs'.passAnchor] at he
  obtain ⟨copies, hcopies, spliced⟩ := hs'.splice hprod
  rw [he] at hcopies spliced
  refine ⟨copies, hcopies.symm, ⟨by simpa using spliced.site.middle, spliced.rewrites, fun x hx =>
    .inr (spliced.fresh x hx)⟩, ?_, spliced.fresh⟩
  rw [spliced.nodes, List.map_map]
  rfl

end

end Tree

section

variable {σ τ : Type} {L : σ → τ → Prop} {old : List (NodeId × List String)}
  {floor : Nat} {p id : NodeId} {before after : List NodeId} {cs outs : List (Rose NodeId)}
  {block : Option NodeId} {mode : Mode} {ids : List NodeId} {W : World σ} {V : World τ}

/-- A loop stands in its place, with what its passes have made behind it. -/
structure LoopState (L : σ → τ → Prop) (old : List (NodeId × List String)) (floor : Nat)
    (p id : NodeId) (before after : List NodeId) (cs : List (Rose NodeId)) (block : Option NodeId)
    (body : List (Rose Node)) (outs : List (Rose NodeId)) (ids : List NodeId) (W : World σ)
    (V : World τ) : Prop where
  site : W.tree.Site floor p before (⟨id, cs⟩ :: outs) after
  around : W.tree.Around ids p block
  mirrors : Mirrors L old ids W V
  body_eq : cs.map (Rose.map W.tree.node) = body

/-- The empty place behind what the passes of a loop have made. -/
def loopSpot (floor : Nat) (t : Tree) (p id : NodeId) (before after : List NodeId)
    (cs outs : List (Rose NodeId)) : Spot :=
  ⟨floor, t, p, before ++ (⟨id, cs⟩ :: outs).map Rose.label, [], after⟩

/-- The empty place behind what the passes have made. -/
theorem LoopState.empty {body : List (Rose Node)}
    (hl : LoopState L old floor p id before after cs block body outs ids W V) :
    W.tree.Site floor p (before ++ (⟨id, cs⟩ :: outs : List (Rose NodeId)).map Rose.label) [] after :=
  ⟨hl.site.linked, hl.site.floor_le, hl.site.depth, by simp [hl.site.children], by simp⟩

/-- A loop stands in its place when the tree has grown. -/
theorem LoopState.of_grown {body : List (Rose Node)} {W' : World σ}
    (hl : LoopState L old floor p id before after cs block body outs ids W V)
    (g : W.tree.Grown W'.tree) (hw : Mirrors L old ids W' V) :
    LoopState L old floor p id before after cs block body outs ids W' V where
  site := hl.site.of_grown g
  around := hl.around.of_rewrites hl.empty (.of_grown g hl.site.linked hl.site.lt_size hl.site.floor_le _)
  mirrors := hw
  body_eq := by
    rw [← hl.body_eq]
    refine List.map_congr_left fun c hc => Rose.map_congr fun x hx => g.node_eq (hl.site.index_lt ?_)
    rw [List.flatMap_cons, List.mem_append]
    exact .inl (Rose.mem_labels_of_mem_children (r := ⟨id, cs⟩) hc hx)

/-- After an echo, the rest of the loop is to be matched. -/
theorem LoopState.echo_bind {α : Type} {body : List (Rose Node)} {m : Expansion σ α} {f : Expansion τ α}
    {g : α → Expansion σ Flow} {k : α → Expansion τ Yield}
    (hl : LoopState L old floor p id before after cs block body outs ids W V) (hm : Echoes L m f)
    (hok : ∀ a W', LoopState L old floor p id before after cs block body outs ids W' V →
      Matches (Ended L old ids (loopSpot floor W'.tree p id before after cs outs))
        (Kept L old ids (loopSpot floor W'.tree p id before after cs outs))
        ((g a).exec W') ((k a).exec V)) :
    Matches (Ended L old ids (loopSpot floor W.tree p id before after cs outs))
      (Kept L old ids (loopSpot floor W.tree p id before after cs outs))
      ((m >>= g).exec W) ((f >>= k).exec V) := by
  refine Matches.echo_bind hm hl.mirrors (fun a W' hq => ?_) fun W' hq => hq.kept hl.empty
  have reworked : W.tree.Reworked floor p (before ++ (⟨id, cs⟩ :: outs : List (Rose NodeId)).map Rose.label)
      [] after [] W'.tree := hl.empty.reworked_of_grown hq.grown
  exact (hok a W' (hl.of_grown hq.grown hq.mirrors)).rebase reworked (List.prefix_refl ids)

/-- Whether a condition holds depends on the variables. -/
theorem echoes_holds {services : Services σ} {services' : Services τ}
    (hc : services.conditions = services'.conditions) (condition : String) :
    Echoes L (Walker.holds services condition) (Walker.holds services' condition) := by
  unfold Walker.holds
  rw [hc]
  refine Echoes.scope.bind fun s => ?_
  split
  · exact .pure _
  · exact .fail _
  · exact .fail _

/-- A bound that is evaluated to an integer is that integer. -/
theorem exec_bound {w : Walker σ} (which : String) {value result : Value} {n : Int} {W' : World σ}
    (run : (w.evaluate value).exec W = (.ok result, W')) (integer : result.integer? = some n) :
    (w.bound which value).exec W = (.ok n, W') := by
  unfold Walker.bound
  rw [exec_bind, run]
  dsimp only
  rw [integer]
  rfl

/-- To see whether a condition holds changes nothing. -/
theorem holds_snd (services : Services σ) (condition : String) (W : World σ) :
    ((Walker.holds services condition).exec W).2 = W := by
  unfold Walker.holds
  rw [exec_scope_bind]
  split <;> rfl

/-- A condition holds, or it does not, or to see whether it does fails. -/
theorem exec_holds_cases (services : Services σ) (condition : String) (W : World σ) :
    (∃ b, (Walker.holds services condition).exec W = (.ok b, W)) ∨
      ∃ e, (Walker.holds services condition).exec W = (.error e, W) := by
  rcases held : (Walker.holds services condition).exec W with ⟨e | b, W'⟩
  · exact .inr ⟨e, Prod.ext rfl ((congrArg Prod.snd held).symm.trans (holds_snd services condition W))⟩
  · exact .inl ⟨b, Prod.ext rfl ((congrArg Prod.snd held).symm.trans (holds_snd services condition W))⟩

/-- A loop that makes no more passes. -/
theorem LoopState.done {body : List (Rose Node)}
    (hl : LoopState L old floor p id before after cs block body outs ids W V) :
    Matches (Ended L old ids (loopSpot floor W.tree p id before after cs outs))
      (Kept L old ids (loopSpot floor W.tree p id before after cs outs))
      ((pure .finished : Expansion σ Flow).exec W) ((pure (.finished []) : Expansion τ Yield).exec V) :=
  .pure ⟨ids, [], List.prefix_refl _, hl.mirrors, hl.empty.reworked, .nil⟩

/-- After a pass the loop stands in its place as before, with what the pass has made behind all else. -/
theorem LoopState.of_made {body : List (Rose Node)} {new : List (Rose NodeId)} {ids₁ : List NodeId}
    {W₁ : World σ} {V₁ : World τ} (hl : LoopState L old floor p id before after cs block body outs ids W V)
    (hi : ids <+: ids₁) (hw₁ : Mirrors L old ids₁ W₁ V₁) (hr : W.tree.Reworked floor p
      (before ++ (⟨id, cs⟩ :: outs : List (Rose NodeId)).map Rose.label) [] after new W₁.tree) :
    LoopState L old floor p id before after cs block body (outs ++ new) ids₁ W₁ V₁ := by
  -- the empty place is the one between the loop with what it has made and the children behind it
  have whole : W.tree.Reworked floor p before ((⟨id, cs⟩ :: outs : List (Rose NodeId)).flatMap Rose.labels)
      after ((⟨id, cs⟩ :: outs) ++ [] ++ []) W.tree := by simpa using hl.site.reworked
  have reworked := whole.middle (by simpa using hr)
  have same := whole.site.map_node_around hr.rewrites ⟨id, cs⟩ (by simp)
  rw [Rose.map_mk, Rose.map_mk, Rose.mk.injEq] at same
  exact ⟨by simpa using reworked.site, (hl.around.mono hi).of_rewrites hl.site reworked.rewrites, hw₁,
    same.2.trans hl.body_eq⟩

/-- When its passes are done, a loop goes. What they have made takes its place. -/
theorem LoopState.dropped {body : List (Rose Node)} {m : Expansion σ Flow} {f : Expansion τ Yield}
    (hl : LoopState L old floor p id before after cs block body [] ids W V)
    (h : Matches (Ended L old ids (loopSpot floor W.tree p id before after cs []))
      (Kept L old ids (loopSpot floor W.tree p id before after cs [])) (m.exec W) (f.exec V)) :
    Matches (Ended L old ids ⟨floor, W.tree, p, before, [Rose.mk id cs].flatMap Rose.labels, after⟩)
      (Kept L old ids ⟨floor, W.tree, p, before, [Rose.mk id cs].flatMap Rose.labels, after⟩)
      ((do
        let flow ← m
        modifyTree fun t => (t.setChildren id []).remove p id
        pure flow).exec W) (f.exec V) := by
  have whole : W.tree.Reworked floor p before ([Rose.mk id cs].flatMap Rose.labels) after
      ([⟨id, cs⟩] ++ [] ++ []) W.tree := hl.site.reworked
  rw [exec_bind]
  revert h
  rcases m.exec W with ⟨x, W₁⟩
  rcases f.exec V with ⟨y, V₁⟩
  intro h
  cases h with
  | error hk =>
    refine .error (Kept.middle whole (List.prefix_refl ids) ?_)
    simpa [loopSpot] using hk
  | @ok flow _ yield _ hend =>
    match flow, yield, hend with
    | .finished, .finished made, hend =>
      obtain ⟨ids₁, new, hi, hw₁, hr, shows⟩ := hend.shapes
      have reworked : W.tree.Reworked floor p before ([Rose.mk id cs].flatMap Rose.labels) after
          (⟨id, cs⟩ :: new) W₁.tree := by simpa using whole.middle (by simpa [loopSpot] using hr)
      -- the loop itself is still there in front of what its passes have made
      obtain ⟨dropped, hnode⟩ := reworked.drop
      exact .ok ⟨ids₁, new, hi, hw₁.of_unmoved ⟨rfl, rfl⟩, dropped,
        shows.mono (List.prefix_refl _) fun r _ x _ => hnode x⟩
    | .returned value, .returned _, ⟨rfl, hk⟩ =>
      obtain ⟨contained, ids₁, hi, hw₁⟩ := hk
      exact .ok ⟨rfl, contained.drop hl.site, ids₁, hi, hw₁.of_unmoved ⟨rfl, rfl⟩⟩

namespace Walker.Realizes

variable {outside : Prop} {w : Walker σ} {d : Deriver τ} (h : w.Realizes L outside d)
  {body : List (Rose Node)}

include h

/-- One pass of a loop makes what the derivation of the pass makes. -/
theorem pass (hm : mode ≠ .function → outside) (bound : Option (String × Value))
    (hl : LoopState L old floor p id before after cs block body outs ids W V) :
    Matches (Ended L old ids (loopSpot floor W.tree p id before after cs outs))
      (Kept L old ids (loopSpot floor W.tree p id before after cs outs))
      ((w.pass ⟨p, id, after.head?⟩ mode bound).exec W) ((d.pass block mode body bound).exec V) := by
  have empty := hl.empty
  obtain ⟨hs, hb, hw, rfl⟩ := hl
  -- the pass itself, once the frame is open and the variable of the loop has its value
  have copies : ∀ {W₁ : World σ} {V₁ : World τ}, W₁.tree = W.tree → Mirrors L old ids W₁ V₁ →
      Matches (Ended L old ids (loopSpot floor W.tree p id before after cs outs))
        (Kept L old ids (loopSpot floor W.tree p id before after cs outs))
        ((innermostLookup >>= fun lookup => do
          let copies ← changeTree fun t =>
            Tree.spliceAfter (Tree.copyInterpolated lookup) p
              (t.passAnchor p id after.head?) (t.children id) t
          w.walkNodes mode copies).exec W₁)
        ((innermostLookup >>= fun lookup =>
          d.deriveNodes block mode
            ((cs.map (Rose.map W.tree.node)).map (Rose.interpolate lookup))).exec V₁) := by
    intro W₁ V₁ ht hw₁
    rw [exec_innermostLookup_bind, exec_innermostLookup_bind, exec_changeTree_bind,
      ← Context.scope_eq_of_bare hw₁.bare, ht]
    generalize W₁.context.scope.innermost.lookup = lookup
    rcases he : Tree.spliceAfter (Tree.copyInterpolated lookup) p (W.tree.passAnchor p id after.head?)
      (W.tree.children id) W.tree with ⟨labels, t'⟩
    obtain ⟨copies, rfl, reworked, nodes, -⟩ := hs.copies lookup he
    rw [← nodes]
    have walked := h.walkNodes hm copies (W := { W₁ with tree := t' }) reworked.site
      (hb.of_rewrites empty reworked.rewrites) (hw₁.of_unmoved ⟨rfl, rfl⟩)
    exact walked.rebase reworked (List.prefix_refl ids)
  unfold Walker.pass Deriver.pass
  refine Matches.inFrame (Q := Ended L old ids (loopSpot floor W.tree p id before after cs outs))
    (E := Kept L old ids (loopSpot floor W.tree p id before after cs outs)) ?_
    (fun _ _ _ _ hq => hq.mapScope _) fun _ _ hq => hq.mapScope _
  cases bound with
  | none => exact copies rfl (hw.mapScope _)
  | some bound =>
    dsimp only
    rw [exec_modifyScope_bind, exec_modifyScope_bind]
    exact copies rfl ((hw.mapScope _).mapScope _)

/-- After a pass that has returned no value, the rest of the loop matches as well. -/
theorem passThen (hm : mode ≠ .function → outside) (bound : Option (String × Value))
    {rest : Expansion σ Flow} {rest' : Expansion τ Yield}
    (hl : LoopState L old floor p id before after cs block body outs ids W V)
    (hrest : ∀ outs ids W V, LoopState L old floor p id before after cs block body outs ids W V →
      Matches (Ended L old ids (loopSpot floor W.tree p id before after cs outs))
        (Kept L old ids (loopSpot floor W.tree p id before after cs outs))
        (rest.exec W) (rest'.exec V)) :
    Matches (Ended L old ids (loopSpot floor W.tree p id before after cs outs))
      (Kept L old ids (loopSpot floor W.tree p id before after cs outs))
      ((do
        match ← w.pass ⟨p, id, after.head?⟩ mode bound with
        | Flow.returned value => pure (Flow.returned value)
        | Flow.finished => rest).exec W)
      ((Deriver.followedBy (d.pass block mode body bound) rest').exec V) := by
  have parts : W.tree.Site floor p (before ++ (⟨id, cs⟩ :: outs : List (Rose NodeId)).map Rose.label)
      ([] ++ []) after := hl.empty
  refine Matches.followedBy parts (h.pass hm bound hl) (fun _ => rfl)
    fun ids₁ new W₁ V₁ hi hw₁ hr₁ _ _ => ?_
  simpa [loopSpot] using hrest _ _ _ _ (hl.of_made hi hw₁ (by simpa using hr₁))

/-- Passes that count up match. -/
theorem passesFrom (hm : mode ≠ .function → outside) (name : String) (count : Nat) (i : Int) :
    ∀ outs ids W V, LoopState L old floor p id before after cs block body outs ids W V →
      Matches (Ended L old ids (loopSpot floor W.tree p id before after cs outs))
        (Kept L old ids (loopSpot floor W.tree p id before after cs outs))
        ((w.passesFrom ⟨p, id, after.head?⟩ mode name count i).exec W)
        ((d.passesFrom block mode body name count i).exec V) := by
  induction count generalizing i with
  | zero => exact fun _ _ _ _ hl => hl.done
  | succ count ih => exact fun _ _ _ _ hl => h.passThen hm _ hl (ih (i + 1))

/-- Passes for the items of a list match. -/
theorem passesOver (hm : mode ≠ .function → outside) (name : String) (items : List Value) :
    ∀ outs ids W V, LoopState L old floor p id before after cs block body outs ids W V →
      Matches (Ended L old ids (loopSpot floor W.tree p id before after cs outs))
        (Kept L old ids (loopSpot floor W.tree p id before after cs outs))
        ((w.passesOver ⟨p, id, after.head?⟩ mode name items).exec W)
        ((d.passesOver block mode body name items).exec V) := by
  induction items with
  | nil => exact fun _ _ _ _ hl => hl.done
  | cons item items ih => exact fun _ _ _ _ hl => h.passThen hm _ hl ih

/-- Passes as long as a condition holds match. -/
theorem passesWhile {services : Services σ} {services' : Services τ}
    (hc : services.conditions = services'.conditions) (hm : mode ≠ .function → outside)
    (condition : String) (steps : Nat) :
    ∀ outs ids W V, LoopState L old floor p id before after cs block body outs ids W V →
      Matches (Ended L old ids (loopSpot floor W.tree p id before after cs outs))
        (Kept L old ids (loopSpot floor W.tree p id before after cs outs))
        ((Walker.passesWhile services w ⟨p, id, after.head?⟩ mode condition steps).exec W)
        ((Deriver.passesWhile services' d block mode body condition steps).exec V) := by
  induction steps with
  | zero =>
    exact fun _ ids _ _ hl => .throw (.still hl.empty hl.mirrors)
  | succ steps ih =>
    intro outs ids W V hl
    refine hl.echo_bind (echoes_holds hc condition) fun b W' hl' => ?_
    cases b with
    | true => exact h.passThen hm none hl' ih
    | false => exact hl'.done

/-- A bound of a counting loop is the same. -/
theorem bound (which : String) (value : Value) :
    Echoes L (w.bound which value) (d.walker.bound which value) := by
  refine (h.evaluate value).bind fun result => ?_
  split
  · exact .pure _
  · exact .fail _

/-- A counting loop matches. -/
theorem expandCounting (hm : mode ≠ .function → outside) (loop : Counting)
    (hl : LoopState L old floor p id before after cs block body outs ids W V) :
    Matches (Ended L old ids (loopSpot floor W.tree p id before after cs outs))
      (Kept L old ids (loopSpot floor W.tree p id before after cs outs))
      ((w.expandCounting ⟨p, id, after.head?⟩ mode loop).exec W)
      ((d.expandCounting block mode body loop).exec V) := by
  refine hl.echo_bind (h.bound "from" loop.low) fun low W₁ hl₁ => ?_
  refine hl₁.echo_bind (h.bound "to" loop.high) fun high W₂ hl₂ => ?_
  by_cases hr : high < low
  · rw [if_pos hr, if_pos hr]
    exact .fail (.still hl₂.empty hl₂.mirrors)
  · rw [if_neg hr, if_neg hr]
    exact h.passesFrom hm _ _ low _ _ _ _ hl₂

/-- A loop over the items of a list matches. -/
theorem expandEach (hm : mode ≠ .function → outside) (name : String) (list : Value)
    (hl : LoopState L old floor p id before after cs block body outs ids W V) :
    Matches (Ended L old ids (loopSpot floor W.tree p id before after cs outs))
      (Kept L old ids (loopSpot floor W.tree p id before after cs outs))
      ((w.expandEach ⟨p, id, after.head?⟩ mode name list).exec W)
      ((d.expandEach block mode body name list).exec V) :=
  hl.echo_bind (h.evaluate list) fun value _ hl₁ => h.passesOver hm name value.items _ _ _ _ hl₁

/-! ## Conditionals -/

omit h in
/-- The branch that is taken is the same. -/
theorem choose {services : Services σ} {services' : Services τ}
    (hc : services.conditions = services'.conditions) {t : Tree} (rs : List (Rose NodeId)) :
    ∀ {W : World σ} {V : World τ}, Mirrors L old ids W V → W.tree = t →
      Matches
        (fun a W' b V' => W'.tree = t ∧ Mirrors L old ids W' V' ∧ ((a = none ∧ b = none) ∨
          ∃ r ∈ rs, a = some r.label ∧ b = some (r.map t.node)))
        (fun W' V' => W'.tree = t ∧ Mirrors L old ids W' V')
        ((Walker.choose services (rs.map Rose.label)).exec W)
        ((Deriver.choose services' (rs.map (Rose.map t.node))).exec V) := by
  induction rs with
  | nil => exact fun hw ht => .pure ⟨ht, hw, .inl ⟨rfl, rfl⟩⟩
  | cons r rs ih =>
    intro W V hw ht
    -- when this branch is not taken, the choice is among the others
    have rest : Matches
        (fun a W' b V' => W'.tree = t ∧ Mirrors L old ids W' V' ∧ ((a = none ∧ b = none) ∨
          ∃ s ∈ r :: rs, a = some s.label ∧ b = some (s.map t.node)))
        (fun W' V' => W'.tree = t ∧ Mirrors L old ids W' V')
        ((Walker.choose services (rs.map Rose.label)).exec W)
        ((Deriver.choose services' (rs.map (Rose.map t.node))).exec V) := by
      refine (ih hw ht).imp (fun a W' b V' hq => ⟨hq.1, hq.2.1, ?_⟩) fun _ _ he => he
      refine hq.2.2.imp id ?_
      rintro ⟨s, hs, hq⟩
      exact ⟨s, List.mem_cons_of_mem r hs, hq⟩
    have taken : (some r.label = none ∧ some (r.map t.node) = none) ∨
        ∃ s ∈ r :: rs, some r.label = some s.label ∧ some (r.map t.node) = some (s.map t.node) :=
      .inr ⟨r, List.mem_cons_self, rfl, rfl⟩
    rw [List.map_cons, List.map_cons, Walker.choose, Deriver.choose, exec_tree_bind, ht, Rose.label_map]
    cases t.node r.label with
    | branch condition =>
      dsimp only
      rw [exec_bind, exec_bind, (echoes_holds hc condition).result hw.toAlike]
      obtain ⟨b, held⟩ | ⟨e, failed⟩ := exec_holds_cases services condition W
      · rw [held]
        cases b with
        | true => exact .pure ⟨ht, hw, taken⟩
        | false => exact rest
      · rw [failed]
        exact .error ⟨ht, hw⟩
    | otherwise => exact .pure ⟨ht, hw, taken⟩
    | _ => exact rest

/-- A conditional matches. -/
theorem expandConditional {services : Services σ} {services' : Services τ}
    (hc : services.conditions = services'.conditions) (hm : mode ≠ .function → outside)
    (hs : W.tree.Site floor p before [⟨id, cs⟩] after) (hb : W.tree.Around ids p block)
    (hw : Mirrors L old ids W V) :
    Matches (Ended L old ids ⟨floor, W.tree, p, before, [Rose.mk id cs].flatMap Rose.labels, after⟩)
      (Kept L old ids ⟨floor, W.tree, p, before, [Rose.mk id cs].flatMap Rose.labels, after⟩)
      ((Walker.expandConditional services w p id mode).exec W)
      ((Deriver.expandConditional services' d block mode (cs.map (Rose.map W.tree.node))).exec V) := by
  have hchildren : W.tree.children id = cs.map Rose.label := by simpa using hs.under.children
  unfold Walker.expandConditional Deriver.expandConditional
  rw [exec_tree_bind, hchildren]
  refine (choose hc cs hw rfl).bind (fun a W₁ b V₁ hq => ?_) fun W₁ V₁ hq =>
    ⟨by rw [hq.1]; exact hs.reworked.contained, ids, List.prefix_refl _, hq.2⟩
  obtain ⟨ht, hw₁, hq⟩ := hq
  rcases hq with ⟨rfl, rfl⟩ | ⟨⟨branch, bs⟩, hr, rfl, rfl⟩
  · rw [exec_pure_bind, exec_modifyTree_bind, ht]
    exact .pure ⟨ids, [], List.prefix_refl _, hw₁.of_unmoved ⟨rfl, rfl⟩, hs.reworked.drop.1, .nil⟩
  -- what stands in the branch takes the place of the conditional before it is walked
  · obtain ⟨reworked, hnode⟩ := hs.take hr
    have hbc : W.tree.children branch = bs.map Rose.label := (hs.under.shapes _ hr).children
    simp only [Rose.label_mk, exec_pure_bind, exec_tree_bind, exec_modifyTree_bind, ht]
    rw [Option.map_some, Option.getD_some, Rose.map_mk, Rose.children_mk, hbc]
    rw [hbc] at reworked hnode
    generalize ((W.tree.moveAfter p id (bs.map Rose.label)).setChildren id []).remove p id = T at *
    have views : bs.map (Rose.map W.tree.node) = bs.map (Rose.map T.node) :=
      List.map_congr_left fun r _ => Rose.map_congr fun x _ => (hnode x).symm
    rw [views]
    refine Matches.rebase (W := { W₁ with tree := T }) ?_ reworked (List.prefix_refl ids)
    exact h.walkNodes (W := { W₁ with tree := T }) hm bs reworked.site (hb.of_rewrites hs reworked.rewrites)
      (hw₁.of_unmoved ⟨rfl, rfl⟩)

end Walker.Realizes

end

end Stylesheet

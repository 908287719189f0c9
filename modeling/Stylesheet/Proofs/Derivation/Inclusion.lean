import Stylesheet.Proofs.Derivation.Blocks

/-! # Includes and imports that match

The body of a mixin is copied aside, filled with contents and given its parameters there, and only then
it takes the place of the include (`Walker.Realizes.includeMixin`). The nodes of an import are copied
behind it one by one (`Walker.Realizes.traverseImport`); that the same stylesheets are loaded is part of
what is asked of the surroundings (**`Services.LoadsAlike`**). -/

namespace Stylesheet

open Expansion

/-- Loaders in related states find the same stylesheets, and go on in related states. -/
def Services.LoadsAlike {σ τ : Type} (services : Services σ) (services' : Services τ)
    (L : σ → τ → Prop) : Prop :=
  ∀ uri s s', L s s' → (services.load uri s).1 = (services'.load uri s').1 ∧
    L (services.load uri s).2 (services'.load uri s').2

section

variable {σ τ : Type} {L : σ → τ → Prop} {old : List (NodeId × List String)}
  {floor : Nat} {t t' : Tree} {p q id : NodeId} {before inside after : List NodeId}
  {cs rs qs : List (Rose NodeId)} {block : Option NodeId} {mode : Mode} {ids : List NodeId}
  {W : World σ} {V : World τ}

namespace Walker.Realizes

variable {outside : Prop} {w : Walker σ} {d : Deriver τ} (h : w.Realizes L outside d)

include h

/-- The body of a mixin, copied and filled, takes the place of the include and is expanded there. -/
theorem mixinBody {body : NodeId} {ms : List (Rose NodeId)} {t : Tree} (hout : outside)
    (parameters : List (String × Argument)) (hs : t.Site floor p before [⟨id, cs⟩] after)
    (g : t.Grown W.tree) (hq : W.tree.Site t.size body [] ms []) (hb : t.Around ids p block)
    (hw : Mirrors L old ids W V) :
    Matches (Ended L old ids (nodeSpot floor t p id before after cs))
      (Kept L old ids (nodeSpot floor t p id before after cs))
      ((inFrame .call do
        w.bindParameters parameters
        let lookup ← innermostLookup
        let moved := (← tree).children body
        modifyTree fun t =>
          (((t.interpolateAll lookup moved).moveAfter p id moved).setChildren id []).remove p id
        w.walkNodes .mixin moved).exec W)
      ((inFrame .call do
        d.walker.bindParameters parameters
        let lookup ← innermostLookup
        d.deriveNodes block .mixin
          ((ms.map (Rose.map W.tree.node)).map (Rose.interpolate lookup))).exec V) := by
  refine Matches.inFrame (Q := Ended L old ids (nodeSpot floor t p id before after cs))
    (E := Kept L old ids (nodeSpot floor t p id before after cs)) ?_
    (fun _ _ _ _ hq => hq.mapScope _) fun _ _ hq => hq.mapScope _
  have entered : Advanced L old ids W.tree (W.mapScope (·.enter .call)) (V.mapScope (·.enter .call)) :=
    ⟨.refl _, hw.mapScope _⟩
  refine (h.bindParameters parameters entered).bind (fun _ W₁ _ V₁ hend => ?_) fun _ _ hend =>
    (hend.of_grown g).kept hs
  obtain ⟨g₁, hw₁⟩ := hend
  have hq₁ : W₁.tree.Site t.size body [] ms [] := hq.of_grown g₁
  have hc : W₁.tree.children body = ms.map Rose.label := by simpa using hq₁.children
  obtain ⟨relabeled, resolved⟩ := hq.interpolateAll_of_grown W₁.context.scope.innermost.lookup g₁
  rw [exec_innermostLookup_bind, exec_innermostLookup_bind, exec_tree_bind,
    ← Context.scope_eq_of_bare hw₁.bare]
  dsimp only
  rw [exec_modifyTree_bind, hc]
  generalize hT : W₁.tree.interpolateAll W₁.context.scope.innermost.lookup (ms.map Rose.label) = T at *
  -- the body still stands aside, with its placeholders resolved, and now takes the place of the include
  have hq₂ := relabeled.site hq₁
  have hc₂ : T.children body = ms.map Rose.label := by simpa using hq₂.children
  obtain ⟨reworked, same⟩ := hs.replaceByNew
    (relabeled.grown (g.trans g₁) fun x hx => hq₁.floor_le_index hx) hq₂
  rw [hc₂] at reworked same
  have views : ms.map (Rose.map (((T.moveAfter p id (ms.map Rose.label)).setChildren id []).remove p
      id).node) = (ms.map (Rose.map W.tree.node)).map
        (Rose.interpolate W₁.context.scope.innermost.lookup) := by
    rw [List.map_congr_left fun r _ => Rose.map_congr fun x _ => same x, resolved]
  rw [← views]
  generalize ((T.moveAfter p id (ms.map Rose.label)).setChildren id []).remove p id = T' at reworked ⊢
  refine Matches.rebase (W := { W₁ with tree := T' }) ?_ reworked (List.prefix_refl ids)
  exact h.walkNodes (W := { W₁ with tree := T' }) (fun _ => hout) ms reworked.site
    (hb.of_rewrites hs reworked.rewrites) (hw₁.of_unmoved ⟨rfl, rfl⟩)

/-- An include matches. -/
theorem includeMixin (hout : outside) (hs : W.tree.Site floor p before [⟨id, cs⟩] after)
    (hb : W.tree.Around ids p block) (hw : Mirrors L old ids W V) (invocation : Invocation) :
    Matches (Ended L old ids (nodeSpot floor W.tree p id before after cs))
      (Kept L old ids (nodeSpot floor W.tree p id before after cs))
      ((w.includeMixin id invocation >>= fun _ => pure Flow.finished).exec W)
      ((d.includeMixin block invocation (cs.map (Rose.map W.tree.node))).exec V) := by
  have parentOf := hs.parentOf
  unfold Walker.includeMixin Deriver.includeMixin
  simp only [bind_assoc]
  rw [exec_tree_bind, parentOf, exec_ofExcept_ok_bind, exec_context_bind, exec_context_bind,
    Context.mixin_eq_of_bare hw.bare]
  refine Matches.ofExcept_bind (fun found hf => ?_) (.still hs hw)
  obtain ⟨definition, signature⟩ := found
  dsimp only
  refine Matches.echo_bind_node (h.arguments _) hs hb hw fun args W₁ hs₁ hb₁ hw₁ same => ?_
  refine Matches.ofExcept_bind (fun collated _ => ?_) (.still hs₁ hw₁)
  rw [exec_changeTree_bind, exec_modifyTree_bind]
  have planted := Tree.graft_planted W₁.tree W.context.definitions definition
  generalize W₁.tree.graft W.context.definitions definition = copied at planted ⊢
  obtain ⟨body, T⟩ := copied
  obtain ⟨ms, hq, hbody, hfresh, hnode, hnodes⟩ := planted.site
  have notContent : (T.node body).isContent = false := by
    rw [hnode, Tree.label_rose, Context.definitions_eq_of_bare hw.bare, Context.node_of_mixin hf]
    rfl
  have apart := hs₁.offers.disjoint_of_new (List.forall_mem_cons.2 ⟨hbody, hfresh⟩)
  obtain ⟨filled, reworked, views⟩ :=
    (hq.fillContent (hs₁.offers.of_grown planted.grown) apart notContent).reworked
  -- filling in contents changes the new copy only
  have grown := planted.grown.of_rewrites reworked.rewrites hbody hfresh
  dsimp only
  generalize T.fillContent body id = T' at *
  have matching := h.mixinBody (W := { W₁ with tree := T' }) hout collated hs₁ grown reworked.site hb₁
    (hw₁.of_unmoved ⟨rfl, rfl⟩)
  dsimp only at matching
  rw [views, hnodes, same, Context.definitions_eq_of_bare hw.bare] at matching
  refine matching.bind (fun flow W₂ yield V₂ hend => ?_) fun _ _ hk => hk
  match flow, yield, hend with
  | .finished, .finished made, hend => exact .pure hend
  | .returned value, .returned _, ⟨rfl, hk⟩ => exact .fail hk

end Walker.Realizes

/-- Loading changes the loader, and it ends with the tree that the loader has found. -/
theorem Walker.exec_load (services : Services σ) (uri : String) (W : World σ) :
    (Walker.load services uri).exec W =
      (match (services.load uri W.loader).1 with
        | .ok (some source) => .ok source
        | .ok none => .error (.failed (.importNotFound uri))
        | .error e => .error (.failed e),
      { W with loader := (services.load uri W.loader).2 }) := by
  unfold Walker.load
  rw [exec_modifyGet_bind]
  rcases (services.load uri W.loader).1 with e | _ | source <;> rfl

/-- The same stylesheet is loaded. -/
theorem Expansion.Matches.load {services : Services σ} {services' : Services τ}
    (hl : services.LoadsAlike services' L) (hw : Mirrors L old ids W V) (uri : String) :
    Matches (fun a W' b V' => a = b ∧ W'.tree = W.tree ∧ Mirrors L old ids W' V')
      (fun W' V' => W'.tree = W.tree ∧ Mirrors L old ids W' V')
      ((Walker.load services uri).exec W) ((Walker.load services' uri).exec V) := by
  obtain ⟨loaded, loader⟩ := hl uri _ _ hw.loader
  have moved : Mirrors L old ids { W with loader := (services.load uri W.loader).2 }
      { V with loader := (services'.load uri V.loader).2 } := ⟨⟨hw.bare, loader⟩, hw.extensions, hw.size⟩
  rw [Walker.exec_load, Walker.exec_load, loaded]
  match (services'.load uri V.loader).1 with
  | .ok (some source) => exact .ok ⟨rfl, rfl, moved⟩
  | .ok none => exact .error ⟨rfl, moved⟩
  | .error e => exact .error ⟨rfl, moved⟩

/-- An import matches. -/
theorem Walker.Realizes.traverseImport {outside : Prop} {w : Walker σ} {d : Deriver τ}
    (h : w.Realizes L outside d) {services : Services σ} {services' : Services τ}
    (hl : services.LoadsAlike services' L) (hm : mode ≠ .function → outside)
    (hs : W.tree.Site floor p before [⟨id, cs⟩] after) (hb : W.tree.Around ids p block)
    (hw : Mirrors L old ids W V) (i : Import) :
    Matches (Ended L old ids (nodeSpot floor W.tree p id before after cs))
      (Kept L old ids (nodeSpot floor W.tree p id before after cs))
      ((Walker.traverseImport services w id i mode).exec W)
      ((Deriver.deriveImport services' d block mode i (cs.map (Rose.map W.tree.node))).exec V) := by
  unfold Walker.traverseImport Deriver.deriveImport Walker.resolve
  rw [bind_assoc, bind_assoc, exec_scope_bind, exec_scope_bind, Context.scope_eq_of_bare hw.bare,
    exec_pure_bind, exec_pure_bind]
  generalize interpolate V.context.scope.get? i.uri = uri
  dsimp only
  by_cases plain : Import.isPlain { i with uri := uri } = true
  · rw [if_pos plain, if_pos plain]
    exact .pure (Made.renamed hs _ hw)
  · rw [if_neg plain, if_neg plain]
    refine (Matches.load hl hw uri).bind ?_ fun W₁ V₁ hk =>
      ⟨by rw [hk.1]; exact hs.reworked.contained, ids, List.prefix_refl _, hk.2⟩
    rintro source W₁ _ V₁ ⟨rfl, ht, hw₁⟩
    rw [exec_tree_bind, ht, hs.parentOf, exec_ofExcept_ok_bind, exec_changeTree_bind, ht]
    -- the other tree reads off the same whatever becomes of this one
    have produces : List.Forall₂ (Tree.Produces floor W.tree p fun c t => t.graft source c)
        (source.children Tree.root) ((source.children Tree.root).map (source.rose source.size)) := by
      rw [List.forall₂_map_right_iff, List.forall₂_same]
      exact fun c _ t _ => Tree.graft_planted t source c
    have whole : W.tree.Site floor p before ([] ++ ⟨id, cs⟩ :: []) after := hs
    obtain ⟨copies, hcopies, spliced⟩ := whole.splice produces
    obtain ⟨hsite, hrew⟩ := Tree.Site.detach [] copies (by simpa using spliced.site)
    rw [Rose.label_mk] at hsite hrew hcopies
    dsimp only
    rw [← hcopies, ← spliced.nodes]
    have reworked : W.tree.Reworked floor p before ([Rose.mk id cs].flatMap Rose.labels) after copies
        ((Tree.spliceAfter (fun c t => t.graft source c) p id (source.children Tree.root)
          W.tree).2.detach id) :=
      ⟨hsite, (spliced.rewrites.mono (by simp)).trans hrew (by simp), fun x hx => .inr (spliced.fresh x hx)⟩
    -- taking out the import leaves the copies as they are
    have views : copies.map (Rose.map (Tree.spliceAfter (fun c t => t.graft source c) p id
        (source.children Tree.root) W.tree).2.node) = copies.map (Rose.map ((Tree.spliceAfter
          (fun c t => t.graft source c) p id (source.children Tree.root) W.tree).2.detach id).node) :=
      List.map_congr_left fun r _ => Rose.map_congr fun x _ => (Tree.node_detach _ id x).symm
    rw [Rose.label_mk, views]
    generalize (Tree.spliceAfter (fun c t => t.graft source c) p id (source.children Tree.root)
      W.tree).2.detach id = T at *
    refine Matches.rebase (W := { W₁ with tree := T }) ?_ reworked (List.prefix_refl ids)
    exact h.walkNodes (W := { W₁ with tree := T }) hm copies reworked.site
      (hb.of_rewrites hs reworked.rewrites) (hw₁.of_unmoved ⟨rfl, rfl⟩)

end

end Stylesheet

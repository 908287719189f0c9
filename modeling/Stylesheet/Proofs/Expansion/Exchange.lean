import Stylesheet.Proofs.Derivation.Gaps
import Stylesheet.Proofs.Expansion.Coherence
import Stylesheet.Proofs.Expansion.Outline

/-! # Stylesheets that come to the same

To compile a stylesheet comes to what is derived from it (**`compile_derives`**): the same result, the same
variables and definitions, and the nodes that were made, with the extensions carried out. So when some nodes can be
exchanged for others in a gap, the one stylesheet **ends as** the other one does (**`Tree.EndsAs`**,
`Gap.Open.endsAs`).

What can be exchanged may depend on the world in which the gap is **reached** (**`Gap.Reached`**). That is the
world in which the compilation stops when a value is returned in the gap, and there is at most one
(`Gap.Reached.alike`). -/

namespace Stylesheet

open Expansion

section

variable {σ τ : Type} {services : Services σ} {services' : Services τ} {L : σ → τ → Prop}

/-! ## What a compilation comes to -/

/-- A stylesheet with these nodes under its root. -/
structure Tree.Sheet (t : Tree) (rs : List (Rose Node)) : Prop where
  stylesheet : t.IsStylesheet
  rose_eq : t.rose t.size root = ⟨.root, rs⟩

/-- Trees put under a root are a sheet of these trees. -/
theorem Tree.sheet_ofNodes (rs : List (Rose Node)) : (ofNodes rs).Sheet rs :=
  ⟨ofNodes_isStylesheet rs, rose_ofNodes rs⟩

/-- A derivation has finished, and its trees stand under the root with the extensions carried out. -/
def Yield.Shown (t : Tree) (yield : Yield) (extensions : List (NodeId × List String)) : Prop :=
  ∃ made, yield = .finished made ∧
    t.rose t.size Tree.root = ⟨.root, (extensions.foldl Deriver.extendMade made).map (Rose.map Stem.node)⟩

/-- A compilation ends as a derivation does, and shows what was derived. -/
def Shows (L : σ → τ → Prop) : Except Stop Unit × World σ → Except Stop Yield × World τ → Prop :=
  Matches (fun _ u yield v => Alike L u v ∧ Yield.Shown u.tree yield v.context.extensions) (Alike L)

/-- **Compiling comes to deriving.** -/
theorem compile_derives (hc : services.conditions = services'.conditions) (hl : services.LoadsAlike services' L)
    (depth : Nat) {t : Tree} {c : Context} {s : σ} {s' : τ} {rs : List (Rose Node)} (sheet : t.Sheet rs)
    (hs : L s s') :
    Shows L ((compile services depth).exec ⟨t, c, s⟩)
      (((deriver services' depth).deriveChildren none .stylesheet rs).exec ⟨⟨#[]⟩, c.bare, s'⟩) := by
  let w : World σ := ⟨t, { c with extensions := [] }, s⟩
  have mirrors : Mirrors L w.context.extensions [] w (⟨⟨#[]⟩, c.bare, s'⟩ : World τ) :=
    { bare := rfl, loader := hs, extensions := ⟨[], rfl, .nil⟩, size := rfl }
  obtain ⟨ss, hs, read, matching⟩ := walkChildren_matches_alike hc hl depth mirrors sheet.stylesheet
  obtain rfl : rs = ss.map (Rose.map t.node) := (Rose.mk.inj (sheet.rose_eq.symm.trans read)).2
  have unreturned : Unreturned ((walker services depth).walkChildren Tree.root .stylesheet) :=
    .walkChildren (fun id => traverse_unreturned services depth (by decide) id) Tree.root
  have owns := ((deriver_owns services' depth).deriveChildren none .stylesheet
    (ss.map (Rose.map t.node))).mem_marks (show (⟨⟨#[]⟩, c.bare, s'⟩ : World τ).context.extensions = [] from rfl)
  unfold compile Shows
  rw [exec_modifyContext_bind, exec_bind]
  replace unreturned := unreturned w
  revert matching owns unreturned
  generalize ((walker services depth).walkChildren Tree.root .stylesheet).exec w = X
  generalize ((deriver services' depth).deriveChildren none .stylesheet _).exec _ = D
  intro matching owns unreturned
  cases matching with
  | error kept =>
    obtain ⟨_, -, mirrors⟩ := kept.mirrors
    exact .error mirrors.toAlike
  | @ok flow u yield v ended =>
    -- no value comes back from the root
    match flow, yield, ended with
    | .returned value, _, _ => exact absurd rfl (unreturned value)
    | .finished, .finished made, ended =>
      obtain ⟨ids, new, -, mirrors, reworked, shows⟩ := ended.shapes
      obtain ⟨noted, extensions, notes⟩ := mirrors.extensions
      refine .ok ⟨⟨mirrors.bare, mirrors.loader⟩, made, rfl, ?_⟩
      dsimp only
      rw [extensions, List.nil_append]
      exact Tree.rose_applyExtensions (reworked.isStylesheet sheet.stylesheet) reworked.site shows notes
        (owns _ _ rfl)

/-- A stylesheet that has been compiled is a stylesheet. -/
theorem compile_isStylesheet {depth : Nat} {w w' : World σ} (stylesheet : w.tree.IsStylesheet)
    (run : (compile services depth).exec w = (.ok (), w')) : w'.tree.IsStylesheet := by
  obtain ⟨w₁, walk, rfl⟩ := compile_eq_ok_iff.1 run
  obtain ⟨rs, -, -, matching⟩ := walkChildren_matches services depth
    (w := { w with context := { w.context with extensions := [] } }) stylesheet
  rw [walk] at matching
  revert matching
  generalize ((deriver services depth).deriveChildren none .stylesheet _).exec _ = D
  intro matching
  cases matching with
  | @ok _ _ yield _ ended =>
    match yield, ended with
    | .finished made, ended =>
      obtain ⟨_, _, -, -, reworked, -⟩ := ended.shapes
      exact (reworked.isStylesheet stylesheet).applyExtensions _

/-- Where one derivation ends as another one, or sooner, the compilations that show them end alike. -/
theorem Shows.of_sooner {x x' : Except Stop Unit × World σ} {D D' : Except Stop Yield × World τ} (h : Shows L x D)
    (h' : Shows L x' D') (sooner : Sooner D D') (shallow : x.1 ≠ .error .tooDeep) :
    x'.1 = x.1 ∧ x'.2.context.bare = x.2.context.bare ∧ (x.1 = .ok () → x'.2.tree.outline = x.2.tree.outline) := by
  rcases sooner with deep | rfl
  · exact absurd (h.fst_eq_error deep) shallow
  · cases h with
    | error alike =>
      cases h' with
      | error alike' => exact ⟨rfl, alike'.bare.trans alike.bare.symm, nofun⟩
    | ok left =>
      cases h' with
      | ok left' =>
        obtain ⟨alike, made, rfl, rose⟩ := left
        obtain ⟨alike', _, ⟨⟩, rose'⟩ := left'
        refine ⟨rfl, alike'.bare.trans alike.bare.symm, fun _ => ?_⟩
        rw [Tree.outline_eq, Tree.outline_eq, rose, rose']

/-! ## Exchanging -/

/-- However the compilation of one tree ends without giving up for depth, that of the other one ends with the same
result at every depth that is great enough. The same variables, functions and mixins are known then, and if both
have succeeded, the outlines are the same. -/
def Tree.EndsAs (services : Services σ) (c : Context) (s : σ) (t t' : Tree) : Prop :=
  ∀ depth result u, (compile services depth).exec ⟨t, c, s⟩ = (result, u) → result ≠ .error .tooDeep →
    ∃ enough, ∀ depth' ≥ enough, ∃ u', (compile services depth').exec ⟨t', c, s⟩ = (result, u') ∧
      u'.context.bare = u.context.bare ∧ (result = .ok () → u'.tree.outline = u.tree.outline)

/-- The compilation comes to the gap in a world: there it stops when a value is returned in the gap. -/
def Gap.Reached (g : Gap) (services : Services σ) (marker : Value) (c : Context) (s : σ) (u : World σ) : Prop :=
  ∃ depth, (compile services depth).exec ⟨Tree.ofNodes (g.fill [⟨.result marker, []⟩]), c, s⟩ =
    (.error (.failed (.strayReturn marker.text)), u)

/-- What was derived in a row is derived as the children of a node, with steps enough. -/
theorem exec_deriveChildren_of_le {rs : List (Rose Node)} {block : Option NodeId} {v : World τ} {depth enough : Nat}
    (le : depth ≤ enough) (steps : rs.length ≤ enough) {x : Except Stop Yield × World τ}
    (run : ((deriver services' depth).deriveNodes block .stylesheet rs).exec v = x)
    (shallow : x.1 ≠ .error .tooDeep) :
    ((deriver services' enough).deriveChildren block .stylesheet rs).exec v = x := by
  subst run
  rw [Deriver.deriveChildren_of_length_le _ (by rwa [steps_deriver]),
    (((deriver_deepens services' le).deriveNodes rs) v).eq shallow]

/-- A derivation comes to a gap only as the compilation does. -/
theorem Gap.reached_of_fails (hc : services.conditions = services'.conditions)
    (hl : services.LoadsAlike services' L) {g : Gap} {marker : Value} {c : Context} {s : σ} {s' : τ} (hs : L s s')
    {v : World τ} (fails : Fails services' (g.fill [⟨.result marker, []⟩]) (.strayReturn marker.text) none
      ⟨⟨#[]⟩, c.bare, s'⟩ v) : ∃ u, g.Reached services marker c s u ∧ Alike L u v := by
  obtain ⟨depth, run⟩ := fails
  have deep := exec_deriveChildren_of_le (Nat.le_max_left depth _) (Nat.le_max_right ..) run nofun
  have matching := compile_derives hc hl (max depth (g.fill [⟨.result marker, []⟩]).length) (c := c)
    (Tree.sheet_ofNodes (g.fill [⟨.result marker, []⟩])) hs
  rw [deep] at matching
  revert matching
  rcases h : (compile services _).exec _ with ⟨x, u⟩
  intro matching
  cases matching with
  | error alike => exact ⟨u, ⟨_, h⟩, alike⟩

/-- **What can be exchanged in the worlds in which a gap is reached can be exchanged in the gap.** -/
theorem Gap.Open.endsAs {g : Gap} (isOpen : g.Open) (hc : services.conditions = services'.conditions)
    (hl : services.LoadsAlike services' L) {marker : Value} {c : Context} {s : σ} {s' : τ} (hs : L s s')
    {Q : World τ → Prop} (reached : ∀ u, g.Reached services marker c s u → ∀ v, Alike L u v → Q v)
    {xs ys : List (Rose Node)} (exchange : Exchanges services' (fun _ => Q) xs ys) {t t' : Tree}
    (sheet : t.Sheet (g.fill xs)) (sheet' : t'.Sheet (g.fill ys)) : t.EndsAs services c s t' := by
  intro depth result u run shallow
  obtain ⟨more, exchanged⟩ := isOpen.exchanges marker exchange
  have derived := compile_derives hc hl depth (c := c) sheet hs
  refine ⟨depth + max more (g.fill ys).length, fun depth' enough => ?_⟩
  have derived' := compile_derives hc hl depth' (c := c) sheet' hs
  -- both derivations end alike, since the first one has not given up
  have sooner : Sooner (((deriver services' depth).deriveChildren none .stylesheet (g.fill xs)).exec
        ⟨⟨#[]⟩, c.bare, s'⟩)
      (((deriver services' depth').deriveChildren none .stylesheet (g.fill ys)).exec ⟨⟨#[]⟩, c.bare, s'⟩) := by
    rw [(deriver services' depth').deriveChildren_of_length_le (by rw [steps_deriver]; omega)]
    refine (Deriver.deriveChildren_deepens _ (g.fill xs) _).trans (exchanged (by omega) none _ fun v fails => ?_)
    obtain ⟨u, at_gap, alike⟩ := Gap.reached_of_fails hc hl hs fails
    exact reached u at_gap v alike
  rw [show result = ((compile services depth).exec ⟨t, c, s⟩).1 by rw [run]] at shallow
  obtain ⟨same, bare, outline⟩ := derived.of_sooner derived' sooner shallow
  rw [run] at same bare outline
  exact ⟨((compile services depth').exec ⟨t', c, s⟩).2, Prod.ext same rfl, bare, outline⟩

/-- A stylesheet with a node in a gap and one with nodes that it gives way to end as each other do. -/
theorem Gap.Open.endsAs_of_givesWay {g : Gap} (isOpen : g.Open) (hc : services.conditions = services'.conditions)
    (hl : services.LoadsAlike services' L) {marker : Value} {c : Context} {s : σ} {s' : τ} (hs : L s s')
    {Q : World τ → Prop} (reached : ∀ u, g.Reached services marker c s u → ∀ v, Alike L u v → Q v)
    {r : Rose Node} {rs : List (Rose Node)} (h : GivesWay services' Q r rs) {t t' : Tree}
    (sheet : t.Sheet (g.fill [r])) (sheet' : t'.Sheet (g.fill rs)) :
    t.EndsAs services c s t' ∧ t'.EndsAs services c s t :=
  ⟨isOpen.endsAs hc hl hs reached h.exchanges sheet sheet',
    isOpen.endsAs hc hl hs reached h.exchanged sheet' sheet⟩

/-- The compilation comes to a gap only as a derivation does. -/
theorem Gap.Reached.fails {g : Gap} {marker : Value} {c : Context} {s : σ} {s' : τ} {u : World σ}
    (h : g.Reached services marker c s u) (hc : services.conditions = services'.conditions)
    (hl : services.LoadsAlike services' L) (hs : L s s') :
    ∃ v, Fails services' (g.fill [⟨.result marker, []⟩]) (.strayReturn marker.text) none ⟨⟨#[]⟩, c.bare, s'⟩ v ∧
      Alike L u v := by
  obtain ⟨depth, run⟩ := h
  have derived := compile_derives hc hl depth (c := c) (Tree.sheet_ofNodes (g.fill [⟨.result marker, []⟩])) hs
  have deepens : Sooner (((deriver services' depth).deriveChildren none .stylesheet
        (g.fill [⟨.result marker, []⟩])).exec ⟨⟨#[]⟩, c.bare, s'⟩)
      (((deriver services' depth).deriveNodes none .stylesheet _).exec _) :=
    (deriver services' depth).deriveChildren_deepens _ _
  rw [run] at derived
  revert derived deepens
  generalize ((deriver services' depth).deriveChildren none .stylesheet _).exec _ = D
  intro derived deepens
  cases derived with
  | error alike => exact ⟨_, ⟨depth, (deepens.eq nofun).symm⟩, alike⟩

/-- A gap is reached once. -/
theorem Gap.Reached.alike {g : Gap} {marker : Value} {c : Context} {s : σ} {u u' : World σ}
    (h : g.Reached services marker c s u) (h' : g.Reached services marker c s u') : Alike (· = ·) u u' := by
  obtain ⟨v, fails, alike⟩ := h.fails rfl services.loadsAlike_refl rfl
  obtain ⟨v', fails', alike'⟩ := h'.fails rfl services.loadsAlike_refl rfl
  obtain rfl := fails.unique fails'
  exact ⟨alike.bare.trans alike'.bare.symm, alike.loader.trans alike'.loader.symm⟩

end

end Stylesheet

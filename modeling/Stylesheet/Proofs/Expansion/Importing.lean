import Stylesheet.Proofs.Expansion.Exchange

/-! # Imports stand for what they load

An import that a walk comes to, outside of loops and bodies, can be exchanged for the nodes of the stylesheet
that it loads (**`import_transparent`**). The loader may have a state, as long as nothing that it finds later
depends on this import: what it finds is then the same up to states in which it goes on alike
(**`Services.upTo`**).

In the block of an include the exchange is not possible: imports are not allowed there, other nodes are
(`import_opaque_in_block`). -/

namespace Stylesheet

open Expansion

/-! ## Loaders -/

section

variable {σ : Type} {services : Services σ} {L : σ → σ → Prop}

/-- A loader up to states in which it goes on alike. -/
def Services.upTo (services : Services σ) (L : σ → σ → Prop) (alike : services.LoadsAlike services L) :
    Services (Quot L) where
  conditions := services.conditions
  load uri := Quot.lift (fun s => ((services.load uri s).1, Quot.mk L (services.load uri s).2)) fun s s' h =>
    Prod.ext (alike uri s s' h).1 (Quot.sound (alike uri s s' h).2)

/-- A loader loads what its quotient does. -/
theorem Services.loadsAlike_upTo (alike : services.LoadsAlike services L) :
    services.LoadsAlike (services.upTo L alike) fun s q => Quot.mk L s = q := by
  rintro uri s _ rfl
  exact ⟨rfl, rfl⟩

/-- An import with its placeholders resolved. -/
def Import.resolved (i : Import) (s : Scope) : Import := { i with uri := interpolate s.get? i.uri }

/-- In this world the import loads a stylesheet, and the loader goes on as if it had not. -/
structure Import.Loads (services : Services σ) (L : σ → σ → Prop) (i : Import) (source : Tree) (u : World σ) :
    Prop where
  imported : (i.resolved u.context.scope).isPlain = false
  found : (services.load (i.resolved u.context.scope).uri u.loader).1 = .ok (some source)
  unnoticed : L (services.load (i.resolved u.context.scope).uri u.loader).2 u.loader

/-! ## Exchanging an import -/

variable {τ : Type} {services' : Services τ} {source : Tree} {i : Import}

/-- The nodes under the root of a stylesheet. -/
def Tree.topNodes (source : Tree) : List (Rose Node) := (source.children root).map (source.rose source.size)

/-- The import loads the stylesheet, and the loader is as before. -/
def Import.Supplies (services : Services τ) (i : Import) (source : Tree) (v : World τ) : Prop :=
  (i.resolved v.context.scope).isPlain = false ∧
    services.load (i.resolved v.context.scope).uri v.loader = (.ok (some source), v.loader)

/-- An import gives way to the nodes that it loads. -/
theorem givesWay_import (source : Tree) (cs : List (Rose Node)) :
    GivesWay services' (i.Supplies services' source) ⟨.importing i, cs⟩ source.topNodes := by
  rintro v ⟨imported, found⟩ depth block
  show (Deriver.deriveImport services' (deriver services' depth) block .stylesheet i cs).exec v = _
  unfold Deriver.deriveImport Walker.resolve
  rw [bind_assoc, exec_scope_bind, exec_pure_bind]
  dsimp only
  rw [if_neg (by rw [← Import.resolved, imported]; simp), exec_bind, Walker.exec_load]
  dsimp only [Import.resolved] at found
  rw [found]
  rfl

end

/-- **An import is transparent.** Let an import stand in a gap that walks come to: around it are blocks,
`@font-face`, `@keyframes` and blocks in these, `@media`, nested properties or branches of conditionals. Wherever
the compilation comes to the gap, let the import be one to load, and let the loader find a stylesheet and go on
as if it had not been asked. Then the compilation ends as that of the tree with the nodes of this stylesheet in
the place of the import, in both directions: with the same error, or with the same outline, and in any case with
the same variables, functions and mixins. -/
theorem import_transparent {σ : Type} (services : Services σ) (L : σ → σ → Prop)
    (alike : services.LoadsAlike services L) (g : Gap) (isOpen : g.Open) (i : Import) (cs : List (Rose Node))
    (source : Tree) (marker : Value) (c : Context) (s : σ)
    (loads : ∀ u, g.Reached services marker c s u → i.Loads services L source u) (t t' : Tree)
    (sheet : t.Sheet (g.fill [⟨.importing i, cs⟩])) (sheet' : t'.Sheet (g.fill source.topNodes)) :
    t.EndsAs services c s t' ∧ t'.EndsAs services c s t := by
  -- up to states in which it goes on alike, the loader is as before when it has been asked
  have hc : services.conditions = (services.upTo L alike).conditions := rfl
  refine isOpen.endsAs_of_givesWay hc (Services.loadsAlike_upTo alike) rfl
    (fun u (reached : g.Reached services marker c s u) v same => ?_) (givesWay_import source cs) sheet sheet'
  obtain ⟨imported, found, unnoticed⟩ := loads u reached
  have loader := same.loader
  rw [Import.Supplies, ← Context.scope_eq_of_bare same.bare, ← loader]
  exact ⟨imported, Prod.ext found (Quot.sound unnoticed)⟩

/-- In a block the import of what a variable stands for, by a loader that counts how often it is asked. The mixin
that it defines is included behind the block. -/
theorem import_transparent_counted :
    let source := Tree.ofNodes [⟨.mixinDefinition ⟨"m", []⟩, [⟨.declaration "w" [.var "x"] false, []⟩]⟩,
      ⟨.declaration "v" [.var "x"] false, []⟩]
    let services : Services Nat :=
      ⟨Services.plain.conditions, fun uri n => (.ok (if uri = "p" then some source else none), n + 1)⟩
    let g := Gap.under [⟨.assignment "x" [.ident "p"] false, []⟩] (.block ["a"]) (.here [] [])
      [⟨.mixinCall ⟨"m", []⟩, []⟩]
    let t := Tree.ofNodes (g.fill [⟨.importing ⟨"#\x7b$x\x7d", none, false⟩, []⟩])
    let t' := Tree.ofNodes (g.fill source.topNodes)
    let run := (compile services 9).exec ⟨t, .empty, 0⟩
    t.EndsAs services .empty 0 t' ∧ t'.EndsAs services .empty 0 t ∧
      run.1 = .ok () ∧ run.2.tree.outline = "a\n  v: p\nw: p" ∧ run.2.loader = 1 := by
  intro source services g t t' run
  have reached : g.Reached services [.ident "b"] .empty 0
      ((compile services 9).exec ⟨Tree.ofNodes (g.fill [⟨.result [.ident "b"], []⟩]), .empty, 0⟩).2 :=
    ⟨9, Prod.fst_eq_iff.1 (by decide +kernel)⟩
  have alike : services.LoadsAlike services fun _ _ => True := fun _ _ _ _ => ⟨rfl, trivial⟩
  have loads : ∀ u, g.Reached services [.ident "b"] .empty 0 u →
      Import.Loads services (fun _ _ => True) ⟨"#\x7b$x\x7d", none, false⟩ source u := by
    intro u h
    -- the variable is known wherever the compilation comes to the block
    have scope := Context.scope_eq_of_bare (reached.alike h).bare
    have resolved : Import.resolved ⟨"#\x7b$x\x7d", none, false⟩ u.context.scope = ⟨"p", none, false⟩ := by
      rw [← scope]
      exact congrArg (fun uri => (⟨uri, none, false⟩ : Import)) (by decide +kernel)
    constructor
    · rw [resolved]
      decide +kernel
    · rw [resolved]
      rfl
    · trivial
  obtain ⟨ends, ends'⟩ := import_transparent services (fun _ _ => True) alike g (.under _ _ rfl (.here _ _))
    ⟨"#\x7b$x\x7d", none, false⟩ [] source [.ident "b"] .empty 0 loads t t' (Tree.sheet_ofNodes _)
    (Tree.sheet_ofNodes _)
  exact ⟨ends, ends', by decide +kernel, by decide +kernel, by decide +kernel⟩

/-- In the block of an include an import is an error, where what it would load is not. -/
theorem import_opaque_in_block :
    let rule : Rose Node := ⟨.declaration "w" [.ident "a"] false, []⟩
    let services : Services Unit :=
      ⟨Services.plain.conditions, fun uri s => (.ok (if uri = "x" then some (Tree.ofNodes [rule]) else none), s)⟩
    let sheet (r : Rose Node) := Tree.ofNodes
      [⟨.mixinDefinition ⟨"m", []⟩, [⟨.content, []⟩]⟩, ⟨.mixinCall ⟨"m", []⟩, [r]⟩]
    let i : Import := ⟨"x", none, false⟩
    let run := (compile services 9).exec ⟨sheet ⟨.importing i, []⟩, .empty, ()⟩
    let run' := (compile services 9).exec ⟨sheet rule, .empty, ()⟩
    i.isPlain = false ∧ (services.load i.uri ()).1 = .ok (some (Tree.ofNodes [rule])) ∧
      run.1 = .error (.failed (.forbiddenInMixin "@import \"x\";")) ∧
      run'.1 = .ok () ∧ run'.2.tree.outline = "w: a" := by
  intro rule services sheet i run run'
  exact ⟨by decide +kernel, rfl, by decide +kernel, by decide +kernel, by decide +kernel⟩

end Stylesheet

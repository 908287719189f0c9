import Stylesheet.Proofs.Derivation.Inlining
import Stylesheet.Proofs.Expansion.Exchange

/-! # Includes stand for bodies

Where a mixin without parameters is known, an include of it without arguments can be exchanged for its body, with
the block of the include in the places for content (**`include_inlines`**). The body is derived in a frame of its
own, in another mode, and from copies; for what assigns nothing that makes no difference.

An argument too many is an error at the include, and the body alone has no use for it. In the block of another
include placeholders are resolved before the mixin is included, and that does not reach into its body
(`include_stands_alone`). -/

namespace Stylesheet

open Expansion

/-- **A mixin without parameters is inlining.** Let an include without arguments stand in a gap that walks come to:
around it are blocks, `@font-face`, `@keyframes` and blocks in these, `@media`, nested properties or branches of
conditionals. Let the mixin of this name be known wherever the compilation comes to the gap, without parameters
and with a body in which nothing but blocks, declarations, nested properties, comments, conditionals, counting
loops, loops over lists and places for content stand, and let nothing but the first seven of these stand under the
include. Then the compilation ends as that of the tree with the body in the place of the include, with what stands
under the include in all places for content, in both directions: with the same error, or with the same outline,
and in any case with the same variables, functions and mixins. -/
theorem include_inlines {σ : Type} (services : Services σ) (g : Gap) (isOpen : g.Open) (call : Invocation)
    (bare : call.arguments.arguments = []) (body contents : List (Rose Node))
    (inlineBody : ∀ n ∈ body.flatMap Rose.labels, n.isInline = true ∨ n.isContent = true)
    (inlineContents : ∀ n ∈ contents.flatMap Rose.labels, n.isInline = true) (marker : Value) (c : Context) (s : σ)
    (known : ∀ u, g.Reached services marker c s u → u.context.KnowsMixin call.name body) (t t' : Tree)
    (sheet : t.Sheet (g.fill [⟨.mixinCall call, contents⟩]))
    (sheet' : t'.Sheet (g.fill (body.flatMap (Rose.fill contents)))) :
    t.EndsAs services c s t' ∧ t'.EndsAs services c s t := by
  have inline : ∀ r ∈ body.flatMap (Rose.fill contents), r.Inline := by
    intro r hr
    obtain ⟨b, hb, hr⟩ := List.mem_flatMap.1 hr
    exact Rose.Inline.fill (fun d hd n hn => inlineContents n (List.mem_flatMap.2 ⟨d, hd, hn⟩))
      (fun n hn => inlineBody n (List.mem_flatMap.2 ⟨b, hb, hn⟩)) r hr
  exact isOpen.endsAs_of_givesWay rfl services.loadsAlike_refl rfl
    (fun u (reached : g.Reached services marker c s u) v same => (known u reached).of_bare same.bare)
    (givesWay_include services bare inline) sheet sheet'

/-- A mixin with a loop that has its content in two places. In a block it is included with a loop over the same
variable, around a declaration. -/
theorem include_inlines_loops :
    let body : List (Rose Node) := [⟨.each "x" [.ident "a", .ident "b"],
      [⟨.block [".c-#\x7b$x\x7d"], [⟨.content, []⟩]⟩, ⟨.content, []⟩]⟩]
    let contents : List (Rose Node) := [⟨.declaration "v" [.var "x"] false, []⟩,
      ⟨.each "x" [.ident "d"], [⟨.declaration "w" [.var "x"] false, []⟩]⟩]
    let g := Gap.under [⟨.mixinDefinition ⟨"m", []⟩, body⟩] (.block [".e"]) (.here [] []) []
    let t := Tree.ofNodes (g.fill [⟨.mixinCall ⟨"m", []⟩, contents⟩])
    let t' := Tree.ofNodes (g.fill (body.flatMap (Rose.fill contents)))
    let run := (compile Services.plain 9).exec ⟨t, .empty, ()⟩
    t.EndsAs Services.plain .empty () t' ∧ t'.EndsAs Services.plain .empty () t ∧ run.1 = .ok () ∧
      run.2.tree.outline =
        ".e\n  v: a\n  w: d\n  v: b\n  w: d\n.e .c-a\n  v: a\n  w: d\n.e .c-b\n  v: b\n  w: d" := by
  intro body contents g t t' run
  have known : ∀ u, g.Reached Services.plain [.ident "m"] .empty () u → u.context.KnowsMixin "m" body := by
    intro u reached
    -- the definition stands in front of the block, and the block changes no definition
    let w : World Unit := ⟨⟨#[]⟩, Context.empty.enterMixin "m" ⟨.mixinDefinition ⟨"m", []⟩, body⟩, ()⟩
    have defined : ((deriver Services.plain 1).deriveNodes none .stylesheet
        [⟨.mixinDefinition ⟨"m", []⟩, body⟩]).exec ⟨⟨#[]⟩, Context.empty.bare, ()⟩ = (.ok (.finished []), w) := rfl
    obtain ⟨o, v, opened, same⟩ : ∃ o v, (Deriver.opening none (.block [".e"])).exec w = (.ok o, v) ∧
        v.context = w.context := ⟨_, _, rfl, rfl⟩
    have fails : Fails Services.plain (g.fill [⟨.result [.ident "m"], []⟩]) (.strayReturn (Value.text [.ident "m"]))
        none ⟨⟨#[]⟩, Context.empty.bare, ()⟩ v := .between _ _ defined (.opened rfl opened (.result _ _ v))
    obtain ⟨u', reached', alike⟩ := Gap.reached_of_fails rfl Services.plain.loadsAlike_refl rfl fails
    refine (Context.empty.knowsMixin_enterMixin "m" body).of_bare ?_
    rw [← (reached'.alike reached).bare, alike.bare, same]
  obtain ⟨ends, ends'⟩ := include_inlines Services.plain g (.under _ _ rfl (.here _ _)) ⟨"m", []⟩ rfl body contents
    (by simp [body, Node.isInline, Node.isContent]) (by simp [contents, Node.isInline]) [.ident "m"] .empty () known
    t t' (Tree.sheet_ofNodes _) (Tree.sheet_ofNodes _)
  exact ⟨ends, ends', by decide +kernel, by decide +kernel⟩

/-- With an argument too many an include is an error, and the body in its place is none. In the block of another
include the placeholder in the body is resolved by the loop, and without the include by the parameter around it. -/
theorem include_stands_alone :
    let rule : Rose Node := ⟨.declaration "w" [.ident "a"] false, []⟩
    let run (rs : List (Rose Node)) := (compile Services.plain 9).exec ⟨Tree.ofNodes rs, .empty, ()⟩
    let plain (r : Rose Node) := run [⟨.mixinDefinition ⟨"m", []⟩, [rule]⟩, r]
    let loop : Rose Node := ⟨.each "x" [.ident "c"], [⟨.block [".x-#\x7b$x\x7d"], []⟩]⟩
    let nested (r : Rose Node) := run [⟨.mixinDefinition ⟨"m", []⟩, [loop]⟩,
      ⟨.mixinDefinition ⟨"n", [⟨"x", []⟩]⟩, [⟨.content, []⟩]⟩, ⟨.mixinCall ⟨"n", [.ident "a"]⟩, [r]⟩]
    (plain ⟨.mixinCall ⟨"m", [.ident "b"]⟩, []⟩).1 = .error (.failed (.argumentCount "m" 0 1)) ∧
      (plain rule).1 = .ok () ∧ (plain rule).2.tree.outline = "w: a" ∧
      (nested ⟨.mixinCall ⟨"m", []⟩, []⟩).1 = .ok () ∧
      (nested ⟨.mixinCall ⟨"m", []⟩, []⟩).2.tree.outline = ".x-c" ∧
      (nested loop).1 = .ok () ∧ (nested loop).2.tree.outline = ".x-a" := by
  decide +kernel

end Stylesheet

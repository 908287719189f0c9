import Stylesheet.Proofs.Derivation.Depth
import Stylesheet.Proofs.Tree.Reach

/-! # Evaluation is pure

Calling a function copies its body into the tree and expands it there, assigns variables, runs loops and
so on. Nothing of that can be seen afterwards: the context and the loader are as they were, and the tree
has only grown by nodes that cannot be reached. Nor does the value depend on the tree, on the loader or on
extensions, since it is the one that is derived aside of them. -/

namespace Stylesheet

open Expansion

/-- Evaluation leaves the context, the loader and what there is of the tree alone, and adds only nodes
that are not linked to others. What it ends with is the same for every tree and every loader, so it is
the same when the value is evaluated again. -/
theorem evaluate_pure {σ τ : Type} (services : Services σ) (depth : Nat) (value : Value)
    (w : World σ) :
    let run := (evaluate services depth value).exec w
    run.2.context = w.context ∧ run.2.loader = w.loader ∧
      w.tree.size ≤ run.2.tree.size ∧
      (∀ x : NodeId, x.index < w.tree.size → run.2.tree.slot x = w.tree.slot x) ∧
      (∀ x y : NodeId, run.2.tree.parent? x = some y → w.tree.size ≤ x.index → w.tree.size ≤ y.index) ∧
      ((∀ x c : NodeId, c ∈ w.tree.children x → c.index < w.tree.size) →
        ∀ x y : NodeId, x.index < w.tree.size → run.2.tree.Reaches x y → y.index < w.tree.size) ∧
      (∀ (services' : Services τ) (v : World τ), services'.conditions = services.conditions →
        v.context = w.context → ((evaluate services' depth value).exec v).1 = run.1) ∧
      ((evaluate services depth value).exec run.2).1 = run.1 := by
  intro run
  have echoes := (walker_realizes_bodyDeriver services depth).evaluate value
  have aside {v : World σ} (hv : v.context = w.context) :
      Alike (fun _ _ => True) v (⟨⟨#[]⟩, w.context, ()⟩ : World Unit) := ⟨by rw [hv], trivial⟩
  have grown : w.tree.Grown run.2.tree := echoes.grown (aside rfl)
  have unmoved : Unmoved w run.2 := echoes.unmoved (aside rfl)
  have result := echoes.result (aside rfl)
  refine ⟨unmoved.context, unmoved.loader, grown.size_le, fun x hx => grown.slot_eq hx, ?_, ?_, ?_, ?_⟩
  · exact fun x y hp hx => (grown.linked.parent hx hp).1
  · exact fun hc x y hx hy => (grown.reaches hc hx hy).1
  · intro services' v hconditions hcontext
    have other := (walker_realizes_bodyDeriver services' depth).evaluate value
    rw [hconditions] at other
    have same := other.result (v := (⟨⟨#[]⟩, w.context, ()⟩ : World Unit)) (w := v)
      ⟨by rw [hcontext], trivial⟩
    exact (Prod.mk.inj (same.symm.trans result)).1
  · have again := echoes.result (aside unmoved.context)
    exact (Prod.mk.inj (again.symm.trans result)).1

/-- A call of a function that returns `a`, in a tree with a comment: the body has been in the tree, but
the comment is all that stands under the root, and in another tree the call returns `a` as well. -/
theorem evaluate_pure_call :
    let c := Context.empty.enterFunction "f"
      ⟨.functionDefinition ⟨"f", []⟩, [⟨.result [.ident "a"], []⟩]⟩
    let w : World Unit := ⟨(Tree.empty.appendChild Tree.root (.comment "b")).2, c, ()⟩
    let run := (evaluate Services.plain 3 [.call "f" []]).exec w
    run.1 = .ok [.ident "a"] ∧ run.2.tree.size = 4 ∧ run.2.context = c ∧
      (∀ x, run.2.tree.Reaches Tree.root x → x.index < 2) ∧
      ((evaluate Services.plain 3 [.call "f" []]).exec ⟨Tree.empty, c, ()⟩).1 = run.1 := by
  obtain ⟨context, -, -, -, -, closed, same, -⟩ :=
    @evaluate_pure Unit Unit Services.plain 3 [.call "f" []]
      ⟨(Tree.empty.appendChild Tree.root (.comment "b")).2, Context.empty.enterFunction "f"
        ⟨.functionDefinition ⟨"f", []⟩, [⟨.result [.ident "a"], []⟩]⟩, ()⟩
  refine ⟨rfl, by decide +kernel, context, fun x => closed ?_ Tree.root x (by decide +kernel), ?_⟩
  · rintro ⟨_ | _ | x⟩ c hc
    · rw [List.mem_singleton.1 hc]
      decide +kernel
    · cases hc
    · have none : (Tree.empty.appendChild Tree.root (.comment "b")).2.children ⟨x + 1 + 1⟩ = [] :=
        Tree.children_of_size_le (Nat.le_add_left 2 x)
      rw [none] at hc
      cases hc
  · exact same Services.plain ⟨Tree.empty, _, ()⟩ rfl rfl

end Stylesheet

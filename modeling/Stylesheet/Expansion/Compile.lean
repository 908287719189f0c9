import Stylesheet.Condition.Evaluation
import Stylesheet.Expansion.Traversal

/-! # Compiling a stylesheet

To **compile** a stylesheet is to expand everything under its root and then to carry out the extensions
noted on the way (**`compile`**). Definitions and global variables stay in the context for the next
stylesheet; extensions do not. -/

namespace Stylesheet

namespace Tree

/-- Extend the selectors of a block by the selectors of an extending one, target after target; other
nodes stay as they are. -/
def extendBlock (targets extenders : List String) (t : Tree) (id : NodeId) : Tree :=
  match t.node id with
  | .block selectors =>
    t.setNode id (.block (targets.foldl (Selector.extend · · extenders) selectors))
  | _ => t

/-- Carry out one extension on some blocks. -/
def extendBlocks (blocks : List NodeId) (t : Tree) (extension : NodeId × List String) : Tree :=
  match t.node extension.1 with
  | .block extenders => blocks.foldl (extendBlock extension.2 extenders) t
  | _ => t

/-- Carry out extensions, in order, on all blocks that can be reached from the root. -/
def applyExtensions (t : Tree) (extensions : List (NodeId × List String)) : Tree :=
  let blocks := (t.descendants root).filter fun id => (t.node id).isBlock
  extensions.foldl (extendBlocks blocks) t

/-- Without extensions nothing changes. -/
@[simp] theorem applyExtensions_nil (t : Tree) : t.applyExtensions [] = t := rfl

/-- A preorder that extending one block respects is respected by all extensions together. -/
theorem related_applyExtensions {R : Tree → Tree → Prop} (refl : ∀ t, R t t)
    (trans : ∀ {t t' t''}, R t t' → R t' t'' → R t t'')
    (block : ∀ targets extenders t id, R t (extendBlock targets extenders t id))
    (t : Tree) (extensions : List (NodeId × List String)) : R t (t.applyExtensions extensions) := by
  refine List.foldlRecOn extensions _ (refl t) fun t' before extension _ => trans before ?_
  unfold extendBlocks
  split
  · exact List.foldlRecOn _ _ (refl t') fun t'' before id _ => trans before (block _ _ t'' id)
  · exact refl t'

end Tree

namespace Services

/-- Conditions are evaluated by the grammar of conditions, and no import is ever found. -/
def plain : Services Unit where
  conditions text := (Condition.evaluate text).mapError Condition.Fault.message
  load _ s := (.ok none, s)

end Services

open Expansion

variable {σ : Type}

/-- Compile the tree at hand, going at most `depth` levels deep. Extensions left by a compilation that
failed are forgotten first. -/
def compile (services : Services σ) (depth : Nat) : Expansion σ Unit := do
  modifyContext ({ · with extensions := [] })
  match ← (walker services depth).walkChildren Tree.root .stylesheet with
  | .returned value => fail (.strayReturn value.text)
  | .finished =>
    let c ← context
    modifyTree (·.applyExtensions c.extensions)
    modifyContext ({ · with extensions := [] })

/-- Compile a single stylesheet with nothing known before. -/
def compileTree (depth : Nat) (t : Tree) : Except Stop Unit × Tree :=
  let (result, w) := (compile Services.plain depth).run ⟨t, .empty, ()⟩
  (result, w.tree)

end Stylesheet

import Stylesheet.Proofs.Derivation.Contract

/-! # What is derived is plain

A derived tree is **plain** when no directive is left in it and no block stands right inside of another
one (**`Rose.Plain`**). Everything that is derived is plain as long as leaves have no children in what it
is derived from, in the definitions and in the stylesheets that are loaded: this is a contract, and one that
asks nothing of expressions and values (**`Contract.plain`**). -/

namespace Stylesheet

/-- Whether a node asks for something to be done, so that it is gone when that is done. -/
def Node.isDirective : Node → Bool
  | .assignment _ _ _ | .result _ | .importing _ | .extend _ | .content | .functionDefinition _
  | .functionCall _ | .mixinDefinition _ | .mixinCall _ | .nesting _ | .listDirective _ | .each _ _
  | .counting _ | .whileLoop _ | .conditional | .branch _ | .otherwise => true
  | .root | .declaration _ _ _ | .block _ | .comment _ | .fontFace | .vendor _ _ | .plain _
  | .keyframeBlock _ | .keyframes _ _ | .media _ => false

/-- There are no directives, and no block is right inside of a block. -/
def Rose.Plain (o : Rose Stem) : Prop :=
  o.All fun s os => s.node.isDirective = false ∧
    (s.node.isBlock = true → ∀ c ∈ os, c.label.node.isBlock = false)

/-- In all stylesheets that are loaded, leaves have no children. -/
def Services.LoadsBare {τ : Type} (services : Services τ) : Prop :=
  ∀ uri s source, (services.load uri s).1 = .ok (some source) → source.LeavesBare

/-! ## Trees -/

namespace Rose

/-- Another node at the top that is no directive, and a block only if it was one. -/
theorem Plain.retop {o : Rose Stem} (h : o.Plain) {s : Stem} (hd : s.node.isDirective = false)
    (hb : s.node.isBlock = true → o.label.node.isBlock = true) : Rose.Plain ⟨s, o.children⟩ :=
  .mk ⟨hd, fun hs => h.top.2 (hb hs)⟩ fun _ hc => h.of_mem hc

end Rose

namespace Tree

/-- Putting selectors in front of those of a block makes no directive. -/
@[simp] theorem isDirective_nestNode (outer : List String) (n : Node) :
    (nestNode outer n).isDirective = n.isDirective := by
  cases n <;> rfl

/-- Putting selectors in front of those of a block leaves a block. -/
@[simp] theorem isBlock_nestNode (outer : List String) (n : Node) :
    (nestNode outer n).isBlock = n.isBlock := by
  cases n <;> rfl

/-- Lengthening the name of a declaration makes no directive. -/
@[simp] theorem isDirective_lengthenNode (name : String) (n : Node) :
    (lengthenNode name n).isDirective = n.isDirective := by
  cases n <;> rfl

/-- Lengthening the name of a declaration makes no block. -/
@[simp] theorem isBlock_lengthenNode (name : String) (n : Node) :
    (lengthenNode name n).isBlock = n.isBlock := by
  cases n <;> rfl

end Tree

namespace Deriver

variable {made : List (Rose Stem)}

/-- A node over plain trees, which is no block. -/
theorem plain_around {n : Node} (hd : n.isDirective = false) (hb : n.isBlock = false)
    (h : ∀ o ∈ made, o.Plain) : ∀ o ∈ around n made, o.Plain := by
  intro o ho
  rw [List.mem_singleton.1 ho]
  exact .mk ⟨hd, fun hs => absurd (hb.symm.trans hs) Bool.false_ne_true⟩ h

/-- A block with the blocks in it behind it. -/
theorem plain_flatten (selectors : List String) (mark : NodeId) (h : ∀ o ∈ made, o.Plain) :
    ∀ o ∈ flatten selectors mark made, o.Plain := by
  intro o ho
  rcases List.mem_cons.1 ho with rfl | ho
  · -- what stays under the block is what is no block
    refine .mk ⟨rfl, fun _ c hc => ?_⟩ fun c hc => h c (List.mem_filter.1 hc).1
    simpa using (List.mem_filter.1 hc).2
  · obtain ⟨c, hc, rfl⟩ := List.mem_map.1 ho
    have plain := h c (List.mem_filter.1 hc).1
    exact plain.retop (by simpa using plain.top.1) (by simp)

/-- Declarations with longer names. -/
theorem plain_lengthen (name : String) (h : ∀ o ∈ made, o.Plain) :
    ∀ o ∈ lengthen name made, o.Plain := by
  intro o ho
  obtain ⟨c, hc, rfl⟩ := List.mem_map.1 ho
  have plain := h c hc
  exact plain.retop (by simpa using plain.top.1) (by simp)

end Deriver

/-! ## The contract -/

namespace Contract

/-- All that is made is plain, whatever the expressions. -/
def plain : Contract where
  expression _ := True
  value _ := True
  made := Rose.Plain
  arguments _ _ _ := trivial
  builtin _ _ _ _ _ := trivial
  integer _ := trivial
  items _ _ _ := trivial
  editList _ _ _ _ _ _ := trivial
  still := by
    intro n os hn h
    exact Deriver.plain_around (by cases n <;> first | rfl | cases hn) (by cases n <;> first | rfl | cases hn)
      h _
      (.head _)
  declared name v important _ := Deriver.plain_around rfl rfl (by simp) _ (.head _)
  flatten selectors mark _ := Deriver.plain_flatten selectors mark
  lengthen name _ := Deriver.plain_lengthen name

/-- The contract of plain trees asks nothing of values. -/
theorem plain_evaluates : plain.Evaluates := fun _ _ _ _ _ _ _ _ => trivial

/-- Nothing is asked of a context but that leaves have no children in the definitions. -/
theorem plain_meets {c : Context} (h : c.definitions.LeavesBare) : c.Meets plain :=
  ⟨fun _ _ _ _ => trivial, fun _ _ _ => trivial, h⟩

/-- Loaders of trees without children under leaves are all that plain trees need. -/
theorem plain_loads {τ : Type} {services : Services τ} (h : services.LoadsBare) : plain.Loads services :=
  fun uri s source loaded => ⟨fun _ _ _ => trivial, h uri s source loaded⟩

end Contract

end Stylesheet

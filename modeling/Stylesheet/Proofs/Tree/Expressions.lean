import Stylesheet.Proofs.Tree.Fill
import Stylesheet.Proofs.Tree.Reach

/-! # Expressions in trees

The **expressions** of a node are the values that are evaluated for it (**`Node.expressions`**). Trees in
which all of them have a property (**`Tree.Expresses`**, **`Rose.Expresses`**) can be read off, copied,
filled with contents and resolved, and it is still so. -/

namespace Stylesheet

/-- The values that are evaluated when a node is expanded, or when what it defines is called. -/
def Node.expressions : Node → List Value
  | .assignment _ value _ | .result value | .declaration _ value _ | .each _ value => [value]
  | .functionCall c | .mixinCall c => [c.arguments]
  | .listDirective d => [d.list, d.items]
  | .counting c => [c.low, c.high]
  | .functionDefinition signature | .mixinDefinition signature => signature.parameters.map Parameter.default
  | _ => []

/-- Interpolation changes no expressions. -/
@[simp] theorem Node.expressions_interpolate (lookup : Lookup) (n : Node) :
    (n.interpolate lookup).expressions = n.expressions := by
  cases n <;> rfl

/-- All expressions have a property. -/
def Tree.Expresses (P : Value → Prop) (t : Tree) : Prop := ∀ x, ∀ e ∈ (t.node x).expressions, P e

/-- All expressions have a property. -/
def Rose.Expresses (P : Value → Prop) (r : Rose Node) : Prop := r.All fun n _ => ∀ e ∈ n.expressions, P e

variable {P : Value → Prop}

namespace Rose

/-- The expressions of a tree are those of its top and those under it. -/
theorem expresses_mk {n : Node} {rs : List (Rose Node)} :
    Expresses P ⟨n, rs⟩ ↔ (∀ e ∈ n.expressions, P e) ∧ ∀ r ∈ rs, r.Expresses P :=
  ⟨fun h => ⟨h.top, fun _ hr => h.of_mem hr⟩, fun h => .mk h.1 h.2⟩

end Rose

namespace Rose.Expresses

variable {r : Rose Node}

/-- Resolving placeholders changes no expressions. -/
theorem interpolate (h : r.Expresses P) (lookup : Lookup) : (r.interpolate lookup).Expresses P :=
  Rose.All.interpolate h lookup fun n _ hn => by rwa [Node.expressions_interpolate]

/-- Filling in contents adds those of the contents. -/
theorem fill {contents : List (Rose Node)} (h : r.Expresses P) (hcontents : ∀ c ∈ contents, c.Expresses P) :
    ∀ c ∈ r.fill contents, c.Expresses P :=
  Rose.All.fill h hcontents fun _ _ hn => hn

end Rose.Expresses

namespace Tree

variable {t : Tree} {p c : NodeId}

/-- What is read off a tree has its expressions. -/
theorem Expresses.rose (h : t.Expresses P) (depth : Nat) (id : NodeId) : (t.rose depth id).Expresses P := by
  induction depth generalizing id with
  | zero =>
    rw [Tree.rose]
    exact .mk (h id) (by simp)
  | succ depth ih =>
    rw [Tree.rose]
    refine .mk (h id) fun c hc => ?_
    obtain ⟨c, -, rfl⟩ := List.mem_map.1 hc
    exact ih c

/-- A new node brings its own expressions. -/
theorem Expresses.create (h : t.Expresses P) {n : Node} (hn : ∀ e ∈ n.expressions, P e) :
    (t.create n).2.Expresses P := by
  intro x
  rw [node_eq, slot_create]
  split
  · exact hn
  · exact h x

/-- Attaching a node changes links only. -/
theorem Expresses.attach (h : t.Expresses P) : (t.attach p c).Expresses P := by
  intro x
  rw [node_attach]
  exact h x

/-- Planting trees under a node brings their expressions. -/
theorem Expresses.plantUnder {rs : List (Rose Node)}
    (ih : ∀ r ∈ rs, ∀ t, t.Expresses P → (plant r t).2.Expresses P) (h : t.Expresses P) :
    (plantUnder p rs t).Expresses P := by
  induction rs generalizing t with
  | nil =>
    rw [Tree.plantUnder]
    exact h
  | cons r rs ihr =>
    rw [Tree.plantUnder]
    exact ihr (fun r hr => ih r (.tail _ hr)) (ih r (.head _) t h).attach

/-- A tree that takes in a copy. -/
theorem Expresses.plant {r : Rose Node} (h : t.Expresses P) (hr : r.Expresses P) :
    (plant r t).2.Expresses P := by
  induction r generalizing t with
  | mk n rs ih =>
    rw [Tree.plant]
    exact (h.create hr.top).plantUnder fun r hm t ht => ih r hm ht (hr.of_mem hm)

/-- The root has no expressions. -/
theorem expresses_empty : empty.Expresses P := by
  rintro ⟨_ | x⟩ e he <;> cases he

/-- A stylesheet of trees with such expressions. -/
theorem expresses_ofNodes {rs : List (Rose Node)} (h : ∀ r ∈ rs, r.Expresses P) : (ofNodes rs).Expresses P :=
  expresses_empty.plantUnder fun r hr _ ht => ht.plant (h r hr)

end Tree

end Stylesheet

import Stylesheet.Proofs.Tree.Fill
import Stylesheet.Proofs.Tree.Reach

/-! # Leaves without children

Declarations, comments, imports and lines that are taken as they stand are **leaves**
(**`Node.isLeaf`**): nothing stands under them. Trees in which that is so (**`Tree.LeavesBare`**,
**`Rose.LeavesBare`**) can be read off, copied, filled with contents and resolved, and it is still so. -/

namespace Stylesheet

/-- Whether a node is of a kind that has no children. -/
def Node.isLeaf : Node → Bool
  | .declaration _ _ _ | .comment _ | .plain _ | .vendor _ _ | .importing _ => true
  | _ => false

/-- Interpolation makes no leaf of what was none, nor the other way around. -/
@[simp] theorem Node.isLeaf_interpolate (lookup : Lookup) (n : Node) :
    (n.interpolate lookup).isLeaf = n.isLeaf := by
  cases n <;> rfl

/-- Nothing stands under leaves. -/
def Tree.LeavesBare (t : Tree) : Prop := ∀ x, (t.node x).isLeaf = true → t.children x = []

/-- Nothing stands under leaves. -/
def Rose.LeavesBare (r : Rose Node) : Prop := r.All fun n rs => n.isLeaf = true → rs = []

namespace Rose

/-- In a tree leaves are bare if its top is so and all that stands under it. -/
theorem leavesBare_mk {n : Node} {rs : List (Rose Node)} :
    LeavesBare ⟨n, rs⟩ ↔ (n.isLeaf = true → rs = []) ∧ ∀ r ∈ rs, r.LeavesBare :=
  ⟨fun h => ⟨h.top, fun _ hr => h.of_mem hr⟩, fun h => .mk h.1 h.2⟩

end Rose

namespace Rose.LeavesBare

variable {r : Rose Node}

/-- Resolving placeholders makes no leaves. -/
theorem interpolate (h : r.LeavesBare) (lookup : Lookup) : (r.interpolate lookup).LeavesBare := by
  refine Rose.All.interpolate h lookup fun n rs bare hn => ?_
  rw [Node.isLeaf_interpolate] at hn
  rw [bare hn, List.map_nil]

/-- Neither does filling in contents. -/
theorem fill {contents : List (Rose Node)} (h : r.LeavesBare)
    (hcontents : ∀ c ∈ contents, c.LeavesBare) : ∀ c ∈ r.fill contents, c.LeavesBare := by
  refine Rose.All.fill h hcontents fun n rs bare hn => ?_
  rw [bare hn, List.flatMap_nil]

end Rose.LeavesBare

namespace Tree

variable {t : Tree} {p c : NodeId}

/-- What is read off from a tree has bare leaves if the tree does. -/
theorem LeavesBare.rose (h : t.LeavesBare) (depth : Nat) (id : NodeId) : (t.rose depth id).LeavesBare := by
  induction depth generalizing id with
  | zero =>
    rw [Tree.rose]
    exact .mk (fun _ => rfl) (by simp)
  | succ depth ih =>
    rw [Tree.rose]
    refine .mk (fun hn => ?_) fun c hc => ?_
    · rw [h id hn, List.map_nil]
    · obtain ⟨c, -, rfl⟩ := List.mem_map.1 hc
      exact ih c

/-- A new node has no children. -/
theorem LeavesBare.create (h : t.LeavesBare) (n : Node) : (t.create n).2.LeavesBare := by
  intro x hx
  rw [children_create]
  rw [node_eq, slot_create] at hx
  split at hx
  next e => exact children_of_size_le (Nat.le_of_eq e.symm)
  next => exact h x hx

/-- Attaching a child to what is no leaf leaves the leaves bare. -/
theorem LeavesBare.attach (h : t.LeavesBare) (hp : p.index < t.size) (hn : (t.node p).isLeaf = false) :
    (t.attach p c).LeavesBare := by
  intro x hx
  rw [node_attach] at hx
  rw [children_attach t c x hp, if_neg]
  · exact h x hx
  · rintro rfl
    rw [hn] at hx
    cases hx

/-- Planting trees under a node that is no leaf. -/
theorem LeavesBare.plantUnder {rs : List (Rose Node)}
    (ih : ∀ r ∈ rs, ∀ t, t.LeavesBare → (plant r t).2.LeavesBare) (h : t.LeavesBare)
    (hp : p.index < t.size) (hn : rs ≠ [] → (t.node p).isLeaf = false) :
    (plantUnder p rs t).LeavesBare := by
  induction rs generalizing t with
  | nil =>
    rw [Tree.plantUnder]
    exact h
  | cons r rs ihr =>
    have planted := plant_planted r t
    have hp' : p.index < (plant r t).2.size := Nat.lt_of_lt_of_le hp planted.grown.size_le
    have hn' : ((plant r t).2.node p).isLeaf = false := by
      rw [planted.grown.node_eq hp]
      exact hn (by simp)
    rw [Tree.plantUnder]
    refine ihr (fun r hr => ih r (by simp [hr])) ((ih r (by simp) t h).attach hp' hn') ?_ fun _ => ?_
    · rw [size_attach]
      exact hp'
    · rw [node_attach]
      exact hn'

/-- A tree that takes in a copy. -/
theorem LeavesBare.plant {r : Rose Node} (h : t.LeavesBare) (hr : r.LeavesBare) :
    (plant r t).2.LeavesBare := by
  induction r generalizing t with
  | mk n rs ih =>
    rw [Tree.plant]
    -- a node that gets children is no leaf
    refine (h.create n).plantUnder (fun r hm t ht => ih r hm ht (hr.of_mem hm))
      (by simp [Tree.create, Tree.size]) fun hrs => ?_
    rw [node_eq, slot_create_self]
    exact Bool.eq_false_iff.2 fun hn => hrs (hr.top hn)

/-- Nothing stands under the root of the empty tree. -/
theorem leavesBare_empty : empty.LeavesBare := fun x _ => children_empty x

/-- A stylesheet of trees with bare leaves. -/
theorem leavesBare_ofNodes {rs : List (Rose Node)} (h : ∀ r ∈ rs, r.LeavesBare) :
    (ofNodes rs).LeavesBare :=
  leavesBare_empty.plantUnder (fun r hr _ ht => ht.plant (h r hr)) empty_isStylesheet.created fun _ => rfl

end Tree

end Stylesheet

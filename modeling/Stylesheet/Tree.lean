import Stylesheet.Node

/-! # Trees of nodes

A **`Tree`** keeps all nodes of a stylesheet in slots that are numbered in the order of creation. A slot
holds a node, its parent if it has one, and its children in order. Nodes are never freed: one that is
taken out of its parent just cannot be reached from the root any more. The operations move single nodes
(**`Tree.insertAfter`**, **`Tree.detach`**, **`Tree.setChildren`**), copy subtrees (**`Tree.graft`**) and
list them (**`Tree.descendants`**, **`Tree.outline`**). What walks down the tree goes at most as deep as
there are slots, which is as deep as a path without repetition can be. -/

namespace Stylesheet

/-- The number of a node. -/
structure NodeId where
  index : Nat
  deriving Repr, DecidableEq

/-- A node with its place in the tree. -/
structure Slot where
  node : Node
  parent : Option NodeId := none
  children : List NodeId := []

/-- A slot that nothing has been put in. -/
instance : Inhabited Slot := ⟨⟨.root, none, []⟩⟩

/-- The nodes of a stylesheet. -/
structure Tree where
  slots : Array Slot

namespace Tree

/-- The tree of a root without children. -/
def empty : Tree := ⟨#[⟨.root, none, []⟩]⟩

/-- The root is the first node. -/
def root : NodeId := ⟨0⟩

/-! ## Reading -/

/-- The slot of a node. -/
def slot (t : Tree) (id : NodeId) : Slot := t.slots.getD id.index default

/-- The node of a number. -/
def node (t : Tree) (id : NodeId) : Node := (t.slot id).node

/-- The parent of a node, if it is attached to one. -/
def parent? (t : Tree) (id : NodeId) : Option NodeId := (t.slot id).parent

/-- The children of a node, in order. -/
def children (t : Tree) (id : NodeId) : List NodeId := (t.slot id).children

/-- How many nodes have been created. -/
def size (t : Tree) : Nat := t.slots.size

/-- Whether a node has a parent. -/
def isAttached (t : Tree) (id : NodeId) : Bool := (t.parent? id).isSome

/-- The parent of a node that should have one. -/
def parentOf (t : Tree) (id : NodeId) : Except Error NodeId :=
  match t.parent? id with
  | some parent => .ok parent
  | none => .error (.detached (t.node id).text)

/-- The position of a child, counted from zero. -/
def position? (t : Tree) (parent child : NodeId) : Option Nat := (t.children parent).idxOf? child

/-- What stands right behind a member of a list. -/
def following? (id : NodeId) : List NodeId → Option NodeId
  | [] => none
  | c :: cs => if c = id then cs.head? else following? id cs

/-- What stands right before a member of a list. -/
def preceding? (id : NodeId) : List NodeId → Option NodeId
  | c :: d :: cs => if c = id then none else if d = id then some c else preceding? id (d :: cs)
  | _ => none

/-- The child of the same parent that stands right behind a node. -/
def nextSibling? (t : Tree) (id : NodeId) : Option NodeId :=
  (t.parent? id).bind fun parent => following? id (t.children parent)

/-! ## Single nodes -/

/-- Change the slot of a node. -/
def modify (t : Tree) (id : NodeId) (f : Slot → Slot) : Tree := ⟨t.slots.modify id.index f⟩

/-- Changing a slot adds none. -/
@[simp] theorem size_modify (t : Tree) (id : NodeId) (f : Slot → Slot) :
    (t.modify id f).size = t.size := by
  simp [modify, size]

/-- A slot that is changed becomes what the change makes of it. -/
theorem slot_modify_self (t : Tree) (id : NodeId) (f : Slot → Slot) (h : id.index < t.size) :
    (t.modify id f).slot id = f (t.slot id) := by
  have h' : id.index < t.slots.size := h
  simp [modify, slot, h', Array.getElem_modify]

/-- All other slots stay as they are. -/
theorem slot_modify_of_ne (t : Tree) {id other : NodeId} (f : Slot → Slot) (h : other ≠ id) :
    (t.modify id f).slot other = t.slot other := by
  have hi : id.index ≠ other.index := by
    intro e
    apply h
    cases id
    cases other
    simp_all
  simp [modify, slot, Array.getElem?_modify, hi]

/-- Slots that have not been created are those of roots that stand alone. -/
theorem slot_of_size_le (t : Tree) (id : NodeId) (h : t.size ≤ id.index) :
    t.slot id = ⟨.root, none, []⟩ := by
  have h' : ¬ id.index < t.slots.size := Nat.not_lt.2 h
  simp [slot, h']
  rfl

/-- What a change leaves alone in each slot stays the same everywhere. -/
theorem slot_modify_congr {α : Type} (g : Slot → α) (t : Tree) (id other : NodeId) {f : Slot → Slot}
    (h : ∀ s, g (f s) = g s) : g ((t.modify id f).slot other) = g (t.slot other) := by
  by_cases e : other = id
  · subst e
    by_cases hs : other.index < t.size
    · rw [slot_modify_self t other f hs, h]
    · have hs' := Nat.not_lt.1 hs
      rw [slot_of_size_le t other hs', slot_of_size_le _ other (by simpa using hs')]
  · rw [slot_modify_of_ne t f e]

/-- A change that keeps the nodes in all slots. -/
@[simp] theorem node_modify (t : Tree) (id other : NodeId) {f : Slot → Slot}
    (h : ∀ s, (f s).node = s.node) : (t.modify id f).node other = t.node other :=
  slot_modify_congr Slot.node t id other h

/-- A change that keeps the parents in all slots. -/
@[simp] theorem parent?_modify (t : Tree) (id other : NodeId) {f : Slot → Slot}
    (h : ∀ s, (f s).parent = s.parent) : (t.modify id f).parent? other = t.parent? other :=
  slot_modify_congr Slot.parent t id other h

/-- A change that keeps the children in all slots. -/
@[simp] theorem children_modify (t : Tree) (id other : NodeId) {f : Slot → Slot}
    (h : ∀ s, (f s).children = s.children) : (t.modify id f).children other = t.children other :=
  slot_modify_congr Slot.children t id other h

/-- Put another node in the place of one. -/
def setNode (t : Tree) (id : NodeId) (n : Node) : Tree := t.modify id ({ · with node := n })

/-- Another node in a place leaves as many slots. -/
@[simp] theorem size_setNode (t : Tree) (id : NodeId) (n : Node) :
    (t.setNode id n).size = t.size := by
  simp [setNode]

/-- Another node in a place changes no link. -/
@[simp] theorem parent?_setNode (t : Tree) (id other : NodeId) (n : Node) :
    (t.setNode id n).parent? other = t.parent? other := by
  simp [setNode]

/-- Another node in a place leaves all children. -/
@[simp] theorem children_setNode (t : Tree) (id other : NodeId) (n : Node) :
    (t.setNode id n).children other = t.children other := by
  simp [setNode]

/-- A place that was given a node has it. -/
theorem node_setNode_self (t : Tree) (id : NodeId) (n : Node) (h : id.index < t.size) :
    (t.setNode id n).node id = n := by
  simp [setNode, node, slot_modify_self t id _ h]

/-- Another node in a place leaves the nodes elsewhere. -/
theorem node_setNode_of_ne (t : Tree) {id other : NodeId} (n : Node) (h : other ≠ id) :
    (t.setNode id n).node other = t.node other := by
  simp [setNode, node, slot_modify_of_ne t _ h]

/-- Add a node that has no parent. -/
def create (t : Tree) (n : Node) : NodeId × Tree := (⟨t.size⟩, ⟨t.slots.push ⟨n, none, []⟩⟩)

/-- Creating a node adds a slot. -/
@[simp] theorem size_create (t : Tree) (n : Node) : (t.create n).2.size = t.size + 1 := by
  simp [create, size]

/-- A new node stands alone. -/
theorem slot_create_self (t : Tree) (n : Node) :
    (t.create n).2.slot (t.create n).1 = ⟨n, none, []⟩ := by
  simp [create, slot, size]

/-- A new node changes nothing about the others. -/
theorem slot_create_of_ne (t : Tree) (n : Node) {other : NodeId} (h : other ≠ (t.create n).1) :
    (t.create n).2.slot other = t.slot other := by
  have hi : other.index ≠ t.slots.size := by
    intro e
    apply h
    cases other
    simp_all [create, size]
  simp [create, slot, Array.getElem?_push, hi]

/-- Take a node out of its parent. What stands under it stays there. -/
def detach (t : Tree) (id : NodeId) : Tree :=
  match t.parent? id with
  | none => t   -- it stands alone already
  | some parent =>
    (t.modify id ({ · with parent := none })).modify parent fun s =>
      { s with children := s.children.filter (· != id) }

/-- Detaching a node leaves as many slots. -/
@[simp] theorem size_detach (t : Tree) (id : NodeId) : (t.detach id).size = t.size := by
  unfold detach
  split <;> simp

/-- A node that is attached has been created. -/
theorem lt_size_of_parent? {t : Tree} {id parent : NodeId} (h : t.parent? id = some parent) :
    id.index < t.size := by
  by_cases hs : id.index < t.size
  · exact hs
  · simp [parent?, slot_of_size_le t id (Nat.not_lt.1 hs)] at h

/-- A node that is taken out has no parent. -/
@[simp] theorem parent?_detach_self (t : Tree) (id : NodeId) : (t.detach id).parent? id = none := by
  unfold detach
  split
  · assumption
  next parent h =>
    rw [parent?_modify]
    · simp [parent?, slot_modify_self t id _ (lt_size_of_parent? h)]
    · intro s
      rfl

/-- Nodes keep their contents wherever they are moved. -/
@[simp] theorem node_detach (t : Tree) (id other : NodeId) :
    (t.detach id).node other = t.node other := by
  unfold detach
  split <;> simp

/-- Take a node out of this parent; nothing happens when it has another one. -/
def remove (t : Tree) (parent id : NodeId) : Tree :=
  if t.parent? id = some parent then t.detach id else t

/-- Make `child` a child of `parent` at the end. Nothing is taken out of a former place. -/
def attach (t : Tree) (parent child : NodeId) : Tree :=
  (t.modify parent fun s => { s with children := s.children ++ [child] }).modify child
    ({ · with parent := some parent })

/-- Move a node to the end of a parent's children. -/
def append (t : Tree) (parent child : NodeId) : Tree := (t.detach child).attach parent child

/-- Appending a child changes links only. -/
@[simp] theorem node_append (t : Tree) (parent child other : NodeId) :
    (t.append parent child).node other = t.node other := by
  simp [append, attach]

/-- Add a node at the end of a parent's children. -/
def appendChild (t : Tree) (parent : NodeId) (n : Node) : NodeId × Tree :=
  let (id, t) := t.create n
  (id, t.append parent id)

/-- A list with a member put right behind another, or at the end if that one is not there. -/
def placeAfter (anchor child : NodeId) : List NodeId → List NodeId
  | [] => [child]
  | c :: cs => if c = anchor then c :: child :: cs else c :: placeAfter anchor child cs

/-- Move a node right behind another child of a parent, or to the end if that one is no child. -/
def insertAfter (t : Tree) (parent anchor child : NodeId) : Tree :=
  ((t.detach child).modify parent fun s =>
    { s with children := placeAfter anchor child s.children }).modify child
      ({ · with parent := some parent })

/-- Inserting a node behind another changes links only. -/
@[simp] theorem node_insertAfter (t : Tree) (parent anchor child other : NodeId) :
    (t.insertAfter parent anchor child).node other = t.node other := by
  simp [insertAfter]

/-- Place nodes, in order, right behind an anchor. Each of them is made by `produce` from a member of
a list when its turn comes. -/
def spliceAfter (produce : NodeId → Tree → NodeId × Tree) (parent anchor : NodeId) :
    List NodeId → Tree → List NodeId × Tree
  | [], t => ([], t)
  | id :: ids, t =>
    let (made, t) := produce id t
    let (others, t) := spliceAfter produce parent made ids (t.insertAfter parent anchor made)
    (made :: others, t)

/-- Move nodes, in order, right behind an anchor. -/
def moveAfter (t : Tree) (parent anchor : NodeId) (ids : List NodeId) : Tree :=
  (spliceAfter (fun id t => (id, t)) parent anchor ids t).2

/-- Give a node other children. The former ones are taken out. -/
def setChildren (t : Tree) (id : NodeId) (children : List NodeId) : Tree :=
  let former := t.children id
  let t := t.modify id ({ · with children := [] })
  let t := former.foldl (fun t c => t.modify c ({ · with parent := none })) t
  children.foldl (fun t c => t.append id c) t

/-! ## Subtrees -/

/-- Copy a node of another tree and what stands under it, `depth` levels deep. -/
def graftFrom (source : Tree) : Nat → NodeId → Tree → NodeId × Tree
  | 0, id, t => t.create (source.node id)
  | depth + 1, id, t =>
    let (copy, t) := t.create (source.node id)
    (copy, (source.children id).foldl (fun t c =>
      let (childCopy, t) := graftFrom source depth c t
      t.attach copy childCopy) t)

/-- Copy a subtree of another tree. The copy has no parent. -/
def graft (t : Tree) (source : Tree) (id : NodeId) : NodeId × Tree :=
  graftFrom source source.size id t

/-- Copy a subtree of this tree. The copy has no parent. -/
def copySubtree (t : Tree) (id : NodeId) : NodeId × Tree := t.graft t id

/-- A node and the nodes under it, parents first, `depth` levels deep. -/
def descendantsTo (t : Tree) : Nat → NodeId → List NodeId
  | 0, _ => []
  | depth + 1, id => id :: (t.children id).flatMap (descendantsTo t depth)

/-- A node and all nodes under it in the order of the document. -/
def descendants (t : Tree) (id : NodeId) : List NodeId := t.descendantsTo t.size id

/-- The lines of the nodes under a node, each with as many steps of indentation as it is deep. -/
def linesUnder (t : Tree) : Nat → Nat → NodeId → List String
  | 0, _, _ => []
  | depth + 1, level, id =>
    (t.children id).flatMap fun c =>
      (String.ofList (List.replicate (2 * level) ' ') ++ (t.node c).text) ::
        linesUnder t depth (level + 1) c

/-- All nodes that can be reached from the root, but for the root itself, one a line. -/
def outline (t : Tree) : String := "\n".intercalate (t.linesUnder t.size 0 root)

end Tree

end Stylesheet

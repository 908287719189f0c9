import Stylesheet.Tree

/-! # Trees as values

A **`Rose`** is a label with a list of such trees under it. It is what a node of a tree with slots and
links amounts to once it is read off: see `Stylesheet.Proofs.Tree.Shape`. Here stand its labels in the
order of the document (**`Rose.labels`**) and the change of all labels (**`Rose.map`**), what holds of
every label and what stands under it (**`Rose.All`**), and induction over it. -/

namespace Stylesheet

/-- A label with trees under it. -/
inductive Rose (α : Type)
  | mk (label : α) (children : List (Rose α))

namespace Rose

variable {α β γ : Type}

/-- The label at the top. -/
def label : Rose α → α
  | ⟨a, _⟩ => a

/-- The trees right under the top. -/
def children : Rose α → List (Rose α)
  | ⟨_, rs⟩ => rs

/-- The label at the top is the one that was put there. -/
@[simp] theorem label_mk (a : α) (rs : List (Rose α)) : label ⟨a, rs⟩ = a := rfl

/-- The trees right under the top are those that were put there. -/
@[simp] theorem children_mk (a : α) (rs : List (Rose α)) : children ⟨a, rs⟩ = rs := rfl

/-- A tree is its label with what stands under it. -/
@[simp] theorem mk_label_children (r : Rose α) : ⟨r.label, r.children⟩ = r := by cases r; rfl

/-- What holds of a label with trees under it as soon as it holds of these holds of all trees. -/
@[induction_eliminator]
theorem induct {P : Rose α → Prop} (mk : ∀ a rs, (∀ r ∈ rs, P r) → P ⟨a, rs⟩) : ∀ r, P r
  | ⟨a, rs⟩ => mk a rs fun r _ => induct mk r

/-- All labels, parents first. -/
def labels : Rose α → List α
  | ⟨a, rs⟩ => a :: rs.flatMap fun r => labels r

/-- The label at the top comes first, and then those of the trees under it, one after the other. -/
@[simp] theorem labels_mk (a : α) (rs : List (Rose α)) :
    labels ⟨a, rs⟩ = a :: rs.flatMap labels := by
  rw [labels]

/-- The label at the top is one of the labels. -/
theorem label_mem_labels (r : Rose α) : r.label ∈ r.labels := by
  cases r
  simp

/-- A label is that of the top or stands in one of the trees under it. -/
theorem mem_labels {r : Rose α} {x : α} :
    x ∈ r.labels ↔ x = r.label ∨ ∃ c ∈ r.children, x ∈ c.labels := by
  cases r
  simp

/-- What stands under a tree stands in it. -/
theorem mem_labels_of_mem_children {r c : Rose α} (hc : c ∈ r.children) {x : α} (hx : x ∈ c.labels) :
    x ∈ r.labels := mem_labels.2 (.inr ⟨c, hc, hx⟩)

/-- The labels of a tree among others stand in order among the labels of all. -/
theorem sublist_labels_of_mem {c : Rose α} {rs : List (Rose α)} (hc : c ∈ rs) :
    c.labels.Sublist (rs.flatMap labels) := List.sublist_flatten_of_mem (List.mem_map_of_mem hc)

/-- A tree has more labels than one right under its top. -/
theorem length_labels_lt {r c : Rose α} (hc : c ∈ r.children) : c.labels.length < r.labels.length := by
  obtain ⟨a, rs⟩ := r
  rw [labels_mk, List.length_cons]
  exact Nat.lt_succ_of_le (sublist_labels_of_mem hc).length_le

/-- What stands under a label stands in the tree with this label at the top. -/
theorem mem_labels_of_under (a : α) {rs : List (Rose α)} {x : α} (hx : x ∈ rs.flatMap labels) :
    x ∈ [Rose.mk a rs].flatMap labels := by
  rw [List.flatMap_singleton, labels_mk]
  exact List.mem_cons_of_mem a hx

/-- A label and the labels right under it stand in the tree with this label at the top. -/
theorem mem_labels_of_top {a x : α} {rs : List (Rose α)} (hx : x ∈ a :: rs.map label) :
    x ∈ [Rose.mk a rs].flatMap labels := by
  rcases List.mem_cons.1 hx with rfl | hx
  · simp
  · obtain ⟨r, hr, rfl⟩ := List.mem_map.1 hx
    exact mem_labels_of_under a (List.mem_flatMap.2 ⟨r, hr, r.label_mem_labels⟩)

/-- Change all labels. -/
def map (f : α → β) : Rose α → Rose β
  | ⟨a, rs⟩ => ⟨f a, rs.map fun r => map f r⟩

/-- Changing all labels changes the one at the top and those under it. -/
@[simp] theorem map_mk (f : α → β) (a : α) (rs : List (Rose α)) :
    map f ⟨a, rs⟩ = ⟨f a, rs.map (map f)⟩ := by
  rw [map]

/-- The label at the top is changed. -/
@[simp] theorem label_map (f : α → β) (r : Rose α) : (r.map f).label = f r.label := by
  cases r
  simp

/-- What stands under the top is changed. -/
@[simp] theorem children_map (f : α → β) (r : Rose α) :
    (r.map f).children = r.children.map (map f) := by
  cases r
  simp

/-- Changing labels in the same way gives the same tree. -/
theorem map_congr {f g : α → β} {r : Rose α} (h : ∀ x ∈ r.labels, f x = g x) :
    r.map f = r.map g := by
  induction r with
  | mk a rs ih =>
    simp only [labels_mk, List.mem_cons, List.mem_flatMap] at h
    simp only [map_mk, mk.injEq]
    exact ⟨h a (.inl rfl), List.map_congr_left fun r hr => ih r hr fun x hx => h x (.inr ⟨r, hr, hx⟩)⟩

/-- Changes that give the same tree are the same on its labels. -/
theorem eq_of_map_eq {f g : α → β} {r : Rose α} (h : r.map f = r.map g) {x : α} (hx : x ∈ r.labels) :
    f x = g x := by
  induction r with
  | mk a rs ih =>
    rw [map_mk, map_mk, mk.injEq, List.map_inj_left] at h
    rcases mem_labels.1 hx with rfl | ⟨c, hc, hx⟩
    · exact h.1
    · exact ih c hc (h.2 c hc) hx

/-- The labels of a changed tree are the changed labels, in order. -/
theorem labels_map (f : α → β) (r : Rose α) : (r.map f).labels = r.labels.map f := by
  induction r with
  | mk a rs ih =>
    rw [map_mk, labels_mk, labels_mk, List.map_cons, List.map_flatMap, List.flatMap_map, List.flatMap_def,
      List.flatMap_def, List.map_congr_left ih]

/-- The labels of a changed tree are the labels changed. -/
theorem mem_labels_map {f : α → β} {r : Rose α} {y : β} :
    y ∈ (r.map f).labels ↔ ∃ x ∈ r.labels, f x = y := by
  rw [labels_map, List.mem_map]

/-- Changing no label changes nothing. -/
@[simp] theorem map_id (r : Rose α) : r.map id = r := by
  induction r with
  | mk a rs ih =>
    rw [map_mk, List.map_congr_left ih]
    simp

/-- Changing all labels twice is changing them once by both changes. -/
@[simp] theorem map_map (g : β → γ) (f : α → β) (r : Rose α) : (r.map f).map g = r.map (g ∘ f) := by
  induction r with
  | mk a rs ih =>
    simp only [map_mk, List.map_map, mk.injEq, Function.comp_apply, true_and]
    exact List.map_congr_left ih

/-- Every label and the trees right under it have a property. -/
inductive All (P : α → List (Rose α) → Prop) : Rose α → Prop
  | mk {a : α} {rs : List (Rose α)} : P a rs → (∀ r ∈ rs, All P r) → All P ⟨a, rs⟩

namespace All

variable {P : α → List (Rose α) → Prop} {r c : Rose α}

/-- What holds throughout holds at the top. -/
theorem top (h : r.All P) : P r.label r.children := by
  cases h
  assumption

/-- What holds throughout holds in each tree under the top. -/
theorem of_mem (h : r.All P) (hc : c ∈ r.children) : c.All P := by
  cases h with
  | mk _ h => exact h c hc

end All

end Rose

end Stylesheet

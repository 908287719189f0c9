import Stylesheet.Proofs.Expansion.Locality
import Stylesheet.Proofs.Numeric.Integers

/-! # Counting loops, pass by pass

A counting loop makes one pass for each value of its variable, in order (**`LoopSite.Runs`**); as long as the
variable holds integers as they are, it makes one for each integer from `a` to `b` (**`LoopSite.Unrolls`**). Each pass
works on copies of the body as it stood at the start (**`LoopSite.Pass`**), which are put behind what the passes
before have made; it changes nothing that was there but the list of children of the parent
(**`Tree.ChangedAt`**). In the end the loop goes, and what the passes have made stands in its place
(`Counting.Reached.unrolled`). -/

namespace Stylesheet

open Expansion

/-- Of the nodes that were there, only this one may have changed. -/
structure Tree.ChangedAt (p : NodeId) (t t' : Tree) : Prop where
  size_le : t.size ≤ t'.size
  slot_eq : ∀ x : NodeId, x.index < t.size → x ≠ p → t'.slot x = t.slot x

/-- What is rewritten under a parent has changed at this parent only. -/
theorem Tree.ChangedAt.of_rewrites {floor : Nat} {p : NodeId} {t t' : Tree} (h : Rewrites floor [] p t t') :
    ChangedAt p t t' :=
  ⟨h.size_le, fun _ hx hp => h.slot_eq hx hp List.not_mem_nil⟩

/-- The integer that a loop counts, as a value. -/
def Counting.valueOf (i : Int) : Value := [.ofFloat (Float.ofInt i)]

/-- Up to `2 ^ 53` the value is the integer. -/
theorem Counting.integer?_valueOf {i : Int} (low : -2 ^ 53 ≤ i) (high : i ≤ 2 ^ 53) :
    Value.integer? (valueOf i) = some i := Number.integer?_ofInt low high

/-- So many integers from `i` on, as values. -/
def Counting.valuesFrom (i : Int) : Nat → List Value
  | 0 => []
  | count + 1 => valueOf i :: valuesFrom (i + 1) count

/-- A loop has as many values as passes. -/
@[simp] theorem Counting.length_valuesFrom (i : Int) (count : Nat) : (valuesFrom i count).length = count := by
  induction count generalizing i with
  | zero => rfl
  | succ count ih => rw [valuesFrom, List.length_cons, ih]

/-- Where a loop stands, and what stands under it at the start. -/
structure LoopSite where
  parent : NodeId
  id : NodeId
  before : List NodeId
  after : List NodeId
  body : List (Rose Node)

namespace LoopSite

/-- The loop stands in its place with its body under it, and right behind it what its passes have made. -/
structure Holds (l : LoopSite) (outs : List NodeId) (t : Tree) : Prop where
  linked : t.LinkedFrom 0
  depth : ∃ d, t.Depth l.parent d
  children : t.children l.parent = l.before ++ l.id :: outs ++ l.after
  body : (t.children l.id).map (t.rose t.size) = l.body

variable {σ : Type}

/-- **One pass**, and what it has made when it ends. Copies of the body, with placeholders resolved by the
variable of the loop, are put behind what the passes before have made, and they are expanded there in a frame
of their own in which the variable is bound. -/
inductive Pass (l : LoopSite) (w : Walker σ) (mode : Mode) (name : String) (value : Value) (outs : List NodeId)
    (W : World σ) (new : List NodeId) : Except Stop Flow × World σ → Prop
  | mk {copies : List NodeId} {t : Tree} {x : Except Stop Flow} {W' : World σ} :
      l.Holds outs W.tree → l.Holds (outs ++ copies) t →
      copies.map (t.rose t.size) = l.body.map (Rose.interpolate (Bindings.lookup [⟨name, value⟩])) →
      (∀ c ∈ copies, W.tree.size ≤ c.index) → W.tree.ChangedAt l.parent t →
      (w.walkNodes mode copies).exec
        ⟨t, W.context.withScope ((W.context.scope.enter .loop).define name value), W.loader⟩ = (x, W') →
      l.Holds (outs ++ new) W'.tree → (∀ y ∈ new, W.tree.size ≤ y.index) → W.tree.ChangedAt l.parent W'.tree →
      Pass l w mode name value outs W new (x, W'.mapScope Scope.leave)

/-- **The passes** for some values of the variable, in order, and what each of them has made. They end early with
a pass that fails or returns a value. -/
inductive Runs (l : LoopSite) (w : Walker σ) (mode : Mode) (name : String) :
    List Value → List NodeId → World σ → List (List NodeId) → Except Stop Flow × World σ → Prop
  | done {outs : List NodeId} {W : World σ} : l.Holds outs W.tree →
      Runs l w mode name [] outs W [] (.ok .finished, W)
  | stop {value : Value} {values : List Value} {outs new : List NodeId} {W W' : World σ} {x : Except Stop Flow} :
      l.Pass w mode name value outs W new (x, W') → x ≠ .ok .finished →
      Runs l w mode name (value :: values) outs W [new] (x, W')
  | next {value : Value} {values : List Value} {outs new : List NodeId} {W W₁ : World σ}
      {more : List (List NodeId)} {ending : Except Stop Flow × World σ} :
      l.Pass w mode name value outs W new (.ok .finished, W₁) →
      Runs l w mode name values (outs ++ new) W₁ more ending →
      Runs l w mode name (value :: values) outs W (new :: more) ending

/-- The passes for so many integers from `i` on, each of which the variable holds as it is. -/
inductive Unrolls (l : LoopSite) (w : Walker σ) (mode : Mode) (name : String) :
    Int → Nat → List NodeId → World σ → List (List NodeId) → Except Stop Flow × World σ → Prop
  | done {i : Int} {outs : List NodeId} {W : World σ} : l.Holds outs W.tree →
      Unrolls l w mode name i 0 outs W [] (.ok .finished, W)
  | stop {i : Int} {count : Nat} {outs new : List NodeId} {W W' : World σ} {x : Except Stop Flow} :
      Value.integer? (Counting.valueOf i) = some i →
      l.Pass w mode name (Counting.valueOf i) outs W new (x, W') → x ≠ .ok .finished →
      Unrolls l w mode name i (count + 1) outs W [new] (x, W')
  | next {i : Int} {count : Nat} {outs new : List NodeId} {W W₁ : World σ} {more : List (List NodeId)}
      {ending : Except Stop Flow × World σ} :
      Value.integer? (Counting.valueOf i) = some i →
      l.Pass w mode name (Counting.valueOf i) outs W new (.ok .finished, W₁) →
      Unrolls l w mode name (i + 1) count (outs ++ new) W₁ more ending →
      Unrolls l w mode name i (count + 1) outs W (new :: more) ending

/-- The loop has gone, and what its passes have made stands in its place as they have left it. -/
structure Replaced (l : LoopSite) (outs : List NodeId) (t t' : Tree) : Prop where
  children : t'.children l.parent = l.before ++ outs ++ l.after
  alone : t'.parent? l.id = none
  roses : outs.map (t'.rose t'.size) = outs.map (t.rose t.size)

/-- When a loop is dropped, it gives way to what its passes have made. -/
theorem Holds.dropped {l : LoopSite} {outs : List NodeId} {t : Tree} (h : l.Holds outs t) :
    l.Replaced outs t ((t.setChildren l.id []).remove l.parent l.id) := by
  obtain ⟨d, hd⟩ := h.depth
  obtain ⟨rs, labels, shapes⟩ := Tree.exists_map_label (P := t.Shape) (l.id :: outs) fun c hc => by
    have child : c ∈ t.children l.parent := by
      rw [h.children]
      exact List.mem_append_left _ (List.mem_append_right _ hc)
    exact h.linked.exists_shape (.under (h.linked.child (Nat.zero_le _) child).2 hd) (Nat.zero_le _)
  obtain ⟨⟨_, cs⟩, us, rfl, rfl, rfl⟩ := List.map_eq_cons_iff.1 labels
  -- the loop and what has been made fill a place, from which the loop is dropped
  have site : t.Site 0 l.parent l.before (⟨l.id, cs⟩ :: us) l.after :=
    ⟨h.linked, Nat.zero_le _, ⟨d, hd⟩, by simpa using h.children, shapes⟩
  obtain ⟨site', -, node⟩ := Tree.Site.drop [] us site
  refine ⟨by simpa using site'.children, ?_, ?_⟩
  · have parent : t.parent? l.id = some l.parent := (site.parent?_label (List.mem_cons_self)).2
    unfold Tree.remove
    split
    · exact Tree.parent?_detach_self _ _
    · rename_i moved
      rw [Tree.parent?_setChildren_nil] at moved ⊢
      split at moved
      · rename_i under
        rw [if_pos under]
      · exact absurd parent moved
  · rw [List.map_map, List.map_map]
    refine List.map_congr_left fun r hr => ?_
    have read' := site'.rose_eq hr
    have read := site.rose_eq (List.mem_cons_of_mem _ hr)
    rw [Function.comp_apply, Function.comp_apply, read, ← Rose.map_congr fun x _ => node x]
    exact read'

/-- A pass leaves the loop in its place, with what has been made behind it. -/
theorem Pass.holds {l : LoopSite} {w : Walker σ} {mode : Mode} {name : String} {value : Value}
    {outs new : List NodeId} {W W' : World σ} {x : Except Stop Flow}
    (h : l.Pass w mode name value outs W new (x, W')) : l.Holds (outs ++ new) W'.tree := by
  generalize hx : (x, W') = ending at h
  obtain ⟨-, -, -, -, -, -, holds, -, -⟩ := h
  cases hx
  exact holds

/-- Wherever the passes end, what they have made stands behind the loop, in order. When none of them has ended
early, there is one for each value. -/
theorem Runs.ended {l : LoopSite} {w : Walker σ} {mode : Mode} {name : String} {values : List Value}
    {outs : List NodeId} {W W' : World σ} {made : List (List NodeId)} {x : Except Stop Flow}
    (h : l.Runs w mode name values outs W made (x, W')) :
    l.Holds (outs ++ made.flatten) W'.tree ∧ (x = .ok .finished → made.length = values.length) := by
  generalize hx : (x, W') = ending at h
  induction h with
  | done holds =>
    cases hx
    exact ⟨by simpa using holds, fun _ => rfl⟩
  | stop passed ne =>
    cases hx
    exact ⟨by simpa using passed.holds, fun finished => absurd finished ne⟩
  | next _ _ ih =>
    obtain ⟨holds, length⟩ := ih hx
    exact ⟨by simpa using holds, fun finished => by rw [List.length_cons, List.length_cons, length finished]⟩

/-- Passes for integers that the variable holds as they are. -/
theorem Runs.unrolls {l : LoopSite} {w : Walker σ} {mode : Mode} {name : String} {i : Int} {count : Nat}
    {outs : List NodeId} {W : World σ} {made : List (List NodeId)} {ending : Except Stop Flow × World σ}
    (h : l.Runs w mode name (Counting.valuesFrom i count) outs W made ending)
    (exact : ∀ j, i ≤ j → j < i + count → Value.integer? (Counting.valueOf j) = some j) :
    l.Unrolls w mode name i count outs W made ending := by
  induction count generalizing i outs W made with
  | zero =>
    cases h with
    | done holds => exact .done holds
  | succ count ih =>
    have value := exact i (Int.le_refl i) (by omega)
    cases h with
    | stop passed ne => exact .stop value passed ne
    | next passed rest => exact .next value passed (ih rest fun j low high => exact j (by omega) (by omega))

end LoopSite

namespace Counting

variable {σ : Type}

/-- So many passes are made: one for each integer from `a` on up to `b`, which is left out unless the loop is
inclusive. -/
def passes (loop : Counting) (a b : Int) : Nat := (b - a).toNat + if loop.inclusive then 1 else 0

/-- A loop is **reached**: it stands under its parent in a tree that hangs together, and its bounds are
evaluated to integers. The second world is the one that the bounds leave. -/
structure Reached (loop : Counting) (services : Services σ) (depth : Nat) (p id : NodeId) (a b : Int)
    (W W' : World σ) : Prop where
  linked : W.tree.LinkedFrom 0
  placed : ∃ d, W.tree.Depth p d
  child : W.tree.parent? id = some p
  node : W.tree.node id = .counting loop
  bounds : ∃ low high W₁, (evaluate services depth loop.low).exec W = (.ok low, W₁) ∧ low.integer? = some a ∧
    (evaluate services depth loop.high).exec W₁ = (.ok high, W') ∧ high.integer? = some b

/-- A loop is **unrolled**: its passes are made with the body that stands under it when it is reached. When
none of them fails, the loop goes, and what they have made stands in its place, in order; so many passes have
been made, unless one of them has returned a value. When one fails, so does the loop. -/
def Unrolled (loop : Counting) (services : Services σ) (depth : Nat) (mode : Mode) (p id : NodeId) (a b : Int)
    (W W' : World σ) : Prop :=
  ∃ before after, W.tree.children p = before ++ id :: after ∧
    let l : LoopSite := ⟨p, id, before, after, (W.tree.children id).map (W.tree.rose W.tree.size)⟩
    ∃ made x W₃,
      l.Unrolls (walker services depth) mode loop.variableName a (loop.passes a b) [] W' made (x, W₃) ∧
      match x with
      | .error e => (traverse services (depth + 1) id mode).exec W = (.error e, W₃)
      | .ok flow => ∃ t, (traverse services (depth + 1) id mode).exec W = (.ok flow, { W₃ with tree := t }) ∧
          l.Replaced made.flatten W₃.tree t ∧ (flow = .finished → made.length = loop.passes a b)

/-- A loop has **run** for some values of its variable: its passes are made with the body that stands under it when
it is reached. When none of them fails, the loop goes, and what they have made stands in its place, in order; there
is one for each value, unless one of them has returned a value. When one fails, so does the loop. -/
def Ran (loop : Counting) (services : Services σ) (depth : Nat) (mode : Mode) (p id : NodeId) (values : List Value)
    (W W' : World σ) : Prop :=
  ∃ before after, W.tree.children p = before ++ id :: after ∧
    let l : LoopSite := ⟨p, id, before, after, (W.tree.children id).map (W.tree.rose W.tree.size)⟩
    ∃ made x W₃, l.Runs (walker services depth) mode loop.variableName values [] W' made (x, W₃) ∧
      match x with
      | .error e => (traverse services (depth + 1) id mode).exec W = (.error e, W₃)
      | .ok flow => ∃ t, (traverse services (depth + 1) id mode).exec W = (.ok flow, { W₃ with tree := t }) ∧
          l.Replaced made.flatten W₃.tree t ∧ (flow = .finished → made.length = values.length)

end Counting

section

variable {σ τ : Type} {L : σ → τ → Prop} {old : List (NodeId × List String)} {p id : NodeId}
  {before after : List NodeId} {cs outs : List (Rose NodeId)} {block : Option NodeId} {mode : Mode}
  {ids : List NodeId} {body : List (Rose Node)} {W : World σ} {V : World τ}

/-- A loop between two passes holds its place. -/
theorem LoopState.holds (hl : LoopState L old 0 p id before after cs block body outs ids W V) :
    (⟨p, id, before, after, body⟩ : LoopSite).Holds (outs.map Rose.label) W.tree where
  linked := hl.site.linked
  depth := hl.site.depth
  children := by simpa using hl.site.children
  body := by
    have whole : W.tree.Site 0 p before ([] ++ [⟨id, cs⟩] ++ outs) after := hl.site
    have under := whole.middle.under
    have children : W.tree.children id = cs.map Rose.label := by simpa using under.children
    dsimp only
    rw [children, ← hl.body_eq, List.map_map]
    exact List.map_congr_left fun c hc => under.rose_eq hc

/-- It holds its place when nothing but the place behind it has changed. -/
theorem LoopState.holds_of_contained (hl : LoopState L old 0 p id before after cs block body outs ids W V)
    {t' : Tree}
    (h : W.tree.Contained 0 p (before ++ (⟨id, cs⟩ :: outs : List (Rose NodeId)).map Rose.label) [] after t') :
    ∃ new, (⟨p, id, before, after, body⟩ : LoopSite).Holds (outs.map Rose.label ++ new) t' ∧
      (∀ x ∈ new, W.tree.size ≤ x.index) ∧ W.tree.ChangedAt p t' := by
  obtain ⟨new, children, fresh⟩ := h.children
  have whole : W.tree.Site 0 p before ([] ++ [⟨id, cs⟩] ++ outs) after := hl.site
  -- neither the loop nor its body is the parent, so they are as they were
  have apart : ∀ x, x = id ∨ x ∈ cs.flatMap Rose.labels → x ≠ p ∧ x ∉ ([] : List NodeId) := by
    rintro x hx
    refine ⟨fun e => whole.middle.parent_not_mem ?_, List.not_mem_nil⟩
    rw [List.flatMap_singleton, Rose.labels_mk, List.mem_cons, ← e]
    exact hx
  have under : W.tree.Site 0 id [] cs [] := whole.middle.under
  have under' := under.unaffected h.rewrites (by simp) apart
  refine ⟨new, ⟨h.rewrites.linked, hl.empty.depth_of_rewrites h.rewrites, by simpa using children, ?_⟩,
    fun x hx => (fresh x hx).resolve_left List.not_mem_nil, .of_rewrites h.rewrites⟩
  have body : t'.children id = cs.map Rose.label := by simpa using under'.children
  dsimp only
  rw [body, ← hl.body_eq, List.map_map]
  refine List.map_congr_left fun c hc => (under'.rose_eq hc).trans (Rose.map_congr fun x hx => ?_)
  have hm : x ∈ cs.flatMap Rose.labels := List.mem_flatMap.2 ⟨c, hc, hx⟩
  rw [Tree.node_eq, h.rewrites.slot_eq (under.index_lt hm) (apart x (.inr hm)).1 List.not_mem_nil,
    ← Tree.node_eq]

/-- A pass puts copies of the body behind what has been made, and expands them. -/
theorem LoopState.exec_pass (hl : LoopState L old 0 p id before after cs block body outs ids W V) {w : Walker σ}
    {name : String} {value : Value} {x : Except Stop Flow} {W' : World σ}
    (run : (w.pass ⟨p, id, after.head?⟩ mode (some (name, value))).exec W = (x, W')) {new : List NodeId}
    (made : (⟨p, id, before, after, body⟩ : LoopSite).Holds (outs.map Rose.label ++ new) W'.tree ∧
      (∀ y ∈ new, W.tree.size ≤ y.index) ∧ W.tree.ChangedAt p W'.tree) :
    (⟨p, id, before, after, body⟩ : LoopSite).Pass w mode name value (outs.map Rose.label) W new (x, W') := by
  unfold Walker.pass at run
  rw [exec_inFrame] at run
  dsimp only at run
  rw [exec_modifyScope_bind, exec_innermostLookup_bind, exec_changeTree_bind] at run
  have bound : ((W.context.scope.enter .loop).define name value).innermost = [⟨name, value⟩] := rfl
  simp only [World.tree_mapScope, World.context_mapScope, World.loader_mapScope, Context.scope_withScope,
    Context.withScope_withScope, bound] at run
  rcases he : Tree.spliceAfter (Tree.copyInterpolated (Bindings.lookup [⟨name, value⟩])) p
    (W.tree.passAnchor p id after.head?) (W.tree.children id) W.tree with ⟨labels, t⟩
  rw [he] at run
  obtain ⟨copies, rfl, reworked, nodes, fresh⟩ := hl.site.copies _ he
  have placed : LoopState L old 0 p id before after cs block body (outs ++ copies) ids { W with tree := t } V :=
    hl.of_made (List.prefix_refl ids) (hl.mirrors.of_unmoved ⟨rfl, rfl⟩) reworked
  have holds := placed.holds
  rw [List.map_append] at holds
  -- what the copies are is read off from the tree in which nothing of them has been expanded yet
  have read : (copies.map Rose.label).map (t.rose t.size) =
      body.map (Rose.interpolate (Bindings.lookup [⟨name, value⟩])) := by
    rw [← hl.body_eq, ← nodes, List.map_map]
    exact List.map_congr_left fun c hc => reworked.site.rose_eq hc
  obtain ⟨rfl, rfl⟩ := Prod.mk.inj run
  refine .mk hl.holds holds read (fun c hc => ?_) (.of_rewrites reworked.rewrites) rfl made.1 made.2.1 made.2.2
  obtain ⟨r, hr, rfl⟩ := List.mem_map.1 hc
  exact fresh _ (List.mem_flatMap.2 ⟨r, hr, r.label_mem_labels⟩)

/-- **The passes are made** one after the other. -/
theorem LoopState.exec_passesFrom (mode : Mode) {w : Walker σ} {d : Deriver τ} (h : w.Realizes L True d)
    (name : String) (count : Nat) (i : Int) :
    ∀ outs ids W V, LoopState L old 0 p id before after cs block body outs ids W V →
      ∃ made, (⟨p, id, before, after, body⟩ : LoopSite).Runs w mode name (Counting.valuesFrom i count)
        (outs.map Rose.label) W made ((w.passesFrom ⟨p, id, after.head?⟩ mode name count i).exec W) := by
  -- by induction on the passes that are left: each one leaves the loop in its place, with more behind it
  induction count generalizing i with
  | zero => exact fun outs ids W V hl => ⟨[], .done hl.holds⟩
  | succ count ih =>
    intro outs ids W V hl
    have matching := h.pass (fun _ : mode ≠ .function => trivial) (some (name, [.ofFloat (Float.ofInt i)])) hl
    rw [Walker.passesFrom, exec_bind]
    revert matching
    rcases run : (w.pass ⟨p, id, after.head?⟩ mode (some (name, [.ofFloat (Float.ofInt i)]))).exec W with
      ⟨x, W₁⟩
    generalize (d.pass block mode body _).exec V = Y
    intro matching
    -- a pass that does not finish is the last one
    cases matching with
    | error kept =>
      obtain ⟨new, made⟩ := hl.holds_of_contained kept.contained
      exact ⟨[new], .stop (hl.exec_pass run made) (by simp)⟩
    | @ok flow _ yield V₁ ended =>
      match flow, yield, ended with
      | .returned _, .returned _, ⟨_, kept⟩ =>
        obtain ⟨new, made⟩ := hl.holds_of_contained kept.contained
        exact ⟨[new], .stop (hl.exec_pass run made) (by simp)⟩
      | .finished, .finished _, ended =>
        obtain ⟨ids₁, new, hi, hw₁, reworked, -⟩ := ended.shapes
        have next := hl.of_made hi hw₁ reworked
        have holds := next.holds
        obtain ⟨made, rest⟩ := ih (i + 1) _ _ _ _ next
        rw [List.map_append] at rest holds
        refine ⟨new.map Rose.label :: made, .next (hl.exec_pass run ⟨holds, fun x hx => ?_,
          .of_rewrites reworked.rewrites⟩) rest⟩
        obtain ⟨r, hr, rfl⟩ := List.mem_map.1 hx
        exact (reworked.owned _ (List.mem_flatMap.2 ⟨r, hr, r.label_mem_labels⟩)).resolve_left List.not_mem_nil

/-- Evaluating a value leaves a loop in its place. -/
theorem LoopState.evaluated {V : World σ}
    (hl : LoopState (· = ·) old 0 p id before after cs block body outs ids W V)
    (services : Services σ) (depth : Nat) {value result : Value} {W' : World σ}
    (run : (evaluate services depth value).exec W = (.ok result, W')) :
    LoopState (· = ·) old 0 p id before after cs block body outs ids W' V := by
  have echoes := (walker_realizes rfl services.loadsAlike_refl depth).evaluate value
  have grown := echoes.grown hl.mirrors.toAlike
  have unmoved := echoes.unmoved hl.mirrors.toAlike
  change W.tree.Grown ((evaluate services depth value).exec W).2.tree at grown
  change Unmoved W ((evaluate services depth value).exec W).2 at unmoved
  rw [run] at grown unmoved
  exact hl.of_grown grown (hl.mirrors.of_unmoved unmoved)

/-- A loop whose bounds are evaluated to integers makes its passes. -/
theorem Counting.Reached.exec_expandCounting {services : Services σ} {depth : Nat} {loop : Counting} {a b : Int}
    {W W' : World σ} (h : loop.Reached services depth p id a b W W') (mode : Mode) (place : LoopPlace)
    (le : a ≤ b) :
    ((walker services depth).expandCounting place mode loop).exec W =
      ((walker services depth).passesFrom place mode loop.variableName (loop.passes a b) a).exec W' := by
  obtain ⟨low, high, W₁, hlow, ha, hhigh, hb⟩ := h.bounds
  unfold Walker.expandCounting
  rw [exec_bind, exec_bound (w := walker services depth) "from" hlow ha]
  dsimp only
  rw [exec_bind, exec_bound (w := walker services depth) "to" hhigh hb]
  dsimp only
  rw [if_neg (Int.not_lt.2 le)]
  rfl

/-- Where it is reached, a loop is expanded in its place, and then it is dropped. -/
theorem Counting.Reached.exec_traverse {services : Services σ} {depth : Nat} {loop : Counting} {a b : Int}
    {W W' : World σ} (h : loop.Reached services depth p id a b W W') (mode : Mode) {before after : List NodeId}
    {cs : List (Rose NodeId)} (hs : W.tree.Site 0 p before [⟨id, cs⟩] after) :
    (traverse services (depth + 1) id mode).exec W = (do
      let flow ← (walker services depth).expandCounting ⟨p, id, after.head?⟩ mode loop
      modifyTree fun t => (t.setChildren id []).remove p id
      pure flow : Expansion σ Flow).exec W := by
  have allowed : mode.allows (.counting loop) = .ok () := by cases mode <;> rfl
  rw [traverse]
  unfold Walker.traverseWith
  rw [exec_tree_bind, h.node]
  dsimp only
  rw [allowed, exec_ofExcept_ok_bind]
  unfold Walker.expandDirective
  rw [exec_tree_bind, hs.parentOf, exec_ofExcept_ok_bind, h.node, hs.head?_after]
  rfl

/-- Where a loop is reached, it makes its passes. -/
theorem Counting.Reached.ran {services : Services σ} {depth : Nat} {loop : Counting} {a b : Int}
    {W W' : World σ} (h : loop.Reached services depth p id a b W W') (mode : Mode) (le : a ≤ b) :
    loop.Ran services depth mode p id (valuesFrom a (loop.passes a b)) W W' := by
  obtain ⟨d, hd⟩ := h.placed
  obtain ⟨before, after, hc⟩ := List.append_of_mem (h.linked.parent (Nat.zero_le _) h.child).2
  obtain ⟨cs, hs⟩ := h.linked.exists_site (Nat.zero_le _) hd hc
  obtain ⟨ids, block, around⟩ := hd.exists_around
  have start :
      LoopState (· = ·) W.context.extensions 0 p id before after cs block (cs.map (Rose.map W.tree.node)) []
      ids W _ := ⟨hs, around, mirrors_bare ids W, rfl⟩
  obtain ⟨low, high, W₁, hlow, -, hhigh, -⟩ := h.bounds
  -- evaluating the bounds may define nothing in the tree, but it may let it grow
  have ready := (start.evaluated services depth hlow).evaluated services depth hhigh
  obtain ⟨made, runs⟩ := ready.exec_passesFrom mode (walker_realizes rfl services.loadsAlike_refl depth)
    loop.variableName (loop.passes a b) a
  have body : (W.tree.children id).map (W.tree.rose W.tree.size) = cs.map (Rose.map W.tree.node) :=
    start.holds.body
  rw [← body] at runs
  refine ⟨before, after, hc, made, ?_⟩
  rw [h.exec_traverse mode hs, exec_bind, h.exec_expandCounting mode _ le]
  revert runs
  rcases ((walker services depth).passesFrom ⟨p, id, after.head?⟩ mode _ _ a).exec W' with ⟨x, W₃⟩
  intro runs
  refine ⟨x, W₃, runs, ?_⟩
  rcases x with e | flow
  · rfl
  · refine ⟨(W₃.tree.setChildren id []).remove p id, rfl, ?_⟩
    obtain ⟨holds, length⟩ := runs.ended
    exact ⟨holds.dropped, fun finished => length (by rw [finished])⟩

/-- **Counting loops unroll.** Where a loop is reached with bounds `a ≤ b` within `2 ^ 53`, it is unrolled. -/
theorem Counting.Reached.unrolled {services : Services σ} {depth : Nat} {loop : Counting} {a b : Int}
    {W W' : World σ} (h : loop.Reached services depth p id a b W W') (mode : Mode) (le : a ≤ b)
    (least : -2 ^ 53 ≤ a) (greatest : b ≤ 2 ^ 53) : loop.Unrolled services depth mode p id a b W W' := by
  obtain ⟨before, after, hc, made, x, W₃, runs, ending⟩ := h.ran mode le
  rw [length_valuesFrom] at ending
  refine ⟨before, after, hc, made, x, W₃, runs.unrolls fun j hj hj' => integer?_valueOf (by omega) ?_, ending⟩
  unfold passes at hj'
  split at hj' <;> omega

end

end Stylesheet

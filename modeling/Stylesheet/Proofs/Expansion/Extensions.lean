import Mathlib.Data.List.FinRange
import Stylesheet.Proofs.Expansion.Flattening
import Stylesheet.Proofs.Expansion.Output
import Stylesheet.Proofs.Selector.Closure

/-! # Extensions of class selectors

In a sheet of blocks with class selectors and extensions in them (**`ExtendingBlock`**), every extension is
carried out once, in the order in which they were noted. The blocks end with the least selectors that
satisfy all extensions (**`Tree.Settles`**, `compile_extending`): chains and cycles of extensions are
followed to their ends, whatever their order. -/

namespace Stylesheet

open Expansion

/-- A block with its selectors, and what the extensions in it extend. -/
structure ExtendingBlock where
  own : List String
  extensions : List (List String)

namespace ExtendingBlock

/-- A block as it stands in a stylesheet. -/
def rose (b : ExtendingBlock) : Rose Node :=
  ⟨.block b.own, b.extensions.map fun targets => ⟨.extend targets, []⟩⟩

/-- All selectors and all targets are single classes. -/
structure OfClasses (b : ExtendingBlock) : Prop where
  own : ∀ s ∈ b.own, Selector.IsClass s
  targets : ∀ targets ∈ b.extensions, ∀ t ∈ targets, Selector.IsClass t

variable (sheet : List ExtendingBlock)

/-- The own selectors of the blocks of a sheet. -/
def ownOf : Fin sheet.length → Set String := fun i => {s | s ∈ sheet[i].own}

/-- The extensions of a sheet: which block extends which targets. -/
def extensionsOf : Set (Fin sheet.length × List String) := {x | x.2 ∈ sheet[x.1].extensions}

end ExtendingBlock

/-- The blocks under the root have their own selectors in front, and together the least selectors that
satisfy the extensions of the sheet. -/
structure Tree.Settles (sheet : List ExtendingBlock) (t : Tree) : Prop where
  intro ::
  exists_selectors : ∃ selectors : Fin sheet.length → List String,
    (t.children root).map t.node = List.ofFn (fun i => .block (selectors i)) ∧
      (∀ i, sheet[i].own <+: selectors i) ∧
      IsLeast {S | Selector.Closed (ExtendingBlock.ownOf sheet) (ExtendingBlock.extensionsOf sheet) S}
        fun i => {s | s ∈ selectors i}

/-- There is no placeholder in a class selector. -/
theorem Selector.IsClass.plain {s : String} (h : IsClass s) : Interpolation.Plain s := by
  obtain ⟨name, eq, chars⟩ := h
  have none : '#' ∉ s.toList := by
    rw [eq, List.mem_cons, not_or]
    exact ⟨by decide, fun member => absurd (chars _ member) (by decide)⟩
  exact fun opened => none (opened.subset (by simp))

/-! ## Carrying out extensions -/

namespace Tree

/-- What extending does to a node. -/
def extendNode (targets extenders : List String) : Node → Node
  | .block selectors => .block (Selector.extendAll selectors targets extenders)
  | n => n

section

variable {t : Tree} {targets extenders : List String} {id x : NodeId} {blocks : List NodeId}

/-- Extending a block changes its own node only. -/
theorem node_extendBlock (targets extenders : List String) (t : Tree) (id x : NodeId) :
    (t.extendBlock targets extenders id).node x =
      if x = id then extendNode targets extenders (t.node x) else t.node x := by
  unfold extendBlock
  split
  · rename_i selectors block
    split
    · rename_i e
      subst e
      rw [node_setNode_self t x _ (lt_size_of_node_ne (by rw [block]; nofun)), block]
      rfl
    · rename_i ne
      exact node_setNode_of_ne t _ ne
  · rename_i other
    split
    · rename_i e
      subst e
      cases h : t.node x with
      | block selectors => exact absurd h (other selectors)
      | _ => rfl
    · rfl

/-- Extending several blocks extends each of them. -/
theorem node_foldl_extendBlock (nodup : blocks.Nodup) (t : Tree) (x : NodeId) :
    (blocks.foldl (extendBlock targets extenders) t).node x =
      if x ∈ blocks then extendNode targets extenders (t.node x) else t.node x := by
  induction blocks generalizing t with
  | nil => simp
  | cons id blocks ih =>
    obtain ⟨notIn, nodup⟩ := List.nodup_cons.1 nodup
    rw [List.foldl_cons, ih nodup, node_extendBlock]
    by_cases e : x = id
    · subst e
      simp [notIn]
    · simp [e]

end

section

variable {n : Nat} {ids : Fin n → NodeId} {own : Fin n → Set String} {X : Set (Fin n × List String)}
  {f : Fin n → List String} {t : Tree}

/-- One extension spreads the selectors of the extending block over the blocks. -/
theorem extendBlocks_spread (inj : Function.Injective ids) (blocks : ∀ i, t.node (ids i) = .block (f i))
    (classes : ∀ i, ∀ s ∈ f i, Selector.IsClass s) {x : Fin n × List String}
    (hx : ∀ t ∈ x.2, Selector.IsClass t) :
    ∃ g : Fin n → List String,
      (∀ i, ((t.extendBlocks (List.ofFn ids) (ids x.1, x.2)).node (ids i)) = .block (g i)) ∧
        (∀ i, f i <+: g i) ∧
        (fun i => {s | s ∈ g i}) = Selector.spread (fun i => {s | s ∈ f i}) x := by
  refine ⟨fun i => Selector.extendAll (f i) x.2 (f x.1), fun i => ?_,
    fun i => Selector.isPrefix_extendAll _ _ _, ?_⟩
  · unfold extendBlocks
    dsimp only
    rw [blocks x.1]
    dsimp only
    rw [node_foldl_extendBlock (List.nodup_ofFn.2 inj), if_pos (List.mem_ofFn.2 ⟨i, rfl⟩), blocks]
    rfl
  · funext i
    ext s
    exact Selector.mem_extendAll (classes i) hx (classes x.1)

/-- Carrying out extensions one after the other leaves the least selectors that satisfy all of them. -/
theorem extensions_settle (inj : Function.Injective ids) (L : List (Fin n × List String))
    (hL : ∀ x ∈ L, ∀ t ∈ x.2, Selector.IsClass t) (blocks : ∀ i, t.node (ids i) = .block (f i))
    (classes : ∀ i, ∀ s ∈ f i, Selector.IsClass s)
    (least : IsLeast {S | Selector.Closed own X S} fun i => {s | s ∈ f i}) :
    ∃ g : Fin n → List String,
      (∀ i, ((L.map fun x => (ids x.1, x.2)).foldl (extendBlocks (List.ofFn ids)) t).node (ids i) =
        .block (g i)) ∧ (∀ i, f i <+: g i) ∧
      IsLeast {S | Selector.Closed own (X ∪ {x | x ∈ L}) S} fun i => {s | s ∈ g i} := by
  induction L generalizing t f X with
  | nil => exact ⟨f, blocks, fun i => List.prefix_refl _, by simpa using least⟩
  | cons x L ih =>
    have hx := hL x (.head L)
    obtain ⟨g, blocks', grown, spread⟩ := extendBlocks_spread inj blocks classes hx
    have least' := Selector.isLeast_spread least x
    -- what spreads are classes again, so the next extension finds the blocks as this one did
    have classes' : ∀ i, ∀ s ∈ g i, Selector.IsClass s := by
      intro i s hs
      have member : s ∈ Selector.spread (fun i => {s | s ∈ f i}) x i := by
        rw [← spread]
        exact hs
      rcases member with hs | ⟨-, hs⟩
      · exact classes i s hs
      · exact classes x.1 s hs
    rw [← spread] at least'
    obtain ⟨g', blocks'', grown', least''⟩ := ih (fun y hy => hL y (.tail x hy)) blocks' classes' least'
    refine ⟨g', blocks'', fun i => (grown i).trans (grown' i), ?_⟩
    have all : insert x X ∪ {y | y ∈ L} = X ∪ {y | y ∈ x :: L} := by
      ext y
      simp only [Set.mem_union, Set.mem_insert_iff, Set.mem_ofPred_eq, List.mem_cons]
      tauto
    rwa [all] at least''

/-- Where only blocks with nothing in them stand under the root, they are all that extensions reach. -/
theorem filter_isBlock_descendants (hs : t.Site 0 root [] ((List.ofFn ids).map (⟨·, []⟩)) [])
    (top : t.node root = .root) (alone : t.parent? root = none) (blocks : ∀ i, t.node (ids i) = .block (f i)) :
    (t.descendants root).filter (fun x => (t.node x).isBlock) = List.ofFn ids := by
  have shape : t.Shape ⟨root, (List.ofFn ids).map (⟨·, []⟩)⟩ := .mk root _ (by simpa using hs.children) hs.shapes
  have listed : t.descendants root = _ :=
    shape.descendantsTo_eq hs.linked (.top hs.lt_size alone) (Nat.zero_le _) (by omega)
  have labels : (List.ofFn ids).flatMap (fun x => (Rose.mk x []).labels) = List.ofFn ids := by simp
  rw [listed, Rose.labels_mk, List.flatMap_map, labels,
    List.filter_cons_of_neg (by rw [top]; exact Bool.false_ne_true), List.filter_eq_self]
  intro x hx
  obtain ⟨i, rfl⟩ := List.mem_ofFn.1 hx
  rw [blocks, Node.isBlock_block]

/-- When the blocks of a sheet stand under the root, carrying out its extensions in any order settles
them. -/
theorem settles_applyExtensions {sheet : List ExtendingBlock} (classes : ∀ b ∈ sheet, b.OfClasses)
    {ids : List NodeId} (length : ids.length = sheet.length)
    (hs : t.Site 0 root [] (ids.map (⟨·, []⟩)) []) (top : t.node root = .root)
    (alone : t.parent? root = none)
    (blocks : ∀ i : Fin sheet.length, t.node ids[i] = .block sheet[i].own)
    {noted : List (NodeId × List String)}
    (hn : ∀ e, e ∈ noted ↔ ∃ i : Fin sheet.length, e.1 = ids[i] ∧ e.2 ∈ sheet[i].extensions) :
    Settles sheet (t.applyExtensions noted) := by
  have number : ids = List.ofFn fun i : Fin sheet.length => ids[i] :=
    List.ext_getElem (by simp [length]) (by simp)
  generalize hids : (fun i : Fin sheet.length => ids[i]) = id at number
  have id_eq (i : Fin sheet.length) : ids[i] = id i := by rw [← hids]
  simp only [id_eq] at blocks hn
  subst number
  have children : t.children root = List.ofFn id := by simpa [Function.comp_def] using hs.children
  have inj : Function.Injective id := by
    rw [← List.nodup_ofFn, ← children]
    exact hs.linked.nodup (Nat.zero_le _)
  have all := filter_isBlock_descendants hs top alone blocks
  -- each extension that was noted is one of the sheet
  let place (x : Fin sheet.length × List String) : NodeId × List String := (id x.1, x.2)
  obtain ⟨L, rfl⟩ : noted ∈ Set.range (List.map place) := by
    rw [Set.range_list_map]
    intro e he
    obtain ⟨i, block, -⟩ := (hn e).1 he
    exact ⟨(i, e.2), Prod.ext block.symm rfl⟩
  have members : {x | x ∈ L} = ExtendingBlock.extensionsOf sheet := by
    ext x
    have injective : Function.Injective place := fun x y e =>
      Prod.ext (inj (Prod.mk.inj e).1) (Prod.mk.inj e).2
    rw [Set.mem_ofPred_eq, ← List.mem_map_of_injective injective, hn]
    constructor
    · rintro ⟨i, block, member⟩
      obtain rfl : x.1 = i := inj block
      exact member
    · exact fun member => ⟨x.1, rfl, member⟩
  obtain ⟨g, settled, grown, least⟩ := extensions_settle (X := ∅) inj L
    (fun x hx => (classes _ (List.getElem_mem _)).targets x.2 (members.subset hx)) blocks
    (fun i => (classes _ (List.getElem_mem _)).own) (Selector.isLeast_own _)
  rw [Set.empty_union, members] at least
  refine ⟨g, ?_, grown, least⟩
  have same := (restyled_applyExtensions t (L.map place)).children_eq root
  rw [same, children, List.map_ofFn]
  congr 1
  funext i
  rw [Function.comp_apply, applyExtensions, all]
  exact settled i

end

end Tree

/-! ## Deriving a sheet -/

namespace Deriver

variable {τ : Type} {first rest : Expansion τ Yield} {made made' : List (Rose Stem)} {V V' V'' : World τ}

/-- What has been made first stands in front of what is made afterwards. -/
theorem exec_followedBy (h : first.exec V = (.ok (.finished made), V'))
    (h' : rest.exec V' = (.ok (.finished made'), V'')) :
    (followedBy first rest).exec V = (.ok (.finished (made ++ made')), V'') := by
  unfold followedBy wrapped
  rw [exec_bind, h]
  dsimp only
  rw [exec_bind, h']
  rfl

/-- What has been made is changed in the end. -/
theorem exec_wrapped (f : List (Rose Stem) → List (Rose Stem))
    (h : first.exec V = (.ok (.finished made), V')) :
    (wrapped f first).exec V = (.ok (.finished (f made)), V') := by
  unfold wrapped
  rw [exec_bind, h]
  rfl

end Deriver

/-- A world with more extensions noted. -/
def World.note {τ : Type} (V : World τ) (more : List (NodeId × List String)) : World τ :=
  { V with context := { V.context with extensions := V.context.extensions ++ more } }

section

variable {τ : Type} (services : Services τ) (depth steps : Nat)

variable {depth steps}

/-- The extensions in a block are noted, and nothing is made of them. -/
theorem exec_derive_extends (mark : NodeId) (extensions : List (List String))
    (deep : extensions ≠ [] → 0 < depth) (enough : extensions.length ≤ steps) (V : World τ) :
    ((deriver services depth).deriveFrom (some mark) .stylesheet steps
      (extensions.map fun targets => ⟨.extend targets, []⟩)).exec V =
      (.ok (.finished []), V.note (extensions.map fun targets => (mark, targets))) := by
  induction extensions generalizing steps V with
  | nil =>
    rw [List.map_nil, Deriver.deriveFrom.eq_1, exec_pure]
    simp [World.note]
  | cons targets extensions ih =>
    obtain ⟨steps, rfl⟩ := Nat.exists_eq_succ_of_ne_zero (Nat.ne_zero_of_lt enough)
    obtain ⟨depth, rfl⟩ := Nat.exists_eq_succ_of_ne_zero (Nat.pos_iff_ne_zero.1 (deep (List.cons_ne_nil _ _)))
    have rest := ih (fun _ => Nat.succ_pos depth) (Nat.le_of_succ_le_succ enough)
      (V.note [(mark, targets)])
    have first : ((deriver services (depth + 1)).derive (some mark) .stylesheet
        ⟨.extend targets, []⟩).exec V = (.ok (.finished []), V.note [(mark, targets)]) := rfl
    rw [List.map_cons, Deriver.deriveFrom, Deriver.exec_followedBy first rest]
    simp [World.note]

/-- A block of a sheet is entered in the register, and its extensions are noted for it. -/
theorem exec_derive_block {b : ExtendingBlock} (classes : b.OfClasses) (deep : b.extensions.length < depth)
    (V : World τ) :
    ((deriver services depth).derive none .stylesheet b.rose).exec V =
      (.ok (.finished [⟨⟨.block b.own, some ⟨V.tree.size⟩⟩, []⟩]),
        { V with tree := (V.tree.create (.block b.own)).2 }.note
          (b.extensions.map fun targets => (⟨V.tree.size⟩, targets))) := by
  obtain ⟨depth, rfl⟩ := Nat.exists_eq_succ_of_ne_zero (Nat.ne_zero_of_lt deep)
  have plain : b.own.map (interpolate V.context.scope.get?) = b.own := by
    rw [List.map_congr_left (g := id) fun s hs => (classes.own s hs).plain.interpolate _, List.map_id]
  have inside := exec_derive_extends services
    ⟨V.tree.size⟩ b.extensions (fun h => (List.length_pos_iff.2 h).trans_le (Nat.le_of_lt_succ deep))
    (Nat.le_of_lt_succ deep) { V with tree := (V.tree.create (.block b.own)).2 }
  show ((Deriver.deriveWith services (deriver services depth) none .stylesheet b.rose).exec V) = _
  unfold Deriver.deriveWith ExtendingBlock.rose
  rw [Rose.label_mk, Mode.allows_stylesheet, exec_ofExcept_ok_bind]
  dsimp only
  unfold Deriver.deriveBlock Deriver.deriveChildren
  rw [exec_scope_bind, plain, exec_changeTree_bind, steps_deriver]
  exact Deriver.exec_wrapped (Deriver.flatten b.own ⟨V.tree.size⟩) inside

/-- What is derived of the blocks of a sheet, when this is the number of the first one. -/
def ExtendingBlock.stems (first : Nat) (sheet : List ExtendingBlock) : List (Rose Stem) :=
  (sheet.zipIdx first).map fun b => ⟨⟨.block b.1.own, some ⟨b.2⟩⟩, []⟩

/-- The extensions that are noted for the blocks of a sheet. -/
def ExtendingBlock.notes (first : Nat) (sheet : List ExtendingBlock) : List (NodeId × List String) :=
  (sheet.zipIdx first).flatMap fun b => b.1.extensions.map fun targets => (⟨b.2⟩, targets)

/-- All blocks of a sheet are entered, and all extensions are noted. -/
theorem exec_derive_sheet {sheet : List ExtendingBlock} (classes : ∀ b ∈ sheet, b.OfClasses)
    (deep : ∀ b ∈ sheet, b.extensions.length < depth) (enough : sheet.length ≤ steps) (V : World τ) :
    ∃ V', ((deriver services depth).deriveFrom none .stylesheet steps
        (sheet.map ExtendingBlock.rose)).exec V =
        (.ok (.finished (ExtendingBlock.stems V.tree.size sheet)), V') ∧
      V'.context.extensions = V.context.extensions ++ ExtendingBlock.notes V.tree.size sheet ∧
      V'.tree.size = V.tree.size + sheet.length := by
  induction sheet generalizing steps V with
  | nil =>
    refine ⟨V, ?_, by simp [ExtendingBlock.notes], rfl⟩
    rw [List.map_nil, Deriver.deriveFrom.eq_1, exec_pure]
    rfl
  | cons b sheet ih =>
    obtain ⟨steps, rfl⟩ := Nat.exists_eq_succ_of_ne_zero (Nat.ne_zero_of_lt enough)
    have first := exec_derive_block services (classes b (.head _)) (deep b (.head _)) V
    obtain ⟨V', rest, extensions, entered⟩ := ih (fun b hb => classes b (.tail _ hb))
      (fun b hb => deep b (.tail _ hb)) (Nat.le_of_succ_le_succ enough)
      ({ V with tree := (V.tree.create (.block b.own)).2 }.note
          (b.extensions.map fun targets => (⟨V.tree.size⟩, targets)))
    have size : (V.tree.create (.block b.own)).2.size = V.tree.size + 1 := Tree.size_create _ _
    refine ⟨V', ?_, ?_, ?_⟩
    · rw [List.map_cons, Deriver.deriveFrom, Deriver.exec_followedBy first rest]
      simp only [World.note, size]
      rfl
    · rw [extensions]
      simp only [World.note, size, List.append_assoc]
      rfl
    · rw [entered, List.length_cons]
      simp only [World.note, size]
      omega

end

/-! ## Compiling a sheet -/

section

variable {sheet : List ExtendingBlock} {ids : List NodeId} {t : Tree} {rs : List (Rose NodeId)}

/-- The shapes that carry what is derived of a sheet are the blocks in the register. -/
theorem Tree.Shows.of_stems (h : t.Shows ids rs (ExtendingBlock.stems 0 sheet))
    (length : ids.length = sheet.length) :
    rs = ids.map (⟨·, []⟩) ∧ ∀ i : Fin sheet.length, t.node ids[i] = .block sheet[i].own := by
  obtain ⟨zs, rfl, made, carries⟩ := h.pairs
  have count : zs.length = sheet.length := by
    simpa [ExtendingBlock.stems] using (congrArg List.length made).symm
  have each (i : Nat) (hi : i < sheet.length) :
      (zs[i]).map Prod.fst = ⟨ids[i], []⟩ ∧ t.node ids[i] = .block sheet[i].own := by
    have here : zs[i].map Prod.snd = ⟨⟨.block sheet[i].own, some ⟨i⟩⟩, []⟩ := by
      have := List.getElem_of_eq made (i := i) (by simpa [ExtendingBlock.stems] using hi)
      simpa [ExtendingBlock.stems] using this.symm
    have carried := carries zs[i] (List.getElem_mem _) _ zs[i].label_mem_labels
    generalize zs[i] = z at here carried ⊢
    obtain ⟨⟨x, s⟩, us⟩ := z
    rw [Rose.map_mk, Rose.mk.injEq, List.map_eq_nil_iff] at here
    obtain ⟨rfl, rfl⟩ := here
    have number : ids[i]? = some x := carried.mark ⟨i⟩ rfl
    obtain rfl : ids[i] = x := by simpa [length, hi] using number
    exact ⟨by simp, carried.node⟩
  refine ⟨List.ext_getElem (by simp [count, length]) fun i hi _ => ?_, fun i => (each i i.2).2⟩
  rw [List.getElem_map, List.getElem_map]
  exact (each i (by simpa [count] using hi)).1

/-- What is noted for the blocks of a sheet are its extensions. -/
theorem ExtendingBlock.mem_notes {e : NodeId × List String} :
    e ∈ notes 0 sheet ↔ ∃ i : Fin sheet.length, e.1 = ⟨i⟩ ∧ e.2 ∈ sheet[i].extensions := by
  simp only [notes, List.mem_flatMap, List.mem_map]
  constructor
  · rintro ⟨⟨b, i⟩, hb, targets, ht, rfl⟩
    obtain ⟨hi, eq⟩ := List.getElem?_eq_some_iff.1 (List.mem_zipIdx_iff_getElem?.1 hb)
    exact ⟨⟨i, hi⟩, rfl, eq ▸ ht⟩
  · rintro ⟨i, block, ht⟩
    exact ⟨(sheet[i], i), List.mem_zipIdx_iff_getElem?.2 (List.getElem?_eq_getElem i.2), e.2, ht,
      Prod.ext block.symm rfl⟩

/-- A note names the block that its number in the register stands for. -/
theorem Notes.eq_of_notes {a b d : NodeId × List String} (h : Notes ids a d) (h' : Notes ids b d) : a = b :=
  Prod.ext (Option.some.inj (h.block.symm.trans h'.block)) (h.targets.trans h'.targets.symm)

/-- An extension has been noted exactly if it was derived. -/
theorem Notes.mem_iff {noted ds : List (NodeId × List String)} (h : List.Forall₂ (Notes ids) noted ds)
    (e : NodeId × List String) : e ∈ noted ↔ ∃ d ∈ ds, Notes ids e d := by
  induction h with
  | nil => simp
  | @cons a b _ _ note _ ih =>
    rw [List.mem_cons, ih]
    simp only [List.mem_cons, exists_eq_or_imp]
    exact or_congr_left ⟨fun eq => eq ▸ note, fun note' => note'.eq_of_notes note⟩

/-- What has been noted in a tree whose register numbers the blocks of a sheet are their extensions. -/
theorem ExtendingBlock.mem_noted {noted : List (NodeId × List String)}
    (h : List.Forall₂ (Notes ids) noted (notes 0 sheet)) (length : ids.length = sheet.length)
    (e : NodeId × List String) :
    e ∈ noted ↔ ∃ i : Fin sheet.length, e.1 = ids[i] ∧ e.2 ∈ sheet[i].extensions := by
  have named (i : Fin sheet.length) : ids[(⟨i⟩ : NodeId).index]? = some ids[i] :=
    List.getElem?_eq_getElem (show i.1 < ids.length by omega)
  rw [Notes.mem_iff h]
  constructor
  · rintro ⟨d, hd, block, targets⟩
    obtain ⟨i, number, ht⟩ := mem_notes.1 hd
    rw [number, named] at block
    exact ⟨i, (Option.some.inj block).symm, targets ▸ ht⟩
  · rintro ⟨i, block, ht⟩
    exact ⟨(⟨i⟩, e.2), mem_notes.2 ⟨i, rfl, ht⟩, (named i).trans (by rw [block]), rfl⟩

end

/-- What is expanded of the blocks of a sheet stands under the root, with the extensions noted for the
blocks they are in. -/
theorem walkChildren_extending {σ : Type} (services : Services σ) {depth : Nat} {w : World σ}
    (stylesheet : w.tree.IsStylesheet) (fresh : w.context.extensions = []) {sheet : List ExtendingBlock}
    (read : w.tree.rose w.tree.size Tree.root = ⟨.root, sheet.map ExtendingBlock.rose⟩)
    (classes : ∀ b ∈ sheet, b.OfClasses) (enough : sheet.length ≤ depth)
    (deep : ∀ b ∈ sheet, b.extensions.length < depth) :
    ∃ w', ((walker services depth).walkChildren Tree.root .stylesheet).exec w = (.ok .finished, w') ∧
      ∀ noted, noted.Perm w'.context.extensions → Tree.Settles sheet (w'.tree.applyExtensions noted) := by
  obtain ⟨rs, hs, read', matching⟩ := walkChildren_matches services depth stylesheet
  have roses : rs.map (Rose.map w.tree.node) = sheet.map ExtendingBlock.rose := by
    rw [read', Rose.mk.injEq] at read
    exact read.2
  obtain ⟨V', run, extensions, entered⟩ := exec_derive_sheet services classes
    deep enough w.unentered
  unfold Deriver.deriveChildren at matching
  rw [roses, steps_deriver, run, fresh] at matching
  generalize ((walker services depth).walkChildren Tree.root .stylesheet).exec w = walked at matching ⊢
  cases matching with
  | @ok flow w' _ _ ended =>
    match flow, ended with
    | .finished, ended =>
      obtain ⟨ids, new, -, mirrors, reworked, shows⟩ := ended.shapes
      have length : ids.length = sheet.length := by
        rw [← mirrors.size, entered]
        exact Nat.zero_add _
      obtain ⟨noted, eq, notes⟩ := mirrors.extensions
      rw [extensions] at notes
      obtain ⟨rfl, blocks⟩ := Tree.Shows.of_stems shows length
      refine ⟨w', rfl, fun noted' perm => ?_⟩
      refine Tree.settles_applyExtensions classes length reworked.site
        (reworked.rewrites.node_eq.trans stylesheet.node_root)
        (reworked.rewrites.parent?_eq.trans stylesheet.alone) blocks fun e => ?_
      rw [perm.mem_iff, eq, List.nil_append]
      exact ExtendingBlock.mem_noted notes length e

/-- **Extensions reach as far as they can.** When a sheet of blocks with class selectors and extensions of
classes is compiled, each block ends with its own selectors in front, and all blocks together with the
least selectors that satisfy all extensions: wherever a target is, all selectors of the extending block
are. So they would for any other order of the extensions noted. -/
theorem compile_extending {σ : Type} (services : Services σ) {depth : Nat} {w : World σ}
    (stylesheet : w.tree.IsStylesheet) {sheet : List ExtendingBlock}
    (read : w.tree.rose w.tree.size Tree.root = ⟨.root, sheet.map ExtendingBlock.rose⟩)
    (classes : ∀ b ∈ sheet, b.OfClasses) (enough : sheet.length ≤ depth)
    (deep : ∀ b ∈ sheet, b.extensions.length < depth) :
    ∃ walked w', ((walker services depth).walkChildren Tree.root .stylesheet).exec
        { w with context := { w.context with extensions := [] } } = (.ok .finished, walked) ∧
      (compile services depth).exec w = (.ok (), w') ∧ w'.tree.Settles sheet ∧
      ∀ noted, noted.Perm walked.context.extensions →
        (walked.tree.applyExtensions noted).Settles sheet := by
  obtain ⟨walked, run, settles⟩ := walkChildren_extending services
    (w := { w with context := { w.context with extensions := [] } }) stylesheet rfl read classes enough deep
  refine ⟨walked, { walked with
    tree := walked.tree.applyExtensions walked.context.extensions
    context := { walked.context with extensions := [] } }, run, compile_eq_ok_iff.2 ⟨walked, run, rfl⟩,
    settles _ (.refl _), settles⟩

/-- Three blocks that extend each other in a ring all end with all selectors. -/
theorem compile_extending_ring :
    let sheet : List ExtendingBlock :=
      [⟨[".a"], [[".b"]]⟩, ⟨[".b"], [[".c"], []]⟩, ⟨[".c", ".d-1"], [[".a"]]⟩]
    let w : World Unit := ⟨Tree.ofNodes (sheet.map ExtendingBlock.rose), .empty, ()⟩
    w.tree.rose w.tree.size Tree.root = ⟨.root, sheet.map ExtendingBlock.rose⟩ ∧
      ∃ walked w', ((walker Services.plain 3).walkChildren Tree.root .stylesheet).exec
          { w with context := { w.context with extensions := [] } } = (.ok .finished, walked) ∧
        (compile Services.plain 3).exec w = (.ok (), w') ∧ w'.tree.Settles sheet ∧
        ∀ noted, noted.Perm walked.context.extensions →
          (walked.tree.applyExtensions noted).Settles sheet := by
  intro sheet w
  refine ⟨rfl, compile_extending Services.plain (Tree.ofNodes_isStylesheet _) rfl ?_ (by decide) (by decide)⟩
  have named (s : String) (name : List Char) (eq : s.toList = '.' :: name)
      (chars : name.all Selector.isClassChar = true) : Selector.IsClass s :=
    ⟨name, eq, List.all_eq_true.1 chars⟩
  have a := named ".a" ['a'] rfl rfl
  have b := named ".b" ['b'] rfl rfl
  have c := named ".c" ['c'] rfl rfl
  have d := named ".d-1" ['d', '-', '1'] rfl rfl
  rw [List.forall_mem_cons, List.forall_mem_cons, List.forall_mem_singleton]
  exact ⟨⟨by simpa using a, by simpa using b⟩, ⟨by simpa using b, by simpa using c⟩,
    ⟨by simpa using ⟨c, d⟩, by simpa using a⟩⟩

end Stylesheet

import Stylesheet.Proofs.Derivation.Depth
import Stylesheet.Proofs.Tree.Reach
import Stylesheet.Proofs.Tree.Recut

/-! # Steps that go as far as others

Definitions in which counting loops are cut elsewhere are stored under other numbers. Two contexts are
**recut** when all else is the same in them (**`Context.Recut`**), and so are two worlds
(**`World.Recut`**).

One step **covers** another one when from worlds that are recut both end alike, unless the other one gives up
for depth (**`Expansion.Covers`**). Sequences cover sequences step by step (`Expansion.Covers.bind`), and
derivations in a row cover derivations in a row, wherever the loops in what is made are cut
(`Expansion.Covers.followedBy`). -/

namespace Stylesheet

open Expansion

/-! ## Definitions -/

namespace Tree

variable {cuts : Counting → Prop} {t t' : Tree} {id id' : NodeId} {r r' : Rose Node}

/-- What stands at a node and under it, when the node hangs together with a top. -/
structure Stores (t : Tree) (id : NodeId) (r : Rose Node) : Prop where
  depth : ∃ d, t.Depth id d
  rose_eq : t.rose t.size id = r

/-- A tree that has grown stores what it has stored before. -/
theorem Stores.of_grown (h : t.Stores id r) (hl : t.LinkedFrom 0) (g : Grown t t') : t'.Stores id r := by
  obtain ⟨d, hd⟩ := h.depth
  obtain ⟨s, rfl, shape⟩ := hl.exists_shape hd (Nat.zero_le _)
  have below {x : NodeId} (hx : x ∈ s.labels) : x.index < t.size :=
    shape.index_lt hl (Nat.zero_le _) hd.index_lt hx
  have shape' : t'.Shape s := shape.congr fun x hx => g.children_eq (below hx)
  refine ⟨⟨d, g.depth hd⟩, ?_⟩
  rw [shape'.rose_eq (g.linkedFrom hl (Nat.zero_le _)) (g.depth hd) (Nat.zero_le _) (by omega), ← h.rose_eq,
    shape.rose_eq hl hd (Nat.zero_le _) (by omega)]
  exact Rose.map_congr fun x hx => g.node_eq (below hx)

/-- What has been planted is stored. -/
theorem stores_plant (r : Rose Node) (t : Tree) : (plant r t).2.Stores (plant r t).1 r := by
  have planted := plant_planted r t
  obtain ⟨s, top, shape, nodes, fresh⟩ := planted.exists_fresh
  have depth : (plant r t).2.Depth (plant r t).1 0 := .top planted.lt_size planted.alone
  refine ⟨⟨0, depth⟩, ?_⟩
  rw [← top] at depth ⊢
  rw [shape.rose_eq planted.grown.linked depth (fresh _ s.label_mem_labels) (by omega), nodes]

/-- The node that is stored is the top of the tree. -/
theorem Stores.node_eq (h : t.Stores id r) : t.node id = r.label := by
  rw [← h.rose_eq, label_rose]

/-- Two trees store the same definition but for where loops are cut. -/
structure StoresRecut (cuts : Counting → Prop) (t t' : Tree) (id id' : NodeId) : Prop where
  intro ::
  stored : ∃ n cs cs', t.Stores id ⟨n, cs⟩ ∧ t'.Stores id' ⟨n, cs'⟩ ∧ Rose.Recut (Node.Cut cuts) cs cs'

/-- They go on to store it when more is planted. -/
theorem StoresRecut.plant (h : t.StoresRecut cuts t' id id') (hl : t.LinkedFrom 0) (hl' : t'.LinkedFrom 0)
    (r r' : Rose Node) : (plant r t).2.StoresRecut cuts (Tree.plant r' t').2 id id' := by
  obtain ⟨n, cs, cs', h, h', recut⟩ := h.stored
  exact ⟨n, cs, cs', h.of_grown hl (plant_planted r t).grown, h'.of_grown hl' (plant_planted r' t').grown,
    recut⟩

end Tree

/-! ## Contexts -/

/-- Two searches have found related things, or failed for the same reason. -/
inductive Found {α β : Type} (R : α → β → Prop) : Except Error α → Except Error β → Prop
  | ok {a : α} {b : β} : R a b → Found R (.ok a) (.ok b)
  | error (e : Error) : Found R (.error e) (.error e)

/-- Definitions with the same signature, and with bodies that are recut. -/
structure Deriver.BodiesRecut (cuts : Counting → Prop) (c c' : Context) (a b : NodeId × Signature) : Prop where
  signature : a.2 = b.2
  body : Rose.Recut (Node.Cut cuts) (bodyOf c a.1) (bodyOf c' b.1)

/-- Two contexts are the same but for where loops are cut in definitions. -/
structure Context.Recut (cuts : Counting → Prop) (c c' : Context) : Prop where
  scope : c.scope = c'.scope
  extensions : c.extensions = c'.extensions
  linked : c.definitions.LinkedFrom 0
  linked' : c'.definitions.LinkedFrom 0
  functions : ∀ name, Option.Rel (c.definitions.StoresRecut cuts c'.definitions) (c.functions.lookup name)
    (c'.functions.lookup name)
  mixins : ∀ name, Option.Rel (c.definitions.StoresRecut cuts c'.definitions) (c.mixins.lookup name)
    (c'.mixins.lookup name)

namespace Context.Recut

variable {cuts : Counting → Prop} {c c' : Context} {n : Node} {cs cs' : List (Rose Node)}

/-- A context in which nothing is known. -/
theorem empty : Context.empty.Recut cuts Context.empty where
  scope := rfl
  extensions := rfl
  linked := Tree.empty_isStylesheet.linked
  linked' := Tree.empty_isStylesheet.linked
  functions _ := .none
  mixins _ := .none

/-- Recut contexts are recut with another scope. -/
theorem withScope (h : c.Recut cuts c') (s : Scope) : (c.withScope s).Recut cuts (c'.withScope s) :=
  ⟨rfl, h.extensions, h.linked, h.linked', h.functions, h.mixins⟩

/-- Recut contexts are recut with other extensions. -/
theorem withExtensions (h : c.Recut cuts c') (extensions : List (NodeId × List String)) :
    ({ c with extensions := extensions } : Context).Recut cuts { c' with extensions := extensions } :=
  ⟨h.scope, rfl, h.linked, h.linked', h.functions, h.mixins⟩

/-- Recut contexts are recut without any extensions. -/
theorem bare (h : c.Recut cuts c') : c.bare.Recut cuts c'.bare := h.withExtensions []

section

variable {t t' : Tree} (hl : t.LinkedFrom 0) (hl' : t'.LinkedFrom 0)

include hl hl'

/-- What was found is found when more has been planted. -/
theorem rel_plant {x x' : Option NodeId} (h : Option.Rel (t.StoresRecut cuts t') x x') (r r' : Rose Node) :
    Option.Rel ((Tree.plant r t).2.StoresRecut cuts (Tree.plant r' t').2) x x' := by
  cases h with
  | none => exact .none
  | some stored => exact .some (stored.plant hl hl' r r')

/-- What has been planted is found under its name. -/
theorem rel_lookup_cons {table table' : List (String × NodeId)}
    (h : ∀ name, Option.Rel (t.StoresRecut cuts t') (table.lookup name) (table'.lookup name)) (entry : String)
    (recut : Rose.Recut (Node.Cut cuts) cs cs') (name : String) :
    Option.Rel ((Tree.plant ⟨n, cs⟩ t).2.StoresRecut cuts (Tree.plant ⟨n, cs'⟩ t').2)
      (((entry, (Tree.plant ⟨n, cs⟩ t).1) :: table).lookup name)
      (((entry, (Tree.plant ⟨n, cs'⟩ t').1) :: table').lookup name) := by
  rw [List.lookup_cons, List.lookup_cons]
  cases name == entry
  · exact rel_plant hl hl' (h name) _ _
  · exact .some ⟨n, cs, cs', Tree.stores_plant _ _, Tree.stores_plant _ _, recut⟩

end

/-- Contexts stay recut when functions are entered whose bodies are cut elsewhere. -/
theorem enterFunction (h : c.Recut cuts c') (name : String) (recut : Rose.Recut (Node.Cut cuts) cs cs') :
    (c.enterFunction name ⟨n, cs⟩).Recut cuts (c'.enterFunction name ⟨n, cs'⟩) where
  scope := h.scope
  extensions := h.extensions
  linked := (Tree.plant_planted _ _).grown.linkedFrom h.linked (Nat.zero_le _)
  linked' := (Tree.plant_planted _ _).grown.linkedFrom h.linked' (Nat.zero_le _)
  functions := rel_lookup_cons h.linked h.linked' h.functions name recut
  mixins name := rel_plant h.linked h.linked' (h.mixins name) _ _

/-- Contexts stay recut when mixins are entered whose bodies are cut elsewhere. -/
theorem enterMixin (h : c.Recut cuts c') (name : String) (recut : Rose.Recut (Node.Cut cuts) cs cs') :
    (c.enterMixin name ⟨n, cs⟩).Recut cuts (c'.enterMixin name ⟨n, cs'⟩) where
  scope := h.scope
  extensions := h.extensions
  linked := (Tree.plant_planted _ _).grown.linkedFrom h.linked (Nat.zero_le _)
  linked' := (Tree.plant_planted _ _).grown.linkedFrom h.linked' (Nat.zero_le _)
  functions name := rel_plant h.linked h.linked' (h.functions name) _ _
  mixins := rel_lookup_cons h.linked h.linked' h.mixins name recut

/-- Recut contexts have the same functions. -/
theorem hasFunction_eq (h : c.Recut cuts c') (name : String) : c.hasFunction name = c'.hasFunction name := by
  have found := h.functions name
  unfold Context.hasFunction
  revert found
  generalize c.functions.lookup name = x
  generalize c'.functions.lookup name = x'
  intro found
  cases found <;> rfl

/-- What both contexts store is the same node, with bodies that are recut. -/
theorem body {id id' : NodeId} (stored : c.definitions.StoresRecut cuts c'.definitions id id') :
    c.definitions.node id = c'.definitions.node id' ∧
      Rose.Recut (Node.Cut cuts) (Deriver.bodyOf c id) (Deriver.bodyOf c' id') := by
  obtain ⟨n, cs, cs', stores, stores', recut⟩ := stored.stored
  rw [Deriver.bodyOf, Deriver.bodyOf, stores.rose_eq, stores'.rose_eq, stores.node_eq, stores'.node_eq]
  exact ⟨rfl, recut⟩

/-- A function is found in both contexts, or in none. -/
theorem function (h : c.Recut cuts c') (name : String) :
    Found (Deriver.BodiesRecut cuts c c') (c.function name) (c'.function name) := by
  have found := h.functions name
  unfold Context.function
  revert found
  generalize c.functions.lookup name = x
  generalize c'.functions.lookup name = x'
  intro found
  cases found with
  | none => exact .error _
  | some stored =>
    obtain ⟨node, recut⟩ := body stored
    dsimp only
    rw [← node]
    split
    · exact .ok ⟨rfl, recut⟩
    · exact .error _

/-- A mixin is found in both contexts, or in none. -/
theorem mixin (h : c.Recut cuts c') (name : String) :
    Found (Deriver.BodiesRecut cuts c c') (c.mixin name) (c'.mixin name) := by
  have found := h.mixins name
  unfold Context.mixin
  revert found
  generalize c.mixins.lookup name = x
  generalize c'.mixins.lookup name = x'
  intro found
  cases found with
  | none => exact .error _
  | some stored =>
    obtain ⟨node, recut⟩ := body stored
    dsimp only
    rw [← node]
    split
    · exact .ok ⟨rfl, recut⟩
    · exact .error _

end Context.Recut

/-! ## Worlds and results -/

/-- Two worlds are the same but for where loops are cut in definitions. As many blocks have been entered. -/
structure World.Recut {τ : Type} (cuts : Counting → Prop) (v v' : World τ) : Prop where
  context : v.context.Recut cuts v'.context
  size : v.tree.size = v'.tree.size
  loader : v.loader = v'.loader

/-- Recut worlds are recut with their scopes changed alike. -/
theorem World.Recut.mapScope {τ : Type} {cuts : Counting → Prop} {v v' : World τ} (h : v.Recut cuts v')
    (f : Scope → Scope) :
    (v.mapScope f).Recut cuts (v'.mapScope f) where
  context := by
    rw [World.context_mapScope, World.context_mapScope, h.context.scope]
    exact h.context.withScope _
  size := h.size
  loader := h.loader

/-- A loop that was left as it is, cut in two. -/
inductive Stem.Cut (cuts : Counting → Prop) : Stem → Stem → Stem → Prop
  | still {n n₁ n₂ : Node} : Node.Cut cuts n n₁ n₂ → Cut cuts (.still n) (.still n₁) (.still n₂)

/-- The same value was returned, or what was made is the same but for where loops are cut in it. -/
inductive Yield.Recut (cuts : Counting → Prop) : Yield → Yield → Prop
  | finished {made made' : List (Rose Stem)} :
    Rose.Recut (Stem.Cut cuts) made made' → Recut cuts (.finished made) (.finished made')
  | returned (value : Value) : Recut cuts (.returned value) (.returned value)

/-- Where nothing is made, no loop is cut. -/
theorem Yield.Recut.nil {cuts : Counting → Prop} : Yield.Recut cuts (.finished []) (.finished []) := .finished .nil

/-! ## Steps -/

section

variable {τ α β α' β' : Type} {cuts : Counting → Prop}

/-- From worlds that are recut the second step ends as the first one does, unless that one gives up for
depth. -/
def Expansion.Covers (cuts : Counting → Prop) (Q : α → β → Prop) (m : Expansion τ α) (m' : Expansion τ β) : Prop :=
  ∀ ⦃v v' : World τ⦄, v.Recut cuts v' → (m.exec v).1 = .error .tooDeep ∨
    Matches (fun a w b w' => Q a b ∧ w.Recut cuts w') (World.Recut cuts) (m.exec v) (m'.exec v')

namespace Expansion.Covers

variable {Q : α → β → Prop} {Q' : α' → β' → Prop} {m : Expansion τ α} {m' : Expansion τ β}
  {f : α → Expansion τ α'} {f' : β → Expansion τ β'}

/-- A result covers one that corresponds to it. -/
theorem pure {a : α} {b : β} (h : Q a b) : Covers cuts Q (pure a : Expansion τ α) (pure b) := fun _ _ hv =>
  .inr (.pure ⟨h, hv⟩)

/-- A failure covers itself. -/
theorem fail (e : Error) : Covers cuts Q (fail e : Expansion τ α) (fail e) := fun _ _ hv => .inr (.fail hv)

/-- What gives up is covered by everything. -/
theorem of_deep (deep : ∀ v, (m.exec v).1 = .error .tooDeep) : Covers cuts Q m m' := fun _ _ _ => .inl (deep _)

/-- What gives up sooner is covered as well. -/
theorem of_sooner {n : Expansion τ α} (h : Covers cuts Q n m')
    (sooner : ∀ v, (m.exec v).1 = .error .tooDeep ∨ m.exec v = n.exec v) : Covers cuts Q m m' := by
  intro v v' hv
  rcases sooner v with deep | same
  · exact .inl deep
  · rw [same]
    exact h hv

/-- Sequences cover sequences. -/
theorem bind (hm : Covers cuts Q m m') (hf : ∀ a b, Q a b → Covers cuts Q' (f a) (f' b)) :
    Covers cuts Q' (m >>= f) (m' >>= f') := by
  intro v v' hv
  have first := hm hv
  rw [exec_bind, exec_bind]
  revert first
  rcases m.exec v with ⟨x, w⟩
  rcases m'.exec v' with ⟨y, w'⟩
  rintro (rfl | matching)
  · exact .inl rfl
  · cases matching with
    | ok h => exact hf _ _ h.1 h.2
    | error h => exact .inr (.error h)

/-- What is computed apart from the state is the same for both steps. -/
theorem ofExcept_bind {γ : Type} {x : Except Error γ} {f : γ → Expansion τ α'} {f' : γ → Expansion τ β'}
    (hf : ∀ a, x = .ok a → Covers cuts Q' (f a) (f' a)) :
    Covers cuts Q' (Expansion.ofExcept x >>= f) (Expansion.ofExcept x >>= f') := by
  cases x with
  | ok a => exact hf a rfl
  | error e => exact fail e

/-- What the two steps find corresponds. -/
theorem found_bind {γ γ' : Type} {R : γ → γ' → Prop} {x : Except Error γ} {x' : Except Error γ'}
    {f : γ → Expansion τ α'} {f' : γ' → Expansion τ β'} (found : Found R x x')
    (hf : ∀ a a', R a a' → Covers cuts Q' (f a) (f' a')) :
    Covers cuts Q' (Expansion.ofExcept x >>= f) (Expansion.ofExcept x' >>= f') := by
  cases found with
  | ok h => exact hf _ _ h
  | error e => exact fail e

/-- Both steps read the same scope. -/
theorem scope_bind {f : Scope → Expansion τ α'} {f' : Scope → Expansion τ β'}
    (hf : ∀ s, Covers cuts Q' (f s) (f' s)) : Covers cuts Q' (scope >>= f) (scope >>= f') := by
  intro v v' hv
  rw [exec_scope_bind, exec_scope_bind, hv.context.scope]
  exact hf _ hv

/-- Both steps read the same innermost lookup. -/
theorem lookup_bind {f : Lookup → Expansion τ α'} {f' : Lookup → Expansion τ β'}
    (hf : ∀ lookup, Covers cuts Q' (f lookup) (f' lookup)) :
    Covers cuts Q' (Walker.innermostLookup >>= f) (Walker.innermostLookup >>= f') := by
  intro v v' hv
  rw [exec_innermostLookup_bind, exec_innermostLookup_bind, hv.context.scope]
  exact hf _ hv

/-- Both steps resolve a text alike. -/
theorem resolve_bind {text : String} {f : String → Expansion τ α'} {f' : String → Expansion τ β'}
    (hf : ∀ text, Covers cuts Q' (f text) (f' text)) :
    Covers cuts Q' (Walker.resolve text >>= f) (Walker.resolve text >>= f') := by
  unfold Walker.resolve
  rw [bind_assoc, bind_assoc]
  exact scope_bind fun s => hf (interpolate s.get? text)

/-- The contexts that the two steps read are recut. -/
theorem context_bind {f : Context → Expansion τ α'} {f' : Context → Expansion τ β'}
    (hf : ∀ c c', c.Recut cuts c' → Covers cuts Q' (f c) (f' c')) : Covers cuts Q' (context >>= f) (context >>= f') :=
  fun v v' hv => hf v.context v'.context hv.context hv

/-- A change of the scope covers itself. -/
theorem modifyScope (f : Scope → Scope) :
    Covers cuts (fun _ _ => True) (modifyScope f : Expansion τ Unit) (Expansion.modifyScope f) := fun _ _ hv =>
  .inr (.ok ⟨trivial, hv.mapScope f⟩)

/-- A change of the context covers one that leaves contexts recut. -/
theorem modifyContext {f f' : Context → Context} (hf : ∀ c c', c.Recut cuts c' → (f c).Recut cuts (f' c')) :
    Covers cuts (fun _ _ => True) (modifyContext f : Expansion τ Unit) (Expansion.modifyContext f') := fun _ _ hv =>
  .inr (.ok ⟨trivial, hf _ _ hv.context, hv.size, hv.loader⟩)

/-- What covers a step covers it in a frame of its own. -/
theorem inFrame {kind : FrameKind} (h : Covers cuts Q m m') :
    Covers cuts Q (inFrame kind m) (Expansion.inFrame kind m') := by
  intro v v' hv
  rcases h (hv.mapScope (·.enter kind)) with deep | matching
  · exact .inl (by rw [exec_inFrame]; exact deep)
  · exact .inr (matching.inFrame (fun _ _ _ _ hq => ⟨hq.1, hq.2.mapScope _⟩) fun _ _ hw => hw.mapScope _)

/-- What runs aside leaves the world alone. -/
theorem aside (h : Covers cuts Q m m') : Covers cuts Q (aside m) (Expansion.aside m') := by
  intro v v' hv
  have inside : (⟨⟨#[]⟩, v.context.bare, v.loader⟩ : World τ).Recut cuts ⟨⟨#[]⟩, v'.context.bare, v'.loader⟩ :=
    ⟨hv.context.bare, rfl, hv.loader⟩
  show (m.exec _).1 = _ ∨ Matches _ _ ((m.exec _).1, v) ((m'.exec _).1, v')
  rcases h inside with deep | matching
  · exact .inl deep
  · refine .inr ?_
    revert matching
    rcases m.exec _ with ⟨x, w⟩
    rcases m'.exec _ with ⟨y, w'⟩
    intro matching
    cases matching with
    | ok h => exact .ok ⟨h.1, hv⟩
    | error => exact .error hv

/-- What is put together from covered steps is covered, if each has the same result as the step that covers it. -/
theorem compositional : Compositional fun β (x x' : Expansion τ β) => Covers cuts (· = ·) x x' where
  pure _ := pure rfl
  bind hx hf := hx.bind fun a _ same => same ▸ hf a

/-! ## What is made -/

variable {first first' rest rest' derived derived' : Expansion τ Yield}

/-- What is made is changed in the end. -/
theorem wrapped {φ φ' : List (Rose Stem) → List (Rose Stem)} (h : Covers cuts (Yield.Recut cuts) derived derived')
    (hφ : ∀ {made made'}, Rose.Recut (Stem.Cut cuts) made made' → Rose.Recut (Stem.Cut cuts) (φ made) (φ' made')) :
    Covers cuts (Yield.Recut cuts) (Deriver.wrapped φ derived) (Deriver.wrapped φ' derived') := by
  refine h.bind fun yield yield' hy => ?_
  cases hy with
  | finished made => exact pure (.finished (hφ made))
  | returned value => exact pure (.returned value)

/-- Derivations in a row cover derivations in a row. -/
theorem followedBy (h : Covers cuts (Yield.Recut cuts) first first') (h' : Covers cuts (Yield.Recut cuts) rest rest') :
    Covers cuts (Yield.Recut cuts) (Deriver.followedBy first rest) (Deriver.followedBy first' rest') := by
  refine h.bind fun yield yield' hy => ?_
  cases hy with
  | finished made => exact h'.wrapped fun more => made.append more
  | returned value => exact pure (.returned value)

end Expansion.Covers

/-! ## Derivations in a row -/

namespace Deriver

/-- Derivations in a row may be grouped in any way. -/
theorem followedBy_assoc (a b c : Expansion τ Yield) :
    followedBy (followedBy a b) c = followedBy a (followedBy b c) := by
  unfold followedBy wrapped
  rw [bind_assoc]
  refine bind_congr fun y => ?_
  cases y with
  | returned value => rw [pure_bind]
  | finished made =>
    simp only [bind_assoc]
    refine bind_congr fun y => ?_
    cases y with
    | returned value => simp only [pure_bind]
    | finished made' =>
      simp only [pure_bind, bind_assoc]
      refine bind_congr fun y => ?_
      cases y with
      | returned value => simp only [pure_bind]
      | finished made'' => simp only [pure_bind, List.append_assoc]

/-- What follows nothing. -/
theorem nil_followedBy (a : Expansion τ Yield) : followedBy (pure (.finished [])) a = a := by
  unfold followedBy wrapped
  rw [pure_bind]
  conv_rhs => rw [← bind_pure a]
  refine bind_congr fun y => ?_
  cases y <;> simp

end Deriver

end

end Stylesheet

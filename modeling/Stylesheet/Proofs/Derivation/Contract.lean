import Stylesheet.Proofs.Derivation.Depth
import Stylesheet.Proofs.Tree.Expressions
import Stylesheet.Proofs.Tree.Leaves

/-! # Contracts

A **`Contract`** is a property of expressions with a property of values and one of derived trees that follow
from it: whatever is done with such values gives such values again, and whatever is made of such trees are
such trees again. A step **meets** a contract when it goes on from such variables and definitions to such
variables and definitions (**`Expansion.Meets`**). Derivations meet every contract that the evaluation of
values meets (`deriver_fulfils`). -/

namespace Stylesheet

open Expansion

/-! ## Variables -/

/-- The values of all variables have a property. -/
def Scope.Holds (P : Value → Prop) (s : Scope) : Prop := ∀ f ∈ s.frames, ∀ b ∈ f.bindings, P b.value

namespace Scope.Holds

variable {P : Value → Prop} {s : Scope} {name : String} {value : Value}

/-- Where nothing is bound, every value has the property. -/
theorem empty : Scope.empty.Holds P := by
  intro f hf b hb
  rw [List.mem_singleton.1 hf] at hb
  cases hb

/-- A value that is found. -/
theorem get? (h : s.Holds P) (found : s.get? name = some value) : P value := by
  obtain ⟨f, hf, found⟩ := List.exists_of_findSome?_eq_some found
  obtain ⟨b, hb, rfl⟩ := Option.map_eq_some_iff.1 found
  exact h f hf b (List.mem_of_find?_eq_some hb)

/-- A new frame has no values. -/
theorem enter (h : s.Holds P) (kind : FrameKind) : (s.enter kind).Holds P := by
  intro f hf b hb
  rcases List.mem_cons.1 hf with rfl | hf
  · cases hb
  · exact h f hf b hb

/-- The values of the outer frames are among those that were there. -/
theorem leave (h : s.Holds P) : s.leave.Holds P := by
  intro f hf
  refine h f ?_
  obtain ⟨inner, _ | ⟨g, gs⟩⟩ := s
  · exact hf
  · exact .tail _ hf

/-- Binding a name in a frame. -/
theorem bind {f : Frame} (hf : ∀ b ∈ f.bindings, P b.value) (hv : P value) :
    ∀ b ∈ (f.bind name value).bindings, P b.value := by
  intro b hb
  rcases List.mem_cons.1 hb with rfl | hb
  · exact hv
  · exact hf b (List.mem_of_mem_eraseP hb)

/-- Defining a name with such a value leaves such values. -/
theorem define (h : s.Holds P) (hv : P value) : (s.define name value).Holds P := by
  intro f hf
  rcases List.mem_cons.1 hf with rfl | hf
  · exact bind (h _ (.head _)) hv
  · exact h f (.tail _ hf)

/-- Rebinding a name to such a value leaves such values, in whatever frame it is found. -/
theorem rebind? {fs gs : List Frame} (h : ∀ f ∈ fs, ∀ b ∈ f.bindings, P b.value) (hv : P value)
    (rebound : rebind? name value fs = some gs) : ∀ g ∈ gs, ∀ b ∈ g.bindings, P b.value := by
  fun_induction Scope.rebind? name value fs generalizing gs with
  | case1 => cases rebound
  | case2 f fs =>
    cases rebound
    intro g hg
    rcases List.mem_cons.1 hg with rfl | hg
    · exact bind (h f (.head _)) hv
    · exact h g (.tail _ hg)
  | case3 => cases rebound
  | case4 f fs _ _ ih =>
    obtain ⟨rest, hr, rfl⟩ := Option.map_eq_some_iff.1 rebound
    intro g hg
    rcases List.mem_cons.1 hg with rfl | hg
    · exact h g (.head _)
    · exact ih (fun f hf => h f (.tail _ hf)) hr g hg

/-- Assigning such a value to a name leaves such values. -/
theorem set (h : s.Holds P) (hv : P value) : (s.set name value).Holds P := by
  unfold Scope.set
  split
  · exact h.define hv
  · split
    next fs rebound =>
      intro f hf
      rcases List.mem_cons.1 hf with rfl | hf
      · exact h _ (.head _)
      · exact rebind? (fun f hf => h f (.tail _ hf)) hv rebound f hf
    · exact h.define hv

end Scope.Holds

/-! ## Contracts -/

/-- Whether a node is left as it is, around what is made of what stands under it, and has no value. -/
def Node.isStill : Node → Bool
  | .root | .comment _ | .fontFace | .vendor _ _ | .plain _ | .keyframeBlock _ | .keyframes _ _ | .media _ =>
    true
  | _ => false

/-- Properties of the expressions in a stylesheet, of values, and of the trees that are made. -/
structure Contract where
  expression : Value → Prop
  value : Value → Prop
  made : Rose Stem → Prop
  arguments : ∀ {e}, expression e → ∀ a ∈ e.arguments, expression a
  builtin : ∀ b {args v}, (∀ a ∈ args, value a) → Builtin.call b args = .ok v → value v
  integer : ∀ x, value [.ofFloat x]
  items : ∀ {v}, value v → ∀ i ∈ v.items, value i
  editList : ∀ edit comma {v w}, value v → value w → value (Walker.editList edit comma v w)
  still : ∀ {n os}, n.isStill = true → (∀ o ∈ os, made o) → made ⟨.still n, os⟩
  declared : ∀ name {v} important, value v → made ⟨.still (.declaration name v important), []⟩
  flatten : ∀ selectors mark {os}, (∀ o ∈ os, made o) → ∀ o ∈ Deriver.flatten selectors mark os, made o
  lengthen : ∀ name {os}, (∀ o ∈ os, made o) → ∀ o ∈ Deriver.lengthen name os, made o

/-- The variables have such values, and the definitions such expressions and no children under leaves. -/
structure Context.Meets (K : Contract) (c : Context) : Prop where
  values : c.scope.Holds K.value
  expressions : c.definitions.Expresses K.expression
  leaves : c.definitions.LeavesBare

namespace Contract

/-- A tree to be derived, with such expressions and no children under leaves. -/
structure Source (K : Contract) (r : Rose Node) : Prop where
  expressions : r.Expresses K.expression
  leaves : r.LeavesBare

/-- What the body of a loop or of a call is left with. -/
def Yields (K : Contract) : Yield → Prop
  | .finished made => ∀ o ∈ made, K.made o
  | .returned value => K.value value

/-- A value, or an expression that gives one. -/
def Argues (K : Contract) : Argument → Prop
  | .given value => K.value value
  | .default value => K.expression value

/-- All stylesheets that are loaded have such expressions, and no children under leaves. -/
def Loads {τ : Type} (K : Contract) (services : Services τ) : Prop :=
  ∀ uri s source, (services.load uri s).1 = .ok (some source) →
    source.Expresses K.expression ∧ source.LeavesBare

variable {K : Contract}

/-- Nothing is made, so all of it is as the contract asks. -/
theorem yields_nil : K.Yields (.finished []) := by
  intro o ho
  cases ho

namespace Source

variable {r c : Rose Node}

/-- The children of such a tree are such trees. -/
theorem of_mem (h : K.Source r) (hc : c ∈ r.children) : K.Source c :=
  ⟨Rose.All.of_mem h.expressions hc, Rose.All.of_mem h.leaves hc⟩

/-- Interpolation touches neither expressions nor the shape of a tree. -/
theorem interpolate (h : K.Source r) (lookup : Lookup) : K.Source (r.interpolate lookup) :=
  ⟨h.expressions.interpolate lookup, h.leaves.interpolate lookup⟩

/-- All trees that have been resolved. -/
theorem all_interpolate {rs : List (Rose Node)} (h : ∀ r ∈ rs, K.Source r) (lookup : Lookup) :
    ∀ r ∈ rs.map (Rose.interpolate lookup), K.Source r := by
  intro r hr
  obtain ⟨s, hs, rfl⟩ := List.mem_map.1 hr
  exact (h s hs).interpolate lookup

/-- Filling the slots of such a tree with such trees gives such trees. -/
theorem fill {contents : List (Rose Node)} (h : K.Source r) (hcontents : ∀ c ∈ contents, K.Source c) :
    ∀ c ∈ r.fill contents, K.Source c := fun c hc =>
  ⟨h.expressions.fill (fun c hc => (hcontents c hc).expressions) c hc,
    h.leaves.fill (fun c hc => (hcontents c hc).leaves) c hc⟩

/-- A declaration, a comment or a line has nothing under it. -/
theorem children_eq_nil (h : K.Source r) (hl : r.label.isLeaf = true) : r.children = [] := h.leaves.top hl

end Source

end Contract

namespace Context.Meets

variable {K : Contract} {c : Context}

/-- Only the variables of another scope have to be looked at; the definitions stay. -/
theorem withScope (h : c.Meets K) {s : Scope} (hs : s.Holds K.value) : (c.withScope s).Meets K :=
  ⟨hs, h.expressions, h.leaves⟩

/-- Extensions do not matter. -/
theorem bare (h : c.Meets K) : c.bare.Meets K := ⟨h.values, h.expressions, h.leaves⟩

/-- What stands under a definition. -/
theorem bodyOf (h : c.Meets K) (definition : NodeId) : ∀ r ∈ Deriver.bodyOf c definition, K.Source r :=
  fun _ hr => Contract.Source.of_mem ⟨h.expressions.rose _ definition, h.leaves.rose _ definition⟩ hr

end Context.Meets

/-! ## Steps -/

section

variable {τ α β : Type} {K : Contract}

/-- From variables and definitions that meet the contract the step goes on to such ones, and it has such
a result. -/
def Expansion.Meets (K : Contract) (Q : α → Prop) (m : Expansion τ α) : Prop :=
  ∀ v : World τ, v.context.Meets K →
    (m.exec v).2.context.Meets K ∧ ∀ a, (m.exec v).1 = .ok a → Q a

namespace Expansion.Meets

variable {Q : α → Prop} {Q' : β → Prop} {m : Expansion τ α} {f : α → Expansion τ β}

/-- Nothing is changed by a step that only has a result. -/
theorem pure {a : α} (h : Q a) : Meets K Q (pure a : Expansion τ α) := by
  refine fun v hv => ⟨hv, fun b hb => ?_⟩
  cases hb
  exact h

/-- A step that stops has no result. -/
theorem throw (e : Stop) : Meets K Q (throw e : Expansion τ α) := fun _ hv => ⟨hv, nofun⟩

/-- A step that fails has no result. -/
theorem fail (e : Error) : Meets K Q (fail e : Expansion τ α) := fun _ hv => ⟨hv, nofun⟩

/-- Sequences end with the result of their last step. -/
theorem bind (hm : Meets K Q m) (hf : ∀ a, Q a → Meets K Q' (f a)) : Meets K Q' (m >>= f) := by
  intro v hv
  have first := hm v hv
  rw [exec_bind]
  revert first
  rcases m.exec v with ⟨_ | a, v'⟩
  · exact fun first => ⟨first.1, nofun⟩
  · exact fun first => hf a (first.2 a rfl) v' first.1

/-- What is computed apart from the state may be assumed to have been computed. -/
theorem ofExcept_bind {γ : Type} {x : Except Error γ} {f : γ → Expansion τ β}
    (hf : ∀ a, x = .ok a → Meets K Q' (f a)) : Meets K Q' (Expansion.ofExcept x >>= f) := by
  cases x with
  | ok a => exact fun v => hf a rfl v
  | error e => exact fail e

/-- The scope that is read has such values. -/
theorem scope_bind {f : Scope → Expansion τ β} (hf : ∀ s, s.Holds K.value → Meets K Q' (f s)) :
    Meets K Q' (scope >>= f) := fun v hv => hf v.context.scope hv.values v hv

/-- Nothing is asked of the lookup that is read: texts are not subject to a contract. -/
theorem lookup_bind {f : Lookup → Expansion τ β} (hf : ∀ lookup, Meets K Q' (f lookup)) :
    Meets K Q' (Walker.innermostLookup >>= f) := fun v => hf v.context.scope.innermost.lookup v

/-- Nothing is asked of a text that is resolved. -/
theorem resolve_bind {text : String} {f : String → Expansion τ β} (hf : ∀ text, Meets K Q' (f text)) :
    Meets K Q' (Walker.resolve text >>= f) := fun v => hf (interpolate v.context.scope.get? text) v

/-- The context that is read meets the contract. -/
theorem context_bind {f : Context → Expansion τ β} (hf : ∀ c, c.Meets K → Meets K Q' (f c)) :
    Meets K Q' (context >>= f) := fun v hv => hf v.context hv v hv

/-- Steps that do not touch the context. -/
theorem of_context_eq (h : ∀ v, (m.exec v).2.context = v.context) : Meets K (fun _ => True) m :=
  fun v hv => ⟨by rw [h]; exact hv, fun _ _ => trivial⟩

/-- A change of the scope has to keep its values such. -/
theorem modifyScope {f : Scope → Scope} (hf : ∀ s, s.Holds K.value → (f s).Holds K.value) :
    Meets K (fun _ => True) (modifyScope f : Expansion τ Unit) := fun _ hv =>
  ⟨hv.withScope (hf _ hv.values), fun _ _ => trivial⟩

/-- A change of the context has to keep it within the contract. -/
theorem modifyContext {f : Context → Context} (hf : ∀ c, c.Meets K → (f c).Meets K) :
    Meets K (fun _ => True) (modifyContext f : Expansion τ Unit) := fun v hv =>
  ⟨hf v.context hv, fun _ _ => trivial⟩

/-- Steps that meet the contract for each element of a list meet it one after the other. -/
theorem mapM {f : β → Expansion τ α} {bs : List β} (h : ∀ b ∈ bs, Meets K Q (f b)) :
    Meets K (fun as => ∀ a ∈ as, Q a) (bs.mapM f) := by
  induction bs with
  | nil => exact pure (by simp)
  | cons b bs ih =>
    rw [List.mapM_cons]
    refine (h b (.head _)).bind fun a ha => (ih fun b hb => h b (.tail _ hb)).bind fun as has => pure ?_
    intro c hc
    rcases List.mem_cons.1 hc with rfl | hc
    · exact ha
    · exact has c hc

/-- What meets the contract meets it in a frame of its own, which is dropped in the end. -/
theorem inFrame {kind : FrameKind} (h : Meets K Q m) : Meets K Q (inFrame kind m) := by
  intro v hv
  rw [exec_inFrame]
  have inside := h (v.mapScope (·.enter kind)) (hv.withScope (hv.values.enter kind))
  exact ⟨inside.1.withScope inside.1.values.leave, inside.2⟩

/-- What runs aside leaves the world alone. -/
theorem aside (h : Meets K Q m) : Meets K Q (aside m) := fun v hv =>
  ⟨hv, (h ⟨⟨#[]⟩, v.context.bare, v.loader⟩ hv.bare).2⟩

/-- What is made in the end. -/
theorem wrapped {φ : List (Rose Stem) → List (Rose Stem)} {m : Expansion τ Yield} (hm : Meets K K.Yields m)
    (hφ : ∀ made, (∀ o ∈ made, K.made o) → ∀ o ∈ φ made, K.made o) :
    Meets K K.Yields (Deriver.wrapped φ m) := by
  refine hm.bind fun yield hyield => ?_
  cases yield with
  | returned value => exact pure hyield
  | finished made => exact pure (hφ made hyield)

/-- Two steps that meet the contract meet it when their yields are joined. -/
theorem followedBy {first rest : Expansion τ Yield} (hfirst : Meets K K.Yields first)
    (hrest : Meets K K.Yields rest) : Meets K K.Yields (Deriver.followedBy first rest) := by
  refine hfirst.bind fun yield hyield => ?_
  cases yield with
  | returned value => exact pure hyield
  | finished made =>
    refine hrest.wrapped fun others hothers o ho => ?_
    rcases List.mem_append.1 ho with ho | ho
    · exact hyield o ho
    · exact hothers o ho

end Expansion.Meets

/-! ## Derivations -/

/-- Such expressions give such values, and such trees are made of such trees. -/
structure Deriver.Fulfils (K : Contract) (d : Deriver τ) : Prop where
  evaluate : ∀ {e}, K.expression e → Meets K K.value (d.evaluate e)
  derive : ∀ block mode {r}, K.Source r → Meets K K.Yields (d.derive block mode r)

namespace Deriver.Fulfils

variable {d : Deriver τ} (h : d.Fulfils K) {block : Option NodeId} {mode : Mode} {rs : List (Rose Node)}

include h

/-- Deriving a list of such trees meets the contract. -/
theorem deriveNodes (hrs : ∀ r ∈ rs, K.Source r) : Meets K K.Yields (d.deriveNodes block mode rs) := by
  induction rs with
  | nil => exact .pure Contract.yields_nil
  | cons r rs ih =>
    have first := h.derive block mode (hrs r (.head _))
    exact first.followedBy (ih fun r hr => hrs r (.tail _ hr))

/-- Deriving a list of such trees step by step meets the contract. -/
theorem deriveFrom (steps : Nat) (hrs : ∀ r ∈ rs, K.Source r) :
    Meets K K.Yields (d.deriveFrom block mode steps rs) := by
  induction rs generalizing steps with
  | nil =>
    rw [Deriver.deriveFrom.eq_1]
    exact .pure Contract.yields_nil
  | cons r rs ih =>
    cases steps with
    | zero => exact .throw _
    | succ steps =>
      have first := h.derive block mode (hrs r (.head _))
      exact first.followedBy (ih steps fun r hr => hrs r (.tail _ hr))

/-- Deriving such children of a node meets the contract. -/
theorem deriveChildren (hrs : ∀ r ∈ rs, K.Source r) : Meets K K.Yields (d.deriveChildren block mode rs) :=
  h.deriveFrom d.steps hrs

/-! ## Calls -/

/-- The arguments of a call are values of such expressions. -/
theorem arguments {parameters : Value} (he : K.expression parameters) :
    Meets K (fun args => ∀ a ∈ args, K.value a) (d.walker.arguments parameters) :=
  .mapM fun a ha => h.evaluate (K.arguments he a ha)

omit h in
/-- Parameters are paired with the values given and with their own defaults. -/
theorem argues {ps : List Parameter} {vs : List Value} {bound : List (String × Argument)}
    (hp : Signature.pair? ps vs = some bound) (defaults : ∀ e ∈ ps.map Parameter.default, K.expression e)
    (hvs : ∀ v ∈ vs, K.value v) : ∀ x ∈ bound, K.Argues x.2 := by
  fun_induction Signature.pair? ps vs generalizing bound with
  | case1 =>
    cases hp
    simp
  | case2 => cases hp
  | case3 p ps v vs ih =>
    obtain ⟨rest, hr, rfl⟩ := Option.map_eq_some_iff.1 hp
    intro x hx
    rcases List.mem_cons.1 hx with rfl | hx
    · exact hvs v (.head _)
    · exact ih hr (fun e he => defaults e (.tail _ he)) (fun v hv => hvs v (.tail _ hv)) x hx
  | case4 => cases hp
  | case5 p ps v found ih =>
    obtain ⟨rest, hr, rfl⟩ := Option.map_eq_some_iff.1 hp
    intro x hx
    rcases List.mem_cons.1 hx with rfl | hx
    · exact Parameter.default_eq_of_default? found ▸ defaults p.default (.head _)
    · exact ih hr (fun e he => defaults e (.tail _ he)) hvs x hx

/-- Binding the parameters of a call to such arguments and defaults meets the contract. -/
theorem bindParameters {collated : List (String × Argument)} (hc : ∀ x ∈ collated, K.Argues x.2) :
    Meets K (fun _ => True) (d.walker.bindParameters collated) := by
  induction collated with
  | nil => exact .pure trivial
  | cons parameter rest ih =>
    obtain ⟨name, argument⟩ := parameter
    have bound {value : Value} (hv : K.value value) : Meets K (fun _ => True)
        (Expansion.modifyScope (·.define name value) >>= fun _ => d.walker.bindParameters rest) :=
      (Meets.modifyScope fun _ hs => hs.define hv).bind fun _ _ => ih fun x hx => hc x (.tail _ hx)
    have given := hc (name, argument) (.head _)
    unfold Walker.bindParameters
    cases argument with
    | given v => exact bound given
    | default v => exact (h.evaluate given).bind fun value hv => bound hv

/-- A function returns such a value, if it returns one. -/
theorem invoke (name : String) {args : List Value} (hargs : ∀ a ∈ args, K.value a) :
    Meets K (fun result => ∀ v, result = some v → K.value v) (d.invoke name args) := by
  refine .context_bind fun c hc => .ofExcept_bind fun found hfound => .ofExcept_bind fun collated hm => ?_
  have defaults : ∀ e ∈ found.2.parameters.map Parameter.default, K.expression e := by
    have expressions := hc.expressions found.1
    rwa [Context.node_of_function hfound] at expressions
  refine Meets.bind (Q := K.Yields) (.aside (.inFrame ?_)) fun yield hyield => ?_
  · refine (h.bindParameters (argues (Walker.pair?_of_matchCall hm) defaults hargs)).bind fun _ _ =>
      .lookup_bind fun lookup => ?_
    exact h.deriveChildren (Contract.Source.all_interpolate (hc.bodyOf found.1) lookup)
  · cases yield with
    | returned value =>
      refine .pure fun v hv => ?_
      cases hv
      exact hyield
    | finished made => exact .pure nofun

/-- What a user-defined function returns is such a value. -/
theorem call (name : String) {args : List Value} (hargs : ∀ a ∈ args, K.value a) :
    Meets K (fun result => ∀ v, result = some v → K.value v) (d.call name args) := by
  refine .ofExcept_bind fun result hresult => ?_
  cases result with
  | some value =>
    refine .pure fun v hv => ?_
    obtain rfl := Option.some.inj hv
    unfold Builtin.call? at hresult
    split at hresult
    next b _ =>
      cases hcall : b.call args with
      | error e => rw [hcall] at hresult; cases hresult
      | ok v =>
        rw [hcall] at hresult
        cases hresult
        exact K.builtin b hargs hcall
    · cases hresult
  | none => exact h.invoke name hargs

/-! ## Loops and conditionals -/

/-- One pass of a loop meets the contract, with such a value for its variable. -/
theorem pass (hrs : ∀ r ∈ rs, K.Source r) {bound : Option (String × Value)}
    (hb : ∀ b, bound = some b → K.value b.2) : Meets K K.Yields (d.pass block mode rs bound) := by
  have copies : Meets K K.Yields (Walker.innermostLookup >>= fun lookup =>
      d.deriveNodes block mode (rs.map (Rose.interpolate lookup))) :=
    .lookup_bind fun lookup => h.deriveNodes (Contract.Source.all_interpolate hrs lookup)
  refine Meets.inFrame ?_
  cases bound with
  | none => exact copies
  | some bound => exact (Meets.modifyScope fun _ hs => hs.define (hb bound rfl)).bind fun _ _ => copies

/-- The passes of a counting loop meet the contract, as its numbers are such values. -/
theorem passesFrom (hrs : ∀ r ∈ rs, K.Source r) (name : String) (count : Nat) (i : Int) :
    Meets K K.Yields (d.passesFrom block mode rs name count i) := by
  induction count generalizing i with
  | zero => exact .pure Contract.yields_nil
  | succ count ih =>
    refine (h.pass hrs fun b hb => ?_).followedBy (ih (i + 1))
    cases hb
    exact K.integer _

/-- The passes of a loop over such values meet the contract. -/
theorem passesOver (hrs : ∀ r ∈ rs, K.Source r) (name : String) {items : List Value}
    (hi : ∀ i ∈ items, K.value i) : Meets K K.Yields (d.passesOver block mode rs name items) := by
  induction items with
  | nil => exact .pure Contract.yields_nil
  | cons item items ih =>
    refine (h.pass hrs fun b hb => ?_).followedBy (ih fun i hm => hi i (.tail _ hm))
    cases hb
    exact hi item (.head _)

omit h in
/-- A condition only reads. -/
theorem holds (services : Services τ) (condition : String) :
    Meets K (fun _ => True) (Walker.holds services condition) :=
  .of_context_eq fun v => by rw [holds_snd]

/-- The passes of a loop with a condition meet the contract. -/
theorem passesWhile (services : Services τ) (hrs : ∀ r ∈ rs, K.Source r) (condition : String)
    (steps : Nat) : Meets K K.Yields (Deriver.passesWhile services d block mode rs condition steps) := by
  induction steps with
  | zero => exact .throw _
  | succ steps ih =>
    refine (holds services condition).bind fun b _ => ?_
    cases b with
    | true =>
      have unbound : ∀ b : String × Value, none = some b → K.value b.2 := nofun
      exact (h.pass hrs unbound).followedBy ih
    | false => exact .pure Contract.yields_nil

/-- A counting loop with such bounds meets the contract. -/
theorem expandCounting (hrs : ∀ r ∈ rs, K.Source r) {loop : Counting} (low : K.expression loop.low)
    (high : K.expression loop.high) : Meets K K.Yields (d.expandCounting block mode rs loop) := by
  have bound (which : String) {e : Value} (he : K.expression e) :
      Meets K (fun _ => True) (d.walker.bound which e) := by
    refine (h.evaluate he).bind fun result _ => ?_
    split
    · exact .pure trivial
    · exact .fail _
  refine (bound _ low).bind fun low _ => (bound _ high).bind fun high _ => ?_
  split
  · exact .fail _
  · exact h.passesFrom hrs _ _ _

/-- A loop over the items of such a list meets the contract. -/
theorem expandEach (hrs : ∀ r ∈ rs, K.Source r) (name : String) {list : Value} (he : K.expression list) :
    Meets K K.Yields (d.expandEach block mode rs name list) :=
  (h.evaluate he).bind fun _ hv => h.passesOver hrs name (K.items hv)

omit h in
/-- Choosing a branch only reads, and the branch is one of those that are there. -/
theorem choose (services : Services τ) :
    Meets K (fun chosen => ∀ r, chosen = some r → r ∈ rs) (Deriver.choose services rs) := by
  induction rs with
  | nil => exact .pure nofun
  | cons r rs ih =>
    have rest : Meets K (fun chosen => ∀ s, chosen = some s → s ∈ r :: rs) (Deriver.choose services rs) :=
      fun v hv => ⟨(ih v hv).1, fun a ha s hs => List.mem_cons_of_mem r ((ih v hv).2 a ha s hs)⟩
    have taken : ∀ s, some r = some s → s ∈ r :: rs := by
      rintro _ ⟨⟩
      exact List.mem_cons_self
    rw [Deriver.choose]
    split
    · refine (holds services _).bind fun b _ => ?_
      cases b with
      | true => exact .pure taken
      | false => exact rest
    · exact .pure taken
    · exact rest

/-- A conditional is the branch that is chosen. -/
theorem expandConditional (services : Services τ) (hrs : ∀ r ∈ rs, K.Source r) :
    Meets K K.Yields (Deriver.expandConditional services d block mode rs) := by
  refine (choose services).bind fun chosen hchosen => h.deriveNodes fun r hr => ?_
  cases chosen with
  | none => simp at hr
  | some branch => exact (hrs branch (hchosen branch rfl)).of_mem hr

/-! ## Nodes -/

/-- An import brings in such trees when its loader gives such trees. -/
theorem deriveImport (services : Services τ) (hl : K.Loads services) (i : Import) (hrs : rs = []) :
    Meets K K.Yields (Deriver.deriveImport services d block mode i rs) := by
  refine .resolve_bind fun uri => ?_
  dsimp only
  split
  · -- an import for the browser becomes a plain line
    refine .pure fun o ho => ?_
    rw [List.mem_singleton.1 ho, hrs]
    exact K.still rfl (by simp)
  · have loaded : Meets K (fun source : Tree => source.Expresses K.expression ∧ source.LeavesBare)
        (Walker.load services uri) := by
      intro v hv
      rw [Walker.exec_load]
      refine ⟨hv, fun source hsource => hl uri v.loader source ?_⟩
      revert hsource
      match (services.load uri v.loader).1 with
      | .ok (some _) =>
        rintro ⟨⟩
        rfl
      | .ok none => exact nofun
      | .error _ => exact nofun
    refine loaded.bind fun source hsource => h.deriveNodes fun r hr => ?_
    obtain ⟨c, -, rfl⟩ := List.mem_map.1 hr
    exact ⟨hsource.1.rose _ c, hsource.2.rose _ c⟩

/-- Including a mixin with such arguments and such a block meets the contract. -/
theorem includeMixin {invocation : Invocation} (he : K.expression invocation.arguments)
    (hrs : ∀ r ∈ rs, K.Source r) : Meets K K.Yields (d.includeMixin block invocation rs) := by
  refine .context_bind fun c hc => .ofExcept_bind fun found hfound => ?_
  refine (h.arguments he).bind fun args hargs => .ofExcept_bind fun collated hm => ?_
  have defaults : ∀ e ∈ found.2.parameters.map Parameter.default, K.expression e := by
    have expressions := hc.expressions found.1
    rwa [Context.node_of_mixin hfound] at expressions
  refine Meets.bind (Q := K.Yields) (.inFrame ?_) fun yield hyield => ?_
  · -- the body stands in the definitions, and the contents under the include
    refine (h.bindParameters (argues (Walker.pair?_of_matchCall hm) defaults hargs)).bind fun _ _ =>
      .lookup_bind fun lookup => ?_
    refine h.deriveNodes (Contract.Source.all_interpolate (fun s hs => ?_) lookup)
    obtain ⟨m, hm, hs⟩ := List.mem_flatMap.1 hs
    exact (hc.bodyOf found.1 m hm).fill hrs s hs
  · cases yield with
    | finished made => exact .pure hyield
    | returned value => exact .fail _

omit h in
/-- A definition that is taken in. -/
theorem definition {f : Context → Context} (hf : ∀ c, c.Meets K → (f c).Meets K) :
    Meets K K.Yields (modifyContext f >>= fun _ => pure (Yield.finished []) : Expansion τ Yield) :=
  (Meets.modifyContext hf).bind fun _ _ => .pure Contract.yields_nil

/-- A variable that is assigned. -/
theorem assign (name : String) {value : Value} (he : K.expression value) (guarded : Bool) :
    Meets K (fun _ => True) (d.assign name value guarded) := by
  refine .scope_bind fun s _ => ?_
  split
  · exact .pure trivial
  · exact (h.evaluate he).bind fun _ hv => .modifyScope fun _ hs => hs.set hv

/-- Editing a list by such expressions meets the contract. -/
theorem editList {directive : ListDirective} (list : K.expression directive.list)
    (items : K.expression directive.items) : Meets K (fun _ => True) (d.editList directive) :=
  (h.evaluate list).bind fun _ hl => (h.evaluate items).bind fun _ hi =>
    .modifyScope fun _ hs => hs.set (K.editList _ _ hl hi)

/-- What is derived from a tree, one level deeper. -/
theorem deriveWith (services : Services τ) (hl : K.Loads services) {r : Rose Node} (hr : K.Source r) :
    Meets K K.Yields (Deriver.deriveWith services d block mode r) := by
  have below : ∀ c ∈ r.children, K.Source c := fun c hc => hr.of_mem hc
  have own : ∀ e ∈ r.label.expressions, K.expression e := hr.expressions.top
  have around {n : Node} (hn : n.isStill = true) :
      Meets K K.Yields (Deriver.wrapped (Deriver.around n) (d.deriveChildren block mode r.children)) := by
    refine (h.deriveChildren below).wrapped fun made hmade o ho => ?_
    rw [List.mem_singleton.1 ho]
    exact K.still hn hmade
  have still (hn : r.label.isStill = true) (hleaf : r.label.isLeaf = true) :
      Meets K K.Yields (pure (.finished [r.map .still]) : Expansion τ Yield) := by
    refine .pure fun o ho => ?_
    have none := hr.children_eq_nil hleaf
    obtain ⟨n, rs⟩ := r
    rw [List.mem_singleton.1 ho, Rose.map_mk, show rs = [] from none, List.map_nil]
    exact K.still hn (by simp)
  unfold Deriver.deriveWith
  refine .ofExcept_bind fun _ _ => ?_
  cases hn : r.label with
  | root | fontFace | keyframeBlock _ => exact around rfl
  | assignment name value guarded =>
    rw [hn] at own
    exact (h.assign name (own value (.head _)) guarded).bind fun _ _ => .pure Contract.yields_nil
  | result value =>
    rw [hn] at own
    by_cases hf : mode = .function
    · simp only [if_pos hf]
      exact (h.evaluate (own value (.head _))).bind fun _ hv => .pure hv
    · simp only [if_neg hf]
      exact .fail _
  | declaration name value important =>
    rw [hn] at own
    -- a declaration is a leaf, so nothing is left under it
    have none : r.children = [] := hr.children_eq_nil (by rw [hn]; rfl)
    refine (h.evaluate (own value (.head _))).bind fun result hv => .resolve_bind fun name => .pure ?_
    intro o ho
    rw [List.mem_singleton.1 ho, none]
    exact K.declared name important hv
  | block selectors =>
    -- entering a block in the register leaves the context as it is
    refine .scope_bind fun s _ => fun v hv => ?_
    exact ((h.deriveChildren below).wrapped fun _ => K.flatten _ _) _ hv
  | comment _ | plain _ | vendor _ _ =>
    rw [hn] at still
    exact still rfl rfl
  | keyframes keyword name => exact .resolve_bind fun name => around rfl
  | media query => exact .resolve_bind fun query => around rfl
  | importing i => exact h.deriveImport services hl i (hr.children_eq_nil (by rw [hn]; rfl))
  | extend targets =>
    refine Meets.bind (Q := fun _ => True) (fun v hv => ?_) fun _ _ => .pure Contract.yields_nil
    cases block <;> exact ⟨⟨hv.values, hv.expressions, hv.leaves⟩, fun _ _ => trivial⟩
  | content => exact .pure Contract.yields_nil
  | functionDefinition signature =>
    exact definition fun c hc => ⟨hc.values, hc.expressions.plant hr.expressions, hc.leaves.plant hr.leaves⟩
  | mixinDefinition signature =>
    exact definition fun c hc => ⟨hc.values, hc.expressions.plant hr.expressions, hc.leaves.plant hr.leaves⟩
  | functionCall c =>
    rw [hn] at own
    exact (h.arguments (own _ (.head _))).bind fun _ hargs => (h.call _ hargs).bind fun _ _ =>
      .pure Contract.yields_nil
  | mixinCall c =>
    rw [hn] at own
    exact h.includeMixin (own _ (.head _)) below
  | nesting name => exact .resolve_bind fun name => (h.deriveChildren below).wrapped fun _ => K.lengthen name
  | listDirective directive =>
    rw [hn] at own
    exact (h.editList (own _ (.head _)) (own _ (.tail _ (.head _)))).bind fun _ _ =>
      .pure Contract.yields_nil
  | counting c =>
    rw [hn] at own
    exact h.expandCounting below (own _ (.head _)) (own _ (.tail _ (.head _)))
  | each name list =>
    rw [hn] at own
    exact h.expandEach below name (own list (.head _))
  | whileLoop condition => exact h.passesWhile services below condition d.steps
  | conditional => exact h.expandConditional services below
  | branch _ | otherwise => exact .fail _

end Deriver.Fulfils

/-! ## Down to a depth -/

/-- Evaluating such expressions gives such values. -/
def Contract.Evaluates (K : Contract) : Prop :=
  ∀ d : Deriver Unit, d.Fulfils K → ∀ e, K.expression e → ∀ v : World Unit, v.context.Meets K →
    ∀ a, ((d.evaluateWith e).exec v).1 = .ok a → K.value a

/-- So does evaluating them aside, and it leaves the world alone. -/
theorem Deriver.Fulfils.evaluateAside {d : Deriver Unit} (h : d.Fulfils K) (hK : K.Evaluates) {e : Value}
    (he : K.expression e) : Meets K K.value (d.evaluateAside e : Expansion τ Value) := fun v hv =>
  ⟨hv, hK d h e he ⟨⟨#[]⟩, v.context.bare, ()⟩ hv.bare⟩

/-- Nothing is loaded in the bodies of functions. -/
theorem bodyDeriver_fulfils (hK : K.Evaluates) (conditions : String → Except String Literal) (depth : Nat) :
    (bodyDeriver conditions depth).Fulfils K := by
  induction depth with
  | zero => exact ⟨fun _ => .throw _, fun _ _ _ _ => .throw _⟩
  | succ depth ih =>
    exact ⟨fun he => ih.evaluateAside hK he,
      fun _ _ _ hr => ih.deriveWith _ (fun _ _ _ loaded => by cases loaded) hr⟩

/-- Down to every depth, derivations meet a contract that the evaluation of values meets. -/
theorem deriver_fulfils (hK : K.Evaluates) (services : Services τ) (hl : K.Loads services) (depth : Nat) :
    (deriver services depth).Fulfils K := by
  induction depth with
  | zero => exact ⟨fun _ => .throw _, fun _ _ _ _ => .throw _⟩
  | succ depth ih =>
    have bodies := bodyDeriver_fulfils hK services.conditions depth
    exact ⟨fun he => bodies.evaluateAside hK he, fun _ _ _ hr => ih.deriveWith services hl hr⟩

end

end Stylesheet

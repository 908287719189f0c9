import Stylesheet.Proofs.Derivation.Covering

/-! # Cutting loops

The passes of a counting loop are those of its halves, one after the other (`Deriver.passesFrom_add`). So a
derivation that goes twice as deep covers all derivations of trees in which loops are cut elsewhere
(**`Deriver.Covers`**): where one loop has been cut in two, two steps are made for one
(`Deriver.Covers.deriveFrom`), and all else goes alike, level by level (`deriver_covers`). -/

namespace Stylesheet

open Expansion

section

variable {τ : Type} {cuts : Counting → Prop}

namespace Deriver

/-! ## The passes of the halves -/

/-- After the passes for the first integers come those for the others. -/
theorem passesFrom_add (d : Deriver τ) (block : Option NodeId) (mode : Mode) (body : List (Rose Node))
    (name : String) (k l : Nat) (i : Int) :
    d.passesFrom block mode body name (k + l) i =
      followedBy (d.passesFrom block mode body name k i) (d.passesFrom block mode body name l (i + k)) := by
  induction k generalizing i with
  | zero =>
    rw [Nat.zero_add, passesFrom.eq_1, nil_followedBy]
    simp
  | succ k ih =>
    have next : i + 1 + (k : Int) = i + ((k + 1 : Nat) : Int) := by omega
    rw [Nat.add_right_comm, passesFrom, ih, passesFrom, followedBy_assoc, next]

/-- The passes from `a` to `b` are those from `a` through `m` and those from `m + 1` to `b`. -/
theorem passesFrom_halves {a m b : Int} (le : a ≤ m) (lt : m < b) (d : Deriver τ) (block : Option NodeId)
    (mode : Mode) (body : List (Rose Node)) (name : String) (inclusive : Bool) :
    d.passesFrom block mode body name ((b - a).toNat + (if inclusive then 1 else 0)) a =
      followedBy (d.passesFrom block mode body name ((m - a).toNat + (if true then 1 else 0)) a)
        (d.passesFrom block mode body name ((b - (m + 1)).toNat + (if inclusive then 1 else 0)) (m + 1)) := by
  have count : (b - a).toNat + (if inclusive then 1 else 0) =
      ((m - a).toNat + (if true then 1 else 0)) + ((b - (m + 1)).toNat + (if inclusive then 1 else 0)) := by
    rw [if_pos rfl]
    omega
  have next : a + ((m - a).toNat + (if true then 1 else 0) : Nat) = m + 1 := by
    rw [if_pos rfl]
    omega
  rw [count, passesFrom_add, next]

/-- Numbers are evaluated to themselves. -/
def Counts (d : Deriver τ) : Prop := ∀ (n : Number) v, (d.evaluate [.number n]).exec v = (.ok [.number n], v)

/-- A loop with integers as bounds makes its passes. -/
theorem expandCounting_of_counts {d : Deriver τ} (h : d.Counts) {low high : Number} {a b : Int}
    (ha : low.integer? = some a) (hb : high.integer? = some b) (le : a ≤ b) (block : Option NodeId)
    (mode : Mode) (body : List (Rose Node)) (name : String) (inclusive : Bool) :
    d.expandCounting block mode body ⟨name, [.number low], [.number high], inclusive⟩ =
      d.passesFrom block mode body name ((b - a).toNat + (if inclusive then 1 else 0)) a := by
  have bound (which : String) {n : Number} {i : Int} (hn : n.integer? = some i) (v : World τ) :
      (d.walker.bound which [.number n]).exec v = (.ok i, v) := exec_bound which (h n v) hn
  funext v
  show (d.expandCounting block mode body _).exec v = (d.passesFrom block mode body name _ a).exec v
  unfold expandCounting
  rw [exec_bind, bound "from" ha]
  dsimp only
  rw [exec_bind, bound "to" hb]
  dsimp only
  rw [if_neg (Int.not_lt.2 le)]

/-- One deriver covers another one in all that it does. -/
structure Covers (cuts : Counting → Prop) (d d' : Deriver τ) : Prop where
  steps : 2 * d.steps ≤ d'.steps
  counts : (∀ n v, ((d.evaluate [.number n]).exec v).1 = .error .tooDeep) ∨ (d.Counts ∧ d'.Counts)
  evaluate : ∀ value, Expansion.Covers cuts (· = ·) (d.evaluate value) (d'.evaluate value)
  derive : ∀ block mode n {cs cs'}, Rose.Recut (Node.Cut cuts) cs cs' →
    Expansion.Covers cuts (Yield.Recut cuts) (d.derive block mode ⟨n, cs⟩) (d'.derive block mode ⟨n, cs'⟩)
  cut : ∀ block mode {n n₁ n₂ cs ds es}, Node.Cut cuts n n₁ n₂ → Rose.Recut (Node.Cut cuts) cs ds →
    Rose.Recut (Node.Cut cuts) cs es →
    Expansion.Covers cuts (Yield.Recut cuts) (d.derive block mode ⟨n, cs⟩)
      (followedBy (d'.derive block mode ⟨n₁, ds⟩) (d'.derive block mode ⟨n₂, es⟩))
  join : ∀ block mode {n n₁ n₂ cs ds es}, Node.Cut cuts n n₁ n₂ → Rose.Recut (Node.Cut cuts) ds cs →
    Rose.Recut (Node.Cut cuts) es cs →
    Expansion.Covers cuts (Yield.Recut cuts) (followedBy (d.derive block mode ⟨n₁, ds⟩) (d.derive block mode ⟨n₂, es⟩))
      (d'.derive block mode ⟨n, cs⟩)

namespace Covers

variable {d d' : Deriver τ} (h : d.Covers cuts d') {block : Option NodeId} {mode : Mode} {rs rs' : List (Rose Node)}

include h

/-! ## Sequences -/

/-- Deriving a list of trees covers deriving the trees with their loops cut elsewhere. -/
theorem deriveNodes (recut : Rose.Recut (Node.Cut cuts) rs rs') :
    Expansion.Covers cuts (Yield.Recut cuts) (d.deriveNodes block mode rs) (d'.deriveNodes block mode rs') := by
  induction recut with
  | nil => exact .pure .nil
  | cons under _ _ rest => exact (h.derive block mode _ under).followedBy rest
  | cut hn first second _ _ _ rest =>
    rw [Deriver.deriveNodes, Deriver.deriveNodes, Deriver.deriveNodes, ← followedBy_assoc]
    exact (h.cut block mode hn first second).followedBy rest
  | join hn first second _ _ _ rest =>
    rw [Deriver.deriveNodes, Deriver.deriveNodes, Deriver.deriveNodes, ← followedBy_assoc]
    exact (h.join block mode hn first second).followedBy rest

omit h in
/-- What gives up behind the first of two derivations gives up sooner than what gives up behind both. -/
theorem sooner_throw (first second : Expansion τ Yield) (v : World τ) :
    ((followedBy first (throw .tooDeep)).exec v).1 = .error .tooDeep ∨
      (followedBy first (throw .tooDeep)).exec v =
        (followedBy (followedBy first second) (throw .tooDeep)).exec v := by
  rw [followedBy_assoc]
  unfold followedBy
  rw [exec_bind, exec_bind]
  rcases first.exec v with ⟨_ | ⟨made⟩ | value, w⟩
  · exact .inr rfl
  · exact .inl rfl
  · exact .inr rfl

/-- Twice as many steps are enough for as many nodes. -/
theorem deriveFrom (recut : Rose.Recut (Node.Cut cuts) rs rs') {steps steps' : Nat} (enough : 2 * steps ≤ steps') :
    Expansion.Covers cuts (Yield.Recut cuts) (d.deriveFrom block mode steps rs)
      (d'.deriveFrom block mode steps' rs') := by
  induction recut generalizing steps steps' with
  | nil =>
    rw [Deriver.deriveFrom.eq_1, Deriver.deriveFrom.eq_1]
    exact .pure .nil
  | cons under _ _ rest =>
    rcases steps with _ | steps
    · exact .of_deep fun _ => rfl
    · obtain ⟨steps', rfl⟩ := Nat.exists_eq_add_of_le' (show 1 ≤ steps' by omega)
      exact (h.derive block mode _ under).followedBy (rest (by omega))
  | cut hn first second _ _ _ rest =>
    rcases steps with _ | steps
    · exact .of_deep fun _ => rfl
    · obtain ⟨steps', rfl⟩ := Nat.exists_eq_add_of_le' (show 2 ≤ steps' by omega)
      rw [Deriver.deriveFrom, Deriver.deriveFrom, Deriver.deriveFrom, ← followedBy_assoc]
      exact (h.cut block mode hn first second).followedBy (rest (by omega))
  | @join _ _ _ _ _ _ _ us' hn first second _ _ _ rest =>
    rcases steps with _ | _ | steps
    · exact .of_deep fun _ => rfl
    · -- the second half is out of reach, so nothing is asked of it
      obtain ⟨steps', rfl⟩ := Nat.exists_eq_add_of_le' (show 1 ≤ steps' by omega)
      have beyond : Expansion.Covers cuts (Yield.Recut cuts) (throw .tooDeep) (d'.deriveFrom block mode steps' us') :=
        .of_deep fun _ => rfl
      rw [Deriver.deriveFrom, Deriver.deriveFrom, Deriver.deriveFrom]
      exact ((h.join block mode hn first second).followedBy beyond).of_sooner (sooner_throw _ _)
    · obtain ⟨steps', rfl⟩ := Nat.exists_eq_add_of_le' (show 1 ≤ steps' by omega)
      rw [Deriver.deriveFrom, Deriver.deriveFrom, Deriver.deriveFrom, ← followedBy_assoc]
      exact (h.join block mode hn first second).followedBy (rest (by omega))

/-- Deriving the children of a node covers deriving those of one with its loops cut elsewhere. -/
theorem deriveChildren (recut : Rose.Recut (Node.Cut cuts) rs rs') :
    Expansion.Covers cuts (Yield.Recut cuts) (d.deriveChildren block mode rs) (d'.deriveChildren block mode rs') :=
  h.deriveFrom recut h.steps

/-! ## Calls -/

/-- Evaluating the arguments of a call covers itself. -/
theorem arguments (parameters : Value) :
    Expansion.Covers cuts (· = ·) (d.walker.arguments parameters) (d'.walker.arguments parameters) :=
  Covers.compositional.mapM d.evaluate d'.evaluate h.evaluate _

/-- Binding the parameters of a call covers itself. -/
theorem bindParameters (collated : List (String × Argument)) :
    Expansion.Covers cuts (fun _ _ => True) (d.walker.bindParameters collated)
      (d'.walker.bindParameters collated) := by
  induction collated with
  | nil => exact .pure trivial
  | cons p rest ih =>
    obtain ⟨name, argument⟩ := p
    unfold Walker.bindParameters
    have bound (value : Value) : Expansion.Covers cuts (fun _ _ => True)
        (modifyScope (·.define name value) >>= fun _ => d.walker.bindParameters rest)
        (modifyScope (·.define name value) >>= fun _ => d'.walker.bindParameters rest) :=
      (Covers.modifyScope _).bind fun _ _ _ => ih
    cases argument with
    | given value => exact bound value
    | default value =>
      refine (h.evaluate value).bind fun value _ e => ?_
      subst e
      exact bound value

/-- Invoking a function covers invoking it with its body cut elsewhere. -/
theorem invoke (name : String) (args : List Value) :
    Expansion.Covers cuts (· = ·) (d.invoke name args) (d'.invoke name args) := by
  refine .context_bind fun c c' hc => .found_bind (hc.function name) ?_
  rintro ⟨id, signature⟩ ⟨id', _⟩ ⟨rfl, recut⟩
  refine .ofExcept_bind fun collated _ => ?_
  have body : Expansion.Covers cuts (Yield.Recut cuts)
      (aside <| Expansion.inFrame .call do
        d.walker.bindParameters collated
        let lookup ← Walker.innermostLookup
        d.deriveChildren none .function ((bodyOf c id).map (Rose.interpolate lookup)))
      (aside <| Expansion.inFrame .call do
        d'.walker.bindParameters collated
        let lookup ← Walker.innermostLookup
        d'.deriveChildren none .function ((bodyOf c' id').map (Rose.interpolate lookup))) :=
    .aside (.inFrame ((h.bindParameters collated).bind fun _ _ _ => .lookup_bind fun lookup =>
      h.deriveChildren (recut.interpolate lookup)))
  refine body.bind fun yield yield' hy => ?_
  cases hy <;> exact .pure rfl

/-- Calls give the same values, whether or not they are of functions that are defined. -/
theorem call (name : String) (args : List Value) :
    Expansion.Covers cuts (· = ·) (d.call name args) (d'.call name args) := by
  refine .ofExcept_bind fun result _ => ?_
  cases result with
  | some value => exact .pure rfl
  | none => exact h.invoke name args

/-- Values are evaluated alike. -/
theorem evaluateWith (value : Value) :
    Expansion.Covers cuts (· = ·) (d.evaluateWith value) (d'.evaluateWith value) := by
  have ofVar (name : String) : Expansion.Covers cuts (· = ·) (d.live.ofVar name) (d'.live.ofVar name) :=
    .scope_bind fun _ => .pure rfl
  have ofCall (name : String) (parameters : Value) :
      Expansion.Covers cuts (· = ·) (d.live.ofCall name parameters) (d'.live.ofCall name parameters) := by
    refine .context_bind fun c c' hc => ?_
    rw [hc.hasFunction_eq]
    split
    · refine (h.arguments parameters).bind fun args _ e => ?_
      subst e
      refine (h.call name args).bind fun result _ e => ?_
      subst e
      exact .pure rfl
    · exact .pure rfl
  have substituted : Expansion.Covers cuts (· = ·) (Value.substitute d.live false value)
      (Value.substitute d'.live false value) :=
    Covers.compositional.value_substitute d.live d'.live ofVar ofCall false value
  refine substituted.bind fun substituted _ e => ?_
  subst e
  split
  · cases Value.evaluate substituted with
    | ok a => exact .pure rfl
    | error e => exact .fail e
  · exact .pure rfl

/-! ## Loops and conditionals -/

/-- One pass of a loop covers a pass over the body cut elsewhere. -/
theorem pass (recut : Rose.Recut (Node.Cut cuts) rs rs') (bound : Option (String × Value)) :
    Expansion.Covers cuts (Yield.Recut cuts) (d.pass block mode rs bound) (d'.pass block mode rs' bound) := by
  have copies : Expansion.Covers cuts (Yield.Recut cuts)
      (Walker.innermostLookup >>= fun lookup => d.deriveNodes block mode (rs.map (Rose.interpolate lookup)))
      (Walker.innermostLookup >>= fun lookup =>
        d'.deriveNodes block mode (rs'.map (Rose.interpolate lookup))) :=
    .lookup_bind fun lookup => h.deriveNodes (recut.interpolate lookup)
  refine Expansion.Covers.inFrame ?_
  cases bound with
  | none => exact copies
  | some bound => exact (Expansion.Covers.modifyScope _).bind fun _ _ _ => copies

/-- The passes of a counting loop cover those over the body cut elsewhere. -/
theorem passesFrom (recut : Rose.Recut (Node.Cut cuts) rs rs') (name : String) (count : Nat) (i : Int) :
    Expansion.Covers cuts (Yield.Recut cuts) (d.passesFrom block mode rs name count i)
      (d'.passesFrom block mode rs' name count i) := by
  induction count generalizing i with
  | zero => exact .pure .nil
  | succ count ih => exact (h.pass recut _).followedBy (ih (i + 1))

/-- The passes of a loop over values cover those over the body cut elsewhere. -/
theorem passesOver (recut : Rose.Recut (Node.Cut cuts) rs rs') (name : String) (items : List Value) :
    Expansion.Covers cuts (Yield.Recut cuts) (d.passesOver block mode rs name items)
      (d'.passesOver block mode rs' name items) := by
  induction items with
  | nil => exact .pure .nil
  | cons item items ih => exact (h.pass recut _).followedBy ih

omit h in
/-- Whether a condition holds depends on the variables. -/
theorem holds (services : Services τ) (condition : String) :
    Expansion.Covers cuts (· = ·) (Walker.holds services condition) (Walker.holds services condition) := by
  refine .scope_bind fun s => ?_
  split
  · exact .pure rfl
  · exact .fail _
  · exact .fail _

/-- The passes of a loop with a condition cover those over the body cut elsewhere, with twice the steps for it. -/
theorem passesWhile (services : Services τ) (recut : Rose.Recut (Node.Cut cuts) rs rs') (condition : String)
    {steps steps' : Nat} (enough : 2 * steps ≤ steps') :
    Expansion.Covers cuts (Yield.Recut cuts) (Deriver.passesWhile services d block mode rs condition steps)
      (Deriver.passesWhile services d' block mode rs' condition steps') := by
  induction steps generalizing steps' with
  | zero => exact .of_deep fun _ => rfl
  | succ steps ih =>
    obtain ⟨steps', rfl⟩ := Nat.exists_eq_add_of_le' (show 1 ≤ steps' by omega)
    refine (holds services condition).bind fun b _ e => ?_
    subst e
    cases b with
    | true => exact (h.pass recut none).followedBy (ih (by omega))
    | false => exact .pure .nil

/-- A counting loop covers the same loop with its body cut elsewhere. -/
theorem expandCounting (recut : Rose.Recut (Node.Cut cuts) rs rs') (loop : Counting) :
    Expansion.Covers cuts (Yield.Recut cuts) (d.expandCounting block mode rs loop)
      (d'.expandCounting block mode rs' loop) := by
  have bound (which : String) (value : Value) :
      Expansion.Covers cuts (· = ·) (d.walker.bound which value) (d'.walker.bound which value) := by
    refine (h.evaluate value).bind fun result _ e => ?_
    subst e
    split
    · exact .pure rfl
    · exact .fail _
  refine (bound "from" loop.low).bind fun low _ e => ?_
  subst e
  refine (bound "to" loop.high).bind fun high _ e => ?_
  subst e
  split
  · exact .fail _
  · exact h.passesFrom recut _ _ _

/-- A loop over the items of a list covers the same loop with its body cut elsewhere. -/
theorem expandEach (recut : Rose.Recut (Node.Cut cuts) rs rs') (name : String) (list : Value) :
    Expansion.Covers cuts (Yield.Recut cuts) (d.expandEach block mode rs name list)
      (d'.expandEach block mode rs' name list) := by
  refine (h.evaluate list).bind fun value _ e => ?_
  subst e
  exact h.passesOver recut name _

omit h in
/-- The same branch is chosen. -/
theorem choose (services : Services τ) (recut : Rose.Recut (Node.Cut cuts) rs rs') :
    Expansion.Covers cuts
      (fun r r' => Rose.Recut (Node.Cut cuts) ((r.map Rose.children).getD []) ((r'.map Rose.children).getD []))
      (Deriver.choose services rs) (Deriver.choose services rs') := by
  induction recut with
  | nil => exact .pure .nil
  | @cons n _ _ _ _ under _ _ rest =>
    unfold Deriver.choose
    rw [Rose.label_mk, Rose.label_mk]
    split
    · refine (holds services _).bind fun b _ e => ?_
      subst e
      cases b with
      | true => exact .pure under
      | false => exact rest
    · exact .pure under
    · exact rest
  | cut hn _ _ _ _ _ rest =>
    -- loops are no branches
    obtain ⟨⟩ := hn
    exact rest
  | join hn _ _ _ _ _ rest =>
    obtain ⟨⟩ := hn
    exact rest

/-- A conditional covers one whose branches are cut elsewhere. -/
theorem expandConditional (services : Services τ) (recut : Rose.Recut (Node.Cut cuts) rs rs') :
    Expansion.Covers cuts (Yield.Recut cuts) (Deriver.expandConditional services d block mode rs)
      (Deriver.expandConditional services d' block mode rs') :=
  (choose services recut).bind fun _ _ chosen => h.deriveNodes chosen

/-! ## Nodes -/

omit h in
/-- Blocks move out wherever loops are cut. -/
theorem flatten {made made' : List (Rose Stem)} (recut : Rose.Recut (Stem.Cut cuts) made made')
    (selectors : List String) (mark : NodeId) :
    Rose.Recut (Stem.Cut cuts) (Deriver.flatten selectors mark made) (Deriver.flatten selectors mark made') := by
  have others : ∀ {a b c : Stem}, Stem.Cut cuts a b c →
      (!b.node.isBlock) = (!a.node.isBlock) ∧ (!c.node.isBlock) = (!a.node.isBlock) := by
    rintro _ _ _ ⟨⟨⟩⟩
    exact ⟨rfl, rfl⟩
  have blocks : ∀ {a b c : Stem}, Stem.Cut cuts a b c →
      b.node.isBlock = a.node.isBlock ∧ c.node.isBlock = a.node.isBlock := by
    rintro _ _ _ ⟨⟨⟩⟩
    exact ⟨rfl, rfl⟩
  have nested : ∀ {a b c : Stem}, Stem.Cut cuts a b c → Stem.Cut cuts ⟨Tree.nestNode selectors a.node, a.mark⟩
      ⟨Tree.nestNode selectors b.node, b.mark⟩ ⟨Tree.nestNode selectors c.node, c.mark⟩ := by
    rintro _ _ _ ⟨⟨one, ha, hm, hn, hb, le, lt⟩⟩
    exact .still (.counting one ha hm hn hb le lt)
  exact .cons (recut.filter (p := fun s => !s.node.isBlock) others)
    ((recut.filter (p := fun s => s.node.isBlock) blocks).retop
      (f := fun s => ⟨Tree.nestNode selectors s.node, s.mark⟩) nested)

omit h in
/-- Names are lengthened wherever loops are cut. -/
theorem lengthen {made made' : List (Rose Stem)} (recut : Rose.Recut (Stem.Cut cuts) made made') (name : String) :
    Rose.Recut (Stem.Cut cuts) (Deriver.lengthen name made) (Deriver.lengthen name made') := by
  have longer : ∀ {a b c : Stem}, Stem.Cut cuts a b c → Stem.Cut cuts ⟨Tree.lengthenNode name a.node, a.mark⟩
      ⟨Tree.lengthenNode name b.node, b.mark⟩ ⟨Tree.lengthenNode name c.node, c.mark⟩ := by
    rintro _ _ _ ⟨⟨one, ha, hm, hn, hb, le, lt⟩⟩
    exact .still (.counting one ha hm hn hb le lt)
  exact recut.retop (f := fun s => ⟨Tree.lengthenNode name s.node, s.mark⟩) longer

/-- A block covers one in which loops are cut elsewhere. -/
theorem deriveBlock (recut : Rose.Recut (Node.Cut cuts) rs rs') (selectors : List String) :
    Expansion.Covers cuts (Yield.Recut cuts) (d.deriveBlock mode selectors rs) (d'.deriveBlock mode selectors rs') := by
  refine .scope_bind fun s => ?_
  intro v v' hv
  -- the block has the same number in both registers
  have entered {t t' : Tree} (size : t.size = t'.size) (n : Node) :
      (t.create n).1 = (t'.create n).1 ∧ (t.create n).2.size = (t'.create n).2.size := by
    refine ⟨congrArg NodeId.mk size, ?_⟩
    rw [Tree.size_create, Tree.size_create, size]
  rw [exec_changeTree_bind, exec_changeTree_bind, (entered hv.size _).1]
  exact ((h.deriveChildren recut).wrapped fun made => flatten made _ _)
    ⟨hv.context, (entered hv.size _).2, hv.loader⟩

/-- An import brings in the same trees for both. -/
theorem deriveImport (services : Services τ) (recut : Rose.Recut (Node.Cut cuts) rs rs') (i : Import) :
    Expansion.Covers cuts (Yield.Recut cuts) (Deriver.deriveImport services d block mode i rs)
      (Deriver.deriveImport services d' block mode i rs') := by
  refine .resolve_bind fun uri => ?_
  dsimp only
  split
  · exact .pure (.finished (.cons (recut.map .still) .nil))
  · have loaded : Expansion.Covers cuts (· = ·) (Walker.load services uri) (Walker.load services uri) := by
      intro v v' hv
      rw [Walker.exec_load, Walker.exec_load, hv.loader]
      have moved : World.Recut cuts { v with loader := (services.load uri v'.loader).2 }
          { v' with loader := (services.load uri v'.loader).2 } := ⟨hv.context, hv.size, rfl⟩
      refine .inr ?_
      match (services.load uri v'.loader).1 with
      | .ok (some source) => exact .ok ⟨rfl, moved⟩
      | .ok none => exact .error moved
      | .error e => exact .error moved
    refine loaded.bind fun source _ e => ?_
    subst e
    exact h.deriveNodes (.refl _)

/-- Including a mixin covers including it with its body and its block cut elsewhere. -/
theorem includeMixin (invocation : Invocation) (recut : Rose.Recut (Node.Cut cuts) rs rs') :
    Expansion.Covers cuts (Yield.Recut cuts) (d.includeMixin block invocation rs)
      (d'.includeMixin block invocation rs') := by
  refine .context_bind fun c c' hc => .found_bind (hc.mixin invocation.name) ?_
  rintro ⟨id, signature⟩ ⟨id', _⟩ ⟨rfl, body⟩
  refine (h.arguments invocation.arguments).bind fun args _ e => ?_
  subst e
  refine .ofExcept_bind fun collated _ => ?_
  have placed : Expansion.Covers cuts (Yield.Recut cuts)
      (Expansion.inFrame .call do
        d.walker.bindParameters collated
        let lookup ← Walker.innermostLookup
        d.deriveNodes block .mixin (((bodyOf c id).flatMap (Rose.fill rs)).map (Rose.interpolate lookup)))
      (Expansion.inFrame .call do
        d'.walker.bindParameters collated
        let lookup ← Walker.innermostLookup
        d'.deriveNodes block .mixin
          (((bodyOf c' id').flatMap (Rose.fill rs')).map (Rose.interpolate lookup))) :=
    .inFrame ((h.bindParameters collated).bind fun _ _ _ => .lookup_bind fun lookup =>
      h.deriveNodes ((recut.fill body).interpolate lookup))
  refine placed.bind fun yield yield' hy => ?_
  cases hy with
  | finished made => exact .pure (.finished made)
  | returned value => exact .fail _

omit h in
/-- A definition that is taken in. -/
theorem definition {f f' : Context → Context} (hf : ∀ c c', c.Recut cuts c' → (f c).Recut cuts (f' c')) :
    Expansion.Covers cuts (Yield.Recut cuts) (modifyContext f >>= fun _ => pure (Yield.finished []) : Expansion τ Yield)
      (modifyContext f' >>= fun _ => pure (Yield.finished [])) :=
  (Expansion.Covers.modifyContext hf).bind fun _ _ _ => .pure .nil

/-- An assignment gives the same value to both. -/
theorem assign (name : String) (value : Value) (guarded : Bool) :
    Expansion.Covers cuts (fun _ _ => True) (d.assign name value guarded) (d'.assign name value guarded) := by
  refine .scope_bind fun s => ?_
  split
  · exact .pure trivial
  · refine (h.evaluate value).bind fun result _ e => ?_
    subst e
    exact .modifyScope _

/-- Editing a list gives the same list to both. -/
theorem editList (directive : ListDirective) :
    Expansion.Covers cuts (fun _ _ => True) (d.editList directive) (d'.editList directive) := by
  refine (h.evaluate directive.list).bind fun list _ e => ?_
  subst e
  refine (h.evaluate directive.items).bind fun items _ e => ?_
  subst e
  exact .modifyScope _

/-- What is derived from trees with the same node at the top, one level deeper. -/
theorem deriveWith (services : Services τ) (n : Node) (recut : Rose.Recut (Node.Cut cuts) rs rs') :
    Expansion.Covers cuts (Yield.Recut cuts) (Deriver.deriveWith services d block mode ⟨n, rs⟩)
      (Deriver.deriveWith services d' block mode ⟨n, rs'⟩) := by
  have around (n : Node) :
      Expansion.Covers cuts (Yield.Recut cuts) (Deriver.wrapped (Deriver.around n) (d.deriveChildren block mode rs))
      (Deriver.wrapped (Deriver.around n) (d'.deriveChildren block mode rs')) :=
    (h.deriveChildren recut).wrapped fun made => .cons made .nil
  have still : Rose.Recut (Stem.Cut cuts) [Rose.map .still ⟨n, rs⟩] [Rose.map .still ⟨n, rs'⟩] :=
    (Rose.Recut.cons recut .nil).map .still
  unfold Deriver.deriveWith
  rw [Rose.label_mk, Rose.label_mk, Rose.children_mk, Rose.children_mk]
  refine .ofExcept_bind fun _ _ => ?_
  -- the children matter to a node only through what is derived of them
  cases n with
  | root | fontFace | keyframeBlock _ => exact around _
  | assignment name value guarded => exact (h.assign name value guarded).bind fun _ _ _ => .pure .nil
  | result value =>
    by_cases hf : mode = .function
    · simp only [if_pos hf]
      refine (h.evaluate value).bind fun result _ e => ?_
      subst e
      exact .pure (.returned _)
    · simp only [if_neg hf]
      exact .fail _
  | declaration name value important =>
    refine (h.evaluate value).bind fun result _ e => ?_
    subst e
    exact .resolve_bind fun name => .pure (.finished (.cons (recut.map .still) .nil))
  | block selectors => exact h.deriveBlock recut selectors
  | comment _ | plain _ | vendor _ _ => exact .pure (.finished still)
  | keyframes keyword name => exact .resolve_bind fun name => around _
  | media query => exact .resolve_bind fun query => around _
  | importing i => exact h.deriveImport services recut i
  | extend targets =>
    refine Expansion.Covers.bind (Q := fun _ _ => True) ?_ fun _ _ _ => .pure .nil
    cases block with
    | none => exact .pure trivial
    | some mark =>
      unfold recordExtension
      refine .modifyContext fun c c' hc => ?_
      rw [hc.extensions]
      exact hc.withExtensions _
  | content => exact .pure .nil
  | functionDefinition signature => exact definition fun c c' hc => hc.enterFunction signature.name recut
  | mixinDefinition signature => exact definition fun c c' hc => hc.enterMixin signature.name recut
  | functionCall c =>
    refine (h.arguments c.arguments).bind fun args _ e => ?_
    subst e
    exact (h.call c.name args).bind fun _ _ _ => .pure .nil
  | mixinCall c => exact h.includeMixin c recut
  | nesting name =>
    exact .resolve_bind fun name => (h.deriveChildren recut).wrapped fun made => lengthen made name
  | listDirective directive => exact (h.editList directive).bind fun _ _ _ => .pure .nil
  | counting c => exact h.expandCounting recut c
  | each name list => exact h.expandEach recut name list
  | whileLoop condition => exact h.passesWhile services recut condition h.steps
  | conditional => exact h.expandConditional services recut
  | branch _ | otherwise => exact .fail _

end Covers

/-! ## One level deeper -/

/-- A loop is allowed everywhere. -/
theorem deriveWith_counting (services : Services τ) (d : Deriver τ) (block : Option NodeId) (mode : Mode)
    (loop : Counting) (rs : List (Rose Node)) :
    deriveWith services d block mode ⟨.counting loop, rs⟩ = d.expandCounting block mode rs loop := by
  cases mode <;> rfl

/-- A loop that cannot evaluate its bounds gives up. -/
theorem expandCounting_of_deep {d : Deriver τ}
    (deep : ∀ n v, ((d.evaluate [.number n]).exec v).1 = .error .tooDeep)
    (block : Option NodeId) (mode : Mode) (rs : List (Rose Node)) (name : String) (low : Number) (high : Value)
    (inclusive : Bool) (v : World τ) :
    ((d.expandCounting block mode rs ⟨name, [.number low], high, inclusive⟩).exec v).1 = .error .tooDeep := by
  have evaluated := deep low v
  unfold expandCounting Walker.bound walker
  rw [exec_bind, exec_bind]
  dsimp only
  revert evaluated
  rcases (d.evaluate [.number low]).exec v with ⟨x, w⟩
  rintro rfl
  rfl

namespace Covers

variable {d d' : Deriver τ} (h : d.Covers cuts d') {block : Option NodeId} {mode : Mode}
  {n n₁ n₂ : Node} {cs ds es : List (Rose Node)}

include h

/-- The halves of a loop make the passes of the loop. -/
theorem deriveWith_cut (services : Services τ) (hn : Node.Cut cuts n n₁ n₂) (first : Rose.Recut (Node.Cut cuts) cs ds)
    (second : Rose.Recut (Node.Cut cuts) cs es) :
    Expansion.Covers cuts (Yield.Recut cuts) (Deriver.deriveWith services d block mode ⟨n, cs⟩)
      (followedBy (Deriver.deriveWith services d' block mode ⟨n₁, ds⟩)
        (Deriver.deriveWith services d' block mode ⟨n₂, es⟩)) := by
  obtain @⟨name, _, _, _, _, inclusive, a, m, b, _, ha, hm, hnext, hb, le, lt⟩ := hn
  rw [deriveWith_counting, deriveWith_counting, deriveWith_counting]
  rcases h.counts with deep | ⟨counts, counts'⟩
  · exact .of_deep (expandCounting_of_deep deep _ _ _ _ _ _ _)
  · rw [expandCounting_of_counts counts ha hb (by omega), expandCounting_of_counts counts' ha hm le,
      expandCounting_of_counts counts' hnext hb (by omega), passesFrom_halves le lt]
    -- each half makes its share of the passes of the loop
    exact (h.passesFrom first name _ a).followedBy (h.passesFrom second name _ (m + 1))

/-- A loop makes the passes of its halves. -/
theorem deriveWith_join (services : Services τ) (hn : Node.Cut cuts n n₁ n₂) (first : Rose.Recut (Node.Cut cuts) ds cs)
    (second : Rose.Recut (Node.Cut cuts) es cs) :
    Expansion.Covers cuts (Yield.Recut cuts) (followedBy (Deriver.deriveWith services d block mode ⟨n₁, ds⟩)
        (Deriver.deriveWith services d block mode ⟨n₂, es⟩))
      (Deriver.deriveWith services d' block mode ⟨n, cs⟩) := by
  obtain @⟨name, low, mid, _, _, inclusive, a, m, b, _, ha, hm, hnext, hb, le, lt⟩ := hn
  rw [deriveWith_counting, deriveWith_counting, deriveWith_counting]
  rcases h.counts with deep | ⟨counts, counts'⟩
  · -- at depth zero the first half gives up already
    refine .of_deep fun v => ?_
    have first := expandCounting_of_deep deep block mode ds name low [.number mid] true v
    unfold followedBy
    rw [exec_bind]
    revert first
    rcases (d.expandCounting block mode ds _).exec v with ⟨x, w⟩
    rintro rfl
    rfl
  · rw [expandCounting_of_counts counts' ha hb (by omega), expandCounting_of_counts counts ha hm le,
      expandCounting_of_counts counts hnext hb (by omega), passesFrom_halves le lt]
    exact (h.passesFrom first name _ a).followedBy (h.passesFrom second name _ (m + 1))

end Covers

end Deriver

/-! ## Down to a depth -/

/-- What is evaluated aside covers what is evaluated aside. -/
theorem Deriver.Covers.evaluateAside {b b' : Deriver Unit} (h : b.Covers cuts b') (value : Value) :
    Expansion.Covers cuts (· = ·) (b.evaluateAside value : Expansion τ Value) (b'.evaluateAside value) := by
  intro v v' hv
  have inside : (⟨⟨#[]⟩, v.context.bare, ()⟩ : World Unit).Recut cuts ⟨⟨#[]⟩, v'.context.bare, ()⟩ :=
    ⟨hv.context.bare, rfl, rfl⟩
  show ((b.evaluateWith value).exec _).1 = _ ∨
    Matches _ _ (((b.evaluateWith value).exec _).1, v) (((b'.evaluateWith value).exec _).1, v')
  rcases h.evaluateWith value inside with deep | matching
  · exact .inl deep
  · refine .inr ?_
    revert matching
    rcases (b.evaluateWith value).exec _ with ⟨x, w⟩
    rcases (b'.evaluateWith value).exec _ with ⟨y, w'⟩
    intro matching
    cases matching with
    | ok h => exact .ok ⟨h.1, hv⟩
    | error => exact .error hv

/-- Nothing is done at depth zero. -/
theorem covers_zero {d' : Deriver τ} :
    (⟨0, fun _ => throw .tooDeep, fun _ _ _ => throw .tooDeep⟩ : Deriver τ).Covers cuts d' where
  steps := by simp
  counts := .inl fun _ _ => rfl
  evaluate _ := .of_deep fun _ => rfl
  derive _ _ _ _ _ _ := .of_deep fun _ => rfl
  cut _ _ _ _ _ _ _ _ _ _ _ := .of_deep fun _ => rfl
  join _ _ _ _ _ _ _ _ _ _ _ := .of_deep fun _ => rfl

/-- One level deeper. -/
theorem Deriver.Covers.succ {b b' : Deriver Unit} {d d' : Deriver τ} (body : b.Covers cuts b') (h : d.Covers cuts d')
    (services : Services τ) {steps steps' : Nat} (enough : 2 * steps ≤ steps') :
    (⟨steps, b.evaluateAside, Deriver.deriveWith services d⟩ : Deriver τ).Covers cuts
      ⟨steps', b'.evaluateAside, Deriver.deriveWith services d'⟩ where
  steps := enough
  counts := .inr ⟨fun _ _ => rfl, fun _ _ => rfl⟩
  evaluate := body.evaluateAside
  derive _ _ n _ _ recut := h.deriveWith services n recut
  cut _ _ _ _ _ _ _ _ hn first second := h.deriveWith_cut services hn first second
  join _ _ _ _ _ _ _ _ hn first second := h.deriveWith_join services hn first second

/-- Deriving the bodies of functions twice as deep covers deriving them cut elsewhere. -/
theorem bodyDeriver_covers (conditions : String → Except String Literal) {depth depth' : Nat}
    (enough : 2 * depth ≤ depth') : (bodyDeriver conditions depth).Covers cuts (bodyDeriver conditions depth') := by
  induction depth generalizing depth' with
  | zero => exact covers_zero
  | succ depth ih =>
    obtain ⟨depth', rfl⟩ := Nat.exists_eq_add_of_le' (show 1 ≤ depth' by omega)
    exact (ih (by omega)).succ (ih (by omega)) _ enough

/-- **A derivation that goes twice as deep** covers a derivation of trees in which loops are cut elsewhere. -/
theorem deriver_covers (services : Services τ) {depth depth' : Nat} (enough : 2 * depth ≤ depth') :
    (deriver services depth).Covers cuts (deriver services depth') := by
  induction depth generalizing depth' with
  | zero => exact covers_zero
  | succ depth ih =>
    obtain ⟨depth', rfl⟩ := Nat.exists_eq_add_of_le' (show 1 ≤ depth' by omega)
    exact (bodyDeriver_covers services.conditions (by omega)).succ (ih (by omega)) services enough

end

end Stylesheet

import Stylesheet.Proofs.Derivation.Deeper

/-! # Gaps

A **gap** is a place in a stylesheet where some nodes are left out (**`Gap`**). It is **open** when derivations
come to what is filled in: the nodes around it are blocks and the like, or branches of conditionals
(**`Gap.Open`**).

Some nodes can be exchanged for others where the derivation of the ones deepens to that of the others, given
depth enough (**`Exchanges`**). They can then be exchanged in every open gap (**`Gap.Open.exchanges`**), and
all that matters is in which worlds the derivation comes to the gap. A value returned in the gap tells, since
the derivation fails there (**`Fails`**). -/

namespace Stylesheet

open Expansion

/-! ## Places -/

/-- The children of these nodes are derived where they stand, each one once. -/
def Node.isOpen : Node → Bool
  | root | fontFace | keyframeBlock _ | block _ | keyframes _ _ | media _ | nesting _ => true
  | _ => false

/-- The branches of a conditional. -/
def Node.isBranch : Node → Bool
  | branch _ | otherwise => true
  | _ => false

/-- What stands around a gap: the nodes before and behind it, maybe under a node that stands somewhere. -/
inductive Gap
  | here (before after : List (Rose Node))
  | under (before : List (Rose Node)) (n : Node) (inner : Gap) (after : List (Rose Node))

namespace Gap

/-- The gap with some nodes filled in. -/
def fill (rs : List (Rose Node)) : Gap → List (Rose Node)
  | here before after => before ++ rs ++ after
  | under before n inner after => before ++ [⟨n, inner.fill rs⟩] ++ after

/-- A derivation comes to the gap, unless it ends before or takes another branch. -/
inductive Open : Gap → Prop
  | here (before after : List (Rose Node)) : Open (here before after)
  | under {n : Node} {inner : Gap} (before after : List (Rose Node)) : n.isOpen = true → Open inner →
    Open (under before n inner after)
  | branch {n : Node} {inner : Gap} (before first rest after : List (Rose Node)) : n.isBranch = true →
    Open inner → Open (under before .conditional (under first n inner rest) after)

end Gap

section

variable {τ : Type}

/-! ## Opening nodes -/

namespace Deriver

/-- What is done before the children of an open node are derived: it gives the block around them, and what is to
be made of what they make. -/
def opening (block : Option NodeId) : Node → Expansion τ (Option NodeId × (List (Rose Stem) → List (Rose Stem)))
  | .block selectors => do
    let s ← scope
    let selectors := selectors.map (interpolate s.get?)
    let mark ← changeTree (·.create (.block selectors))
    pure (some mark, flatten selectors mark)
  | .keyframes keyword name => do
    let name ← Walker.resolve name
    pure (block, around (.keyframes keyword name))
  | .media query => do
    let query ← Walker.resolve query
    pure (block, around (.media query))
  | .nesting name => do
    let name ← Walker.resolve name
    pure (block, lengthen name)
  | n => pure (block, around n)

variable {services : Services τ} {block : Option NodeId} {n : Node}

/-- An open node is opened, and what its children make is put into it. -/
theorem deriveWith_of_isOpen (h : n.isOpen = true) (d : Deriver τ) (rs : List (Rose Node)) :
    deriveWith services d block .stylesheet ⟨n, rs⟩ =
      opening block n >>= fun o => wrapped o.2 (d.deriveChildren o.1 .stylesheet rs) := by
  have allowed : Expansion.ofExcept (Mode.stylesheet.allows n) = (pure () : Expansion τ Unit) := rfl
  unfold deriveWith
  rw [Rose.label_mk, Rose.children_mk, allowed, pure_bind]
  cases n with
  | root | fontFace | keyframeBlock _ => simp only [opening, pure_bind]
  | block selectors => simp only [opening, deriveBlock, bind_assoc, pure_bind]
  | keyframes _ _ | media _ => simp only [opening, bind_assoc, pure_bind]
  | nesting name => simp only [opening, deriveNesting, bind_assoc, pure_bind]
  | _ => cases h

/-- Of the branches of a conditional the same one is chosen, whatever stands in one of them. -/
theorem choose_branch (h : n.isBranch = true) (first rest : List (Rose Node)) (v : World τ) :
    (∀ rs, (choose services (first ++ [⟨n, rs⟩] ++ rest)).exec v = (.ok (some ⟨n, rs⟩), v)) ∨
      ∃ x, ∀ rs, (choose services (first ++ [⟨n, rs⟩] ++ rest)).exec v = x := by
  -- what is chosen is told by the labels alone, and the one in question keeps its label
  induction first with
  | nil =>
    simp only [List.nil_append, List.singleton_append]
    cases n with
    | branch condition =>
      simp only [choose, Rose.label_mk, exec_bind]
      obtain ⟨b, run⟩ | ⟨e, run⟩ := exec_holds_cases services condition v
      · rw [run]
        cases b with
        | true => exact .inl fun _ => rfl
        | false => exact .inr ⟨_, fun _ => rfl⟩
      · rw [run]
        exact .inr ⟨_, fun _ => rfl⟩
    | otherwise => exact .inl fun _ => rfl
    | _ => cases h
  | cons r first ih =>
    simp only [List.cons_append, choose]
    split
    · rename_i condition _
      simp only [exec_bind]
      obtain ⟨b, run⟩ | ⟨e, run⟩ := exec_holds_cases services condition v
      · rw [run]
        cases b with
        | true => exact .inr ⟨_, fun _ => rfl⟩
        | false => exact ih
      · rw [run]
        exact .inr ⟨_, fun _ => rfl⟩
    · exact .inr ⟨_, fun _ => rfl⟩
    · exact ih

end Deriver

/-! ## Exchanging nodes -/

/-- From the worlds of which `Q` tells, in a block, the derivation of some nodes deepens to that of others, given
depth enough. -/
def Exchanges (services : Services τ) (Q : Option NodeId → World τ → Prop) (xs ys : List (Rose Node)) : Prop :=
  ∃ more, ∀ {depth depth'}, depth + more ≤ depth' → ∀ block v, Q block v →
    Sooner (((deriver services depth).deriveNodes block .stylesheet xs).exec v)
      (((deriver services depth').deriveNodes block .stylesheet ys).exec v)

/-- In a block, in a world of which `Q` tells, what is derived from a node is what is derived from some others one
level less deep. -/
def GivesWay (services : Services τ) (Q : World τ → Prop) (r : Rose Node) (rs : List (Rose Node)) : Prop :=
  ∀ v, Q v → ∀ depth block, ((deriver services (depth + 1)).derive block .stylesheet r).exec v =
    ((deriver services depth).deriveNodes block .stylesheet rs).exec v

/-- At some depth the derivation of some nodes fails with an error, in a world that it leaves then. -/
def Fails (services : Services τ) (rs : List (Rose Node)) (e : Error) (block : Option NodeId) (v u : World τ) :
    Prop :=
  ∃ depth, ((deriver services depth).deriveNodes block .stylesheet rs).exec v = (.error (.failed e), u)

section

open Deriver

variable {services : Services τ} {Q Q' : Option NodeId → World τ → Prop} {xs ys rs : List (Rose Node)} {e : Error}
  {block : Option NodeId} {u v w : World τ} {n : Node}

/-- When the first part has made something, what is left is the rest, with this in front of it. -/
theorem exec_followedBy_ok {first rest : Expansion τ Yield} {made : List (Rose Stem)}
    (run : first.exec v = (.ok (.finished made), w)) :
    (followedBy first rest).exec v = (wrapped (made ++ ·) rest).exec w := by
  rw [followedBy, exec_bind, run]

/-- When the inside fails, so does the whole. -/
theorem exec_wrapped_error {φ : List (Rose Stem) → List (Rose Stem)} {derived : Expansion τ Yield} {stop : Stop}
    (run : derived.exec v = (.error stop, u)) : (wrapped φ derived).exec v = (.error stop, u) := by
  rw [wrapped, exec_bind, run]

/-- When the first part fails, nothing follows it. -/
theorem exec_followedBy_error {first rest : Expansion τ Yield} {stop : Stop}
    (run : first.exec v = (.error stop, u)) : (followedBy first rest).exec v = (.error stop, u) := by
  rw [followedBy, exec_bind, run]

/-- Deriving a list of one tree is deriving the tree. -/
theorem deriveNodes_singleton (d : Deriver τ) (mode : Mode) (r : Rose Node) :
    d.deriveNodes block mode [r] = d.derive block mode r := by
  rw [Deriver.deriveNodes, Deriver.deriveNodes, followedBy]
  conv_rhs => rw [← bind_pure (d.derive block mode r)]
  refine bind_congr fun y => ?_
  cases y <;> simp [wrapped]

namespace Fails

/-- What has not given up for depth goes on alike at greater depths. -/
theorem at_depth {depth : Nat}
    (h : ((deriver services depth).deriveNodes block .stylesheet rs).exec v = (.error (.failed e), u)) {depth' : Nat}
    (le : depth ≤ depth') :
    ((deriver services depth').deriveNodes block .stylesheet rs).exec v = (.error (.failed e), u) := by
  rw [← (((deriver_deepens services le).deriveNodes rs) v).eq (by rw [h]; simp), h]

/-- The world that it leaves does not depend on the depth. -/
theorem unique (h : Fails services rs e block v u) (h' : Fails services rs e block v w) : u = w := by
  obtain ⟨depth, run⟩ := h
  obtain ⟨depth', run'⟩ := h'
  have deep := at_depth run (Nat.le_max_left depth depth')
  rw [at_depth run' (Nat.le_max_right depth depth')] at deep
  cases deep
  rfl

/-- So it does among others, if those before it have come to their end. -/
theorem between (before after : List (Rose Node)) {depth : Nat} {made : List (Rose Stem)}
    (run : ((deriver services depth).deriveNodes block .stylesheet before).exec v = (.ok (.finished made), w))
    (h : Fails services rs e block w u) : Fails services (before ++ rs ++ after) e block v u := by
  obtain ⟨depth', h⟩ := h
  refine ⟨max depth depth', ?_⟩
  have first := ((deriver_deepens services (Nat.le_max_left depth depth')).deriveNodes before v).eq
    (by rw [run]; simp)
  rw [run] at first
  rw [deriveNodes_append, deriveNodes_append]
  refine exec_followedBy_error ?_
  rw [exec_followedBy_ok first.symm]
  exact exec_wrapped_error (at_depth h (Nat.le_max_right ..))

/-- What fails when a node has been opened fails in the node. -/
theorem opened (isOpen : n.isOpen = true) {o : Option NodeId × (List (Rose Stem) → List (Rose Stem))}
    (run : (opening block n).exec v = (.ok o, w)) (h : Fails services rs e o.1 w u) :
    Fails services [⟨n, rs⟩] e block v u := by
  obtain ⟨depth, h⟩ := h
  refine ⟨max depth rs.length + 1, ?_⟩
  rw [deriveNodes_singleton]
  show (deriveWith services (deriver services (max depth rs.length)) block .stylesheet ⟨n, rs⟩).exec v = _
  rw [deriveWith_of_isOpen isOpen, exec_bind, run]
  refine exec_wrapped_error ?_
  rw [deriveChildren_of_length_le]
  · exact at_depth h (Nat.le_max_left ..)
  · rw [steps_deriver]
    exact Nat.le_max_right ..

/-- What fails in a branch that is chosen fails in the conditional. -/
theorem chosen {first rest : List (Rose Node)}
    (run : (choose services (first ++ [⟨n, rs⟩] ++ rest)).exec v = (.ok (some ⟨n, rs⟩), v))
    (h : Fails services rs e block v u) :
    Fails services [⟨.conditional, first ++ [⟨n, rs⟩] ++ rest⟩] e block v u := by
  obtain ⟨depth, h⟩ := h
  refine ⟨depth + 1, ?_⟩
  rw [deriveNodes_singleton]
  show (choose services (first ++ [⟨n, rs⟩] ++ rest) >>= fun chosen => _).exec v = _
  rw [exec_bind, run]
  exact h

/-- A value that is returned is an error. -/
theorem result (marker : Value) (block : Option NodeId) (w : World τ) :
    Fails services [⟨.result marker, []⟩] (.strayReturn marker.text) block w w :=
  ⟨1, by rw [deriveNodes_singleton]; rfl⟩

end Fails

namespace Exchanges

/-- Exchanges in more worlds are exchanges in fewer. -/
theorem imp (h : Exchanges services Q xs ys) (hq : ∀ block v, Q' block v → Q block v) :
    Exchanges services Q' xs ys := by
  obtain ⟨more, h⟩ := h
  exact ⟨more, fun enough block v q => h enough block v (hq block v q)⟩

/-- Nodes can be exchanged between others, in the worlds that those in front leave. -/
theorem between (before after : List (Rose Node)) (h : Exchanges services Q xs ys) :
    Exchanges services (fun block v => ∀ depth made w,
      ((deriver services depth).deriveNodes block .stylesheet before).exec v = (.ok (.finished made), w) →
        Q block w) (before ++ xs ++ after) (before ++ ys ++ after) := by
  obtain ⟨more, h⟩ := h
  refine ⟨more, fun {depth depth'} enough block v hq => ?_⟩
  have deepens := deriver_deepens services (Nat.le_of_add_right_le enough)
  rw [deriveNodes_append, deriveNodes_append, deriveNodes_append, deriveNodes_append, followedBy_assoc,
    followedBy_assoc]
  refine (deepens.deriveNodes before v).bind fun yield w run => ?_
  cases yield with
  | returned value => exact .refl _
  | finished made =>
    -- what is exchanged is derived in the world that the nodes before it leave
    have exchanged := h enough block w (hq depth made w run)
    refine Sooner.bind (Sooner.bind exchanged fun yield w₁ _ => ?_) fun _ _ _ => .refl _
    cases yield with
    | returned value => exact .refl _
    | finished made => exact (deepens.deriveNodes after).wrapped _ w₁

/-- To exchange one node for another one, it is enough to do so one level deeper: at depth zero nothing is derived. -/
theorem of_deriveWith {r r' : Rose Node} (more : Nat)
    (h : ∀ {depth depth'}, depth + more ≤ depth' → ∀ block v, Q block v →
      Sooner ((deriveWith services (deriver services depth) block .stylesheet r).exec v)
        ((deriveWith services (deriver services depth') block .stylesheet r').exec v)) :
    Exchanges services Q [r] [r'] := by
  refine ⟨more, fun {depth depth'} enough block v hq => ?_⟩
  rw [deriveNodes_singleton, deriveNodes_singleton]
  cases depth with
  | zero => exact .inl rfl
  | succ depth =>
    obtain ⟨depth', rfl⟩ := Nat.exists_eq_add_of_le' (show 1 ≤ depth' by omega)
    exact h (by omega) block v hq

/-- Nodes can be exchanged in an open node, in the worlds that opening it leaves. -/
theorem opened (isOpen : n.isOpen = true) (h : Exchanges services Q xs ys) :
    Exchanges services (fun block v => ∀ o w, (opening block n).exec v = (.ok o, w) → Q o.1 w) [⟨n, xs⟩]
      [⟨n, ys⟩] := by
  obtain ⟨more, h⟩ := h
  -- the steps of the deeper derivation have to be enough for all that is filled in
  refine of_deriveWith (max more ys.length) fun {depth depth'} enough block v hq => ?_
  rw [deriveWith_of_isOpen isOpen, deriveWith_of_isOpen isOpen]
  refine (Sooner.refl _).bind fun o w run => Sooner.bind ?_ fun _ _ _ => .refl _
  rw [(deriver services depth').deriveChildren_of_length_le (by rw [steps_deriver]; omega)]
  exact ((deriver services depth).deriveChildren_deepens xs w).trans (h (by omega) o.1 w (hq o w run))

/-- Nodes can be exchanged in a branch, in the worlds where it is chosen. -/
theorem chosen (isBranch : n.isBranch = true) (first rest : List (Rose Node)) (h : Exchanges services Q xs ys) :
    Exchanges services (fun block v =>
      (∀ rs, (choose services (first ++ [⟨n, rs⟩] ++ rest)).exec v = (.ok (some ⟨n, rs⟩), v)) → Q block v)
      [⟨.conditional, first ++ [⟨n, xs⟩] ++ rest⟩] [⟨.conditional, first ++ [⟨n, ys⟩] ++ rest⟩] := by
  obtain ⟨more, h⟩ := h
  refine of_deriveWith more fun {depth depth'} enough block v hq => ?_
  have conditional (depth : Nat) (rs : List (Rose Node)) :
      deriveWith services (deriver services depth) block .stylesheet ⟨.conditional, rs⟩ =
        choose services rs >>= fun chosen =>
          (deriver services depth).deriveNodes block .stylesheet ((chosen.map Rose.children).getD []) := rfl
  rw [conditional, conditional, exec_bind, exec_bind]
  rcases choose_branch isBranch first rest v with chosen | ⟨x, chosen⟩
  · rw [chosen, chosen]
    exact h enough block v (hq chosen)
  · -- another branch is chosen or none, and the gap plays no part
    rw [chosen, chosen]
    rcases x with ⟨_ | chosen, w⟩
    · exact .refl _
    · exact (deriver_deepens services (by omega)).deriveNodes _ w

end Exchanges

namespace GivesWay

variable {Q : World τ → Prop} {r : Rose Node} (h : GivesWay services Q r rs)

include h

/-- A node can be exchanged for those that it gives way to. -/
theorem exchanges : Exchanges services (fun _ => Q) [r] rs := by
  refine ⟨0, fun {depth depth'} le block v hq => ?_⟩
  rw [deriveNodes_singleton]
  cases depth with
  | zero =>
    left
    rfl
  | succ depth =>
    rw [h v hq]
    exact (deriver_deepens services (by omega)).deriveNodes rs v

/-- They can be exchanged for the node. -/
theorem exchanged : Exchanges services (fun _ => Q) rs [r] := by
  refine ⟨1, fun {depth depth'} le block v hq => ?_⟩
  obtain ⟨depth', rfl⟩ := Nat.exists_eq_add_of_le' (show 1 ≤ depth' by omega)
  rw [deriveNodes_singleton, h v hq]
  exact (deriver_deepens services (by omega)).deriveNodes rs v

end GivesWay

/-- **What can be exchanged can be exchanged in every open gap**, if it can in the worlds in which a derivation
comes to the gap. -/
theorem Gap.Open.exchanges {g : Gap} (isOpen : g.Open) (marker : Value) {Q : World τ → Prop}
    (h : Exchanges services (fun _ => Q) xs ys) :
    Exchanges services (fun block v =>
      ∀ u, Fails services (g.fill [⟨.result marker, []⟩]) (.strayReturn marker.text) block v u → Q u)
      (g.fill xs) (g.fill ys) := by
  -- the induction is on the way to the gap, and a derivation that fails in the gap fails at each place on the way
  induction isOpen with
  | here before after =>
    exact (h.between before after).imp fun block v hq depth made w run =>
      hq w (.between before after run (.result marker block w))
  | under before after opens _ ih =>
    exact ((ih.opened opens).between before after).imp fun block v hq depth made w run o w₁ opened u fails =>
      hq u (.between before after run (.opened opens opened fails))
  | branch before first rest after isBranch _ ih =>
    exact ((ih.chosen isBranch first rest).between before after).imp
      fun block v hq depth made w run chosen u fails => hq u (.between before after run (.chosen (chosen _) fails))

end

end

end Stylesheet

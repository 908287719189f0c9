import Stylesheet.Proofs.Binding.Steady
import Stylesheet.Proofs.Derivation.Depth

/-! # Calls that agree

Inside of a call two runs **agree** as long as their contexts share the frames of the call
(**`Agreed`**): what they read is bound in these frames, or it is read by a function of the context
and has the same value below. So calling a function gives the same result wherever the names that functions
read have the same values (`invoke_agrees`).

A call does not begin a scope of its own, though: what a function reads and has not bound, it finds in the
frames of its callers, before the global one (`invoke_finds_caller`). -/

namespace Stylesheet

open Expansion

variable {A : List String} {top : List Frame}

/-! ## Runs that agree -/

/-- The value that a derivation has returned, if it has. -/
def Yield.value? : Yield → Option Value
  | .finished _ => none
  | .returned value => some value

/-- Two derivations have both finished or have returned the same value, and their contexts share the frames
of before, which have grown. If they have finished, the variable assigned is bound there. -/
structure Agreed {τ : Type} (A : List String) (top : List Frame) (assigned : Option String) (y : Yield)
    (v : World τ) (y' : Yield) (v' : World τ) : Prop where
  value?_eq : y.value? = y'.value?
  frames : ∃ top', Frame.Grown top top' ∧ Sharing A top' v.context v'.context ∧
    (y.value? = none → ∀ x, assigned = some x → Frame.Bound top' x)

/-- Two derivations agree, or fail alike. -/
abbrev Agrees {τ : Type} (A : List String) (top : List Frame) (assigned : Option String)
    (x x' : Except Stop Yield × World τ) : Prop :=
  Matches (Agreed A top assigned) (fun _ _ => True) x x'

/-- Values are evaluated steadily, and the nodes of a body agree, where all that is read is known. -/
structure Deriver.Uniform (d : Deriver Unit) : Prop where
  evaluate : ∀ {A top value}, (∀ x ∈ Value.names value, Known A top x) → Steady A top (d.evaluate value)
  derive : ∀ {A top v v'} {r : Rose Node}, (∃ f ∈ top, f.kind = .call) → Sharing A top v.context v'.context →
    (∀ x ∈ r.reads, Known A top x) →
    Agrees A top r.label.assigned? ((d.derive none .function r).exec v) ((d.derive none .function r).exec v')

namespace Agrees

variable {τ : Type} {assigned : Option String} {v v' : World τ} {first rest m : Expansion τ Yield}

/-- A derivation that does nothing. -/
theorem finished (hs : Sharing A top v.context v'.context) (made : List (Rose Stem)) :
    Agrees A top none ((pure (.finished made) : Expansion τ Yield).exec v)
      ((pure (.finished made) : Expansion τ Yield).exec v') :=
  .pure ⟨rfl, top, .refl top, hs, fun _ _ h => nomatch h⟩

/-- What is made does not matter. -/
theorem wrapped (φ ψ : List (Rose Stem) → List (Rose Stem)) {n : Expansion τ Yield}
    (h : Agrees A top assigned (m.exec v) (n.exec v')) :
    Agrees A top assigned ((Deriver.wrapped φ m).exec v) ((Deriver.wrapped ψ n).exec v') := by
  unfold Deriver.wrapped
  refine h.bind (fun y w y' w' agreed => ?_) fun _ _ h => h
  match y, y', agreed with
  | .finished _, .finished _, agreed => exact .pure ⟨rfl, agreed.frames⟩
  | .returned a, .returned b, agreed =>
    exact .pure ⟨agreed.value?_eq, agreed.frames⟩
  | .finished _, .returned _, agreed => exact nomatch agreed.value?_eq
  | .returned _, .finished _, agreed => exact nomatch agreed.value?_eq

/-- Derivations in a row agree. -/
theorem followedBy (h : Agrees A top assigned (first.exec v) (first.exec v'))
    (hrest : ∀ {top' w w'}, Frame.Grown top top' → (∀ x, assigned = some x → Frame.Bound top' x) →
      Sharing A top' w.context w'.context → Agrees A top' none (rest.exec w) (rest.exec w')) :
    Agrees A top none ((Deriver.followedBy first rest).exec v) ((Deriver.followedBy first rest).exec v') := by
  unfold Deriver.followedBy
  refine h.bind (fun y w y' w' agreed => ?_) fun _ _ h => h
  obtain ⟨same, top', grown, sharing, bound⟩ := agreed
  match y, y', same with
  | .returned a, .returned b, same =>
    exact .pure ⟨same, top', grown, sharing, fun none => nomatch none⟩
  | .finished made, .finished made', _ =>
    refine (wrapped (made ++ ·) (made' ++ ·) (hrest grown (bound rfl) sharing)).imp ?_ fun _ _ h => h
    rintro y w y' w' ⟨same, top'', grown', sharing, bound⟩
    exact ⟨same, top'', grown.trans grown', sharing, bound⟩

end Agrees

namespace Deriver.Uniform

variable {d : Deriver Unit} (h : d.Uniform) {v v' : World Unit} {services : Services Unit}

include h

/-! ## Rows -/

/-- Nodes in a row agree. -/
theorem deriveNodes (rs : List (Rose Node)) : ∀ {top v v'}, (∃ f ∈ top, f.kind = .call) →
    Sharing A top v.context v'.context → (∀ x ∈ Rose.readsAll true rs, Known A top x) →
    Agrees A top none ((d.deriveNodes none .function rs).exec v)
      ((d.deriveNodes none .function rs).exec v') := by
  induction rs with
  | nil => exact fun _ hs _ => .finished hs []
  | cons r rs ih =>
    intro top v v' hc hs known
    refine (h.derive hc hs fun x hx => known x (Rose.mem_readsAll_cons.2 (.inl hx))).followedBy
      fun {top'} _ _ grown bound sharing => ih (grown.isCall hc) sharing fun x hx => ?_
    -- a name that `r` assigns is bound by now
    by_cases assigned : r.label.assigned? = some x
    · exact .inl (bound x assigned)
    · exact (known x (Rose.mem_readsAll_cons.2 (.inr ⟨hx, assigned⟩))).mono grown

/-- So do they in a given number of steps. -/
theorem deriveFrom (rs : List (Rose Node)) : ∀ {top v v'} (steps : Nat), (∃ f ∈ top, f.kind = .call) →
    Sharing A top v.context v'.context → (∀ x ∈ Rose.readsAll true rs, Known A top x) →
    Agrees A top none ((d.deriveFrom none .function steps rs).exec v)
      ((d.deriveFrom none .function steps rs).exec v') := by
  induction rs with
  | nil =>
    intro top v v' steps _ hs _
    rw [Deriver.deriveFrom.eq_1]
    exact .finished hs []
  | cons r rs ih =>
    intro top v v' steps hc hs known
    cases steps with
    | zero =>
      rw [Deriver.deriveFrom]
      exact .throw trivial
    | succ steps =>
      rw [Deriver.deriveFrom]
      refine (h.derive hc hs fun x hx => known x (Rose.mem_readsAll_cons.2 (.inl hx))).followedBy
        fun {top'} _ _ grown bound sharing => ih steps (grown.isCall hc) sharing fun x hx => ?_
      by_cases assigned : r.label.assigned? = some x
      · exact .inl (bound x assigned)
      · exact (known x (Rose.mem_readsAll_cons.2 (.inr ⟨hx, assigned⟩))).mono grown

/-! ## Calls -/

/-- Arguments are evaluated steadily. -/
theorem arguments {parameters : Value} (known : ∀ x ∈ Value.names parameters, Known A top x) :
    Steady A top (d.walker.arguments parameters) := by
  refine Steady.mapM fun a ha => h.evaluate fun x hx => ?_
  obtain ⟨t, ht, hx⟩ := Value.mem_names.1 hx
  exact known x (Value.mem_names.2 ⟨t, Value.mem_of_mem_arguments ha ht, hx⟩)

/-- Once the parameters are bound, all that the body reads is known. -/
theorem bindParameters {body : List (Rose Node)} {ps : List Parameter} {vs : List Value}
    {collated : List (String × Argument)} (hp : Signature.pair? ps vs = some collated) :
    ∀ {f : Frame} {v v'}, f.kind = .call → Sharing A [f] v.context v'.context →
      (∀ x ∈ Signature.readsBehind body ps, Known A [f] x) →
      Matches (fun _ w _ w' => ∃ f : Frame, f.kind = .call ∧ Sharing A [f] w.context w'.context ∧
          ∀ x ∈ Rose.readsAll true body, Known A [f] x) (fun _ _ => True)
        ((d.walker.bindParameters collated).exec v) ((d.walker.bindParameters collated).exec v') := by
  -- after a parameter has been bound, what is read behind it is known
  have next {f : Frame} {p : Parameter} {ps : List Parameter} (value : Value)
      (known : ∀ x ∈ Signature.readsBehind body (p :: ps), Known A [f] x) :
      ∀ x ∈ Signature.readsBehind body ps, Known A [f.bind p.name value] x := by
    intro x hx
    by_cases e : p.name = x
    · exact .inl ⟨_, .head _, e ▸ Frame.binds_bind_self f p.name value⟩
    · refine (known x ?_).mono (.bind f [] p.name value)
      rw [Signature.readsBehind, List.mem_append, mem_leaveOut]
      exact .inr ⟨hx, fun he => e (Option.some.inj he)⟩
  fun_induction Signature.pair? ps vs generalizing collated with
  | case1 =>
    cases hp
    intro f v v' kind hs known
    exact .pure ⟨f, kind, hs, known⟩
  | case2 => cases hp
  | case3 p ps value vs ih =>
    obtain ⟨rest, hr, rfl⟩ := Option.map_eq_some_iff.1 hp
    intro f v v' kind hs known
    rw [Walker.bindParameters, pure_bind, exec_modifyScope_bind, exec_modifyScope_bind]
    exact ih hr (f := f.bind p.name value) kind (hs.define p.name value) (next value known)
  | case4 => cases hp
  | case5 p ps default some ih =>
    obtain ⟨rest, hr, rfl⟩ := Option.map_eq_some_iff.1 hp
    intro f v v' kind hs known
    have evaluated : Steady A [f] (d.evaluate default) := h.evaluate fun x hx => known x <| by
      rw [Signature.readsBehind, Parameter.default_eq_of_default? some]
      exact List.mem_append_left _ hx
    rw [Walker.bindParameters]
    refine evaluated.matches_bind hs (fun value _ => ?_) trivial
    rw [exec_modifyScope_bind, exec_modifyScope_bind]
    exact ih hr (f := f.bind p.name value) kind (hs.define p.name value) (next value known)

/-- The body of a function agrees in its own frame. -/
theorem functionBody {c : Context} {name : String} {definition : NodeId} {signature : Signature}
    {collated : List (String × Argument)} {args : List Value} (v v' : World Unit)
    (reads : ∀ x ∈ Signature.readsBehind (bodyOf c definition) signature.parameters, x ∈ A)
    (hm : Walker.matchCall name signature args = .ok collated) (hs : Sharing A top v.context v'.context) :
    let body : Expansion Unit Yield := inFrame .call do
      d.walker.bindParameters collated
      let lookup ← Walker.innermostLookup
      d.deriveChildren none .function ((bodyOf c definition).map (Rose.interpolate lookup))
    Matches (fun y _ y' _ => y.value? = y'.value?) (fun _ _ => True) (body.exec v) (body.exec v') := by
  intro body
  refine Matches.inFrame (Q := fun y _ y' _ => y.value? = y'.value?) (E := fun _ _ => True)
    ?_ (fun _ _ _ _ h => h) fun _ _ h => h
  refine (h.bindParameters (Walker.pair?_of_matchCall hm) (f := ⟨.call, []⟩) rfl (hs.below.enter .call)
    fun x hx => .inr (reads x hx)).bind (fun _ w _ w' bound => ?_) fun _ _ h => h
  obtain ⟨f, kind, sharing, known⟩ := bound
  rw [exec_innermostLookup_bind, exec_innermostLookup_bind, sharing.innermost_eq]
  have call : ∃ f' ∈ [f], f'.kind = .call := ⟨f, .head _, kind⟩
  refine (h.deriveFrom _ d.steps call sharing fun x hx => known x ?_).imp (fun _ _ _ _ h => h.value?_eq)
    fun _ _ h => h
  rwa [Rose.readsAll_interpolate] at hx

/-- A function gives the same result, and leaves the world alone. -/
theorem invoke (name : String) (args : List Value) : Steady A top (d.invoke name args) where
  still v := by
    unfold Deriver.invoke
    rw [exec_context_bind]
    cases v.context.function name with
    | error e => rfl
    | ok found =>
      obtain ⟨definition, signature⟩ := found
      rw [exec_ofExcept_ok_bind]
      dsimp only
      cases Walker.matchCall name signature args with
      | error e => rfl
      | ok collated =>
        rw [exec_ofExcept_ok_bind, Expansion.exec_bind, exec_aside]
        split
        -- the world of the caller is taken up again, however the body has ended
        · rename_i y w eq
          obtain rfl : v = w := (Prod.mk.inj eq).2
          cases y <;> rfl
        · rename_i e w eq
          exact (Prod.mk.inj eq).2.symm
  same {v v'} hs := by
    unfold Deriver.invoke
    rw [exec_context_bind, exec_context_bind, ← hs.function_eq name]
    cases found : v.context.function name with
    | error e => rfl
    | ok found' =>
      obtain ⟨definition, signature⟩ := found'
      rw [exec_ofExcept_ok_bind, exec_ofExcept_ok_bind]
      dsimp only
      cases hm : Walker.matchCall name signature args with
      | error e => rfl
      | ok collated =>
        have body := h.functionBody ⟨⟨#[]⟩, v.context.bare, v.loader⟩ ⟨⟨#[]⟩, v'.context.bare, v'.loader⟩
          (fun x hx => hs.mem_of_reads found hx) hm hs.bare
        rw [exec_ofExcept_ok_bind, exec_ofExcept_ok_bind, ← hs.bodyOf_eq definition, Expansion.exec_bind,
          Expansion.exec_bind, exec_aside, exec_aside]
        dsimp only at body
        revert body
        generalize (inFrame FrameKind.call _ : Expansion Unit Yield).exec
          ⟨⟨#[]⟩, v.context.bare, v.loader⟩ = x
        generalize (inFrame FrameKind.call _ : Expansion Unit Yield).exec
          ⟨⟨#[]⟩, v'.context.bare, v'.loader⟩ = x'
        intro body
        cases body with
        | error => rfl
        | @ok y _ y' _ same =>
          match y, y', same with
          | .finished _, .finished _, _ => rfl
          | .returned _, .returned _, same => exact congrArg (Except.ok ∘ some) (Option.some.inj same)

/-- Calling a function is steady. -/
theorem call (name : String) (args : List Value) : Steady A top (d.call name args) := by
  refine (Steady.ofExcept _).bind fun result => ?_
  cases result with
  | some value => exact .pure _
  | none => exact h.invoke name args

/-- Evaluating a value is steady where all that it mentions is known. -/
theorem evaluateWith {value : Value} (known : ∀ x ∈ Value.names value, Known A top x) :
    Steady A top (d.evaluateWith value) := by
  refine Steady.bind (Steady.value_substitute (fun x hx => .lookup hx) (fun name ps hps => ?_) false value
    known) fun substituted => ?_
  · refine Steady.context_bind (fun c => ?_) fun c c' hs => by rw [hs.hasFunction_eq]
    split
    · exact (h.arguments hps).bind fun args => (h.call name args).bind fun _ => .pure _
    · exact .pure _
  · split
    · exact .ofExcept _
    · exact .pure _

/-! ## Loops and conditionals -/

/-- The bounds of a loop are steady. -/
theorem bound (which : String) {value : Value} (known : ∀ x ∈ Value.names value, Known A top x) :
    Steady A top (d.walker.bound which value) := by
  refine (h.evaluate known).bind fun result => ?_
  split
  · exact .pure _
  · exact .fail _

omit h in
/-- A condition is steady where all variables in it are known. -/
theorem holds {condition : String} (known : ∀ x ∈ Interpolation.names condition, Known A top x) :
    Steady A top (Walker.holds services condition) where
  still v := by
    unfold Walker.holds
    rw [exec_scope_bind]
    split <;> rfl
  same {v v'} hs := by
    have same : substituteVariables v.context.scope.get? condition =
        substituteVariables v'.context.scope.get? condition :=
      substituteVariables_congr fun x hx => hs.get?_eq (known x hx)
    unfold Walker.holds
    rw [exec_scope_bind, exec_scope_bind, same]
    rcases services.conditions _ with message | literal
    · rfl
    · cases literal <;> rfl

/-- One pass of a loop agrees: the loop variable is bound on top meanwhile. -/
theorem pass (hc : ∃ f ∈ top, f.kind = .call) (hs : Sharing A top v.context v'.context)
    {body : List (Rose Node)} {binding : Option (String × Value)}
    (known : ∀ x ∈ Rose.readsAll true body, binding.map Prod.fst = some x ∨ Known A top x) :
    Agrees A top none ((d.pass none .function body binding).exec v)
      ((d.pass none .function body binding).exec v') := by
  have more : top ≠ [] := by
    rintro rfl
    simp at hc
  have below (f : Frame) {x : String} (hx : Known A top x) : Known A (f :: top) x :=
    hx.imp_left fun ⟨g, hg, binds⟩ => ⟨g, .tail _ hg, binds⟩
  -- in the frame of the pass, once the variable is bound
  have inside {f : Frame} {w w' : World Unit} (sharing : Sharing A (f :: top) w.context w'.context)
      (known : ∀ x ∈ Rose.readsAll true body, Known A (f :: top) x) :
      Agrees A (f :: top) none
        ((Walker.innermostLookup >>= fun lookup =>
          d.deriveNodes none .function (body.map (Rose.interpolate lookup))).exec w)
        ((Walker.innermostLookup >>= fun lookup =>
          d.deriveNodes none .function (body.map (Rose.interpolate lookup))).exec w') := by
    rw [exec_innermostLookup_bind, exec_innermostLookup_bind, sharing.innermost_eq]
    obtain ⟨g, hg, kind⟩ := hc
    refine h.deriveNodes _ ⟨g, .tail _ hg, kind⟩ sharing fun x hx => known x ?_
    rwa [Rose.readsAll_interpolate] at hx
  have outside {f : Frame} (y : Yield) (w : World Unit) (y' : Yield) (w' : World Unit)
      (agreed : Agreed A (f :: top) none y w y' w') :
      Agreed A top none y (w.mapScope Scope.leave) y' (w'.mapScope Scope.leave) := by
    obtain ⟨same, top', grown, sharing, -⟩ := agreed
    cases grown with
    | @cons _ g _ gs _ grown =>
      have more' : gs ≠ [] := by
        rintro rfl
        cases grown
        exact more rfl
      exact ⟨same, gs, grown, sharing.leave more', fun _ _ h => nomatch h⟩
  unfold Deriver.pass
  cases binding with
  | none =>
    refine Matches.inFrame (inside (hs.enter .loop) fun x hx => ?_) outside fun _ _ h => h
    exact below _ ((known x hx).resolve_left nofun)
  | some binding =>
    obtain ⟨name, value⟩ := binding
    refine Matches.inFrame (inside ((hs.enter .loop).define name value) fun x hx => ?_) outside
      fun _ _ h => h
    rcases known x hx with e | hx
    · rw [← Option.some.inj e]
      exact .inl ⟨_, .head _, Frame.binds_bind_self _ name value⟩
    · exact below _ hx

/-- Passes for integers agree. -/
theorem passesFrom {body : List (Rose Node)} {name : String} (count : Nat) :
    ∀ {top v v'} (i : Int), (∃ f ∈ top, f.kind = .call) → Sharing A top v.context v'.context →
      (∀ x ∈ Rose.readsAll true body, some name = some x ∨ Known A top x) →
      Agrees A top none ((d.passesFrom none .function body name count i).exec v)
        ((d.passesFrom none .function body name count i).exec v') := by
  induction count with
  | zero => exact fun i _ hs _ => .finished hs []
  | succ count ih =>
    intro top v v' i hc hs known
    exact (h.pass hc hs known).followedBy fun grown _ sharing =>
      ih (i + 1) (grown.isCall hc) sharing fun x hx => (known x hx).imp_right (·.mono grown)

/-- Passes for items agree. -/
theorem passesOver {body : List (Rose Node)} {name : String} (items : List Value) :
    ∀ {top v v'}, (∃ f ∈ top, f.kind = .call) → Sharing A top v.context v'.context →
      (∀ x ∈ Rose.readsAll true body, some name = some x ∨ Known A top x) →
      Agrees A top none ((d.passesOver none .function body name items).exec v)
        ((d.passesOver none .function body name items).exec v') := by
  induction items with
  | nil => exact fun _ hs _ => .finished hs []
  | cons item items ih =>
    intro top v v' hc hs known
    exact (h.pass hc hs known).followedBy fun grown _ sharing =>
      ih (grown.isCall hc) sharing fun x hx => (known x hx).imp_right (·.mono grown)

/-- Passes under a condition agree. -/
theorem passesWhile {body : List (Rose Node)} {condition : String} (steps : Nat) :
    ∀ {top v v'}, (∃ f ∈ top, f.kind = .call) → Sharing A top v.context v'.context →
      (∀ x ∈ Interpolation.names condition, Known A top x) →
      (∀ x ∈ Rose.readsAll true body, Known A top x) →
      Agrees A top none ((Deriver.passesWhile services d none .function body condition steps).exec v)
        ((Deriver.passesWhile services d none .function body condition steps).exec v') := by
  induction steps with
  | zero => exact fun _ _ _ _ => .throw trivial
  | succ steps ih =>
    intro top v v' hc hs names known
    unfold Deriver.passesWhile
    refine (holds names).matches_bind hs (fun b _ => ?_) trivial
    cases b with
    | true =>
      exact (h.pass hc hs fun x hx => .inr (known x hx)).followedBy fun grown _ sharing =>
        ih (grown.isCall hc) sharing (fun x hx => (names x hx).mono grown)
          fun x hx => (known x hx).mono grown
    | false => exact Agrees.finished hs []

omit h in
/-- Choosing a branch is steady. -/
theorem choose {branches : List (Rose Node)}
    (known : ∀ r ∈ branches, ∀ x ∈ r.label.names, Known A top x) :
    Steady A top (Deriver.choose services branches) := by
  induction branches with
  | nil => exact .pure none
  | cons r rs ih =>
    have rest := ih fun r hr => known r (.tail _ hr)
    unfold Deriver.choose
    split
    · rename_i condition eq
      have names := known r (.head _)
      rw [eq] at names
      refine (holds names).bind fun b => ?_
      cases b
      · exact rest
      · exact .pure _
    · exact .pure _
    · exact rest

omit h in
/-- A branch that is chosen is one of the branches. -/
theorem of_choose {branches : List (Rose Node)} {r : Rose Node}
    (run : ((Deriver.choose services branches).exec v).1 = .ok (some r)) :
    r ∈ branches ∧ r.label.inOrder = true ∧ r.label.loopVariable? = none := by
  induction branches generalizing v with
  | nil => cases run
  | cons s rs ih =>
    have rest {v : World Unit} (run : ((Deriver.choose services rs).exec v).1 = .ok (some r)) :=
      (ih run).imp_left (List.mem_cons_of_mem s)
    unfold Deriver.choose at run
    split at run
    · rename_i condition eq
      obtain ⟨b, w, -, run⟩ := exec_bind_ok (Prod.ext run rfl)
      cases b with
      | true =>
        cases run
        exact ⟨.head _, by rw [eq]; rfl, by rw [eq]; rfl⟩
      | false => exact rest (congrArg Prod.fst run)
    · rename_i eq
      cases run
      exact ⟨.head _, by rw [eq]; rfl, by rw [eq]; rfl⟩
    · exact rest run

/-- A conditional agrees. -/
theorem expandConditional (hc : ∃ f ∈ top, f.kind = .call) (hs : Sharing A top v.context v'.context)
    {branches : List (Rose Node)} (known : ∀ r ∈ branches, ∀ x ∈ r.reads, Known A top x) :
    Agrees A top none ((Deriver.expandConditional services d none .function branches).exec v)
      ((Deriver.expandConditional services d none .function branches).exec v') := by
  unfold Deriver.expandConditional
  refine (choose fun r hr x hx => known r hr x (Rose.mem_reads.2 (.inl hx))).matches_bind hs
    (fun chosen run => ?_) trivial
  refine h.deriveNodes _ hc hs fun x hx => ?_
  cases chosen with
  | none => cases hx
  | some r =>
    obtain ⟨hr, inOrder, none⟩ := of_choose run
    refine known r hr x (Rose.mem_reads.2 (.inr ⟨?_, by rw [none]; nofun⟩))
    rw [inOrder]
    exact hx

/-! ## Nodes -/

/-- A node in the body of a function agrees. -/
theorem deriveWith (hc : ∃ f ∈ top, f.kind = .call) (hs : Sharing A top v.context v'.context)
    {r : Rose Node} (known : ∀ x ∈ r.reads, Known A top x) :
    Agrees A top r.label.assigned? ((Deriver.deriveWith services d none .function r).exec v)
      ((Deriver.deriveWith services d none .function r).exec v') := by
  obtain ⟨n, rs⟩ := r
  have names : ∀ x ∈ n.names, Known A top x := fun x hx => known x (Rose.mem_reads.2 (.inl hx))
  have under : ∀ x ∈ Rose.readsAll n.inOrder rs, n.loopVariable? = some x ∨ Known A top x := by
    intro x hx
    by_cases e : n.loopVariable? = some x
    · exact .inl e
    · exact .inr (known x (Rose.mem_reads.2 (.inr ⟨hx, e⟩)))
  unfold Deriver.deriveWith
  rw [Rose.label_mk, Rose.children_mk]
  refine Matches.ofExcept_bind (fun _ allowed => ?_) trivial
  cases n with
  | comment _ | plain _ | vendor _ _ => exact Agrees.finished hs _
  | fontFace =>
    exact Agrees.wrapped _ _ (h.deriveFrom rs d.steps hc hs fun x hx => (under x hx).resolve_left nofun)
  | assignment name value guarded =>
    cases guarded with
    | true => cases allowed
    | false =>
      -- the variable is assigned in the frames of the call
      dsimp only
      unfold Deriver.assign
      rw [bind_assoc, exec_scope_bind, exec_scope_bind]
      simp only [Bool.false_and, Bool.false_eq_true, if_false, bind_assoc]
      refine (h.evaluate names).matches_bind hs (fun result _ => ?_) trivial
      obtain ⟨top', grown, bound, sharing⟩ := hs.set hc name result
      exact .pure ⟨rfl, top', grown, sharing, fun _ x e => Option.some.inj e ▸ bound⟩
  | result value =>
    simp only
    refine (h.evaluate names).matches_bind hs (fun result _ => ?_) trivial
    exact .pure ⟨rfl, top, .refl top, hs, fun none => nomatch none⟩
  | declaration name value important =>
    refine (h.evaluate names).matches_bind hs (fun result _ => ?_) trivial
    exact .pure ⟨rfl, top, .refl top, hs, fun _ _ e => nomatch e⟩
  | functionCall c =>
    refine (h.arguments names).matches_bind hs (fun args _ => ?_) trivial
    refine (h.call c.name args).matches_bind hs (fun _ _ => ?_) trivial
    exact Agrees.finished hs []
  | listDirective directive =>
    have list : Steady A top (d.evaluate directive.list) :=
      h.evaluate fun x hx => names x (List.mem_append_left _ hx)
    have items : Steady A top (d.evaluate directive.items) :=
      h.evaluate fun x hx => names x (List.mem_append_right _ hx)
    unfold Deriver.editList
    simp only [bind_assoc]
    refine list.matches_bind hs (fun list _ => ?_) trivial
    refine items.matches_bind hs (fun items _ => ?_) trivial
    obtain ⟨top', grown, bound, sharing⟩ := hs.set hc directive.variableName (Walker.editList directive.edit
      (Builtin.Separator.combinesByComma (directive.separator.bind Builtin.Separator.ofName?) list items)
      list items)
    exact .pure ⟨rfl, top', grown, sharing, fun _ x e => Option.some.inj e ▸ bound⟩
  | counting c =>
    unfold Deriver.expandCounting
    refine (h.bound "from" fun x hx => names x (List.mem_append_left _ hx)).matches_bind hs
      (fun low _ => ?_) trivial
    refine (h.bound "to" fun x hx => names x (List.mem_append_right _ hx)).matches_bind hs
      (fun high _ => ?_) trivial
    split
    · exact .fail trivial
    · exact h.passesFrom _ low hc hs under
  | each name list =>
    refine (h.evaluate names).matches_bind hs (fun value _ => ?_) trivial
    exact h.passesOver _ hc hs under
  | whileLoop condition =>
    exact h.passesWhile d.steps hc hs names fun x hx => (under x hx).resolve_left nofun
  | conditional =>
    refine h.expandConditional hc hs fun r hr x hx => ?_
    exact (under x (Rose.mem_readsAll_false.2 ⟨r, hr, hx⟩)).resolve_left nofun
  | _ => cases allowed

end Deriver.Uniform

/-! ## Down to a depth -/

/-- What is evaluated aside is steady where it is with everything at hand. -/
theorem Steady.evaluateAside {d : Deriver Unit} {value : Value} (h : Steady A top (d.evaluateWith value)) :
    Steady A top (d.evaluateAside value : Expansion Unit Value) where
  still _ := rfl
  same hs := h.same hs.bare

/-- Down to every depth, bodies of functions agree. -/
theorem bodyDeriver_uniform (conditions : String → Except String Literal) (depth : Nat) :
    (bodyDeriver conditions depth).Uniform := by
  induction depth with
  | zero => exact ⟨fun _ => .throw _, fun _ _ _ => .throw trivial⟩
  | succ depth ih =>
    exact ⟨fun known => (ih.evaluateWith known).evaluateAside, fun hc hs known => ih.deriveWith hc hs known⟩

/-- **A function depends on its arguments and on what functions read.** In two worlds with the same
functions and definitions, where each name that a function reads without having bound it has the same value,
calling a function with the same arguments gives the same result, a value or an error. -/
theorem invoke_agrees {σ σ' : Type} (services : Services σ) (services' : Services σ')
    (conditions : services.conditions = services'.conditions) (depth : Nat) {w : World σ} {w' : World σ'}
    (functions : w.context.functions = w'.context.functions)
    (definitions : w.context.definitions = w'.context.definitions)
    (reads : ∀ x ∈ w.context.reads, w.context.scope.get? x = w'.context.scope.get? x)
    (name : String) (args : List Value) :
    (((walker services depth).invoke name args).exec w).1 =
      (((walker services' depth).invoke name args).exec w').1 := by
  -- both calls are derived alike
  have derived {σ : Type} (services : Services σ) (w : World σ) :
      (((walker services depth).invoke name args).exec w).1 =
        (((bodyDeriver services.conditions depth).invoke name args).exec
          ⟨⟨#[]⟩, w.context.bare, ()⟩).1 := by
    have echoes := (walker_realizes_bodyDeriver services depth).invoke (walker_isolates services depth)
      name args
    have alike : Alike (fun _ _ => True) w (⟨⟨#[]⟩, w.context.bare, ()⟩ : World Unit) :=
      ⟨(Context.bare_bare _).symm, trivial⟩
    rw [echoes.result alike]
  have sharing : Sharing w.context.reads [] w.context.bare w'.context.bare :=
    { functions := functions
      definitions := definitions
      covers := fun x hx => (Context.reads_congr rfl rfl : w.context.bare.reads = w.context.reads) ▸ hx
      frames := ⟨_, _, rfl, rfl, reads⟩ }
  rw [derived services, derived services', ← conditions]
  exact ((bodyDeriver_uniform services.conditions depth).invoke name args).same sharing

/-- Changing the scope leaves the functions. -/
theorem functions_mapScope {σ : Type} (w : World σ) (f : Scope → Scope) :
    w.context.functions = (w.mapScope f).context.functions := rfl

/-- Changing the scope leaves the definitions. -/
theorem definitions_mapScope {σ : Type} (w : World σ) (f : Scope → Scope) :
    w.context.definitions = (w.mapScope f).context.definitions := rfl

/-- A function with a parameter and a local variable reads a global one only, so it does not matter that its
callers have variables of these names. -/
theorem invoke_agrees_locals :
    let body : List (Rose Node) :=
      [⟨.assignment "z" [.var "y", .var "g"] false, []⟩, ⟨.result [.var "z"], []⟩]
    let context := (Context.empty.enterFunction "f" ⟨.functionDefinition ⟨"f", [⟨"y", []⟩]⟩, body⟩).withScope
      (Scope.empty.define "g" [.ident "c"])
    let w : World Unit := ⟨.empty, context, ()⟩
    let w' := w.mapScope fun s => ((s.enter .call).define "y" [.ident "a"]).define "z" [.ident "b"]
    w.context.reads = ["g"] ∧
      (((walker Services.plain 9).invoke "f" [[.ident "d"]]).exec w).1 =
        (((walker Services.plain 9).invoke "f" [[.ident "d"]]).exec w').1 := by
  intro body context w w'
  have reads : w.context.reads = ["g"] := by decide +kernel
  refine ⟨reads, invoke_agrees Services.plain Services.plain rfl 9 (functions_mapScope w _)
    (definitions_mapScope w _) (fun x hx => ?_) "f" _⟩
  rw [reads, List.mem_singleton] at hx
  rw [hx]
  show w.context.scope.get? "g" = (((w.context.scope.enter .call).define "y" [.ident "a"]).define "z"
    [.ident "b"]).get? "g"
  rw [Scope.get?_define_of_ne _ _ (by decide), Scope.get?_define_of_ne _ _ (by decide), Scope.get?_enter]

/-- Agreeing on the global frame is not enough. A function finds what it has not bound in the frames of its
callers: here `$x`, in the frame of a call. -/
theorem invoke_finds_caller :
    ¬ ∀ (w w' : World Unit), w.context.functions = w'.context.functions →
      w.context.definitions = w'.context.definitions →
      w.context.scope.frames.getLast? = w'.context.scope.frames.getLast? →
      ∀ name args, (((walker Services.plain 3).invoke name args).exec w).1 =
        (((walker Services.plain 3).invoke name args).exec w').1 := by
  intro all
  let context := Context.empty.enterFunction "f" ⟨.functionDefinition ⟨"f", []⟩, [⟨.result [.var "x"], []⟩]⟩
  let w : World Unit := ⟨.empty, context, ()⟩
  let w' := w.mapScope fun s => (s.enter .call).define "x" [.ident "a"]
  have same := congrArg (fun result => (result.toOption.join.getD []).text)
    (all w w' (functions_mapScope w _) (definitions_mapScope w _) rfl "f" [])
  have alone : ((((walker Services.plain 3).invoke "f" []).exec w).1.toOption.join.getD []).text = "$x" := by
    decide +kernel
  have called : ((((walker Services.plain 3).invoke "f" []).exec w').1.toOption.join.getD []).text = "a" := by
    decide +kernel
  rw [alone, called] at same
  exact absurd same (by decide)

end Stylesheet

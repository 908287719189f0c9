import Stylesheet.Proofs.Derivation.Depth

/-! # The blocks that extensions refer to

An extension refers to the number of a block in the register. The block is the one around what is derived, or
it is among what is made of it (**`Expansion.Owns`**): whatever is done with blocks that have been made, none of
them is lost unless the derivation as a whole comes to nothing (`deriver_owns`). -/

namespace Stylesheet

open Expansion

/-- The numbers of the blocks in derived trees. -/
def Deriver.marks (made : List (Rose Stem)) : List NodeId := made.flatMap fun o => o.labels.filterMap Stem.mark

namespace Deriver

variable {made made' : List (Rose Stem)} {k mark : NodeId}

/-- The numbers in two lists of derived trees, one after the other. -/
@[simp] theorem marks_append : marks (made ++ made') = marks made ++ marks made' := List.flatMap_append

/-- A number is among the marks when some node of some tree carries it. -/
theorem mem_marks : k ∈ marks made ↔ ∃ o ∈ made, ∃ s ∈ o.labels, s.mark = some k := by
  simp [marks]

/-- The blocks in what stands around derived trees. -/
theorem mem_marks_around (n : Node) (hk : k ∈ marks made) : k ∈ marks (around n made) := by
  obtain ⟨o, ho, s, hs, mark⟩ := mem_marks.1 hk
  exact mem_marks.2 ⟨_, .head _, s, Rose.mem_labels_of_mem_children (r := ⟨.still n, made⟩) ho hs, mark⟩

/-- Other nodes at the top have the marks that were there. -/
theorem mem_marks_retop (f : Node → Node) (hk : k ∈ marks made) :
    k ∈ marks (made.map fun o => ⟨⟨f o.label.node, o.label.mark⟩, o.children⟩) := by
  obtain ⟨o, ho, s, hs, mark⟩ := mem_marks.1 hk
  refine mem_marks.2 ⟨_, List.mem_map_of_mem ho, ?_⟩
  rcases Rose.mem_labels.1 hs with rfl | ⟨c, hc, hs⟩
  · exact ⟨⟨f o.label.node, o.label.mark⟩, by simp, mark⟩
  · exact ⟨s, Rose.mem_labels_of_mem_children (r := ⟨_, o.children⟩) hc hs, mark⟩

/-- A block that has been left apart is among what is made, and so are the blocks that were in it. -/
theorem mem_marks_flatten (selectors : List String) (hk : k = mark ∨ k ∈ marks made) :
    k ∈ marks (flatten selectors mark made) := by
  rcases hk with rfl | hk
  · exact mem_marks.2 ⟨_, .head _, _, Rose.label_mem_labels _, rfl⟩
  · obtain ⟨o, ho, s, hs, eq⟩ := mem_marks.1 hk
    cases isBlock : o.label.node.isBlock with
    | false =>
      have stays : o ∈ made.filter fun o => !o.label.node.isBlock :=
        List.mem_filter.2 ⟨ho, by rw [isBlock]; rfl⟩
      exact mem_marks.2 ⟨_, .head _, s, Rose.mem_labels_of_mem_children
        (r := ⟨⟨.block selectors, some mark⟩, _⟩) stays hs, eq⟩
    | true =>
      have moves : o ∈ made.filter fun o => o.label.node.isBlock := List.mem_filter.2 ⟨ho, isBlock⟩
      have nested := mem_marks_retop (Tree.nestNode selectors) (mem_marks.2 ⟨o, moves, s, hs, eq⟩)
      obtain ⟨o', ho', found⟩ := mem_marks.1 nested
      exact mem_marks.2 ⟨o', .tail _ ho', found⟩

end Deriver

section

variable {τ α β : Type}

/-! ## Runs that make something -/

namespace Deriver

variable {v v' : World τ} {made : List (Rose Stem)}

/-- A run that is wrapped and makes something has made what is then wrapped. -/
theorem exec_wrapped_ok {φ : List (Rose Stem) → List (Rose Stem)} {derived : Expansion τ Yield}
    (run : (wrapped φ derived).exec v = (.ok (.finished made), v')) :
    ∃ inner, derived.exec v = (.ok (.finished inner), v') ∧ φ inner = made := by
  obtain ⟨yield, w, inside, run⟩ := exec_bind_ok run
  cases yield with
  | returned value => cases run
  | finished inner =>
    cases run
    exact ⟨inner, inside, rfl⟩

/-- Two steps that make something together have both made something. -/
theorem exec_followedBy_finished {first rest : Expansion τ Yield}
    (run : (followedBy first rest).exec v = (.ok (.finished made), v')) :
    ∃ before w after, first.exec v = (.ok (.finished before), w) ∧ rest.exec w = (.ok (.finished after), v') ∧
      before ++ after = made := by
  obtain ⟨yield, w, inside, run⟩ := exec_bind_ok run
  cases yield with
  | returned value => cases run
  | finished before =>
    obtain ⟨after, behind, same⟩ := exec_wrapped_ok run
    exact ⟨before, w, after, inside, behind, same⟩

end Deriver

/-! ## Steps -/

/-- A step that notes no extension when it succeeds. -/
def Expansion.Silent (m : Expansion τ α) : Prop :=
  ∀ v a v', m.exec v = (.ok a, v') → v'.context.extensions = v.context.extensions

/-- A derivation that notes extensions only for the block around it, and for blocks among what it makes. -/
def Expansion.Owns (block : Option NodeId) (m : Expansion τ Yield) : Prop :=
  ∀ v made v', m.exec v = (.ok (.finished made), v') →
    ∃ noted, v'.context.extensions = v.context.extensions ++ noted ∧
      ∀ e ∈ noted, block = some e.1 ∨ e.1 ∈ Deriver.marks made

namespace Expansion.Silent

variable {m : Expansion τ α} {f : α → Expansion τ β}

/-- Steps that leave the context as it is. -/
theorem of_context_eq (h : ∀ v, (m.exec v).2.context.extensions = v.context.extensions) : Silent m := by
  intro v a v' run
  have := h v
  rwa [run] at this

/-- A result alone notes no extension. -/
theorem pure (a : α) : Silent (pure a : Expansion τ α) := of_context_eq fun _ => rfl

/-- A failure notes no extension. -/
theorem fail (e : Error) : Silent (fail e : Expansion τ α) := of_context_eq fun _ => rfl

/-- What is computed apart from the state notes no extension. -/
theorem ofExcept (x : Except Error α) : Silent (ofExcept x : Expansion τ α) :=
  of_context_eq fun _ => by cases x <;> rfl

/-- Reading the scope notes no extension. -/
theorem scope : Silent (scope : Expansion τ Scope) := of_context_eq fun _ => rfl

/-- Reading the context notes no extension. -/
theorem context : Silent (context : Expansion τ Context) := of_context_eq fun _ => rfl

/-- A change of the scope notes no extension. -/
theorem modifyScope (f : Scope → Scope) : Silent (modifyScope f : Expansion τ Unit) :=
  of_context_eq fun _ => rfl

/-- What runs aside leaves the world alone. -/
theorem aside (m : Expansion τ α) : Silent (aside m) := of_context_eq fun _ => rfl

/-- Two silent steps are a silent step. -/
theorem bind (hm : Silent m) (hf : ∀ a, Silent (f a)) : Silent (m >>= f) := by
  intro v b v' run
  obtain ⟨a, w, first, rest⟩ := exec_bind_ok run
  exact (hf a w b v' rest).trans (hm v a w first)

/-- Silence goes through whatever is put together from steps. -/
theorem compositional : Compositional fun β (x _ : Expansion τ β) => Silent x := ⟨pure, bind⟩

end Expansion.Silent

namespace Expansion.Owns

variable {block : Option NodeId} {m first rest : Expansion τ Yield} {f : α → Expansion τ Yield}

/-- What is made without a step has no new extension to account for. -/
theorem finished (made : List (Rose Stem)) : Owns block (pure (.finished made) : Expansion τ Yield) := by
  rintro v _ _ ⟨⟩
  exact ⟨[], by simp, by simp⟩

/-- Where a value is returned, nothing is made that could hold blocks. -/
theorem returned (value : Value) : Owns block (pure (.returned value) : Expansion τ Yield) := nofun

/-- A step that stops makes nothing. -/
theorem throw (e : Stop) : Owns block (throw e : Expansion τ Yield) := nofun

/-- A step that fails makes nothing. -/
theorem fail (e : Error) : Owns block (fail e : Expansion τ Yield) := nofun

/-- What comes behind steps that note nothing. -/
theorem of_bind {m : Expansion τ α} (hm : Silent m) (hf : ∀ a, Owns block (f a)) : Owns block (m >>= f) := by
  intro v made v' run
  obtain ⟨a, w, before, run⟩ := exec_bind_ok run
  rw [← hm v a w before]
  exact hf a w made v' run

/-- A frame of its own changes neither the blocks that are made nor the extensions that are noted. -/
theorem inFrame {kind : FrameKind} (h : Owns block m) : Owns block (inFrame kind m) := by
  intro v made v' run
  rw [exec_inFrame] at run
  obtain ⟨ended, rfl⟩ := Prod.mk.inj run
  exact h (v.mapScope (·.enter kind)) made (m.exec _).2 (Prod.ext ended rfl)

/-- What is made is changed in the end, and has the marks it had. The block around it may be among it then. -/
theorem wrapped {inner : Option NodeId} {φ : List (Rose Stem) → List (Rose Stem)} (h : Owns inner m)
    (hφ : ∀ made k, inner = some k ∨ k ∈ Deriver.marks made → block = some k ∨ k ∈ Deriver.marks (φ made)) :
    Owns block (Deriver.wrapped φ m) := by
  intro v made v' run
  obtain ⟨inner, inside, rfl⟩ := Deriver.exec_wrapped_ok run
  obtain ⟨noted, eq, owned⟩ := h v inner v' inside
  exact ⟨noted, eq, fun e he => hφ inner e.1 (owned e he)⟩

/-- What two steps make together has the blocks of both. -/
theorem followedBy (h : Owns block first) (h' : Owns block rest) :
    Owns block (Deriver.followedBy first rest) := by
  intro v made v' run
  obtain ⟨before, w, after, first, behind, rfl⟩ := Deriver.exec_followedBy_finished run
  obtain ⟨noted, eq, owned⟩ := h v before w first
  obtain ⟨noted', eq', owned'⟩ := h' w after v' behind
  refine ⟨noted ++ noted', by rw [eq', eq, List.append_assoc], fun e he => ?_⟩
  rw [Deriver.marks_append, List.mem_append]
  rcases List.mem_append.1 he with he | he
  · exact (owned e he).imp_right .inl
  · exact (owned' e he).imp_right .inr

/-- Where no block is around, all extensions that are noted from the beginning are for blocks that are made. -/
theorem mem_marks (h : Owns none m) {v : World τ} (fresh : v.context.extensions = []) (made : List (Rose Stem))
    (v' : World τ) (run : m.exec v = (.ok (.finished made), v')) :
    ∀ e ∈ v'.context.extensions, e.1 ∈ Deriver.marks made := by
  obtain ⟨noted, eq, owned⟩ := h v made v' run
  rw [eq, fresh, List.nil_append]
  intro e he
  simpa using owned e he

end Expansion.Owns

end

/-! ## Derivations -/

/-- A deriver notes extensions for the block around a tree and for blocks in what it makes of it, and evaluates
values without noting any. -/
structure Deriver.Owns {τ : Type} (d : Deriver τ) : Prop where
  evaluate : ∀ value, Expansion.Silent (d.evaluate value)
  derive : ∀ block mode r, Expansion.Owns block (d.derive block mode r)

namespace Deriver.Owns

variable {τ : Type} {d : Deriver τ} (h : d.Owns) (block : Option NodeId) (mode : Mode)

include h

/-! ### Sequences -/

/-- Deriving a list of trees owns what it notes. -/
theorem deriveNodes (rs : List (Rose Node)) : Expansion.Owns block (d.deriveNodes block mode rs) := by
  induction rs with
  | nil => exact .finished []
  | cons r rs ih => exact (h.derive block mode r).followedBy ih

/-- Deriving a list of trees step by step owns what it notes. -/
theorem deriveFrom (steps : Nat) (rs : List (Rose Node)) :
    Expansion.Owns block (d.deriveFrom block mode steps rs) := by
  induction rs generalizing steps with
  | nil =>
    rw [Deriver.deriveFrom.eq_1]
    exact .finished []
  | cons r rs ih =>
    cases steps with
    | zero => exact .throw _
    | succ steps => exact (h.derive block mode r).followedBy (ih steps)

/-- Deriving the children of a node owns what it notes. -/
theorem deriveChildren (rs : List (Rose Node)) : Expansion.Owns block (d.deriveChildren block mode rs) :=
  h.deriveFrom block mode d.steps rs

/-! ### Calls -/

omit block mode in
/-- Evaluating the arguments of a call notes no extension. -/
theorem arguments (parameters : Value) : Expansion.Silent (d.walker.arguments parameters) :=
  Expansion.Silent.compositional.mapM d.evaluate d.evaluate h.evaluate _

omit block mode in
/-- Binding the parameters of a call notes no extension. -/
theorem bindParameters (collated : List (String × Argument)) :
    Expansion.Silent (d.walker.bindParameters collated) := by
  induction collated with
  | nil => exact .pure ()
  | cons p rest ih =>
    obtain ⟨name, argument⟩ := p
    unfold Walker.bindParameters
    have bound (value : Value) :
        Expansion.Silent (modifyScope (·.define name value) >>= fun _ => d.walker.bindParameters rest) :=
      (Silent.modifyScope _).bind fun _ => ih
    cases argument with
    | given value => exact bound value
    | default value => exact (h.evaluate value).bind bound

omit h block mode in
/-- What the body of a function does is forgotten. -/
theorem call (d : Deriver τ) (name : String) (args : List Value) : Expansion.Silent (d.call name args) := by
  refine (Silent.ofExcept _).bind fun result => ?_
  cases result with
  | some value => exact .pure _
  | none =>
    refine Silent.context.bind fun c => (Silent.ofExcept _).bind fun ⟨id, signature⟩ =>
      (Silent.ofExcept _).bind fun collated => (Silent.aside _).bind fun yield => ?_
    cases yield <;> exact .pure _

/-! ### Loops and conditionals -/

/-- One pass of a loop owns what it notes. -/
theorem pass (body : List (Rose Node)) (bound : Option (String × Value)) :
    Expansion.Owns block (d.pass block mode body bound) := by
  have copies : Expansion.Owns block
      (Walker.innermostLookup >>= fun lookup =>
        d.deriveNodes block mode (body.map (Rose.interpolate lookup))) :=
    .of_bind (Silent.scope.bind fun _ => .pure _) fun lookup => h.deriveNodes block mode _
  refine Expansion.Owns.inFrame ?_
  cases bound with
  | none => exact copies
  | some bound => exact .of_bind (.modifyScope _) fun _ => copies

/-- The passes of a counting loop own what they note. -/
theorem passesFrom (body : List (Rose Node)) (name : String) (count : Nat) (i : Int) :
    Expansion.Owns block (d.passesFrom block mode body name count i) := by
  induction count generalizing i with
  | zero => exact .finished []
  | succ count ih => exact (h.pass block mode body _).followedBy (ih (i + 1))

/-- The passes of a loop over values own what they note. -/
theorem passesOver (body : List (Rose Node)) (name : String) (items : List Value) :
    Expansion.Owns block (d.passesOver block mode body name items) := by
  induction items with
  | nil => exact .finished []
  | cons item items ih => exact (h.pass block mode body _).followedBy ih

omit h block mode in
/-- A condition notes no extension. -/
theorem holds (services : Services τ) (condition : String) :
    Expansion.Silent (Walker.holds services condition) := by
  refine Silent.scope.bind fun s => ?_
  split
  · exact .pure _
  · exact .fail _
  · exact .fail _

/-- The passes of a loop with a condition own what they note. -/
theorem passesWhile (services : Services τ) (body : List (Rose Node)) (condition : String) (steps : Nat) :
    Expansion.Owns block (Deriver.passesWhile services d block mode body condition steps) := by
  induction steps with
  | zero => exact .throw _
  | succ steps ih =>
    refine .of_bind (holds services condition) fun b => ?_
    cases b with
    | true => exact (h.pass block mode body none).followedBy ih
    | false => exact .finished []

/-- A counting loop owns what it notes. -/
theorem expandCounting (body : List (Rose Node)) (loop : Counting) :
    Expansion.Owns block (d.expandCounting block mode body loop) := by
  have bound (which : String) (value : Value) : Expansion.Silent (d.walker.bound which value) := by
    refine (h.evaluate value).bind fun result => ?_
    split
    · exact .pure _
    · exact .fail _
  refine .of_bind (bound "from" loop.low) fun low => .of_bind (bound "to" loop.high) fun high => ?_
  split
  · exact .fail _
  · exact h.passesFrom block mode body _ _ _

omit h block mode in
/-- Choosing a branch notes no extension. -/
theorem choose (services : Services τ) (rs : List (Rose Node)) :
    Expansion.Silent (Deriver.choose services rs) := by
  induction rs with
  | nil => exact .pure none
  | cons r rs ih =>
    unfold Deriver.choose
    split
    · refine (holds services _).bind fun b => ?_
      cases b with
      | true => exact .pure _
      | false => exact ih
    · exact .pure _
    · exact ih

/-! ### Nodes one by one -/

omit block mode in
/-- An assignment notes no extension. -/
theorem assign (name : String) (value : Value) (guarded : Bool) :
    Expansion.Silent (d.assign name value guarded) := by
  refine Silent.scope.bind fun s => ?_
  split
  · exact .pure ()
  · exact (h.evaluate value).bind fun result => .modifyScope _

/-- The block is among what is made of it, with the blocks in it. -/
theorem deriveBlock (selectors : List String) (rs : List (Rose Node)) :
    Expansion.Owns block (d.deriveBlock mode selectors rs) := by
  refine .of_bind .scope fun s => .of_bind (.of_context_eq fun _ => rfl) fun mark => ?_
  refine (h.deriveChildren (some mark) mode rs).wrapped fun made k hk => .inr (mem_marks_flatten _ ?_)
  exact hk.imp_left fun e => (Option.some.inj e).symm

omit h block mode in
/-- Resolving a text notes no extension. -/
theorem resolve (text : String) : Expansion.Silent (Walker.resolve text : Expansion τ String) :=
  Silent.scope.bind fun _ => .pure _

/-- An import owns what is noted in what it brings in. -/
theorem deriveImport (services : Services τ) (i : Import) (rs : List (Rose Node)) :
    Expansion.Owns block (Deriver.deriveImport services d block mode i rs) := by
  refine .of_bind (resolve i.uri) fun uri => ?_
  dsimp only
  split
  · exact .finished _
  · refine .of_bind (.of_context_eq fun v => ?_) fun source => h.deriveNodes block mode _
    rw [Walker.exec_load]

omit mode in
/-- Including a mixin owns what is noted in the body and in the block it is given. -/
theorem includeMixin (invocation : Invocation) (contents : List (Rose Node)) :
    Expansion.Owns block (d.includeMixin block invocation contents) := by
  refine .of_bind .context fun c => .of_bind (.ofExcept _) fun ⟨id, signature⟩ =>
    .of_bind (h.arguments invocation.arguments) fun args => .of_bind (.ofExcept _) fun collated => ?_
  have body : Expansion.Owns block (Expansion.inFrame .call do
      d.walker.bindParameters collated
      let lookup ← Walker.innermostLookup
      d.deriveNodes block .mixin
        (((bodyOf c id).flatMap (Rose.fill contents)).map (Rose.interpolate lookup))) :=
    .inFrame (.of_bind (h.bindParameters collated) fun _ =>
      .of_bind (Silent.scope.bind fun _ => .pure _) fun lookup => h.deriveNodes block .mixin _)
  intro v made v' run
  obtain ⟨yield, w, placed, run⟩ := exec_bind_ok run
  cases yield with
  | returned value => cases run
  | finished made =>
    obtain ⟨noted, owned⟩ := body v made w placed
    cases run
    exact ⟨noted, owned⟩

omit block mode in
/-- Editing a list notes no extension. -/
theorem editList (directive : ListDirective) : Expansion.Silent (d.editList directive) :=
  (h.evaluate directive.list).bind fun _ => (h.evaluate directive.items).bind fun _ => .modifyScope _

omit h mode in
/-- An extension is noted for the block around it. -/
theorem extend (targets : List String) :
    Expansion.Owns block
      (recordExtension block targets >>= fun _ => pure (.finished []) : Expansion τ Yield) := by
  cases block with
  | none => exact .finished []
  | some mark =>
    intro v made v' run
    cases run
    exact ⟨[(mark, targets)], rfl, by simp⟩

/-- One level deeper. -/
theorem deriveWith (services : Services τ) (r : Rose Node) :
    Expansion.Owns block (Deriver.deriveWith services d block mode r) := by
  have around (n : Node) :
      Expansion.Owns block (Deriver.wrapped (Deriver.around n) (d.deriveChildren block mode r.children)) :=
    (h.deriveChildren block mode _).wrapped fun made k hk => hk.imp_right (mem_marks_around n)
  have quiet {α : Type} {m : Expansion τ α} (hm : Expansion.Silent m) :
      Expansion.Owns block (m >>= fun _ => pure (.finished [])) := .of_bind hm fun _ => .finished []
  unfold Deriver.deriveWith
  refine .of_bind (.ofExcept _) fun _ => ?_
  cases r.label with
  | root | fontFace | keyframeBlock _ => exact around _
  | assignment name value guarded => exact quiet (h.assign name value guarded)
  | result value =>
    by_cases hf : mode = .function
    · simp only [if_pos hf]
      exact .of_bind (h.evaluate value) fun result => .returned _
    · simp only [if_neg hf]
      exact .fail _
  | declaration name value important =>
    exact .of_bind (h.evaluate value) fun result => .of_bind (resolve name) fun name => .finished _
  | block selectors => exact h.deriveBlock block mode selectors _
  | comment _ | plain _ | vendor _ _ => exact .finished _
  | keyframes keyword name => exact .of_bind (resolve name) fun name => around _
  | media query => exact .of_bind (resolve query) fun query => around _
  | importing i => exact h.deriveImport block mode services i _
  | extend targets => exact extend block targets
  | content => exact .finished []
  | functionDefinition _ | mixinDefinition _ => exact quiet (.of_context_eq fun _ => rfl)
  | functionCall c => exact .of_bind (h.arguments c.arguments) fun args => quiet (call d c.name args)
  | mixinCall c => exact h.includeMixin block c _
  | nesting name =>
    refine .of_bind (resolve name) fun name => (h.deriveChildren block mode _).wrapped fun made k hk => ?_
    exact hk.imp_right (mem_marks_retop (Tree.lengthenNode name))
  | listDirective directive => exact quiet (h.editList directive)
  | counting c => exact h.expandCounting block mode _ c
  | each name list => exact .of_bind (h.evaluate list) fun value => h.passesOver block mode _ name _
  | whileLoop condition => exact h.passesWhile block mode services _ condition _
  | conditional => exact .of_bind (choose services _) fun chosen => h.deriveNodes block mode _
  | branch _ | otherwise => exact .fail _

end Deriver.Owns

/-- Every deriver owns what it notes. -/
theorem deriver_owns {τ : Type} (services : Services τ) (depth : Nat) : (deriver services depth).Owns := by
  induction depth with
  | zero => exact ⟨fun _ _ _ _ run => (by cases run), fun _ _ _ => .throw _⟩
  | succ depth ih =>
    exact ⟨fun _ => .of_context_eq fun _ => rfl, fun block mode => ih.deriveWith block mode services⟩

end Stylesheet

import Stylesheet.Proofs.Binding.Reads
import Stylesheet.Proofs.Derivation.Matching

/-! # Contexts that share their innermost frames

While a function runs, its own frames lie on top of those of its callers. Two contexts **share** frames
when these lie on top in both of them, and further out the names that functions read have the same values
(**`Sharing`**). Whatever a function does to variables it does to the shared frames: it opens and closes
frames on top (`Sharing.enter`, `Sharing.leave`), and it assigns no farther out than its own call
(`Sharing.set`), so the shared frames bind more and more (**`Frame.Grown`**). -/

namespace Stylesheet

/-! ## Frames on each other -/

namespace Frame

/-- The value of a name in the first of some frames that has one. -/
def find? (fs : List Frame) (name : String) : Option Value := fs.findSome? fun f => f.bindings.lookup name

/-- A name is looked for in the first frames, and then in the others. -/
theorem find?_append (fs gs : List Frame) (name : String) :
    find? (fs ++ gs) name = (find? fs name).or (find? gs name) := List.findSome?_append

/-- One of some frames has a value for a name. -/
def Bound (fs : List Frame) (name : String) : Prop := ∃ f ∈ fs, f.binds name = true

/-- A name that is bound in some frame is found. -/
theorem isSome_find? {fs : List Frame} {name : String} (h : Bound fs name) : (find? fs name).isSome = true := by
  obtain ⟨f, hf, binds⟩ := h
  rw [binds_eq] at binds
  rw [find?, List.findSome?_isSome_iff]
  exact ⟨f, hf, binds⟩

/-- The frames are the same ones, and bind more at most. -/
def Grown (fs gs : List Frame) : Prop :=
  List.Forall₂ (fun f g => g.kind = f.kind ∧ ∀ name, f.binds name = true → g.binds name = true) fs gs

section

variable {f g : Frame} {fs gs hs : List Frame} {name other : String} {value : Value}

/-- Frames have grown out of themselves. -/
theorem Grown.refl (fs : List Frame) : Grown fs fs := List.forall₂_same.2 fun _ _ => ⟨rfl, fun _ h => h⟩

/-- What has grown further has grown out of the first frames. -/
theorem Grown.trans (h : Grown fs gs) (h' : Grown gs hs) : Grown fs hs := by
  induction h generalizing hs with
  | nil => exact h'
  | cons first _ ih =>
    cases h' with
    | cons first' rest =>
      exact .cons ⟨first'.1.trans first.1, fun name h => first'.2 name (first.2 name h)⟩ (ih rest)

/-- Each frame is still there, with the names it had. -/
theorem Grown.exists_of_mem (h : Grown fs gs) (hf : f ∈ fs) :
    ∃ g ∈ gs, g.kind = f.kind ∧ ∀ name, f.binds name = true → g.binds name = true := by
  induction h with
  | nil => cases hf
  | @cons _ g _ _ first _ ih =>
    rcases List.mem_cons.1 hf with rfl | hf
    · exact ⟨g, .head _, first⟩
    · obtain ⟨g, hg, grown⟩ := ih hf
      exact ⟨g, .tail _ hg, grown⟩

/-- A name that is bound stays bound. -/
theorem Grown.bound (h : Grown fs gs) (hb : Bound fs name) : Bound gs name := by
  obtain ⟨f, hf, binds⟩ := hb
  obtain ⟨g, hg, -, grown⟩ := h.exists_of_mem hf
  exact ⟨g, hg, grown name binds⟩

/-- Where a call was, there still is one. -/
theorem Grown.isCall (h : Grown fs gs) (hc : ∃ f ∈ fs, f.kind = .call) : ∃ g ∈ gs, g.kind = .call := by
  obtain ⟨f, hf, kind⟩ := hc
  obtain ⟨g, hg, same, -⟩ := h.exists_of_mem hf
  exact ⟨g, hg, same.trans kind⟩

/-- A name that is bound is bound. -/
theorem binds_bind_self (f : Frame) (name : String) (value : Value) :
    (f.bind name value).binds name = true := by
  simp [binds_eq, bind]

/-- Binding a name keeps the others. -/
theorem binds_bind (h : f.binds other = true) : (f.bind name value).binds other = true := by
  by_cases e : other = name
  · rw [e]
    exact binds_bind_self f name value
  · rw [binds_eq] at h ⊢
    rwa [bind, Bindings.lookup_bind_of_ne _ value e]

/-- Binding a name in the innermost frame lets the frames grow. -/
theorem Grown.bind (f : Frame) (fs : List Frame) (name : String) (value : Value) :
    Grown (f :: fs) (f.bind name value :: fs) :=
  .cons ⟨rfl, fun _ => binds_bind⟩ (Grown.refl fs)

/-- Binding a name anew stops at the first call, whatever lies below it. -/
theorem rebind?_append (hc : ∃ f ∈ fs, f.kind = .call) (name : String) (value : Value) (low : List Frame) :
    Scope.rebind? name value (fs ++ low) = (Scope.rebind? name value fs).map (· ++ low) := by
  induction fs with
  | nil => simp at hc
  | cons f fs ih =>
    rw [List.cons_append, Scope.rebind?, Scope.rebind?]
    by_cases binds : f.binds name = true
    · simp [binds]
    · by_cases call : f.kind = .call
      · simp [binds, call]
      · have hc : ∃ f ∈ fs, f.kind = .call := by
          obtain ⟨g, hg, kind⟩ := hc
          rcases List.mem_cons.1 hg with rfl | hg
          · exact absurd kind call
          · exact ⟨g, hg, kind⟩
        rw [if_neg binds, if_neg call, if_neg binds, if_neg call, ih hc, Option.map_map, Option.map_map]
        rfl

/-- A name that was bound anew is bound, and nothing else has changed. -/
theorem grown_of_rebind? (h : Scope.rebind? name value fs = some gs) : Grown fs gs ∧ Bound gs name := by
  fun_induction Scope.rebind? name value fs generalizing gs with
  | case1 => cases h
  | case2 f fs binds =>
    cases h
    exact ⟨.bind f fs name value, _, .head _, binds_bind_self f name value⟩
  | case3 => cases h
  | case4 f fs _ _ ih =>
    obtain ⟨rest, hr, rfl⟩ := Option.map_eq_some_iff.1 h
    obtain ⟨grown, g, hg, binds⟩ := ih hr
    exact ⟨.cons ⟨rfl, fun _ h => h⟩ grown, g, .tail _ hg, binds⟩

end

end Frame

/-- Assigning a name in the frames of a call changes these frames in a way that does not depend on those
below. -/
theorem Scope.frames_set {top : List Frame} (hc : ∃ f ∈ top, f.kind = .call) (name : String) (value : Value) :
    ∃ top', Frame.Grown top top' ∧ Frame.Bound top' name ∧
      ∀ {s : Scope} {low : List Frame}, s.frames = top ++ low → (s.set name value).frames = top' ++ low := by
  obtain _ | ⟨f, fs⟩ := top
  · simp at hc
  have defined : Frame.Grown (f :: fs) (f.bind name value :: fs) ∧ Frame.Bound (f.bind name value :: fs) name :=
    ⟨.bind f fs name value, _, .head _, Frame.binds_bind_self f name value⟩
  by_cases here : f.binds name = true ∨ f.kind = .call
  · refine ⟨_, defined.1, defined.2, fun {s low} hs => ?_⟩
    obtain ⟨rfl, outer⟩ := List.cons.inj hs
    rw [set, if_pos here]
    simp [frames, define, outer]
  -- the name is looked for further out, and not beyond the frame of the call
  · have outside : ∃ f ∈ fs, f.kind = .call := by
      obtain ⟨g, hg, kind⟩ := hc
      rcases List.mem_cons.1 hg with rfl | hg
      · exact absurd (.inr kind) here
      · exact ⟨g, hg, kind⟩
    cases hr : rebind? name value fs with
    | none =>
      refine ⟨_, defined.1, defined.2, fun {s low} hs => ?_⟩
      obtain ⟨rfl, outer⟩ := List.cons.inj hs
      rw [List.append_eq] at outer
      rw [set, if_neg here, outer, Frame.rebind?_append outside, hr]
      simp [frames, define, outer]
    | some gs =>
      obtain ⟨grown, g, hg, binds⟩ := Frame.grown_of_rebind? hr
      refine ⟨f :: gs, .cons ⟨rfl, fun _ h => h⟩ grown, ⟨g, .tail _ hg, binds⟩, fun {s low} hs => ?_⟩
      obtain ⟨rfl, outer⟩ := List.cons.inj hs
      rw [List.append_eq] at outer
      rw [set, if_neg here, outer, Frame.rebind?_append outside, hr]
      rfl

/-! ## Contexts -/

/-- The same frames lie on top in two contexts with the same functions. Below them the names in `A` have the
same values, and these are all names that the functions read. -/
structure Sharing (A : List String) (top : List Frame) (c c' : Context) : Prop where
  functions : c.functions = c'.functions
  definitions : c.definitions = c'.definitions
  covers : ∀ x ∈ c.reads, x ∈ A
  frames : ∃ low low', c.scope.frames = top ++ low ∧ c'.scope.frames = top ++ low' ∧
    ∀ x ∈ A, Frame.find? low x = Frame.find? low' x

namespace Sharing

variable {A : List String} {f : Frame} {top : List Frame} {c c' : Context} {x : String}

/-- A name that is bound on top or has the same value below has the same value. -/
theorem get?_eq (h : Sharing A top c c') (hx : Frame.Bound top x ∨ x ∈ A) :
    c.scope.get? x = c'.scope.get? x := by
  obtain ⟨low, low', eq, eq', agree⟩ := h.frames
  show Frame.find? c.scope.frames x = Frame.find? c'.scope.frames x
  rw [eq, eq', Frame.find?_append, Frame.find?_append]
  rcases hx with bound | member
  · rw [Option.or_of_isSome (Frame.isSome_find? bound), Option.or_of_isSome (Frame.isSome_find? bound)]
  · rw [agree x member]

/-- Contexts that share frames find the same functions. -/
theorem function_eq (h : Sharing A top c c') (name : String) : c.function name = c'.function name := by
  unfold Context.function
  rw [h.functions, h.definitions]

/-- Contexts that share frames have the same functions. -/
theorem hasFunction_eq (h : Sharing A top c c') (name : String) : c.hasFunction name = c'.hasFunction name := by
  unfold Context.hasFunction
  rw [h.functions]

/-- Contexts that share frames lead to the same bodies. -/
theorem bodyOf_eq (h : Sharing A top c c') (definition : NodeId) :
    Deriver.bodyOf c definition = Deriver.bodyOf c' definition := by
  unfold Deriver.bodyOf
  rw [h.definitions]

/-- What a function of the context reads has the same value below the shared frames. -/
theorem mem_of_reads (h : Sharing A top c c') {name : String} {definition : NodeId} {signature : Signature}
    (hf : c.function name = .ok (definition, signature))
    (hx : x ∈ Signature.readsBehind (Deriver.bodyOf c definition) signature.parameters) : x ∈ A :=
  h.covers x (Context.mem_reads hf hx)

/-- Other scopes. -/
theorem withScope (h : Sharing A top c c') {top' : List Frame} {s s' : Scope}
    (frames : ∃ low low', s.frames = top' ++ low ∧ s'.frames = top' ++ low' ∧
      ∀ x ∈ A, Frame.find? low x = Frame.find? low' x) :
    Sharing A top' (c.withScope s) (c'.withScope s') where
  functions := h.functions
  definitions := h.definitions
  covers x hx := h.covers x ((Context.reads_congr rfl rfl : (c.withScope s).reads = c.reads) ▸ hx)
  frames := frames

/-- Without extensions. -/
theorem bare (h : Sharing A top c c') : Sharing A top c.bare c'.bare where
  functions := h.functions
  definitions := h.definitions
  covers x hx := h.covers x ((Context.reads_congr rfl rfl : c.bare.reads = c.reads) ▸ hx)
  frames := h.frames

/-- What was shared is below a call that begins, if it is known there. -/
theorem below (h : Sharing A top c c') : Sharing A [] c c' where
  functions := h.functions
  definitions := h.definitions
  covers := h.covers
  frames := ⟨_, _, rfl, rfl, fun _ hx => h.get?_eq (.inr hx)⟩

/-- A frame is opened on top. -/
theorem enter (h : Sharing A top c c') (kind : FrameKind) :
    Sharing A (⟨kind, []⟩ :: top) (c.withScope (c.scope.enter kind)) (c'.withScope (c'.scope.enter kind)) := by
  obtain ⟨low, low', eq, eq', agree⟩ := h.frames
  refine h.withScope ⟨low, low', ?_, ?_, agree⟩
  · rw [List.cons_append, ← eq]
    rfl
  · rw [List.cons_append, ← eq']
    rfl

/-- The frame on top is closed, as long as others are shared. -/
theorem leave (h : Sharing A (f :: top) c c') (more : top ≠ []) :
    Sharing A top (c.withScope c.scope.leave) (c'.withScope c'.scope.leave) := by
  obtain ⟨low, low', eq, eq', agree⟩ := h.frames
  have left {s : Scope} {low : List Frame} (eq : s.frames = f :: top ++ low) : s.leave.frames = top ++ low := by
    obtain ⟨-, outer⟩ := List.cons.inj eq
    obtain ⟨g, gs, rfl⟩ := List.exists_cons_of_ne_nil more
    rw [List.append_eq] at outer
    rw [Scope.leave, outer]
    rfl
  exact h.withScope ⟨low, low', left eq, left eq', agree⟩

/-- A name is bound on top. -/
theorem define (h : Sharing A (f :: top) c c') (name : String) (value : Value) :
    Sharing A (f.bind name value :: top) (c.withScope (c.scope.define name value))
      (c'.withScope (c'.scope.define name value)) := by
  obtain ⟨low, low', eq, eq', agree⟩ := h.frames
  have defined {s : Scope} {low : List Frame} (eq : s.frames = f :: top ++ low) :
      (s.define name value).frames = f.bind name value :: top ++ low := by
    obtain ⟨rfl, outer⟩ := List.cons.inj eq
    simp [Scope.frames, Scope.define, outer]
  exact h.withScope ⟨low, low', defined eq, defined eq', agree⟩

/-- A name is assigned inside of a call. -/
theorem set (h : Sharing A top c c') (hc : ∃ f ∈ top, f.kind = .call) (name : String) (value : Value) :
    ∃ top', Frame.Grown top top' ∧ Frame.Bound top' name ∧
      Sharing A top' (c.withScope (c.scope.set name value)) (c'.withScope (c'.scope.set name value)) := by
  obtain ⟨low, low', eq, eq', agree⟩ := h.frames
  obtain ⟨top', grown, bound, set⟩ := Scope.frames_set hc name value
  exact ⟨top', grown, bound, h.withScope ⟨low, low', set eq, set eq', agree⟩⟩

/-- The innermost frame is shared. -/
theorem innermost_eq (h : Sharing A (f :: top) c c') : c.scope.innermost = c'.scope.innermost := by
  obtain ⟨low, low', eq, eq', -⟩ := h.frames
  have inner : c.scope.inner = c'.scope.inner := (List.cons.inj eq).1.trans (List.cons.inj eq').1.symm
  rw [Scope.innermost, Scope.innermost, inner]

end Sharing

end Stylesheet

import Stylesheet.Proofs.Expansion.Isolation

/-! # Scopes as stacks of maps

A scope is used in **steps**: frames are opened and closed, and names are defined and assigned
(**`Scope.Step`**, **`Scope.run`**). Whatever steps led to it, each of its frames has one value for a name at
most, and the outermost one is the global frame. An assignment of a name binds it in one frame, the one where it
is **assigned** (**`Scope.AssignedIn`**): from then on it has this value, and the other names have theirs. Steps
in which frames are opened and closed in turn (**`Scope.Balanced`**) leave nothing of a call (`Scope.stack_of_maps`). -/

namespace Stylesheet

/-! ## Frames are maps -/

/-- Binding a name in bindings that have it once at most leaves it there once. -/
theorem Bindings.nodup_bind {bs : Bindings} (h : (bs.map Binding.name).Nodup) (name : String) (value : Value) :
    ((bind bs name value).map Binding.name).Nodup := by
  have others : (bs.eraseP (·.name == name)).map Binding.name = (bs.map Binding.name).erase name := by
    rw [List.erase_eq_eraseP', List.eraseP_map]
    rfl
  rw [bind, List.map_cons, others, List.nodup_cons]
  exact ⟨h.not_mem_erase, h.erase name⟩

namespace Scope

variable {s s' : Scope} {name other : String} {value : Value} {fs gs before after : List Frame} {f : Frame}

/-! ## Where a name is assigned -/

/-- Of these frames, a name is assigned in `f`: it is the nearest that has the name, and no call lies before, or
it is the innermost one, and no frame has the name up to the first call. -/
def AssignedIn (name : String) (before : List Frame) (f : Frame) (after : List Frame) : Prop :=
  (f.binds name = true ∧ ∀ g ∈ before, g.binds name = false ∧ g.kind ≠ .call) ∨
    before = [] ∧ ∀ front g rest, f :: after = front ++ g :: rest → (∀ h ∈ front, h.kind ≠ .call) →
      g.binds name = false

/-- Binding a name anew changes the nearest frame that has it. -/
theorem exists_of_rebind? (h : rebind? name value fs = some gs) :
    ∃ before f after, fs = before ++ f :: after ∧ gs = before ++ f.bind name value :: after ∧
      f.binds name = true ∧ ∀ g ∈ before, g.binds name = false ∧ g.kind ≠ .call := by
  fun_induction rebind? name value fs generalizing gs with
  | case1 => cases h
  | case2 f fs here =>
    cases h
    exact ⟨[], f, fs, rfl, rfl, here, by simp⟩
  | case3 => cases h
  | case4 f fs free inside ih =>
    obtain ⟨rest, hr, rfl⟩ := Option.map_eq_some_iff.1 h
    obtain ⟨before, g, after, rfl, rfl, here, nearer⟩ := ih hr
    refine ⟨f :: before, g, after, rfl, rfl, here, fun g' hg => ?_⟩
    rcases List.mem_cons.1 hg with rfl | hg
    · exact ⟨by simpa using free, inside⟩
    · exact nearer g' hg

/-- A name cannot be bound anew if no frame has it up to the first call. -/
theorem binds_of_rebind?_none (h : rebind? name value fs = none) {front rest : List Frame}
    (cut : fs = front ++ f :: rest) (inside : ∀ g ∈ front, g.kind ≠ .call) : f.binds name = false := by
  fun_induction rebind? name value fs generalizing front with
  | case1 => simp at cut
  | case2 => cases h
  | case3 g fs free call =>
    cases front with
    | nil =>
      cases cut
      simpa using free
    | cons g' front =>
      cases cut
      exact absurd call (inside g (by simp))
  | case4 g fs free _ ih =>
    cases front with
    | nil =>
      cases cut
      simpa using free
    | cons g' front =>
      cases cut
      exact ih (Option.map_eq_none_iff.1 h) rfl fun g' hg => inside g' (by simp [hg])

/-- An assignment binds the name in the frame where it is assigned, and changes no other one. -/
theorem exists_assignedIn (s : Scope) (name : String) (value : Value) :
    ∃ before f after, s.frames = before ++ f :: after ∧ AssignedIn name before f after ∧
      (s.set name value).frames = before ++ f.bind name value :: after := by
  obtain ⟨inner, outer⟩ := s
  unfold set
  dsimp only
  by_cases here : inner.binds name = true
  · rw [if_pos (.inl here)]
    exact ⟨[], inner, outer, rfl, .inl ⟨here, by simp⟩, rfl⟩
  -- when no frame has the name up to the first call, it is assigned in the innermost one
  have innermost (others : inner.kind = .call ∨ rebind? name value outer = none) :
      AssignedIn name [] inner outer := by
    refine .inr ⟨rfl, fun front g rest cut inside => ?_⟩
    cases front with
    | nil =>
      cases cut
      simpa using here
    | cons f front =>
      cases cut
      have none := others.resolve_left (inside inner (by simp))
      exact binds_of_rebind?_none none rfl fun h hh => inside h (by simp [hh])
  by_cases call : inner.kind = .call
  · rw [if_pos (.inr call)]
    exact ⟨[], inner, outer, rfl, innermost (.inl call), rfl⟩
  rw [if_neg (not_or.2 ⟨here, call⟩)]
  cases found : rebind? name value outer with
  | none => exact ⟨[], inner, outer, rfl, innermost (.inr found), rfl⟩
  | some fs =>
    obtain ⟨before, f, after, rfl, rfl, has, nearer⟩ := exists_of_rebind? found
    refine ⟨inner :: before, f, after, rfl, .inl ⟨has, fun g hg => ?_⟩, rfl⟩
    rcases List.mem_cons.1 hg with rfl | hg
    · exact ⟨by simpa using here, call⟩
    · exact nearer g hg

/-! ## What names stand for -/

/-- Binding a name in one of the frames leaves the others their values. -/
theorem get?_of_frames_of_ne (hs : s.frames = before ++ f :: after)
    (hs' : s'.frames = before ++ f.bind name value :: after) (ne : other ≠ name) :
    s'.get? other = s.get? other := by
  rw [get?, get?, hs, hs', List.findSome?_append, List.findSome?_append, List.findSome?_cons, List.findSome?_cons,
    Frame.bind, Bindings.lookup_bind_of_ne _ value ne]

/-- A name has the value that it was assigned. -/
theorem get?_set_self (s : Scope) (name : String) (value : Value) : (s.set name value).get? name = some value := by
  obtain ⟨before, f, after, -, assigned, eq⟩ := s.exists_assignedIn name value
  have nearer : before.findSome? (fun g => g.bindings.lookup name) = none := by
    rw [List.findSome?_eq_none_iff]
    intro g hg
    obtain ⟨-, all⟩ | ⟨rfl, -⟩ := assigned
    · have := (all g hg).1
      rwa [Frame.binds_eq, Option.isSome_eq_false_iff, Option.isNone_iff_eq_none] at this
    · cases hg
  rw [get?, eq, List.findSome?_append, nearer, Option.none_or, List.findSome?_cons, Frame.bind,
    Bindings.lookup_bind_self]

/-- The other names have the values that they had. -/
theorem get?_set_of_ne (s : Scope) (value : Value) (ne : other ≠ name) :
    (s.set name value).get? other = s.get? other := by
  obtain ⟨before, f, after, hs, -, hs'⟩ := s.exists_assignedIn name value
  exact get?_of_frames_of_ne hs hs' ne

/-! ## Steps -/

/-- What a scope is used for. -/
inductive Step
  | enter (kind : FrameKind)
  | leave
  | define (name : String) (value : Value)
  | set (name : String) (value : Value)

/-- The scope after a step. -/
def step (s : Scope) : Step → Scope
  | .enter kind => s.enter kind
  | .leave => s.leave
  | .define name value => s.define name value
  | .set name value => s.set name value

/-- The scope after steps, one after the other. -/
def run (s : Scope) (steps : List Step) : Scope := steps.foldl step s

/-- No steps leave a scope as it is. -/
@[simp] theorem run_nil (s : Scope) : s.run [] = s := rfl

/-- The first step is followed by the others. -/
@[simp] theorem run_cons (s : Scope) (st : Step) (steps : List Step) :
    s.run (st :: steps) = (s.step st).run steps := rfl

/-- Steps one after the other run one after the other. -/
@[simp] theorem run_append (s : Scope) (steps steps' : List Step) :
    s.run (steps ++ steps') = (s.run steps).run steps' := List.foldl_append

/-- A step opens or closes a frame, or binds a name in one of them. -/
theorem step_cases (s : Scope) (st : Step) :
    (∃ kind, (s.step st).frames = ⟨kind, []⟩ :: s.frames) ∨
      (∃ f, s.frames = f :: (s.step st).frames) ∨ s.step st = s ∨
      ∃ before f after name value, s.frames = before ++ f :: after ∧
        (s.step st).frames = before ++ f.bind name value :: after := by
  cases st with
  | enter kind => exact .inl ⟨kind, rfl⟩
  | leave =>
    right
    obtain ⟨inner, _ | ⟨f, fs⟩⟩ := s
    · exact .inr (.inl rfl)
    · exact .inl ⟨inner, rfl⟩
  | define name value => exact .inr (.inr (.inr ⟨[], s.inner, s.outer, name, value, rfl, rfl⟩))
  | set name value =>
    obtain ⟨before, f, after, hs, -, hs'⟩ := s.exists_assignedIn name value
    exact .inr (.inr (.inr ⟨before, f, after, name, value, hs, hs'⟩))

/-- No frame has two values for a name. -/
def Unambiguous (s : Scope) : Prop := ∀ f ∈ s.frames, (f.bindings.map Binding.name).Nodup

/-- No step gives a name a second value in a frame. -/
theorem Unambiguous.step (h : s.Unambiguous) (st : Step) : (s.step st).Unambiguous := by
  obtain ⟨kind, eq⟩ | ⟨f, eq⟩ | eq | ⟨before, f, after, name, value, eq, eq'⟩ := s.step_cases st
  · intro g hg
    rw [eq] at hg
    rcases List.mem_cons.1 hg with rfl | hg
    · exact List.nodup_nil
    · exact h g hg
  · exact fun g hg => h g (eq ▸ List.mem_cons_of_mem f hg)
  · rwa [eq]
  · intro g hg
    rw [eq', List.perm_middle.mem_iff] at hg
    rw [Unambiguous, eq] at h
    rcases List.mem_cons.1 hg with rfl | hg
    · exact Bindings.nodup_bind (h f (by simp)) name value
    · exact h g (List.perm_middle.mem_iff.2 (List.mem_cons_of_mem f hg))

/-- The outermost frame. -/
def outermost (s : Scope) : Frame := s.outer.getLast?.getD s.inner

/-- The last of all frames is the outermost one. -/
theorem getLast?_frames (s : Scope) : s.frames.getLast? = some s.outermost := List.getLast?_cons

/-- A step leaves the outermost frame as it is, or binds a name in it. -/
theorem outermost_step (s : Scope) (st : Step) : (s.step st).outermost = s.outermost ∨
    ∃ name value, (s.step st).outermost = s.outermost.bind name value := by
  have old := s.getLast?_frames
  have new := (s.step st).getLast?_frames
  obtain ⟨kind, eq⟩ | ⟨f, eq⟩ | eq | ⟨before, f, after, name, value, eq, eq'⟩ := s.step_cases st
  · rw [eq, List.getLast?_cons, old] at new
    exact .inl (Option.some.inj new).symm
  · rw [eq, List.getLast?_cons, new] at old
    exact .inl (Option.some.inj old)
  · exact .inl (by rw [eq])
  · rw [eq, List.getLast?_append, List.getLast?_cons, Option.some_or, Option.some.injEq] at old
    rw [eq', List.getLast?_append, List.getLast?_cons, Option.some_or, Option.some.injEq] at new
    rw [← old, ← new]
    cases after with
    | nil => exact .inr ⟨name, value, rfl⟩
    | cons g rest => exact .inl (by rw [List.getLast?_cons, Option.getD_some, Option.getD_some])

/-! ## Calls -/

/-- Every frame that is opened is closed again, and no other one is. -/
inductive Balanced : List Step → Prop
  | nil : Balanced []
  | define (name : String) (value : Value) {steps : List Step} : Balanced steps →
      Balanced (.define name value :: steps)
  | set (name : String) (value : Value) {steps : List Step} : Balanced steps → Balanced (.set name value :: steps)
  | frame (kind : FrameKind) {body steps : List Step} : Balanced body → Balanced steps →
      Balanced (.enter kind :: body ++ .leave :: steps)

/-- Balanced steps change a scope inside of the innermost call. -/
theorem Balanced.changedInside {steps : List Step} (h : Balanced steps) (s : Scope) :
    ChangedInside s (s.run steps) := by
  induction h generalizing s with
  | nil => exact .refl s
  | define name value _ ih => exact (ChangedInside.define s name value).trans (ih _)
  | set name value _ ih => exact (ChangedInside.set s name value).trans (ih _)
  | frame kind _ _ within behind =>
    rw [List.cons_append, run_cons, run_append, run_cons]
    refine ChangedInside.trans ?_ (behind _)
    by_cases call : kind = .call
    · subst call
      rw [step, step, (within _).leave_call]
      exact .refl s
    · exact (within (s.enter kind)).leave_of_ne_call call

/-- Nothing is left of a call when its frame is closed. -/
theorem Balanced.leave_call {body : List Step} (h : Balanced body) (s : Scope) :
    ((s.enter .call).run body).leave = s := (h.changedInside (s.enter .call)).leave_call

/-- What holds of the empty scope and is kept by every step holds after any steps. -/
theorem run_induction {P : Scope → Prop} (steps : List Step) (start : P empty)
    (next : ∀ s st, P s → P (s.step st)) : P (empty.run steps) :=
  List.foldlRecOn steps step start fun s h st _ => next s st h

/-- **A scope is a stack of maps.** After any steps from the empty scope, each frame has a name once at most, and
the outermost frame is the global one, in which a further step binds a name at most. A name that is defined or
assigned has the value it was given, and all others have the values they had. An assignment binds the name in one
frame only: in the nearest that has it if no call lies before, and in the innermost one otherwise. And a call leaves
no trace, whatever balanced steps are made in it. -/
theorem stack_of_maps (steps : List Step) :
    let s := empty.run steps
    s.Unambiguous ∧
      (s.outermost.kind = .global ∧ ∀ st, (s.step st).outermost = s.outermost ∨
        ∃ name value, (s.step st).outermost = s.outermost.bind name value) ∧
      (∀ name value,
        ((s.define name value).get? name = some value ∧
          ∀ other ≠ name, (s.define name value).get? other = s.get? other) ∧
        ((s.set name value).get? name = some value ∧
          ∀ other ≠ name, (s.set name value).get? other = s.get? other) ∧
        ∃ before f after, s.frames = before ++ f :: after ∧ AssignedIn name before f after ∧
          (s.set name value).frames = before ++ f.bind name value :: after) ∧
      ∀ body, Balanced body → ((s.enter .call).run body).leave = s := by
  intro s
  have unambiguous : s.Unambiguous :=
    run_induction steps (fun f hf => by rw [List.mem_singleton.1 hf]; exact List.nodup_nil) fun _ st h => h.step st
  have kind : s.outermost.kind = .global := by
    refine run_induction (P := fun s => s.outermost.kind = .global) steps rfl fun s st h => ?_
    obtain eq | ⟨name, value, eq⟩ := s.outermost_step st <;> rw [eq]
    · exact h
    · rwa [Frame.kind_bind]
  refine ⟨unambiguous, ⟨kind, s.outermost_step⟩, fun name value => ⟨⟨?_, ?_⟩, ⟨?_, ?_⟩, ?_⟩, fun body h => ?_⟩
  · exact get?_define_self s name value
  · exact fun other ne => get?_define_of_ne s value ne
  · exact get?_set_self s name value
  · exact fun other ne => get?_set_of_ne s value ne
  · exact s.exists_assignedIn name value
  · exact h.leave_call s

/-- In a loop in a call in a loop, a name of the call is assigned, one of the first loop is not. -/
theorem stack_of_maps_nested :
    let steps : List Step := [.define "x" [.ident "a"], .enter .loop, .define "i" [.ident "b"]]
    let body : List Step := [.define "y" [.ident "c"], .enter .loop, .set "y" [.ident "d"], .set "i" [.ident "e"],
      .enter .call, .set "x" [.ident "f"], .leave, .leave, .set "x" [.ident "g"]]
    let s := empty.run steps
    Balanced body ∧ ((s.enter .call).run body).innermost.map Binding.name = ["x", "y"] ∧
      ((s.enter .call).run body).leave = s ∧ (s.set "x" [.ident "h"]).get? "i" = s.get? "i" := by
  intro steps body s
  have balanced : Balanced body :=
    .define _ _ (.frame .loop (.set _ _ (.set _ _ (.frame .call (.set _ _ .nil) .nil))) (.set _ _ .nil))
  obtain ⟨-, -, names, calls⟩ := stack_of_maps steps
  exact ⟨balanced, rfl, calls body balanced, (names "x" [.ident "h"]).2.1.2 "i" (by decide)⟩

end Scope

end Stylesheet

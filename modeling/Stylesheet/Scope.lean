import Stylesheet.Value.Basic

/-! # Scopes

Variables live in **frames** that lie on each other. A name is looked up from the innermost frame
outwards (**`Scope.get?`**), defined in the innermost one (**`Scope.define`**) and assigned in the nearest
frame that has it, as long as no call lies between (**`Scope.set`**). The outermost frame is always
there. -/

namespace Stylesheet

/-- A name with its value. -/
structure Binding where
  name : String
  value : Value

/-- Names with their values, the most recent first. -/
abbrev Bindings := List Binding

namespace Bindings

/-- The value of a name. -/
def lookup (bs : Bindings) (name : String) : Option Value :=
  (bs.find? (·.name == name)).map Binding.value

/-- Bind a name, in front of the others; an older binding of it goes. -/
def bind (bs : Bindings) (name : String) (value : Value) : Bindings :=
  ⟨name, value⟩ :: bs.eraseP (·.name == name)

/-- Nothing is bound among no bindings. -/
@[simp] theorem lookup_nil (name : String) : lookup [] name = none := rfl

/-- A name just bound has the value it was bound to. -/
@[simp] theorem lookup_bind_self (bs : Bindings) (name : String) (value : Value) :
    lookup (bind bs name value) name = some value := by
  simp [lookup, bind]

/-- Binding a name changes nothing about the others. -/
theorem lookup_bind_of_ne (bs : Bindings) {name other : String} (value : Value) (h : other ≠ name) :
    lookup (bind bs name value) other = lookup bs other := by
  have hne : name ≠ other := fun e => h e.symm
  simp only [lookup, bind, List.find?_cons_of_neg, beq_iff_eq, hne, not_false_eq_true]
  congr 1
  induction bs with
  | nil => rfl
  | cons b bs ih =>
    by_cases hb : b.name = name
    · simp [hb, hne]
    · simp [hb, List.find?_cons, ih]

end Bindings

/-- What a frame was opened for. -/
inductive FrameKind
  | global
  /-- A function or mixin body: assignments inside do not reach the caller. -/
  | call
  /-- One pass of a loop: assignments to outer names go through. -/
  | loop
  deriving Repr, DecidableEq

/-- One layer of variables. -/
structure Frame where
  kind : FrameKind
  bindings : Bindings := []

namespace Frame

/-- Whether a frame has a value for a name. -/
def binds (f : Frame) (name : String) : Bool := f.bindings.any (·.name == name)

/-- A frame binds a name exactly when it has a value for it. -/
theorem binds_eq (f : Frame) (name : String) :
    f.binds name = (f.bindings.lookup name).isSome := by
  simp [binds, Bindings.lookup]
  grind

/-- Bind a name in a frame. -/
def bind (f : Frame) (name : String) (value : Value) : Frame :=
  { f with bindings := f.bindings.bind name value }

/-- Binding a name leaves the kind of the frame. -/
@[simp] theorem kind_bind (f : Frame) (name : String) (value : Value) :
    (f.bind name value).kind = f.kind := rfl

end Frame

/-- The frames that are open: the innermost one, and those around it from the inside out. -/
structure Scope where
  inner : Frame
  outer : List Frame

namespace Scope

/-- A scope with nothing but an empty global frame. -/
def empty : Scope := ⟨⟨.global, []⟩, []⟩

/-- All frames, the innermost first. -/
def frames (s : Scope) : List Frame := s.inner :: s.outer

/-- How many frames are open. -/
def depth (s : Scope) : Nat := s.frames.length

/-- Open a frame. -/
def enter (s : Scope) (kind : FrameKind) : Scope := ⟨⟨kind, []⟩, s.frames⟩

/-- Drop the innermost frame, unless it is the last one. -/
def leave (s : Scope) : Scope :=
  match s.outer with
  | [] => s
  | f :: fs => ⟨f, fs⟩

/-- A frame that is opened and closed again leaves nothing. -/
@[simp] theorem leave_enter (s : Scope) (kind : FrameKind) : (s.enter kind).leave = s := rfl

/-- The value of a name in the innermost frame that has one. -/
def get? (s : Scope) (name : String) : Option Value :=
  s.frames.findSome? fun f => f.bindings.lookup name

/-- A new frame hides nothing. -/
@[simp] theorem get?_enter (s : Scope) (kind : FrameKind) (name : String) :
    (s.enter kind).get? name = s.get? name := by
  simp [get?, enter, frames, List.findSome?_cons]

/-- A frame that is opened is one more. -/
@[simp] theorem depth_enter (s : Scope) (kind : FrameKind) : (s.enter kind).depth = s.depth + 1 := by
  simp [depth, enter, frames]

/-- Whether a name has a value. -/
def isBound (s : Scope) (name : String) : Bool := (s.get? name).isSome

/-- Bind a name in the innermost frame. -/
def define (s : Scope) (name : String) (value : Value) : Scope :=
  { s with inner := s.inner.bind name value }

/-- A name just defined has the value it was given. -/
@[simp] theorem get?_define_self (s : Scope) (name : String) (value : Value) :
    (s.define name value).get? name = some value := by
  simp [get?, frames, define, Frame.bind]

/-- A name just defined leaves the others alone. -/
theorem get?_define_of_ne (s : Scope) {name other : String} (value : Value) (h : other ≠ name) :
    (s.define name value).get? other = s.get? other := by
  simp [get?, frames, define, Frame.bind, List.findSome?_cons, Bindings.lookup_bind_of_ne _ value h]

/-- A name is defined in the innermost frame only. -/
@[simp] theorem outer_define (s : Scope) (name : String) (value : Value) :
    (s.define name value).outer = s.outer := rfl

/-- Defining a name opens no frame. -/
@[simp] theorem depth_define (s : Scope) (name : String) (value : Value) :
    (s.define name value).depth = s.depth := rfl

/-- Bind a name anew in the nearest of some frames that has it, without passing a call. -/
def rebind? (name : String) (value : Value) : List Frame → Option (List Frame)
  | [] => none
  | f :: fs =>
    if f.binds name then some (f.bind name value :: fs)
    else if f.kind = .call then none   -- what lies outside of a call is not assigned
    else (rebind? name value fs).map (f :: ·)

/-- Assign a name: in the nearest frame that has it without passing a call, else in the innermost. -/
def set (s : Scope) (name : String) (value : Value) : Scope :=
  if s.inner.binds name ∨ s.inner.kind = .call then s.define name value
  else
    match rebind? name value s.outer with
    | some fs => { s with outer := fs }
    | none => s.define name value

/-- Binding a name anew keeps the frames and their kinds. -/
theorem map_kind_of_rebind? {name : String} {value : Value} {fs gs : List Frame}
    (h : rebind? name value fs = some gs) : gs.map Frame.kind = fs.map Frame.kind := by
  fun_induction rebind? name value fs generalizing gs with
  | case1 => simp at h
  | case2 => cases h; simp
  | case3 => simp at h
  | case4 f fs _ _ ih =>
    obtain ⟨rest, hr, rfl⟩ := Option.map_eq_some_iff.1 h
    simp [ih hr]

/-- Assigning a name opens and closes nothing. -/
theorem map_kind_set (s : Scope) (name : String) (value : Value) :
    (s.set name value).frames.map Frame.kind = s.frames.map Frame.kind := by
  unfold set
  split
  · simp [frames, define]
  · split
    next h => simp [frames, map_kind_of_rebind? h]
    · simp [frames, define]

/-- The bindings of the innermost frame, most recent first. -/
def innermost (s : Scope) : Bindings := s.inner.bindings

end Scope

end Stylesheet

import Stylesheet.Builtin
import Stylesheet.Expansion.Traversal
import Stylesheet.Proofs.Arithmetic.InStep
import Stylesheet.Proofs.Value.Compositional

/-! # Errors in the stylesheet

Most errors tell of something that is wrong in the stylesheet. Some would tell that expansion has lost its way
(**`Error.isInternal`**): a node it works on has left its place, a table leads to something else than the
definition it names, or a value came back from where none can be returned.

What is looked at on its own only fails with errors of the first kind (**`Outward`**): reading terms as
numbers and colors, carrying out operators (`outward_evaluate`), calling what is built in (`outward_call?`),
pairing arguments with parameters, and asking what a body may hold. -/

namespace Stylesheet

/-- Whether an error tells that expansion has lost its way. -/
def Error.isInternal : Error → Bool
  | .detached _ | .notDirective _ | .notFunction _ _ | .notMixin _ _ | .misnamed _ _ | .returnInMixin _ _ => true
  | _ => false

/-- If there is no result, something is wrong in the stylesheet. -/
def Outward {α : Type} (x : Except Error α) : Prop := ∀ e, x = .error e → e.isInternal = false

namespace Outward

variable {α β : Type} {x : Except Error α} {f : α → Except Error β}

/-- A result is no error, and so none of the wrong kind. -/
theorem ok (a : α) : Outward (.ok a) := nofun

/-- What is given without a computation is no error either. -/
theorem pure (a : α) : Outward (pure a : Except Error α) := nofun

/-- An error that tells of the stylesheet is an outward failure. -/
theorem error {e : Error} (h : e.isInternal = false) : Outward (.error e : Except Error α) := by
  rintro _ ⟨⟩
  exact h

/-- Where a computation and all that may follow it fail for reasons of the stylesheet, so does their sequence. -/
theorem bind (hx : Outward x) (hf : ∀ a, Outward (f a)) : Outward (x >>= f) := by
  cases x with
  | ok a => exact hf a
  | error e => exact error (hx e rfl)

/-- Changing the result afterwards adds no failure. -/
theorem map (hx : Outward x) (g : α → β) : Outward (x.map g) := by
  cases x with
  | ok a => exact ok _
  | error e => exact error (hx e rfl)

/-- Such failures go through whatever is put together from computations. -/
theorem compositional : Compositional fun γ (x _ : Except Error γ) => Outward x := ⟨pure, bind⟩

end Outward

/-! ## Operators -/

/-- Carrying out the operators of a value fails for reasons of the stylesheet. -/
theorem outward_reduce (v : Value) : Outward v.reduce := by
  intro e failed
  obtain rfl | rfl | ⟨o, -, fault⟩ := Reduction.fault_of_reduce failed
  · rfl
  · rfl
  · cases fault <;> rfl

/-- Carrying out the operators of a value. -/
theorem outward_evaluate (v : Value) : Outward v.evaluate :=
  (Outward.compositional.mapM Value.reduce Value.reduce outward_reduce _).bind fun _ => .pure _

/-! ## Built-in functions -/

namespace Builtin

variable (b : Builtin) (args : List Value)

/-- What a built-in function does not accept is wrong in the stylesheet. -/
theorem outward_fault {α : Type} (f : ArgumentFault) : Outward (b.fault f : Except Error α) := .error rfl

/-- Counting the arguments fails for reasons of the stylesheet. -/
theorem outward_requireCount (least most : Nat) : Outward (b.requireCount least most args) := by
  unfold requireCount
  split
  · exact outward_fault b _
  · exact .ok _

/-- Asking for a number fails for reasons of the stylesheet. -/
theorem outward_number (i : Nat) : Outward (b.number args i) := by
  unfold number
  split
  · exact .ok _
  · exact outward_fault b _

/-- Asking for an integer fails for reasons of the stylesheet. -/
theorem outward_integer (i : Nat) : Outward (b.integer args i) := by
  unfold integer
  split
  · exact .ok _
  · exact outward_fault b _

/-- Asking for a color fails for reasons of the stylesheet. -/
theorem outward_color (i : Nat) : Outward (b.color args i) := by
  unfold color
  split
  · exact .ok _
  · exact outward_fault b _

/-- Asking for a channel of a color fails for reasons of the stylesheet. -/
theorem outward_channel (i : Nat) : Outward (b.channel args i) := (outward_number b args i).map _

/-- Asking for a fraction of one fails for reasons of the stylesheet. -/
theorem outward_fraction (i : Nat) : Outward (b.fraction args i) := (outward_number b args i).map _

/-- Asking for the separator of a list fails for reasons of the stylesheet. -/
theorem outward_separator (i : Nat) : Outward (b.separator args i) := by
  unfold separator
  split
  · exact .ok _
  · dsimp only
    split
    · exact .ok _
    · split
      · exact .ok _
      · exact outward_fault b _

/-- Looking for the best of the numbers that are left fails for reasons of the stylesheet. -/
theorem outward_best (better : Float → Float → Bool) (i : Nat) (current : Number) (left : Nat) :
    Outward (b.best better args i current left) := by
  induction left generalizing i current with
  | zero => exact .ok _
  | succ left ih =>
    refine (outward_number b args i).bind fun n => ?_
    split
    · exact .error rfl
    · exact ih _ _

/-- Changing a color by a number fails for reasons of the stylesheet. -/
theorem outward_shiftColor (shift : Color → Float → Color) : Outward (b.shiftColor args shift) :=
  (outward_requireCount b args 2 2).bind fun _ => (outward_color b args 0).bind fun _ =>
    (outward_number b args 1).bind fun _ => .pure _

/-- Taking a part of a color fails for reasons of the stylesheet. -/
theorem outward_partOfColor (part : Color → Float) : Outward (b.partOfColor args part) :=
  (outward_requireCount b args 1 1).bind fun _ => (outward_color b args 0).bind fun _ => .pure _

/-- Changing a number fails for reasons of the stylesheet. -/
theorem outward_changeNumber (change : Float → Float) : Outward (b.changeNumber args change) :=
  (outward_requireCount b args 1 1).bind fun _ => (outward_number b args 0).bind fun _ => .pure _

/-- Choosing among numbers fails for reasons of the stylesheet. -/
theorem outward_chooseNumber (better : Float → Float → Bool) : Outward (b.chooseNumber args better) := by
  unfold chooseNumber
  split
  · exact outward_fault b _
  · exact (outward_number b args 0).bind fun _ => (outward_best b args better _ _ _).bind fun _ => .pure _

/-- Looking at a value that may be anything fails for reasons of the stylesheet. -/
theorem outward_onValue (f : Value → Value) : Outward (b.onValue args f) :=
  (outward_requireCount b args 1 1).bind fun _ => .pure _

/-- Whatever function is called. -/
theorem outward_call : Outward (b.call args) := by
  have count (least most : Nat) := outward_requireCount b args least most
  have number (i : Nat) := outward_number b args i
  have channel (i : Nat) := outward_channel b args i
  have color (i : Nat) := outward_color b args i
  have fraction (i : Nat) := outward_fraction b args i
  have separator (i : Nat) := outward_separator b args i
  cases b with
  | rgb =>
    exact (count 3 3).bind fun _ => (channel 0).bind fun _ => (channel 1).bind fun _ =>
      (channel 2).bind fun _ => .pure _
  | rgba =>
    unfold call
    dsimp only
    split
    · exact (color 0).bind fun _ => (fraction 1).bind fun _ => .pure _
    · exact (count 4 4).bind fun _ => (channel 0).bind fun _ => (channel 1).bind fun _ =>
        (channel 2).bind fun _ => (fraction 3).bind fun _ => .pure _
  | red | green | blue | alpha | opacity => exact outward_partOfColor _ args _
  | lighten | darken | saturate | desaturate | adjustHue =>
    unfold call
    exact outward_shiftColor _ args _
  | mix =>
    have mixed (weight : Float) : Outward (do
        let c ← mix.color args 0
        let d ← mix.color args 1
        pure ([.color (c.mix d weight)] : Value)) :=
      (color 0).bind fun _ => (color 1).bind fun _ => .pure _
    refine (count 2 3).bind fun _ => ?_
    dsimp only
    split
    · exact ((number 2).map _).bind mixed
    · exact (Outward.pure _).bind mixed
  | percentage =>
    refine (count 1 1).bind fun _ => (number 0).bind fun n => ?_
    split
    · exact outward_fault _ _
    · exact .pure _
  | round | ceil | floor | abs => exact outward_changeNumber _ args _
  | min | max => exact outward_chooseNumber _ args _
  | unit | unitless => exact (count 1 1).bind fun _ => (number 0).bind fun _ => .pure _
  | comparable => exact (count 2 2).bind fun _ => (number 0).bind fun _ => (number 1).bind fun _ => .pure _
  | typeOf | quote | unquote | toUpperCase | toLowerCase | strLength | length | not =>
    unfold call
    exact outward_onValue _ args _
  | nth =>
    refine (count 2 2).bind fun _ => (outward_integer _ args 1).bind fun _ => ?_
    split
    · exact .pure _
    · exact outward_fault _ _
  | join | append => exact (count 2 3).bind fun _ => (separator 2).bind fun _ => .pure _
  | index =>
    refine (count 2 2).bind fun _ => ?_
    split <;> exact .pure _
  | ite => exact (count 3 3).bind fun _ => .pure _

/-- Calling a function that may be built in fails for reasons of the stylesheet. -/
theorem outward_call? (name : String) (args : List Value) : Outward (call? name args) := by
  unfold call?
  split
  · exact (outward_call _ args).map _
  · exact .ok _

end Builtin

/-! ## Calls and bodies -/

/-- Pairing the arguments of a call with the parameters of a signature fails for reasons of the stylesheet. -/
theorem outward_collate (name : String) (parameters : List Parameter) (arguments : List Value) :
    Outward (Signature.collate name parameters arguments) := by
  unfold Signature.collate
  split
  · exact .ok _
  · exact .error rfl

/-- A definition of another name is all that would be internal about a call. -/
theorem outward_matchCall {name : String} {signature : Signature} (h : signature.name = name)
    (arguments : List Value) : Outward (Walker.matchCall name signature arguments) := by
  unfold Walker.matchCall
  rw [if_pos h]
  exact outward_collate _ _ _

/-- Asking what may stand in a body fails for reasons of the stylesheet. -/
theorem outward_allows (mode : Mode) (n : Node) : Outward (mode.allows n) := by
  cases mode with
  | stylesheet => exact .ok _
  | mixin =>
    unfold Mode.allows
    dsimp only
    split
    all_goals first | exact .ok _ | exact .error rfl
  | function =>
    unfold Mode.allows
    dsimp only
    split
    case h_9 =>
      split
      · exact .error rfl
      · exact .ok _
    all_goals first | exact .ok _ | exact .error rfl

end Stylesheet

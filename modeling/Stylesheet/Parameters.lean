import Stylesheet.Value.Basic

/-! # Parameters and arguments

A function or a mixin has a **`Signature`**: a name and parameters, some of them with defaults.
**`Signature.collate`** pairs the arguments of a call with the parameters in order. Parameters at the
end may be left out when they have defaults; any other difference in number is an error. -/

namespace Stylesheet

/-- A parameter with its default; the empty value means that there is none. -/
structure Parameter where
  name : String
  default : Value

/-- The default of a parameter. -/
def Parameter.default? (p : Parameter) : Option Value :=
  if p.default.isEmpty then none else some p.default

/-- A default that a parameter has is what it says. -/
theorem Parameter.default_eq_of_default? {p : Parameter} {v : Value} (h : p.default? = some v) :
    p.default = v := by
  unfold default? at h
  split at h
  · cases h
  · exact Option.some.inj h

/-- The head of a definition. -/
structure Signature where
  name : String
  parameters : List Parameter

/-- What a parameter is bound to: a value given in the call, or its default, which is still to be
evaluated. -/
inductive Argument
  | given (value : Value)
  | default (value : Value)

namespace Signature

/-- Pair parameters with arguments, if there are neither too many nor too few. -/
def pair? : List Parameter → List Value → Option (List (String × Argument))
  | [], [] => some []
  | [], _ :: _ => none
  | p :: ps, v :: vs => (pair? ps vs).map ((p.name, .given v) :: ·)
  | p :: ps, [] =>
    match p.default? with
    | none => none
    | some v => (pair? ps []).map ((p.name, .default v) :: ·)

/-- Pair parameters with the arguments of a call to `name`. -/
def collate (name : String) (parameters : List Parameter) (arguments : List Value) :
    Except Error (List (String × Argument)) :=
  match pair? parameters arguments with
  | some bound => .ok bound
  | none => .error (.argumentCount name parameters.length arguments.length)

end Signature

end Stylesheet

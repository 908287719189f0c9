import Stylesheet.Operator
import Stylesheet.Text.Quoted

/-! # Errors

What can go wrong in reading a value, computing with it or expanding a stylesheet. An **`Error`** is
the cause, with the texts needed to tell about it; **`Error.kind`** sorts the causes into the kinds that
users of the library distinguish, and **`Error.message`** words them. -/

namespace Stylesheet

/-- The kinds of errors. -/
inductive ErrorKind
  | io
  | definitionNotFound
  | argumentMismatch
  | nodeNotExpanded
  | notAllowedInFunction
  | notAllowedInMixin
  | returnOutsideFunction
  | invalidDirective
  | invalidCondition
  | invalidArguments
  | incompatibleUnits
  | invalidSquareUnits
  | importNotFound
  | invalidValue
  deriving Repr, DecidableEq

/-- What is wrong with the arguments of a built-in function. Arguments are counted from zero. -/
inductive ArgumentFault
  /-- There are too few or too many of them. -/
  | count (least most given : Nat)
  | notNumber (index : Nat)
  | notInteger (index : Nat)
  | notColor (index : Nat)
  /-- A number should have no unit. -/
  | hasUnit (number : String)
  /-- At least one number is needed. -/
  | missing
  /-- A position lies outside of a list. -/
  | outOfBounds (position : Int) (list : String)
  | unknownSeparator (separator : String)
  deriving Repr, DecidableEq

/-- The wording of a fault, without the name of the function. -/
def ArgumentFault.message : ArgumentFault → String
  | count least most given =>
    let expected := if least = most then toString least else s!"{least} to {most}"
    s!"expected {expected} argument(s), got {given}"
  | notNumber index => "argument " ++ toString (index + 1) ++ " is not a number"
  | notInteger index => "argument " ++ toString (index + 1) ++ " is not an integer"
  | notColor index => "argument " ++ toString (index + 1) ++ " is not a color"
  | hasUnit number => s!"expected a unitless number, got {number}"
  | missing => "expected at least one argument"
  | outOfBounds position list => s!"index {position} is out of bounds for `{list}`"
  | unknownSeparator separator => s!"unknown separator `{separator}`"

/-- The cause of a failure. -/
inductive Error
  /-- A parenthesis behind a name in `text` stays open. -/
  | unclosedCall (text : String)
  /-- A quote in `text` stays open. -/
  | unterminatedString (text : String)
  /-- A `$` in `text` has no name behind it. -/
  | missingVariableName (text : String)
  /-- A word in `text` begins with a character that is not ASCII. -/
  | foreignWord (text : String)
  /-- A group of an arithmetic expression stays open. -/
  | unclosedGroup
  /-- A group of an arithmetic expression closes that was not open. -/
  | strayParenthesis
  /-- An operator is to be carried out, and none waits. -/
  | missingOperator
  /-- An operator lacks one of its operands. -/
  | missingOperand
  /-- An operand is there but has no terms. -/
  | emptyOperand (operator : Operator)
  /-- The operator does not apply to these two terms. -/
  | undefinedOperation (left : String) (operator : Operator) (right : String)
  /-- Multiplying two numbers would square their unit. -/
  | squaredUnits (left right : String)
  /-- Two numbers have different units. -/
  | mixedUnits (left right : String)
  /-- A call was turned down; `message` tells by whom and why. -/
  | refused (message : String)
  /-- A built-in function got numbers that cannot be compared. -/
  | incomparable (function best number : String)
  /-- A stylesheet to import could not be loaded, with a text of its own. -/
  | unreadable (message : String)
  | undefinedFunction (name : String)
  | undefinedMixin (name : String)
  /-- A name in the table of functions leads to some other node. -/
  | notFunction (name node : String)
  /-- A name in the table of mixins leads to some other node. -/
  | notMixin (name node : String)
  /-- A name in a table leads to a definition of another name. -/
  | misnamed (name definition : String)
  /-- A call has the wrong number of arguments. -/
  | argumentCount (name : String) (expected given : Nat)
  /-- A node has lost its parent. -/
  | detached (node : String)
  /-- A branch stands outside of a conditional. -/
  | looseBranch (node : String)
  /-- A node in a function body should have been expanded before. -/
  | unexpanded (node : String)
  | forbiddenInFunction (node : String)
  | forbiddenInMixin (node : String)
  /-- A value is returned where no function is running. -/
  | strayReturn (value : String)
  /-- A value is returned from a mixin. -/
  | returnInMixin (value name : String)
  /-- A node is expanded as a directive that is none. -/
  | notDirective (node : String)
  /-- A counting loop runs downwards. -/
  | reversedBounds (low high : Int)
  /-- A bound of a counting loop, named `which`, is not an integer. -/
  | fractionalBound (which value : String)
  /-- A condition gives something else than a truth value. -/
  | conditionNotBool (condition value : String)
  /-- A condition cannot be evaluated. -/
  | conditionFailed (condition message : String)
  | importNotFound (uri : String)
  deriving Repr, DecidableEq

namespace Error

/-- The kind of an error. -/
def kind : Error → ErrorKind
  | unclosedCall _ | unterminatedString _ | missingVariableName _ | foreignWord _ | unclosedGroup
  | strayParenthesis | missingOperator | missingOperand | emptyOperand _ | undefinedOperation _ _ _ =>
    .invalidValue
  | squaredUnits _ _ => .invalidSquareUnits
  | mixedUnits _ _ | incomparable _ _ _ => .incompatibleUnits
  | refused _ => .invalidArguments
  | unreadable _ => .io
  | undefinedFunction _ | undefinedMixin _ | notFunction _ _ | notMixin _ _ => .definitionNotFound
  | misnamed _ _ | argumentCount _ _ _ => .argumentMismatch
  | detached _ | looseBranch _ | unexpanded _ => .nodeNotExpanded
  | forbiddenInFunction _ => .notAllowedInFunction
  | forbiddenInMixin _ => .notAllowedInMixin
  | strayReturn _ | returnInMixin _ _ => .returnOutsideFunction
  | notDirective _ | reversedBounds _ _ | fractionalBound _ _ => .invalidDirective
  | conditionNotBool _ _ | conditionFailed _ _ => .invalidCondition
  | importNotFound _ => .importNotFound

/-- The wording of an error. -/
def message : Error → String
  | unclosedCall text => s!"Expected `)` to close the parenthesis in `{text}`"
  | unterminatedString text => s!"Unterminated string in `{text}`"
  | missingVariableName text => s!"Expected a variable name after `$` in `{text}`"
  | foreignWord text => s!"A word begins with a character that is not ASCII in `{text}`"
  | unclosedGroup => "Expected `)` to close the parenthesis"
  | strayParenthesis => "Unexpected `)`"
  | missingOperator => "Expected an operator"
  | missingOperand => "Expected an operand on both sides of the operator"
  | emptyOperand o => "Expected an operand on both sides of `" ++ o.text ++ "`"
  | undefinedOperation left o right =>
    s!"Undefined operation: `{left} " ++ o.text ++ s!" {right}`"
  | squaredUnits left right =>
    "Multiplication of " ++ Text.quoted left ++ " and " ++ Text.quoted right ++
      " would produce invalid squared units"
  | mixedUnits left right =>
    "Incompatible units: " ++ Text.quotedOption (some left) ++ " and " ++
      Text.quotedOption (some right)
  | refused text => text
  | incomparable function best number => s!"{function}: incompatible units {best} and {number}"
  | unreadable text => text
  | undefinedFunction name => s!"Function Definition: {name} not found"
  | undefinedMixin name => s!"Mixin Definition: {name} not found"
  | notFunction name node => s!"Function Definition: {name} is `{node}`"
  | notMixin name node => s!"Mixin Definition: {name} is `{node}`"
  | misnamed name definition => s!"Call to {name} resolved to definition {definition}"
  | argumentCount name expected given =>
    s!"Arguments for {name} do not match definition: expected {expected}, got {given}"
  | detached node => s!"{node} is no longer attached to the stylesheet"
  | looseBranch node => s!"`{node}` outside of an @if/@else chain"
  | unexpanded node => s!"`{node}` should have already been removed"
  | forbiddenInFunction node => s!"`{node}` is not allowed in a function body"
  | forbiddenInMixin node => s!"`{node}` is not allowed in a mixin body"
  | strayReturn value => s!"@return {value} outside of a function"
  | returnInMixin value name => s!"@return {value} inside mixin {name}"
  | notDirective node => s!"`{node}` is not a control directive"
  | reversedBounds low high =>
    s!"Invalid @for in scss file, 'from' ({low}) is greater than 'to' ({high})"
  | fractionalBound which value =>
    s!"Invalid @for in scss file, '{which}' is not an integer expression : {value}"
  | conditionNotBool condition value =>
    s!"Invalid condition `{condition}`: evaluates to {value} instead of a boolean"
  | conditionFailed condition text => s!"Invalid condition `{condition}`: {text}"
  | importNotFound uri => s!"Import not found: {uri}"

end Error

end Stylesheet

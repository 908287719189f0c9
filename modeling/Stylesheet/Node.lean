import Stylesheet.Parameters

/-! # Nodes of a stylesheet

A **`Node`** is one thing in a stylesheet: a block, a declaration, a directive, a definition and so on.
What stands inside of it, its children, is kept by the tree. **`Node.text`** writes a node on one line,
without its children. -/

namespace Stylesheet

/-- An import: what is imported, for which media, and whether it is written as a URL. -/
structure Import where
  uri : String
  media : Option String
  isUrl : Bool

namespace Import

/-- Whether an import is left to the browser. -/
def isPlain (i : Import) : Bool :=
  i.isUrl || i.media.isSome || ".css".toList.isSuffixOf i.uri.toList ||
    "http://".toList.isPrefixOf i.uri.toList || "https://".toList.isPrefixOf i.uri.toList

/-- An import as the browser reads it. -/
def text (i : Import) : String :=
  let target := if i.isUrl then "url(" ++ i.uri ++ ")" else "\"" ++ i.uri ++ "\""
  match i.media with
  | some media => "@import " ++ target ++ " " ++ media ++ ";"
  | none => "@import " ++ target ++ ";"

end Import

/-- What a list directive does with its items. -/
inductive ListEdit
  | append
  | contains
  | remove
  deriving Repr, DecidableEq

/-- The name of a list edit in the text of its node. -/
def ListEdit.name : ListEdit → String
  | append => "Append"
  | contains => "Contains"
  | remove => "Remove"

/-- Assign to a variable a list with items appended or removed, or whether it contains them. -/
structure ListDirective where
  edit : ListEdit
  variableName : String
  list : Value
  items : Value
  separator : Option String

/-- Run a body for each integer between two bounds, the upper one included or not. -/
structure Counting where
  variableName : String
  low : Value
  high : Value
  inclusive : Bool

/-- A call of a function as a statement, or of a mixin. -/
structure Invocation where
  name : String
  arguments : Value

/-- A node of a stylesheet. -/
inductive Node
  | root
  /-- Assigns a variable; when guarded, only if it has no value yet. -/
  | assignment (name : String) (value : Value) (guarded : Bool)
  /-- Ends a function with a value. -/
  | result (value : Value)
  /-- A property with its value. -/
  | declaration (name : String) (value : Value) (important : Bool)
  /-- A style block. -/
  | block (selectors : List String)
  | comment (text : String)
  | importing (i : Import)
  /-- Makes the block around it share the styles of the selectors. -/
  | extend (targets : List String)
  /-- The place of the block that comes with an include. -/
  | content
  | fontFace
  /-- A declaration that is taken as it stands. -/
  | vendor (name value : String)
  /-- A line that is taken as it stands. -/
  | plain (text : String)
  | keyframeBlock (selectors : List String)
  | keyframes (keyword name : String)
  | media (query : String)
  | functionDefinition (signature : Signature)
  | functionCall (call : Invocation)
  | mixinDefinition (signature : Signature)
  | mixinCall (call : Invocation)
  /-- Declarations whose names all begin alike. -/
  | nesting (name : String)
  | listDirective (directive : ListDirective)
  | each (variableName : String) (list : Value)
  | counting (loop : Counting)
  | whileLoop (condition : String)
  /-- Holds branches, and at most one otherwise-branch behind them. -/
  | conditional
  | branch (condition : String)
  | otherwise

namespace Node

/-- Whether a node is a style block. -/
def isBlock : Node → Bool
  | block _ => true
  | _ => false

/-- A block is a block, whatever its selectors. -/
@[simp] theorem isBlock_block (selectors : List String) : isBlock (block selectors) = true := rfl

/-- Texts with a comma and a space between them. -/
def commaSeparated (texts : List String) : String := ", ".intercalate texts

/-- A node as text, without its children. -/
def text : Node → String
  | root => "stylesheet"
  | assignment name value guarded =>
    "$" ++ name ++ ": " ++ value.text ++ (if guarded then " !default" else "")
  | result value => "@return " ++ value.text
  | declaration name value important =>
    name ++ ": " ++ value.text ++ (if important then " !important" else "")
  | block selectors => commaSeparated selectors
  | comment text => text
  | importing i => i.text
  | extend targets => "@extend " ++ commaSeparated targets
  | content => "@content"
  | fontFace => "@font-face"
  | vendor name value => name ++ ": " ++ value
  | plain text => text
  | keyframeBlock selectors => commaSeparated selectors
  | keyframes keyword name => keyword ++ " " ++ name
  | media query => "@media " ++ query
  | functionDefinition signature => "@function " ++ signature.name
  | functionCall call => call.name ++ "(" ++ call.arguments.text ++ ")"
  | mixinDefinition signature => "@mixin " ++ signature.name
  | mixinCall call => "@include " ++ call.name ++ "(" ++ call.arguments.text ++ ")"
  | nesting name => name ++ ":"
  | listDirective d =>
    "$" ++ d.variableName ++ ": " ++ d.edit.name ++ "(" ++ d.list.text ++ ", " ++ d.items.text ++ ")"
  | each name list => "@each $" ++ name ++ " in " ++ list.text
  | counting loop =>
    "@for $" ++ loop.variableName ++ " from " ++ loop.low.text ++
      (if loop.inclusive then " through " else " to ") ++ loop.high.text
  | whileLoop condition => "@while " ++ condition
  | conditional => "@if"
  | branch condition => "@if " ++ condition
  | otherwise => "@else"

end Node

end Stylesheet

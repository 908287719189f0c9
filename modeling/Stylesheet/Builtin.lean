import Stylesheet.Text.Casing
import Stylesheet.Value.Basic

/-! # Built-in functions

The functions that every stylesheet can call: on colors, numbers, strings, lists and truth values.
**`Builtin.ofName?`** finds one by its name and **`Builtin.call`** applies it to arguments that have been
evaluated. Each function first counts its arguments and then reads them in the order in which it uses
them, so that the first fault in this order is the one reported. -/

namespace Stylesheet

/-- The built-in functions. -/
inductive Builtin
  | rgb | rgba | red | green | blue | alpha | opacity
  | lighten | darken | saturate | desaturate | adjustHue | mix
  | percentage | round | ceil | floor | abs | min | max
  | unit | unitless | comparable | typeOf
  | quote | unquote | toUpperCase | toLowerCase | strLength
  | length | nth | join | append | index
  | ite | not
  deriving Repr, DecidableEq

namespace Builtin

/-- All built-in functions. -/
def all : List Builtin :=
  [rgb, rgba, red, green, blue, alpha, opacity,
   lighten, darken, saturate, desaturate, adjustHue, mix,
   percentage, round, ceil, floor, abs, min, max,
   unit, unitless, comparable, typeOf,
   quote, unquote, toUpperCase, toLowerCase, strLength,
   length, nth, join, append, index,
   ite, not]

/-- The name of a function in a stylesheet. -/
def name : Builtin → String
  | rgb => "rgb"
  | rgba => "rgba"
  | red => "red"
  | green => "green"
  | blue => "blue"
  | alpha => "alpha"
  | opacity => "opacity"
  | lighten => "lighten"
  | darken => "darken"
  | saturate => "saturate"
  | desaturate => "desaturate"
  | adjustHue => "adjust-hue"
  | mix => "mix"
  | percentage => "percentage"
  | round => "round"
  | ceil => "ceil"
  | floor => "floor"
  | abs => "abs"
  | min => "min"
  | max => "max"
  | unit => "unit"
  | unitless => "unitless"
  | comparable => "comparable"
  | typeOf => "type-of"
  | quote => "quote"
  | unquote => "unquote"
  | toUpperCase => "to-upper-case"
  | toLowerCase => "to-lower-case"
  | strLength => "str-length"
  | length => "length"
  | nth => "nth"
  | join => "join"
  | append => "append"
  | index => "index"
  | ite => "if"
  | not => "not"

/-- The built-in function of a name. -/
def ofName? (name : String) : Option Builtin := all.find? (·.name == name)

/-- Each name is that of one function only. -/
@[simp] theorem ofName?_name (b : Builtin) : ofName? b.name = some b := by
  cases b <;> decide

/-- Whether a name is that of a built-in function. -/
def isName (name : String) : Bool := (ofName? name).isSome

/-! ## Arguments -/

/-- Turn down a call for a fault in the arguments. -/
def fault {α : Type} (b : Builtin) (f : ArgumentFault) : Except Error α :=
  .error (.refused (b.name ++ ": " ++ f.message))

/-- Require between `least` and `most` arguments. -/
def requireCount (b : Builtin) (least most : Nat) (args : List Value) : Except Error Unit :=
  if args.length < least ∨ most < args.length then b.fault (.count least most args.length)
  else .ok ()

/-- The number that argument `i` is. -/
def number (b : Builtin) (args : List Value) (i : Nat) : Except Error Number :=
  match args[i]?.bind Value.number? with
  | some n => .ok n
  | none => b.fault (.notNumber i)

/-- The integer that argument `i` is. -/
def integer (b : Builtin) (args : List Value) (i : Nat) : Except Error Int :=
  match args[i]?.bind Value.integer? with
  | some n => .ok n
  | none => b.fault (.notInteger i)

/-- The color that argument `i` is. -/
def color (b : Builtin) (args : List Value) (i : Nat) : Except Error Color :=
  match args[i]?.bind Value.color? with
  | some c => .ok c
  | none => b.fault (.notColor i)

/-- The channel that argument `i` is; a percentage counts from 0 to 255. -/
def channel (b : Builtin) (args : List Value) (i : Nat) : Except Error Float :=
  (b.number args i).map fun n =>
    if n.unit == some "%" then n.scalar * 255.0 / 100.0 else n.scalar

/-- The share that argument `i` is; a percentage counts from 0 to 1. -/
def fraction (b : Builtin) (args : List Value) (i : Nat) : Except Error Float :=
  (b.number args i).map fun n => if n.unit == some "%" then n.scalar / 100.0 else n.scalar

/-- What to put between the items of a list. -/
inductive Separator
  | comma
  | space
  deriving Repr, DecidableEq

/-- The separator that a word names. -/
def Separator.ofName? : String → Option Separator
  | "comma" => some .comma
  | "space" => some .space
  | _ => none

/-- The separator that argument `i` names; none if it is missing or `auto`. -/
def separator (b : Builtin) (args : List Value) (i : Nat) : Except Error (Option Separator) :=
  match args[i]? with
  | none => .ok none
  | some v =>
    let text := Value.unquoted v
    if text = "auto" then .ok none
    else match Separator.ofName? text with
      | some s => .ok (some s)
      | none => b.fault (.unknownSeparator text)

/-- Whether two lists that are put together get commas: as asked for, else as the first of them that
has several items. -/
def Separator.combinesByComma (separator : Option Separator) (list other : Value) : Bool :=
  match separator with
  | some .comma => true
  | some .space => false
  | none =>
    if 1 < list.items.length then list.separatesByComma else other.separatesByComma

/-! ## Results -/

/-- The kind of a value, as `type-of` names it. -/
def kindName : Value → String
  | [.number _] => "number"
  | [.color _] => "color"
  | [.str _] => "string"
  | [.ident s] =>
    if s = "true" ∨ s = "false" then "bool" else if s = "null" then "null" else "string"
  | [.list _] => "list"
  | [_] => "string"
  | _ => "list"

/-- The item at a position counted from 1, or from the end when negative. -/
def itemAt? (items : List Value) (position : Int) : Option Value :=
  if 0 < position then items[(position - 1).toNat]?
  else if position < 0 ∧ position.natAbs ≤ items.length then items[items.length - position.natAbs]?
  else none

/-- The best of some numbers: each one is compared with the best before it. -/
def best (b : Builtin) (better : Float → Float → Bool) (args : List Value) (i : Nat)
    (current : Number) : Nat → Except Error Number
  | 0 => .ok current
  | left + 1 => do
    let n ← b.number args i
    if !current.comparable n then .error (.incomparable b.name current.text n.text)
    else best b better args (i + 1) (if better n.scalar current.scalar then n else current) left

/-- Change the case of a text; a quoted string stays quoted. -/
def recase (change : List Char → List Char) (v : Value) : Value :=
  let text := String.ofList (change (Value.unquoted v).toList)
  match v with
  | [.str _] => [.str text]
  | _ => [.ident text]

/-! ## Calls -/

/-- Call one of the functions that shift a color by an amount. -/
def shiftColor (b : Builtin) (args : List Value) (shift : Color → Float → Color) :
    Except Error Value := do
  b.requireCount 2 2 args
  let c ← b.color args 0
  let amount ← b.number args 1
  pure [.color (shift c amount.scalar)]

/-- Call one of the functions that show a part of a color. -/
def partOfColor (b : Builtin) (args : List Value) (part : Color → Float) : Except Error Value := do
  b.requireCount 1 1 args
  let c ← b.color args 0
  pure [.ofFloat (part c)]

/-- Call one of the functions that change the double of a number. -/
def changeNumber (b : Builtin) (args : List Value) (change : Float → Float) :
    Except Error Value := do
  b.requireCount 1 1 args
  let n ← b.number args 0
  pure [.number { n with scalar := change n.scalar }]

/-- Call one of the functions that choose among numbers. -/
def chooseNumber (b : Builtin) (args : List Value) (better : Float → Float → Bool) :
    Except Error Value := do
  if args.isEmpty then b.fault .missing
  else
    let first ← b.number args 0
    let n ← b.best better args 1 first (args.length - 1)
    pure [.number n]

/-- Call a function of exactly one argument that takes any value. -/
def onValue (b : Builtin) (args : List Value) (f : Value → Value) : Except Error Value := do
  b.requireCount 1 1 args
  pure (f (args.headD []))

/-- Call a built-in function. -/
def call (b : Builtin) (args : List Value) : Except Error Value :=
  match b with
  | rgb => do
    b.requireCount 3 3 args
    let red ← b.channel args 0
    let green ← b.channel args 1
    let blue ← b.channel args 2
    pure [.color (.ofChannels red green blue 1.0)]
  | rgba =>
    if args.length = 2 then do
      let c ← b.color args 0
      let alpha ← b.fraction args 1
      pure [.color { c with alpha := alpha, spelling := none }]
    else do
      b.requireCount 4 4 args
      let red ← b.channel args 0
      let green ← b.channel args 1
      let blue ← b.channel args 2
      let alpha ← b.fraction args 3
      pure [.color (.ofChannels red green blue alpha)]
  | red => b.partOfColor args (Float.ofInt ·.red)
  | green => b.partOfColor args (Float.ofInt ·.green)
  | blue => b.partOfColor args (Float.ofInt ·.blue)
  | alpha | opacity => b.partOfColor args (·.alpha)
  | lighten => b.shiftColor args fun c x => c.adjustHsl 0.0 0.0 x
  | darken => b.shiftColor args fun c x => c.adjustHsl 0.0 0.0 (-x)
  | saturate => b.shiftColor args fun c x => c.adjustHsl 0.0 x 0.0
  | desaturate => b.shiftColor args fun c x => c.adjustHsl 0.0 (-x) 0.0
  | adjustHue => b.shiftColor args fun c x => c.adjustHsl x 0.0 0.0
  | mix => do
    b.requireCount 2 3 args
    -- the weight is read first, so its fault is the one reported
    let weight ← if args.length = 3 then (b.number args 2).map (·.scalar / 100.0) else pure 0.5
    let c ← b.color args 0
    let d ← b.color args 1
    pure [.color (c.mix d weight)]
  | percentage => do
    b.requireCount 1 1 args
    let n ← b.number args 0
    if n.unit.isSome then b.fault (.hasUnit n.text)
    else pure [.number ⟨n.scalar * 100.0, some "%"⟩]
  | round => b.changeNumber args Binary64.roundNearest
  | ceil => b.changeNumber args Binary64.roundUp
  | floor => b.changeNumber args Binary64.roundDown
  | abs => b.changeNumber args Float.abs
  | min => b.chooseNumber args fun x y => x < y
  | max => b.chooseNumber args fun x y => y < x
  | unit => do
    b.requireCount 1 1 args
    let n ← b.number args 0
    pure [.str n.unitText]
  | unitless => do
    b.requireCount 1 1 args
    let n ← b.number args 0
    pure [.ofBool n.unit.isNone]
  | comparable => do
    b.requireCount 2 2 args
    let m ← b.number args 0
    let n ← b.number args 1
    pure [.ofBool (m.comparable n)]
  | typeOf => b.onValue args fun v => [.ident (kindName v)]
  | quote => b.onValue args fun v => [.str v.unquoted]
  | unquote => b.onValue args fun v => [.ident v.unquoted]
  | toUpperCase => b.onValue args (recase Text.toUpper)
  | toLowerCase => b.onValue args (recase Text.toLower)
  | strLength => b.onValue args fun v => [.ofFloat (Float.ofNat v.unquoted.length)]
  | length => b.onValue args fun v => [.ofFloat (Float.ofNat v.items.length)]
  | nth => do
    b.requireCount 2 2 args
    let list : Value := args.headD []
    let position ← b.integer args 1
    match itemAt? list.items position with
    | some item => pure item
    | none => b.fault (.outOfBounds position list.text)
  | join => do
    b.requireCount 2 3 args
    let separator ← b.separator args 2
    let list : Value := args.headD []
    let other : Value := args[1]?.getD []
    pure (.ofItems (Separator.combinesByComma separator list other) (list.items ++ Value.items other))
  | append => do
    b.requireCount 2 3 args
    let separator ← b.separator args 2
    let list : Value := args.headD []
    pure (.ofItems (Separator.combinesByComma separator list list)
      (list.items ++ [args[1]?.getD []]))
  | index => do
    b.requireCount 2 2 args
    match (args.headD []).items.findIdx? (· == args[1]?.getD []) with
    | some position => pure [.ofFloat (Float.ofNat (position + 1))]
    | none => pure [.ident "null"]
  | ite => do
    b.requireCount 3 3 args
    pure (if (args.headD []).isTruthy then args[1]?.getD [] else args[2]?.getD [])
  | not => b.onValue args fun v => [.ofBool (!v.isTruthy)]

/-- Call the built-in function of a name; `none` if there is none of that name. -/
def call? (name : String) (args : List Value) : Except Error (Option Value) :=
  match ofName? name with
  | some b => (b.call args).map some
  | none => .ok none

end Builtin

end Stylesheet

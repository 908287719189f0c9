import Stylesheet.Number

/-! # Colors

A **`Color`** has three channels, an opacity and, when it was written in hexadecimal digits, that
spelling, which it keeps as long as nothing changes it. Colors are made from channels
(**`Color.ofChannels`**), from hue, saturation and lightness (**`Color.ofHsl`**) and by mixing two
(**`Color.mix`**); all of these hold the channels between 0 and 255 and the opacity between 0 and 1. -/

namespace Stylesheet

/-- A color: red, green and blue, the opacity, and the spelling it was read from. -/
structure Color where
  red : Int
  green : Int
  blue : Int
  alpha : Float
  spelling : Option String
  deriving Repr

namespace Color

/-- Colors are equal when all their parts are, the spelling among them. -/
instance : BEq Color :=
  ⟨fun c d => c.red == d.red && c.green == d.green && c.blue == d.blue && c.alpha == d.alpha &&
    c.spelling == d.spelling⟩

/-! ## Channels -/

/-- A channel from a double: rounded, and held between 0 and 255. -/
def channel (x : Float) : Int :=
  Binary64.toInteger (Binary64.clamp 0.0 255.0 (Binary64.roundNearest x))

/-- The color with these channels and this opacity, each brought into its range. -/
def ofChannels (red green blue alpha : Float) : Color :=
  ⟨channel red, channel green, channel blue, Binary64.clamp 0.0 1.0 alpha, none⟩

/-- Apply a function to the three channels. -/
def mapChannels (c : Color) (f : Float → Float) : Color :=
  ofChannels (f (Float.ofInt c.red)) (f (Float.ofInt c.green)) (f (Float.ofInt c.blue)) c.alpha

/-- Combine the channels of two colors one by one; the opacity is that of the first. -/
def zipChannels (c d : Color) (f : Float → Float → Float) : Color :=
  ofChannels (f (Float.ofInt c.red) (Float.ofInt d.red))
    (f (Float.ofInt c.green) (Float.ofInt d.green))
    (f (Float.ofInt c.blue) (Float.ofInt d.blue)) c.alpha

/-! ## Hexadecimal spelling -/

/-- The value of a hexadecimal digit. -/
def hexDigit? (c : Char) : Option Nat :=
  if c.isDigit then some (c.toNat - '0'.toNat)
  else if 'a' ≤ c && c ≤ 'f' then some (c.toNat - 'a'.toNat + 10)
  else if 'A' ≤ c && c ≤ 'F' then some (c.toNat - 'A'.toNat + 10)
  else none

/-- The color spelled by three or six hexadecimal digits behind any number of `#`. Three digits stand
for six, each of them twice. -/
def ofHex? (text : String) : Option Color :=
  match (text.toList.dropWhile (· == '#')).mapM hexDigit? with
  | some [r, g, b] => some ⟨r * 17, g * 17, b * 17, 1.0, some text⟩
  | some [r, r', g, g', b, b'] =>
    some ⟨r * 16 + r', g * 16 + g', b * 16 + b', 1.0, some text⟩
  | _ => none

/-! ## Hue, saturation and lightness -/

/-- The hue in degrees, and the saturation and lightness in percent. -/
def toHsl (c : Color) : Float × Float × Float :=
  let r := Float.ofInt c.red / 255.0
  let g := Float.ofInt c.green / 255.0
  let b := Float.ofInt c.blue / 255.0
  let most := Binary64.larger (Binary64.larger r g) b
  let least := Binary64.smaller (Binary64.smaller r g) b
  let delta := most - least
  let l := (most + least) / 2.0
  if delta == 0.0 then (0.0, 0.0, l * 100.0)
  else
    let s := if l > 0.5 then delta / (2.0 - most - least) else delta / (most + least)
    -- the hue counts sixths of the circle from red, by the strongest channel
    let h :=
      if most == r then (g - b) / delta + (if g < b then 6.0 else 0.0)
      else if most == g then (b - r) / delta + 2.0
      else (r - g) / delta + 4.0
    (h * 60.0, s * 100.0, l * 100.0)

/-- The strength of one channel whose hue is `h` turns away from red. -/
def hueStrength (m1 m2 h : Float) : Float :=
  let h := if h < 0.0 then h + 1.0 else if h > 1.0 then h - 1.0 else h
  if h * 6.0 < 1.0 then m1 + (m2 - m1) * h * 6.0
  else if h * 2.0 < 1.0 then m2
  else if h * 3.0 < 2.0 then m1 + (m2 - m1) * (2.0 / 3.0 - h) * 6.0
  else m1

/-- The color of a hue in degrees, taken round the circle, and of a saturation and a lightness in
percent, held to their ranges. -/
def ofHsl (hue saturation lightness alpha : Float) : Color :=
  let h := Binary64.remainder (Binary64.remainder hue 360.0 + 360.0) 360.0 / 360.0
  let s := Binary64.clamp 0.0 100.0 saturation / 100.0
  let l := Binary64.clamp 0.0 100.0 lightness / 100.0
  if s == 0.0 then
    -- without saturation the hue does not matter
    let grey := l * 255.0
    ofChannels grey grey grey alpha
  else
    let m2 := if l ≤ 0.5 then l * (s + 1.0) else l + s - l * s
    let m1 := l * 2.0 - m2
    ofChannels (hueStrength m1 m2 (h + 1.0 / 3.0) * 255.0) (hueStrength m1 m2 h * 255.0)
      (hueStrength m1 m2 (h - 1.0 / 3.0) * 255.0) alpha

/-- Turn the hue and shift saturation and lightness. -/
def adjustHsl (c : Color) (hue saturation lightness : Float) : Color :=
  let (h, s, l) := c.toHsl
  ofHsl (h + hue) (s + saturation) (l + lightness) c.alpha

/-! ## Mixing -/

/-- Mix two colors; `weight` is the share of the first, between 0 and 1, and a more opaque color
counts for more. -/
def mix (c d : Color) (weight : Float) : Color :=
  let w := weight * 2.0 - 1.0
  let a := c.alpha - d.alpha
  let combined := if w * a == -1.0 then w else (w + a) / (1.0 + w * a)   -- the quotient would be 0 / 0
  let w1 := (combined + 1.0) / 2.0
  let w2 := 1.0 - w1
  ofChannels (Float.ofInt c.red * w1 + Float.ofInt d.red * w2)
    (Float.ofInt c.green * w1 + Float.ofInt d.green * w2)
    (Float.ofInt c.blue * w1 + Float.ofInt d.blue * w2)
    (c.alpha * weight + d.alpha * (1.0 - weight))

/-! ## Text -/

/-- A channel in at least two hexadecimal digits; a negative one as the 32 bits that hold it. -/
def channelText (n : Int) : String :=
  let digits := Nat.toDigits 16 (n % 0x100000000).toNat
  String.ofList (List.replicate (2 - digits.length) '0' ++ digits)

/-- A color as text: as it was spelled, else with its opacity when it is not opaque, else in
hexadecimal digits. -/
def text (c : Color) : String :=
  match c.spelling with
  | some spelled => spelled
  | none =>
    if c.alpha < 1.0 then
      "rgba(" ++ toString c.red ++ ", " ++ toString c.green ++ ", " ++ toString c.blue ++ ", " ++
        Number.scalarText c.alpha ++ ")"
    else "#" ++ channelText c.red ++ channelText c.green ++ channelText c.blue

end Color

end Stylesheet

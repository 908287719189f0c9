import Stylesheet.Proofs.Arithmetic.Inheritance
import Stylesheet.Proofs.Numeric.Truncation

/-! # Colors in their range

A color is **in gamut** when its channels are between 0 and 255 and its opacity is between 0 and 1
(**`Color.InGamut`**). However far away the numbers are from which a color is made, its channels and its opacity are
held to these ranges on the way (`Color.inGamut_ofChannels`), so that every way to make a color gives one in gamut
(`Color.Made.inGamut`).

Of a value all colors are looked at, also those in its lists and among the parameters of its calls
(**`Value.colors`**). Arithmetic and built-in functions keep them in gamut (`Value.inGamut_evaluate`,
**`Builtin.call_inGamut`**) with a single exception: `rgba` of a color and a number takes the number as it is for the
opacity. -/

namespace Stylesheet

/-! ## Single colors -/

namespace Color

/-- The channels are between 0 and 255, and the opacity is between 0 and 1. -/
structure InGamut (c : Color) : Prop where
  red : 0 ≤ c.red ∧ c.red ≤ 255
  green : 0 ≤ c.green ∧ c.green ≤ 255
  blue : 0 ≤ c.blue ∧ c.blue ≤ 255
  alpha : 0.0 ≤ c.alpha ∧ c.alpha ≤ 1.0

/-- A channel is held to its range, whatever double it comes from. -/
theorem channel_bounds (x : Float) : 0 ≤ channel x ∧ channel x ≤ 255 := by
  have low : Binary64.toInteger 0.0 = 0 := by decide +kernel
  have high : Binary64.toInteger 255.0 = 255 := by decide +kernel
  obtain ⟨above, below⟩ :=
    Binary64.clamp_bounds (show (0.0 : Float) ≤ 255.0 by decide +kernel) (Binary64.roundNearest x)
  rw [← low, ← high]
  exact ⟨Binary64.toInteger_le above, Binary64.toInteger_le below⟩

/-- A color made from any channels and any opacity is in gamut. -/
theorem inGamut_ofChannels (red green blue alpha : Float) : (ofChannels red green blue alpha).InGamut where
  red := channel_bounds red
  green := channel_bounds green
  blue := channel_bounds blue
  alpha := Binary64.clamp_bounds (by decide +kernel) alpha

/-- Colors from hue, saturation and lightness are in gamut, whatever the numbers. -/
theorem inGamut_ofHsl (hue saturation lightness alpha : Float) :
    (ofHsl hue saturation lightness alpha).InGamut := by
  obtain ⟨red, green, blue, channels⟩ := exists_ofHsl_eq hue saturation lightness alpha
  rw [channels]
  exact inGamut_ofChannels ..

/-- Colors that are shifted in hue, saturation or lightness are in gamut. -/
theorem inGamut_adjustHsl (c : Color) (hue saturation lightness : Float) :
    (c.adjustHsl hue saturation lightness).InGamut := inGamut_ofHsl ..

/-- Colors that are mixed are in gamut. -/
theorem inGamut_mix (c d : Color) (weight : Float) : (c.mix d weight).InGamut := inGamut_ofChannels ..

/-- A hexadecimal digit stands for at most fifteen. -/
theorem hexDigit?_le {c : Char} {n : Nat} (h : hexDigit? c = some n) : n ≤ 15 := by
  simp only [hexDigit?, Char.isDigit, Char.le_def, Bool.and_eq_true, decide_eq_true_eq, UInt32.le_iff_toNat_le] at h
  change (if 48 ≤ c.toNat ∧ c.toNat ≤ 57 then some (c.toNat - 48)
    else if 97 ≤ c.toNat ∧ c.toNat ≤ 102 then some (c.toNat - 97 + 10)
    else if 65 ≤ c.toNat ∧ c.toNat ≤ 70 then some (c.toNat - 65 + 10) else none) = some n at h
  split at h
  · cases h; omega
  · split at h
    · cases h; omega
    · split at h
      · cases h; omega
      · cases h

/-- Hexadecimal digits stand for at most fifteen each. -/
theorem le_of_mem_hexDigits {cs : List Char} {ns : List Nat} (h : cs.mapM hexDigit? = some ns) :
    ∀ n ∈ ns, n ≤ 15 := by
  induction cs generalizing ns with
  | nil =>
    cases h
    simp
  | cons c cs ih =>
    simp only [List.mapM_cons, Option.bind_eq_bind, Option.bind_eq_some_iff, Option.pure_def, Option.some.injEq] at h
    obtain ⟨n, digit, ns, others, rfl⟩ := h
    exact List.forall_mem_cons.2 ⟨hexDigit?_le digit, ih others⟩

/-- A color in hexadecimal digits is in gamut. -/
theorem inGamut_ofHex? {text : String} {c : Color} (h : ofHex? text = some c) : c.InGamut := by
  have opacity : (0.0 : Float) ≤ 1.0 ∧ (1.0 : Float) ≤ 1.0 := by decide +kernel
  unfold ofHex? at h
  split at h
  next r g b digits =>
    cases h
    have bounds := le_of_mem_hexDigits digits
    simp only [List.forall_mem_cons, List.not_mem_nil, false_implies, implies_true, and_true] at bounds
    exact ⟨by dsimp only; omega, by dsimp only; omega, by dsimp only; omega, opacity⟩
  next r r' g g' b b' digits =>
    cases h
    have bounds := le_of_mem_hexDigits digits
    simp only [List.forall_mem_cons, List.not_mem_nil, false_implies, implies_true, and_true] at bounds
    exact ⟨by dsimp only; omega, by dsimp only; omega, by dsimp only; omega, opacity⟩
  next => cases h

end Color

/-! ## Colors of a value -/

mutual

/-- The colors of a term, at any depth. -/
def Term.colors : Term → List Color
  | .color c => [c]
  | .call _ parameters => Value.colors parameters
  | .list items => Value.colors items
  | _ => []

/-- The colors of a chain, at any depth. -/
def Value.colors : List Term → List Color
  | [] => []
  | t :: ts => t.colors ++ Value.colors ts

end

/-- All colors of a term are in gamut. -/
def Term.InGamut (t : Term) : Prop := ∀ c ∈ t.colors, c.InGamut

/-- All colors of a value are in gamut. -/
def Value.InGamut (v : Value) : Prop := ∀ c ∈ colors v, c.InGamut

/-- A value is in gamut if its terms are. -/
theorem Value.inGamut_iff {v : Value} : InGamut v ↔ ∀ t ∈ v, t.InGamut := by
  induction v with
  | nil => simp [InGamut, colors]
  | cons t ts ih =>
    rw [List.forall_mem_cons, ← ih]
    simp [InGamut, Term.InGamut, colors, or_imp, forall_and]

/-- A color is in gamut as a term if it is as a color. -/
theorem Term.inGamut_color {c : Color} : (Term.color c).InGamut ↔ c.InGamut := by simp [InGamut, colors]

/-- Only colors could be out of gamut, and those made from channels are in it. -/
theorem Term.inherited_inGamut : Inherited InGamut where
  number _ := nofun
  ident _ := nofun
  str _ := nofun
  comma := nofun
  color _ _ _ _ := inGamut_color.2 (Color.inGamut_ofChannels ..)
  list := by
    intro items
    rw [← Value.inGamut_iff, InGamut, colors, Value.InGamut]

/-- Arithmetic on a value in gamut gives one in gamut. -/
theorem Value.inGamut_evaluate {v w : Value} (h : v.InGamut) (evaluated : v.evaluate = .ok w) : w.InGamut :=
  inGamut_iff.2 (Term.inherited_inGamut.evaluate (fun t ht _ => inGamut_iff.1 h t ht) w evaluated)

/-! ## Making colors -/

/-- The ways to make a color: from hexadecimal digits, from channels, from hue, saturation and lightness, by a change
of these, by mixing, and by arithmetic. -/
inductive Color.Made : Color → Prop
  | hex {text : String} {c : Color} (spelled : ofHex? text = some c) : Made c
  | channels (red green blue alpha : Float) : Made (.ofChannels red green blue alpha)
  | hsl (hue saturation lightness alpha : Float) : Made (.ofHsl hue saturation lightness alpha)
  | adjusted (c : Color) (hue saturation lightness : Float) : Made (c.adjustHsl hue saturation lightness)
  | mixed (c d : Color) (weight : Float) : Made (c.mix d weight)
  | computed {o : Operator} {a b : Term} {c : Color} (combined : Term.combine o a b = .ok (.color c)) : Made c

/-- Each of them gives a color in gamut. -/
theorem Color.Made.inGamut {c : Color} (made : c.Made) : c.InGamut := by
  cases made with
  | hex spelled => exact inGamut_ofHex? spelled
  | channels red green blue alpha => exact inGamut_ofChannels ..
  | hsl hue saturation lightness alpha => exact inGamut_ofHsl ..
  | adjusted c hue saturation lightness => exact inGamut_adjustHsl ..
  | mixed c d weight => exact inGamut_mix ..
  | computed combined => exact Term.inGamut_color.1 (Term.inherited_inGamut.formed.combine _ _ _ _ combined)

/-! ## Built-in functions -/

namespace Builtin

/-- The call that sets the opacity of a color: `rgba` of two arguments. -/
def SetsOpacity (b : Builtin) (args : List Value) : Prop := b = rgba ∧ args.length = 2

variable {b : Builtin} {args : List Value} {v : Value}

/-- A color that is asked for is the argument in that place. -/
theorem color_eq_ok {i : Nat} {c : Color} (found : b.color args i = .ok c) : args[i]? = some [.color c] := by
  unfold color at found
  split at found
  next c' single =>
    cases found
    obtain ⟨a, argument, single⟩ := Option.bind_eq_some_iff.1 single
    unfold Value.color? at single
    split at single
    · cases single
      exact argument
    · cases single
  next => cases found

/-- The channels stay as they are, and the opacity is the number that is given. -/
theorem call_setsOpacity (sets : b.SetsOpacity args) (called : b.call args = .ok v) :
    ∃ (c : Color) (alpha : Float), args[0]? = some [.color c] ∧ b.fraction args 1 = .ok alpha ∧
      v = [.color { c with alpha := alpha, spelling := none }] := by
  obtain ⟨rfl, two⟩ := sets
  simp only [call, if_pos two] at called
  obtain ⟨c, first, called⟩ := Outcome.bind_eq_ok_iff.1 called
  obtain ⟨alpha, second, called⟩ := Outcome.bind_eq_ok_iff.1 called
  cases called
  exact ⟨c, alpha, color_eq_ok first, second, rfl⟩

/-- **Colors stay in their range.** Every way to make a color gives one in gamut. For arguments in gamut a built-in
function gives a value in gamut, unless it sets the opacity of a color: then the opacity is the number that is
given, and the color is in gamut exactly when this number is. -/
theorem call_inGamut (given : ∀ a ∈ args, a.InGamut) (called : b.call args = .ok v) :
    (∀ c : Color, c.Made → c.InGamut) ∧
    (¬b.SetsOpacity args → v.InGamut) ∧
    (b.SetsOpacity args → ∃ (c : Color) (alpha : Float), args[0]? = some [.color c] ∧
      b.fraction args 1 = .ok alpha ∧ v = [.color { c with alpha := alpha, spelling := none }] ∧
      (v.InGamut ↔ 0.0 ≤ alpha ∧ alpha ≤ 1.0)) := by
  refine ⟨fun c made => made.inGamut, fun other => ?_, fun sets => ?_⟩
  · have kept := Term.inherited_inGamut.call b (fun a ha => Value.inGamut_iff.1 (given a ha))
      (fun rgba two => absurd ⟨rgba, two⟩ other)
    exact Value.inGamut_iff.2 (kept v called)
  · obtain ⟨c, alpha, first, read, rfl⟩ := call_setsOpacity sets called
    have before : c.InGamut := by
      have argument := given _ (List.mem_of_getElem? first)
      exact Term.inGamut_color.1 (Value.inGamut_iff.1 argument _ (.head _))
    refine ⟨c, alpha, first, read, rfl, ?_⟩
    rw [Value.inGamut_iff, List.forall_mem_singleton, Term.inGamut_color]
    exact ⟨fun h => h.alpha, fun h => ⟨before.red, before.green, before.blue, h⟩⟩

/-- Red, made lighter. -/
theorem call_inGamut_lighten :
    ∃ c : Color, lighten.call [[.color ⟨255, 0, 0, 1.0, none⟩], [.number ⟨20.0, some "%"⟩]] = .ok [.color c] ∧
      c.red = 255 ∧ c.green = 102 ∧ c.blue = 102 ∧ Value.InGamut [.color c] := by
  have red : Color.InGamut ⟨255, 0, 0, 1.0, none⟩ := ⟨by decide, by decide, by decide, by decide +kernel⟩
  have called : lighten.call [[.color ⟨255, 0, 0, 1.0, none⟩], [.number ⟨20.0, some "%"⟩]] =
      .ok [.color (Color.adjustHsl ⟨255, 0, 0, 1.0, none⟩ 0.0 0.0 20.0)] := rfl
  refine ⟨_, called, by decide +kernel, by decide +kernel, by decide +kernel,
    (call_inGamut ?_ called).2.1 (by simp [SetsOpacity])⟩
  simp only [List.forall_mem_cons, List.not_mem_nil, false_implies, implies_true, and_true, Value.inGamut_iff]
  exact ⟨Term.inGamut_color.2 red, Term.inherited_inGamut.number _⟩

/-- An opacity of 2 is taken as it is. Among four arguments it is held to 1. -/
theorem rgba_keeps_opacity :
    Color.InGamut ⟨0, 0, 0, 1.0, none⟩ ∧
      rgba.call [[.color ⟨0, 0, 0, 1.0, none⟩], [.number ⟨2.0, none⟩]] = .ok [.color ⟨0, 0, 0, 2.0, none⟩] ∧
      ¬Color.InGamut ⟨0, 0, 0, 2.0, none⟩ ∧
      ∃ c : Color, c.alpha ≤ 1.0 ∧
        rgba.call [[.number ⟨0.0, none⟩], [.number ⟨0.0, none⟩], [.number ⟨0.0, none⟩], [.number ⟨2.0, none⟩]] =
          .ok [.color c] := by
  refine ⟨⟨by decide, by decide, by decide, by decide +kernel⟩, rfl, fun h => ?_, _, ?_, rfl⟩
  · exact absurd h.alpha.2 (by decide +kernel)
  · exact (Color.inGamut_ofChannels _ _ _ _).alpha.2

end Builtin

end Stylesheet

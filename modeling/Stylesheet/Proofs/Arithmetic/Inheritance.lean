import Stylesheet.Builtin
import Stylesheet.Proofs.Arithmetic.Steps
import Stylesheet.Proofs.Outcome

/-! # What values inherit

Arithmetic and built-in functions put results together from terms that they are given and from new ones: numbers,
words, strings, commas, and colors made from channels. A property of terms that holds of all these new ones, and of a
list when it holds of what stands in it, is one of all that is **formed** (**`Term.Formed`**): it passes from operands
to what a chain is reduced to (`Term.Formed.reduce`). If it holds of a list exactly then, it is **inherited**
(**`Term.Inherited`**). It then passes from the terms of a value to those of its items and back
(`Term.Inherited.items`, `Value.forall_ofItems`), from operands to results (`Term.Inherited.evaluate`), and from
arguments to what a built-in function gives (`Term.Inherited.call`); only `rgba` of a color and an opacity makes a
color in another way. -/

namespace Stylesheet

/-- Colors from hue, saturation and lightness are made from channels. -/
theorem Color.exists_ofHsl_eq (hue saturation lightness alpha : Float) :
    ∃ red green blue, ofHsl hue saturation lightness alpha = ofChannels red green blue alpha := by
  unfold ofHsl
  dsimp only
  split <;> exact ⟨_, _, _, rfl⟩

/-- A property that new terms have, and a list if what stands in it has it. -/
structure Term.Formed (P : Term → Prop) : Prop where
  number (n : Number) : P (.number n)
  ident (text : String) : P (.ident text)
  str (text : String) : P (.str text)
  comma : P (.op .comma)
  color (red green blue alpha : Float) : P (.color (.ofChannels red green blue alpha))
  list {items : List Term} : (∀ t ∈ items, P t) → P (.list items)

/-- A property that new terms have, and a list when what stands in it has it. -/
structure Term.Inherited (P : Term → Prop) : Prop where
  number (n : Number) : P (.number n)
  ident (text : String) : P (.ident text)
  str (text : String) : P (.str text)
  comma : P (.op .comma)
  color (red green blue alpha : Float) : P (.color (.ofChannels red green blue alpha))
  list {items : List Term} : P (.list items) ↔ ∀ t ∈ items, P t

variable {P : Term → Prop}

/-- What is inherited by all terms is inherited by those that arithmetic forms. -/
theorem Term.Inherited.formed (h : Inherited P) : Formed P := { h with list := h.list.2 }

/-- Items put together have no new terms but commas. -/
theorem Value.forall_ofItems (comma : P (.op .comma)) (byComma : Bool) {vs : List Value}
    (h : ∀ v ∈ vs, ∀ t ∈ v, P t) : ∀ t ∈ ofItems byComma vs, P t := by
  induction vs with
  | nil => simp
  | cons v vs ih =>
    cases vs with
    | nil => exact h v (.head _)
    | cons w vs =>
      rw [ofItems, List.forall_mem_append, List.forall_mem_append]
      · refine ⟨⟨h v (.head _), ?_⟩, ih fun v hv => h v (.tail _ hv)⟩
        cases byComma with
        | true => exact List.forall_mem_singleton.2 comma
        | false => simp
      · exact List.cons_ne_nil w vs

/-! ## Arithmetic -/

namespace Term.Formed

variable (h : Formed P)
include h

/-- A term with its sign changed is a number or a word. -/
theorem negate (t : Term) : P t.negate := by
  unfold Term.negate
  split
  · exact h.number _
  · exact h.ident _

/-- What operators give is a number, a color or a text. -/
theorem combine (o : Operator) (a b : Term) : Gives P (Term.combine o a b) := by
  have joined (a b : Term) : Gives P (concatenate o a b) := by
    unfold concatenate
    split
    · split
      · exact .ok (h.str _)
      · exact .ok (h.ident _)
      · exact .ok (h.ident _)
    · exact .ok (h.ident _)
    · exact .ok (h.ident _)
    · exact .error _
  unfold Term.combine
  split
  · exact Gives.map (P := fun _ => True) (fun _ _ => trivial) fun _ _ => h.number _
  · split
    · exact .ok (h.color ..)
    · exact joined _ _
  · exact .ok (h.color ..)
  · exact joined _ _

/-- The terms around the two that are combined stay. -/
theorem combineValues (o : Operator) {first second : Value} (hf : ∀ t ∈ first, P t) (hs : ∀ t ∈ second, P t) :
    Gives (∀ t ∈ ·, P t) (Reduction.combineValues o first second) := by
  unfold Reduction.combineValues
  split
  · refine (h.combine o _ _).map fun t ht => List.forall_mem_append.2 ⟨?_, ?_⟩
    · exact fun t ht => hf t ((List.dropLast_sublist first).subset ht)
    · exact List.forall_mem_cons.2 ⟨ht, fun t ht => hs t (.tail _ ht)⟩
  · exact .error _

/-- Carrying out operators that wait. -/
theorem unwind (goes : Operator → Bool) (operators : List Operator) {values : List Value}
    (hv : ∀ v ∈ values, ∀ t ∈ v, P t) :
    Gives (fun w => ∀ v ∈ w.2, ∀ t ∈ v, P t) (Reduction.unwind goes operators values) := by
  have top (o : Operator) {values : List Value} (hv : ∀ v ∈ values, ∀ t ∈ v, P t) :
      Gives (fun values => ∀ v ∈ values, ∀ t ∈ v, P t) (Reduction.applyTop o values) := by
    unfold Reduction.applyTop
    split
    · rw [List.forall_mem_cons, List.forall_mem_cons] at hv
      exact (h.combineValues o hv.2.1 hv.1).map fun v result => List.forall_mem_cons.2 ⟨result, hv.2.2⟩
    · exact .error _
  induction operators generalizing values with
  | nil => exact .ok hv
  | cons o operators ih =>
    cases going : goes o with
    | true =>
      rw [Reduction.unwind_cons going]
      exact (top o hv).bind fun values applied => ih applied
    | false =>
      rw [Reduction.unwind_cons_of_stays going]
      exact .ok hv

/-- A group that has become an operand. -/
theorem leaveGroup (g : Group) {values : List Value} (hv : ∀ v ∈ values, ∀ t ∈ v, P t) :
    ∀ v ∈ Reduction.leaveGroup g values, ∀ t ∈ v, P t := by
  unfold Reduction.leaveGroup
  split
  · exact hv
  cases values with
  | nil => exact hv
  | cons top values =>
    rw [List.forall_mem_cons] at hv
    -- the last operand becomes a list, gets a sign, and joins what is in front of it, each of them if need be
    have listed : ∀ t ∈ (if g.hasComma then [.list top] else top), P t := by
      split
      · exact List.forall_mem_singleton.2 (h.list hv.1)
      · exact hv.1
    have signed : ∀ t ∈ (if g.negated then (if g.hasComma then [.list top] else top).map Term.negate
        else if g.hasComma then [.list top] else top), P t := by
      split
      · exact List.forall_mem_map.2 fun t _ => h.negate t
      · exact listed
    cases values with
    | nil => exact List.forall_mem_cons.2 ⟨signed, hv.2⟩
    | cons previous values =>
      unfold Reduction.placeGroup
      dsimp only
      split
      · rw [List.forall_mem_cons] at hv
        exact List.forall_mem_cons.2 ⟨List.forall_mem_append.2 ⟨hv.2.1, signed⟩, hv.2.2⟩
      · exact List.forall_mem_cons.2 ⟨signed, hv.2⟩

/-- An operand that is put down. -/
theorem pushOperand {r : Reduction} {t : Term} (hv : ∀ v ∈ r.values, ∀ t ∈ v, P t) (ht : P t) :
    ∀ v ∈ (r.pushOperand t).values, ∀ t ∈ v, P t := by
  have single : ∀ u ∈ [t], P u := List.forall_mem_singleton.2 ht
  unfold Reduction.pushOperand
  dsimp only
  split
  · rename_i previous values eq
    rw [eq] at hv
    split
    · rw [List.forall_mem_cons] at hv
      refine List.forall_mem_cons.2 ⟨?_, hv.2⟩
      refine List.forall_mem_append.2 ⟨List.forall_mem_append.2 ⟨hv.1, ?_⟩, single⟩
      split
      · exact List.forall_mem_singleton.2 h.comma
      · simp
    · exact List.forall_mem_cons.2 ⟨single, eq ▸ hv⟩
  · exact List.forall_mem_singleton.2 single

/-- A step passes the property on to all operands. -/
theorem step {r : Reduction} {t : Term} (hv : ∀ v ∈ r.values, ∀ t ∈ v, P t)
    (ht : t.isOperator = false → P t) : Gives (fun r => ∀ v ∈ r.values, ∀ t ∈ v, P t) (r.step t) := by
  intro r' step
  cases Reduction.step_eq_ok.1 step with
  | operand plain =>
    refine h.pushOperand (r := { r with negates := false }) hv ?_
    split
    · exact h.negate t
    · exact ht plain
  | sign o wanted => exact hv
  | operator binary unsigned run => exact h.unwind _ _ hv _ run
  | opens => exact hv
  | closes innermost run => exact h.leaveGroup _ (h.unwind _ _ hv _ run)
  | comma run => exact h.unwind _ _ hv _ run

/-- So does a run. -/
theorem foldlM {v : Value} (hv : ∀ t ∈ v, t.isOperator = false → P t) {r : Reduction}
    (values : ∀ v ∈ r.values, ∀ t ∈ v, P t) :
    Gives (fun r => ∀ v ∈ r.values, ∀ t ∈ v, P t) (v.foldlM Reduction.step r) :=
  .foldlM values fun _ t ht values => h.step values (hv t ht)

/-- What is reduced has what its operands have. -/
theorem reduce {v : Value} (hv : ∀ t ∈ v, t.isOperator = false → P t) : Gives (∀ t ∈ ·, P t) v.reduce := by
  have start : ∀ v ∈ ({} : Reduction).values, ∀ t ∈ v, P t := by simp
  refine (h.foldlM hv start).bind fun r values => ?_
  rw [Reduction.finish_eq]
  refine (h.unwind _ _ values).bind fun w values => ?_
  split
  · refine .ok fun t ht => ?_
    obtain ⟨u, hu, ht⟩ := List.mem_flatten.1 ht
    exact values u (List.mem_reverse.1 hu) t ht
  · exact .error _

end Term.Formed

namespace Term.Inherited

/-! ## Items -/

/-- The items of a chain consist of its terms. -/
theorem flatItems {v : Value} (hv : ∀ t ∈ v, P t) : ∀ i ∈ Value.flatItems v, ∀ t ∈ i, P t := by
  unfold Value.flatItems
  split
  · exact fun a ha t ht => hv t (Value.mem_of_mem_arguments ha ht)
  · intro i hi
    obtain ⟨t, ht, rfl⟩ := List.mem_map.1 hi
    exact List.forall_mem_singleton.2 (hv t ht)

mutual

/-- The items of a term have what the term has. -/
theorem termItems (h : Inherited P) : ∀ {t : Term}, P t → ∀ i ∈ Value.termItems t, ∀ u ∈ i, P u
  | .list items, ht => by
    rw [Value.termItems]
    exact listItems h (h.list.1 ht)
  | .number _, ht | .color _, ht | .ident _, ht | .str _, ht | .op _, ht | .var _, ht | .call _ _, ht =>
    flatItems (List.forall_mem_singleton.2 ht)

/-- The items of a list have what its terms have. -/
theorem listItems (h : Inherited P) : ∀ {v : List Term}, (∀ t ∈ v, P t) → ∀ i ∈ Value.listItems v, ∀ t ∈ i, P t
  | [], hv => flatItems hv
  | [t], hv => by
    rw [Value.listItems]
    exact termItems h (hv t (.head _))
  | _ :: _ :: _, hv => by
    rw [Value.listItems]
    · exact flatItems hv
    · nofun

end

variable (h : Inherited P)
include h

/-- The items of a value have what its terms have. -/
theorem items {v : Value} (hv : ∀ t ∈ v, P t) : ∀ i ∈ v.items, ∀ t ∈ i, P t := h.listItems hv

/-- A list of items has what they have, and its separators have it too. -/
theorem ofItems (byComma : Bool) {vs : List Value} (hvs : ∀ v ∈ vs, ∀ t ∈ v, P t) :
    ∀ t ∈ Value.ofItems byComma vs, P t := Value.forall_ofItems h.comma byComma hvs

/-- What is evaluated argument by argument has what its operands have. -/
theorem evaluate {v : Value} (hv : ∀ t ∈ v, t.isOperator = false → P t) : Gives (∀ t ∈ ·, P t) v.evaluate :=
  (Gives.mapM fun _ ha => h.formed.reduce fun t ht => hv t (Value.mem_of_mem_arguments ha ht)).bind
    fun _ results => .ok (h.ofItems _ results)

/-! ## Built-in functions -/

variable {args : List Value}

omit h in
/-- An argument, or the empty value for one that is missing. -/
theorem argument (given : ∀ a ∈ args, ∀ t ∈ a, P t) (i : Nat) : ∀ t ∈ args[i]?.getD [], P t := by
  cases ha : args[i]? with
  | none => simp
  | some a => exact given a (List.mem_of_getElem? ha)

omit h in
/-- An item that is found in a list has what the list has. -/
theorem itemAt? {items : List Value} (given : ∀ i ∈ items, ∀ t ∈ i, P t) {position : Int} {item : Value}
    (found : Builtin.itemAt? items position = some item) : ∀ t ∈ item, P t := by
  unfold Builtin.itemAt? at found
  split at found
  · exact given item (List.mem_of_getElem? found)
  · split at found
    · exact given item (List.mem_of_getElem? found)
    · cases found

/-- Colors from hue, saturation and lightness are such terms. -/
theorem ofHsl (hue saturation lightness alpha : Float) : P (.color (.ofHsl hue saturation lightness alpha)) := by
  obtain ⟨red, green, blue, channels⟩ := Color.exists_ofHsl_eq hue saturation lightness alpha
  rw [channels]
  exact h.color ..

/-- What a built-in function gives has what its arguments have, unless it sets the opacity of a color. -/
theorem call (b : Builtin) (given : ∀ a ∈ args, ∀ t ∈ a, P t)
    (opacity : b = .rgba → args.length = 2 → ∀ (c : Color) (alpha : Float),
      P (.color { c with alpha := alpha, spelling := none })) :
    Gives (∀ t ∈ ·, P t) (b.call args) := by
  have first : ∀ t ∈ args.headD [], P t := by
    rw [List.headD_eq_head?_getD, List.head?_eq_getElem?]
    exact argument given 0
  have items := h.items first
  have single {t : Term} (ht : P t) : Gives (∀ t ∈ ·, P t) (.ok [t] : Except Error Value) :=
    .ok (List.forall_mem_singleton.2 ht)
  unfold Builtin.call
  -- what a function gives is a new term, or made of its arguments
  cases b with
  | red | green | blue | alpha | opacity => exact .any_bind fun _ => .any_bind fun _ => single (h.number _)
  | round | ceil | floor | abs => exact .any_bind fun _ => .any_bind fun _ => single (h.number _)
  | unit => exact .any_bind fun _ => .any_bind fun _ => single (h.str _)
  | unitless => exact .any_bind fun _ => .any_bind fun _ => single (h.ident _)
  | comparable => exact .any_bind fun _ => .any_bind fun _ => .any_bind fun _ => single (h.ident _)
  | lighten | darken | saturate | desaturate | adjustHue =>
    exact .any_bind fun _ => .any_bind fun _ => .any_bind fun _ => single (h.ofHsl ..)
  | rgb => exact .any_bind fun _ => .any_bind fun _ => .any_bind fun _ => .any_bind fun _ => single (h.color ..)
  | rgba =>
    dsimp only
    split
    next two => exact .any_bind fun c => .any_bind fun alpha => single (opacity rfl two c alpha)
    next =>
      exact .any_bind fun _ => .any_bind fun _ => .any_bind fun _ => .any_bind fun _ => .any_bind fun _ =>
        single (h.color ..)
  | mix =>
    refine .any_bind fun _ => ?_
    dsimp only
    split <;> exact .any_bind fun _ => .any_bind fun _ => .any_bind fun _ => single (h.color ..)
  | percentage =>
    refine .any_bind fun _ => .any_bind fun n => ?_
    split
    · exact .error _
    · exact single (h.number _)
  | min | max =>
    dsimp only
    unfold Builtin.chooseNumber
    split
    · exact .error _
    · exact .any_bind fun _ => .any_bind fun _ => single (h.number _)
  | typeOf | unquote | not => exact .any_bind fun _ => single (h.ident _)
  | quote => exact .any_bind fun _ => single (h.str _)
  | strLength | length => exact .any_bind fun _ => single (h.number _)
  | toUpperCase | toLowerCase =>
    refine .any_bind fun _ => ?_
    unfold Builtin.recase
    dsimp only
    split
    · exact single (h.str _)
    · exact single (h.ident _)
  | nth =>
    refine .any_bind fun _ => .any_bind fun position => ?_
    split
    · exact .ok (itemAt? items ‹_›)
    · exact .error _
  | join =>
    refine .any_bind fun _ => .any_bind fun separator => .ok (h.ofItems _ ?_)
    exact List.forall_mem_append.2 ⟨items, h.items (argument given 1)⟩
  | append =>
    refine .any_bind fun _ => .any_bind fun separator => .ok (h.ofItems _ ?_)
    exact List.forall_mem_append.2 ⟨items, List.forall_mem_singleton.2 (argument given 1)⟩
  | index =>
    refine .any_bind fun _ => ?_
    split
    · exact single (h.number _)
    · exact single (h.ident _)
  | ite =>
    refine .any_bind fun _ => .ok ?_
    split <;> exact argument given _

end Term.Inherited

end Stylesheet

import Stylesheet.Builtin
import Stylesheet.Proofs.Value.Splitting

/-! # Building lists

A list has no form of its own: it is a chain, whose items are the parts between its commas or, if it has none, its
terms. When items are joined to a longer list, they are therefore items of it only if the separator keeps them
apart (**`Value.StayApart`**): commas do so when every item but the last closes the parentheses that it opens,
and spaces when every item is a single term. Nothing less is enough (`items_ofItems_iff`).

So `join` and `append` give the items that were there before and those that are added exactly under this condition
(**`Builtin.items_join_append`**). -/

namespace Stylesheet

namespace Value

variable {v : Value} {vs : List Value} {comma : Bool}

/-! ## Items -/

/-- A value with a comma has the parts between its commas as items. -/
theorem items_of_hasComma (h : hasComma v = true) : v.items = v.arguments := by
  match v with
  | [] => cases h
  | [t] =>
    obtain rfl : t = .op .comma := by simpa [hasComma, Term.isComma_iff] using h
    rfl
  | s :: t :: ts =>
    show listItems (s :: t :: ts) = _
    rw [listItems, flatItems, if_pos h]
    simp

/-- A value of several terms without a comma has its terms as items. -/
theorem items_of_not_hasComma (h : hasComma v = false) (several : 1 < v.length) : v.items = v.map ([·]) := by
  match v, several with
  | s :: t :: ts, _ =>
    show listItems (s :: t :: ts) = _
    rw [listItems, flatItems, if_neg (by simp [h])]
    simp

/-- The items of a chain that is no list term are arguments. -/
theorem isArgument_of_mem_flatItems : ∀ i ∈ flatItems v, i.IsArgument := by
  unfold flatItems
  split
  next => exact fun i => isArgument_of_mem_arguments
  next none =>
    intro i hi
    obtain ⟨t, ht, rfl⟩ := List.mem_map.1 hi
    refine isArgument_singleton.2 (Bool.eq_false_iff.2 fun comma => none ?_)
    exact List.any_eq_true.2 ⟨t, ht, comma⟩

mutual

/-- The items of a term are arguments. -/
theorem isArgument_of_mem_termItems : ∀ (t : Term), ∀ i ∈ termItems t, i.IsArgument
  | .list items => by
    rw [termItems]
    exact isArgument_of_mem_listItems items
  | .number _ | .color _ | .ident _ | .str _ | .op _ | .var _ | .call _ _ => isArgument_of_mem_flatItems

/-- The items of a value are arguments. -/
theorem isArgument_of_mem_listItems : ∀ (v : List Term), ∀ i ∈ listItems v, i.IsArgument
  | [] => isArgument_of_mem_flatItems
  | [t] => by
    rw [listItems]
    exact isArgument_of_mem_termItems t
  | _ :: _ :: _ => by
    rw [listItems]
    · exact isArgument_of_mem_flatItems
    · simp

end

/-- Every item of a list is an argument. -/
theorem isArgument_of_mem_items : ∀ i ∈ v.items, i.IsArgument := isArgument_of_mem_listItems v

/-! ## Joined items -/

/-- Several items joined by commas have a comma. -/
theorem hasComma_ofItems (several : 1 < vs.length) : hasComma (ofItems true vs) = true := by
  match vs, several with
  | v :: w :: vs, _ => simp [ofItems, hasComma]

/-- Several arguments have several terms. -/
theorem one_lt_length_flatten (several : 1 < vs.length) (args : ∀ v ∈ vs, v.IsArgument) : 1 < vs.flatten.length := by
  match vs, several with
  | v :: w :: vs, _ =>
    have first := List.length_pos_iff.2 (args v (by simp)).1
    have second := List.length_pos_iff.2 (args w (by simp)).1
    simp only [List.flatten_cons, List.length_append]
    omega

/-- Items of one term each are the terms themselves. -/
theorem map_flatten_of_singles (singles : ∀ v ∈ vs, v.length = 1) : vs.flatten.map ([·]) = vs := by
  induction vs with
  | nil => rfl
  | cons v vs ih =>
    obtain ⟨t, rfl⟩ := List.length_eq_one_iff.1 (singles v (List.mem_cons_self ..))
    rw [List.flatten_cons, List.singleton_append, List.map_cons, ih fun w hw => singles w (List.mem_cons_of_mem _ hw)]

/-- Several values with nothing but spaces between them are the items exactly if they are single terms and no commas. -/
theorem items_flatten_iff (several : 1 < vs.length) :
    items vs.flatten = vs ↔ (∀ v ∈ vs, v.IsArgument) ∧ ∀ v ∈ vs, v.length = 1 := by
  constructor
  · intro same
    have args : ∀ v ∈ vs, v.IsArgument := by
      rw [← same]
      exact isArgument_of_mem_items
    refine ⟨args, ?_⟩
    have long := one_lt_length_flatten several args
    cases hc : hasComma vs.flatten with
    | true =>
      -- the parts between commas are all there is, so there is no comma outside of parentheses
      rw [items_of_hasComma hc] at same
      have nonempty : vs.flatten ≠ [] := List.ne_nil_of_length_pos (Nat.lt_trans Nat.zero_lt_one long)
      have single := arguments_eq_of_flatten (congrArg List.flatten same) nonempty
      rw [← same, single] at several
      simp at several
    | false =>
      rw [items_of_not_hasComma hc long] at same
      rw [← same]
      intro v hv
      obtain ⟨t, -, rfl⟩ := List.mem_map.1 hv
      rfl
  · rintro ⟨args, singles⟩
    have terms := map_flatten_of_singles singles
    have noComma : hasComma vs.flatten = false := by
      refine List.any_eq_false.2 fun t ht => ?_
      have single : [t] ∈ vs := by
        rw [← terms]
        exact List.mem_map_of_mem ht
      rw [isArgument_singleton.1 (args [t] single)]
      exact Bool.false_ne_true
    exact (items_of_not_hasComma noComma (one_lt_length_flatten several args)).trans terms

/-- Several values are the items of the list to which they are joined exactly if each of them is an argument, and all
but the last close what they open, or each of them is a single term if there are only spaces between them. -/
theorem items_ofItems_of_several (several : 1 < vs.length) : (ofItems comma vs).items = vs ↔
    (∀ v ∈ vs, v.IsArgument) ∧ if comma then ∀ v ∈ vs.dropLast, v.opens = 0 else ∀ v ∈ vs, v.length = 1 := by
  cases comma with
  | true =>
    rw [items_of_hasComma (hasComma_ofItems several)]
    refine ⟨fun same => ?_, fun ⟨args, closed⟩ => arguments_ofItems args closed⟩
    rw [← same]
    exact ⟨fun _ => isArgument_of_mem_arguments, fun _ => opens_of_mem_dropLast_arguments⟩
  | false =>
    rw [ofItems_false, if_neg Bool.false_ne_true]
    exact items_flatten_iff several

/-- What it takes for values to stay apart as the items of one list: each of them is an argument, and all but the
last close what they open, or each of them is a single term if there are only spaces between them. A value that is
all of a list has to be its own only item. -/
def StayApart (comma : Bool) (vs : List Value) : Prop :=
  if vs.length ≤ 1 then ∀ v ∈ vs, v.items = [v]
  else (∀ v ∈ vs, v.IsArgument) ∧ if comma then ∀ v ∈ vs.dropLast, v.opens = 0 else ∀ v ∈ vs, v.length = 1

/-- Values are the items of the list to which they are joined exactly if they stay apart. -/
theorem items_ofItems_iff : (ofItems comma vs).items = vs ↔ StayApart comma vs := by
  unfold StayApart
  split
  next few =>
    match vs, few with
    | [], _ => simp
    | [v], _ => simp
  next several => exact items_ofItems_of_several (Nat.lt_of_not_le several)

end Value

/-! ## Functions -/

namespace Builtin

/-- What a separator argument asks for: nothing if it is left out or leaves it to the lists. -/
inductive SeparatorArgument : List Value → Option Separator → Prop
  | missing : SeparatorArgument [] none
  | auto {v : Value} (text : v.unquoted = "auto") : SeparatorArgument [v] none
  | comma {v : Value} (text : v.unquoted = "comma") : SeparatorArgument [v] (some .comma)
  | space {v : Value} (text : v.unquoted = "space") : SeparatorArgument [v] (some .space)

variable {a b x : Value} {rest : List Value} {asked : Option Separator}

/-- The separator that is asked for is the one that is taken, and the arguments are not too many. -/
theorem SeparatorArgument.separator_eq (h : SeparatorArgument rest asked) (f : Builtin) (a b : Value) :
    f.separator (a :: b :: rest) 2 = .ok asked ∧ f.requireCount 2 3 (a :: b :: rest) = .ok () := by
  cases h with
  | missing => exact ⟨rfl, rfl⟩
  | auto text | comma text | space text =>
    refine ⟨?_, rfl⟩
    unfold separator
    simp only [List.getElem?_cons_succ, List.getElem?_cons_zero, text]
    simp [Separator.ofName?]

/-- Anything else is no separator, and a function that asks for one turns the call down. -/
theorem separator_eq_fault {s : Value} (unknown : ∀ asked, ¬SeparatorArgument [s] asked) (f : Builtin) (a b : Value) :
    f.separator [a, b, s] 2 = f.fault (.unknownSeparator s.unquoted) := by
  have auto : s.unquoted ≠ "auto" := fun text => unknown _ (.auto text)
  have comma : s.unquoted ≠ "comma" := fun text => unknown _ (.comma text)
  have space : s.unquoted ≠ "space" := fun text => unknown _ (.space text)
  have none : Separator.ofName? s.unquoted = none := by
    unfold Separator.ofName?
    split <;> first | contradiction | rfl
  simp only [separator, List.getElem?_cons_succ, List.getElem?_cons_zero, if_neg auto, none]

/-- `join` puts the items of the second list behind those of the first, with the separator asked for between them. -/
theorem call_join (h : SeparatorArgument rest asked) (a b : Value) : join.call (a :: b :: rest) =
    .ok (.ofItems (Separator.combinesByComma asked a b) (a.items ++ b.items)) := by
  obtain ⟨separator, count⟩ := h.separator_eq join a b
  rw [call, count, separator]
  rfl

/-- `append` puts the value behind the items of the list, with the separator asked for between them. -/
theorem call_append (h : SeparatorArgument rest asked) (a x : Value) : append.call (a :: x :: rest) =
    .ok (.ofItems (Separator.combinesByComma asked a a) (a.items ++ [x])) := by
  obtain ⟨separator, count⟩ := h.separator_eq append a x
  rw [call, count, separator]
  rfl

/-- The length of a list is the number of its items. -/
theorem call_length (v : Value) : length.call [v] = .ok [.ofFloat (Float.ofNat v.items.length)] := rfl

/-- The item at a position is given, and there is a fault when there is none. -/
theorem call_nth {v argument : Value} {k : Int} (integer : argument.integer? = some k) : nth.call [v, argument] =
    match itemAt? v.items k with
    | some item => .ok item
    | none => nth.fault (.outOfBounds k v.text) := by
  have position : nth.integer [v, argument] 1 = .ok k := by
    simp only [Builtin.integer, List.getElem?_cons_succ, List.getElem?_cons_zero, Option.bind_some, integer]
  have count : nth.requireCount 2 2 [v, argument] = .ok () := rfl
  rw [call, count, position]
  rfl

/-- The item at the position `-1` is the last one. -/
theorem call_nth_last {v : Value} {is : List Value} (items : v.items = is ++ [x]) :
    nth.call [v, [.ofFloat (-1)]] = .ok x := by
  have integer : Value.integer? [.ofFloat (-1)] = some (-1) := by decide +kernel
  have item : itemAt? v.items (-1) = some x := by
    rw [items, itemAt?]
    simp
  rw [call_nth integer, item]

/-- **List building.** Whichever separator is asked for, the items of `join` are those of both lists, and the items of
`append` are those of the list and the value behind them, exactly if these values stay apart. Where an argument asks
for no separator that there is, both turn the call down. -/
theorem items_join_append (known : SeparatorArgument rest asked) (a b x : Value) :
    (∃ v, join.call (a :: b :: rest) = .ok v ∧
      (v.items = a.items ++ b.items ↔
        Value.StayApart (Separator.combinesByComma asked a b) (a.items ++ b.items)) ∧
      (Value.StayApart (Separator.combinesByComma asked a b) (a.items ++ b.items) →
        length.call [v] = .ok [.ofFloat (Float.ofNat (a.items.length + b.items.length))])) ∧
    (∃ v, append.call (a :: x :: rest) = .ok v ∧
      (v.items = a.items ++ [x] ↔ Value.StayApart (Separator.combinesByComma asked a a) (a.items ++ [x])) ∧
      (Value.StayApart (Separator.combinesByComma asked a a) (a.items ++ [x]) →
        length.call [v] = .ok [.ofFloat (Float.ofNat (a.items.length + 1))] ∧
        nth.call [v, [.ofFloat (-1)]] = .ok x)) ∧
    ∀ s, (∀ asked, ¬SeparatorArgument [s] asked) →
      join.call [a, b, s] = join.fault (.unknownSeparator s.unquoted) ∧
        append.call [a, x, s] = append.fault (.unknownSeparator s.unquoted) := by
  refine ⟨⟨_, call_join known a b, Value.items_ofItems_iff, fun apart => ?_⟩,
    ⟨_, call_append known a x, Value.items_ofItems_iff, fun apart => ?_⟩, fun s unknown => ⟨?_, ?_⟩⟩
  · rw [call_length, Value.items_ofItems_iff.2 apart, List.length_append]
  · have items := Value.items_ofItems_iff.2 apart
    rw [call_length, call_nth_last items, items, List.length_append, List.length_singleton]
    exact ⟨rfl, rfl⟩
  · rw [call, show join.requireCount 2 3 [a, b, s] = .ok () from rfl, separator_eq_fault unknown]
    rfl
  · rw [call, show append.requireCount 2 3 [a, x, s] = .ok () from rfl, separator_eq_fault unknown]
    rfl

/-- A list that counts as one term, and a group that is added to it; a slash separates nothing. -/
theorem items_join_append_group :
    SeparatorArgument [[.str "auto"]] none ∧
    (∃ v, join.call [[.list [.ident "a", .ident "b", .op .comma, .ident "c"]], [.ident "p", .ident "q"],
        [.str "auto"]] = .ok v ∧
      v.items = [[.ident "a", .ident "b"], [.ident "c"], [.ident "p"], [.ident "q"]] ∧
      length.call [v] = .ok [.ofFloat (Float.ofNat 4)]) ∧
    (∃ v, append.call [[.list [.ident "a", .ident "b", .op .comma, .ident "c"]],
        [.op .leftParen, .ident "d", .op .comma, .ident "e", .op .rightParen], [.str "auto"]] = .ok v ∧
      nth.call [v, [.ofFloat (-1)]] =
        .ok [.op .leftParen, .ident "d", .op .comma, .ident "e", .op .rightParen]) ∧
    (∀ asked, ¬SeparatorArgument [[.str "slash"]] asked) ∧
    join.call [[.list [.ident "a", .ident "b", .op .comma, .ident "c"]], [.ident "p", .ident "q"], [.str "slash"]] =
      join.fault (.unknownSeparator "slash") := by
  have known : SeparatorArgument [[.str "auto"]] none := .auto rfl
  have unknown : ∀ asked, ¬SeparatorArgument [[.str "slash"]] asked := by
    rintro _ (_ | text | text | text) <;> exact absurd text (by decide)
  obtain ⟨⟨v, joined, items, length⟩, ⟨w, appended, -, last⟩, others⟩ := items_join_append known
    [.list [.ident "a", .ident "b", .op .comma, .ident "c"]] [.ident "p", .ident "q"]
    [.op .leftParen, .ident "d", .op .comma, .ident "e", .op .rightParen]
  have joins : Value.StayApart true [[.ident "a", .ident "b"], [.ident "c"], [.ident "p"], [.ident "q"]] :=
    (if_neg (by decide)).mpr ⟨by decide, by decide⟩
  have appends : Value.StayApart true [[.ident "a", .ident "b"], [.ident "c"],
      [.op .leftParen, .ident "d", .op .comma, .ident "e", .op .rightParen]] :=
    (if_neg (by decide)).mpr ⟨by decide, by decide⟩
  exact ⟨known, ⟨v, joined, items.2 joins, length joins⟩, ⟨w, appended, (last appends).2⟩, unknown,
    (others [.str "slash"] unknown).1⟩

/-- An item of two terms falls apart between spaces. -/
theorem not_items_join_append : ¬∀ (a b x : Value) (rest : List Value) (asked : Option Separator),
    SeparatorArgument rest asked → a ≠ [] → b ≠ [] → x ≠ [] →
      (∃ v, join.call (a :: b :: rest) = .ok v ∧ v.items = a.items ++ b.items) ∧
      ∃ v, append.call (a :: x :: rest) = .ok v ∧ v.items = a.items ++ [x] := by
  intro all
  obtain ⟨-, v, called, items⟩ := all [.ident "a"] [.ident "a"] [.ident "b", .ident "c"] [] none .missing
    (List.cons_ne_nil _ _) (List.cons_ne_nil _ _) (List.cons_ne_nil _ _)
  rw [call_append .missing] at called
  cases called
  cases congrArg List.length items

end Builtin

end Stylesheet

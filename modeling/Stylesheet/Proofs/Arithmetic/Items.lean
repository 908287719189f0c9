import Mathlib.Data.List.Forall2
import Stylesheet.Proofs.Arithmetic.Room

/-! # The items of a list in parentheses

The reduction of `( v₁ , … , vₙ )` goes through the terms of each item as the item's own reduction does, with
a group open around it and the earlier items, each with its comma, in front of the lowest operand
(**`Reduction.within`**). The two stay together from term to term (`Reduction.Moves.within`) as soon as an
operand of the item has been put down. So the items keep the values they have on their own
(`evaluate_parenthesized`), provided that each item behind a comma begins with an operand, after its signs,
and that none but the last leaves a sign behind.

Both provisos are needed. A comma is put down together with the next operand, so a group that opens behind a
comma counts the items in front of it as waiting below, and takes itself for empty when it closes: its sign
and its commas get lost (`negated_item_loses_sign`). A sign that no operand takes negates the next item. -/

namespace Stylesheet

namespace Reduction

/-! ## An item inside of a list -/

/-- Put terms in front of the lowest operand. -/
def atBottom (pre : Value) : List Value → List Value
  | [] => []
  | [v] => [pre ++ v]
  | v :: w :: values => v :: atBottom pre (w :: values)

/-- A reduction inside of a group, with the terms `pre` in front of its lowest operand. -/
def within (pre : Value) (g : Group) (r : Reduction) : Reduction :=
  { r with
    values := atBottom pre r.values
    operators := r.operators ++ [.leftParen]
    groups := r.groups ++ [g]
    depth := r.depth + 1 }

/-- An operand waits below all groups. -/
def Grounded (r : Reduction) : Prop := r.values ≠ [] ∧ ∀ g ∈ r.groups, 0 < g.below

section

variable {goes : Operator → Bool} {operators operators' : List Operator} {values values' : List Value}
  {pre : Value}

/-- Nothing at the bottom is nothing. -/
@[simp] theorem atBottom_nil (pre : Value) : atBottom pre [] = [] := rfl

/-- Nothing in front changes nothing. -/
@[simp] theorem nil_atBottom (values : List Value) : atBottom [] values = values := by
  induction values with
  | nil => rfl
  | cons v values ih => cases values <;> simp_all [atBottom]

/-- What is put in front of the value at the bottom leaves as many values. -/
@[simp] theorem length_atBottom (pre : Value) (values : List Value) :
    (atBottom pre values).length = values.length := by
  induction values with
  | nil => rfl
  | cons v values ih => cases values <;> simp_all [atBottom]

/-- An operator takes the last term of its first operand, whatever stands in front. -/
theorem combineValues_append {o : Operator} {first second v : Value} (pre : Value)
    (h : combineValues o first second = .ok v) :
    combineValues o (pre ++ first) second = .ok (pre ++ v) := by
  match hl : first.getLast?, second, h with
  | some a, b :: rest, h =>
    have nonempty : first ≠ [] := by rintro rfl; cases hl
    have last : (pre ++ first).getLast? = some a := by rw [List.getLast?_append, hl]; rfl
    simp only [combineValues, hl] at h
    simp only [combineValues, last, List.dropLast_append_of_ne_nil nonempty]
    cases hc : Term.combine o a b <;> rw [hc] at h <;> cases h
    simp [Except.map]
  | none, _, h => simp [combineValues, hl] at h
  | some a, [], h => simp [combineValues] at h

/-- An operator leaves alone what stands in front of the lowest operand. -/
theorem applyTop_atBottom {o : Operator} (pre : Value) (h : applyTop o values = .ok values') :
    applyTop o (atBottom pre values) = .ok (atBottom pre values') := by
  match values, h with
  | second :: first :: values, h =>
    rw [applyTop] at h
    cases hc : combineValues o first second <;> rw [hc] at h <;> cases h
    cases values with
    | nil => simp [atBottom, applyTop, combineValues_append pre hc, Except.map]
    | cons third values => simp [atBottom, applyTop, hc, Except.map]

/-- Inside of a group the same operators are carried out. -/
theorem unwind_within (stays : goes .leftParen = false)
    (run : unwind goes operators values = .ok (operators', values')) :
    unwind goes (operators ++ [.leftParen]) (atBottom pre values) =
      .ok (operators' ++ [.leftParen], atBottom pre values') := by
  induction operators generalizing values with
  | nil =>
    cases run
    exact unwind_cons_of_stays stays [] _
  | cons o operators ih =>
    rw [List.cons_append]
    cases going : goes o with
    | true =>
      rw [unwind_cons going] at run ⊢
      obtain ⟨applied, hv, run⟩ := Outcome.bind_eq_ok_iff.1 run
      rw [applyTop_atBottom pre hv]
      exact ih run
    | false =>
      rw [unwind_cons_of_stays going] at run ⊢
      cases run
      rfl

/-- Carrying out operators leaves an operand where there was one. -/
theorem unwind_ne_nil (h : values ≠ []) (run : unwind goes operators values = .ok (operators', values')) :
    values' ≠ [] := by
  induction operators generalizing values with
  | nil => cases run; exact h
  | cons o operators ih =>
    cases going : goes o with
    | true =>
      rw [unwind_cons going] at run
      obtain ⟨applied, hv, run⟩ := Outcome.bind_eq_ok_iff.1 run
      refine ih ?_ run
      -- two operands become one
      rintro rfl
      match values, hv with
      | second :: first :: values, hv =>
        rw [applyTop] at hv
        cases hc : combineValues o first second <;> rw [hc] at hv <;> cases hv
    | false =>
      rw [unwind_cons_of_stays going] at run
      cases run
      exact h

end

/-! ### Moves -/

section

variable {r r' : Reduction} {t : Term} {pre : Value}

/-- A group that closes leaves an operand where there was one. -/
theorem placeGroup_ne_nil (g : Group) {values : List Value} (h : values ≠ []) : placeGroup g values ≠ [] := by
  match values, h with
  | [top], _ => exact List.cons_ne_nil _ _
  | top :: previous :: values, _ =>
    cases hg : g.joinsPrevious <;> simp [placeGroup, hg]

/-- Put down inside of a list, an operand joins what it joins on its own. -/
theorem pushOperand_within (h : pre = [] ∨ r.values ≠ []) (g : Group) (t : Term) :
    (r.pushOperand t).within pre g = (r.within pre g).pushOperand t := by
  obtain ⟨values, operators, groups, depth, wanted, negates, pendingComma⟩ := r
  obtain rfl | h := h
  · simp [pushOperand, Reduction.within]
  · obtain ⟨v, values, rfl⟩ := List.exists_cons_of_ne_nil h
    cases values <;> cases wanted <;> cases pendingComma <;>
      simp [pushOperand, Reduction.within, atBottom]

/-- Inside of a list a group opens in the same way. -/
theorem openGroup_within (pre : Value) (g : Group) (r : Reduction) :
    r.openGroup.within pre g = (r.within pre g).openGroup := by
  simp [openGroup, Reduction.within]

/-- Inside of a list a comma is noted in the same group. -/
theorem noteComma_within (h : r.groups ≠ []) (pre : Value) (g : Group) :
    r.noteComma.within pre g = (r.within pre g).noteComma := by
  obtain ⟨values, operators, groups, depth, wanted, negates, pendingComma⟩ := r
  match groups, h with
  | g' :: gs, _ => rfl

/-- Inside of a list a group that closes leaves the same operand. -/
theorem leaveGroup_atBottom {g : Group} (h : pre = [] ∨ 0 < g.below) (values : List Value) :
    leaveGroup g (atBottom pre values) = atBottom pre (leaveGroup g values) := by
  obtain rfl | h := h
  · simp
  · match values with
    | [] => simp [leaveGroup]
    | [v] => simp [leaveGroup, atBottom, Nat.succ_le_of_lt h]
    | top :: v :: values =>
      rw [leaveGroup, leaveGroup, length_atBottom]
      split
      · rfl
      · cases values <;> cases hg : g.joinsPrevious <;> simp [placeGroup, atBottom, hg]

/-- An operand that waits stays below what comes. -/
theorem Grounded.move (h : r.Grounded) (m : r.Moves t r') : r'.Grounded := by
  obtain ⟨nonempty, below⟩ := h
  cases m with
  | operand plain =>
    refine ⟨?_, below⟩
    unfold pushOperand
    split
    · split <;> exact List.cons_ne_nil _ _
    · exact List.cons_ne_nil _ _
  | sign o wanted => exact ⟨nonempty, below⟩
  | operator binary unsigned run => exact ⟨unwind_ne_nil nonempty run, below⟩
  | opens =>
    refine ⟨nonempty, fun g hg => ?_⟩
    obtain rfl | hg := List.mem_cons.1 hg
    · exact List.length_pos_iff.2 nonempty
    · exact below g hg
  | @closes _ values g gs innermost run =>
    refine ⟨?_, fun g' hg => below g' (innermost ▸ List.mem_cons_of_mem _ hg)⟩
    have left := unwind_ne_nil nonempty run
    rw [leaveGroup]
    split
    · exact left
    · exact placeGroup_ne_nil g left
  | comma run =>
    refine ⟨unwind_ne_nil nonempty run, fun g hg => ?_⟩
    rw [noteComma] at hg
    cases hgs : r.groups with
    | nil => simp [hgs] at hg
    | cons g' gs =>
      simp only [hgs, List.mem_cons] at hg below
      obtain rfl | hg := hg
      · exact below g' (.inl rfl)
      · exact below g (.inr hg)

/-- **Inside of a list** a term does to an item what it does on its own, once an operand has been put down
or when nothing is in front. -/
theorem Moves.within (m : r.Moves t r') (sound : r.Sound) (inner : t = .op .comma → r.groups ≠ [])
    (grounded : pre = [] ∨ r.Grounded) (g : Group) : (r.within pre g).Moves t (r'.within pre g) := by
  cases m with
  | operand plain =>
    rw [pushOperand_within]
    · exact .operand plain
    · exact grounded.imp_right (·.1)
  | sign o wanted => exact .sign o wanted
  | operator binary unsigned run => exact .operator binary unsigned (unwind_within rfl run)
  | opens =>
    rw [openGroup_within]
    exact .opens
  | @closes operators values g' gs innermost run =>
    have enough : pre = [] ∨ 0 < g'.below := grounded.imp_right (·.2 g' (by simp [innermost]))
    obtain ⟨n, -, head⟩ := sound.nested.unwind (by rfl) run
    rw [innermost] at n
    obtain ⟨-, ⟨⟩⟩ | ⟨outer, _, _, rfl, ⟨rfl, rfl⟩, -, -⟩ := n.innermost head
    have opened : (r.within pre g).groups = g' :: (gs ++ [g]) := by simp [Reduction.within, innermost]
    have closed := Moves.closes opened (unwind_within rfl run)
    rw [leaveGroup_atBottom enough] at closed
    -- the depth is counted down on both sides of the one more that is open
    have depth : r.depth + 1 - 1 = r.depth - 1 + 1 := by omega
    simpa [Reduction.within, depth] using closed
  | comma run =>
    rw [noteComma_within]
    · exact .comma (unwind_within rfl run)
    · exact inner rfl

/-- A term that can be followed leaves as many groups open as parentheses. -/
theorem Moves.length_groups (m : r.Moves t r') {e : Nat} (follow : t.depth? r.groups.length = some e) :
    r'.groups.length = e :=
  Option.some.inj (m.nesting?.symm.trans (Term.nesting?_of_depth? follow))

/-- An item that has been begun is gone through inside of a list as on its own. -/
theorem foldlM_within {v : Value} {e : Nat} (sound : r.Sound) (grounded : pre = [] ∨ r.Grounded)
    (follow : v.depth? r.groups.length = some e) (run : v.foldlM step r = .ok r') (g : Group) :
    v.foldlM step (r.within pre g) = .ok (r'.within pre g) ∧ r'.Sound ∧ r'.groups.length = e := by
  induction v generalizing r with
  | nil =>
    cases run
    exact ⟨rfl, sound, Option.some.inj follow⟩
  | cons t v ih =>
    rw [Value.depth?_cons, Option.bind_eq_some_iff] at follow
    obtain ⟨d, ht, hv⟩ := follow
    rw [List.foldlM_cons] at run ⊢
    obtain ⟨r₁, moved, run⟩ := Outcome.bind_eq_ok_iff.1 run
    have m := step_eq_ok.1 moved
    have inner : t = .op .comma → r.groups ≠ [] := by rintro rfl h; simp [h, Term.depth?] at ht
    rw [step_eq_ok.2 (m.within sound inner grounded g)]
    obtain rfl := m.length_groups ht
    exact ih (sound.move m) (grounded.imp_right (·.move m)) hv run

end

end Reduction

/-! ## Signs that are left -/

/-- Whether an operand has to come behind a term, and whether it will be negated. -/
def Term.signState : Bool × Bool → Term → Bool × Bool
  | _, .op .leftParen => (true, false)
  | (_, negates), .op .rightParen => (false, negates)
  | (true, negates), .op .minus => (true, !negates)
  | (_, negates), .op _ => (true, negates)
  | _, _ => (false, false)

namespace Value

/-- Whether a chain ends with a minus that no operand takes. -/
def leavesSign (v : Value) : Bool := (v.foldl Term.signState (true, false)).2

/-- Whether a chain begins with an operand, after its signs. -/
def beginsWithOperand : Value → Bool
  | [] => false
  | .op .plus :: ts | .op .minus :: ts => beginsWithOperand ts
  | t :: _ => !t.isOperator

end Value

namespace Reduction

variable {r r' : Reduction} {t : Term}

/-- The two flags of a reduction follow the terms alone. -/
theorem Moves.signState (m : r.Moves t r') :
    (r'.wanted, r'.negates) = t.signState (r.wanted, r.negates) := by
  cases m with
  | operand plain => cases t <;> first | rfl | cases plain
  | sign o wanted => cases o <;> simp [Arithmetic.Sign.operator, Term.signState, wanted, Arithmetic.negative]
  | @operator o _ _ binary unsigned run =>
    obtain ⟨leftParen, rightParen, comma⟩ := binary
    cases hw : r.wanted with
    | false => cases o <;> first | rfl | contradiction
    | true => cases o <;> first | rfl | contradiction | exact absurd rfl (unsigned hw .minus)
  | opens => rfl
  | closes innermost run => rfl
  | comma run => cases r.wanted <;> rfl

/-- Whether a sign is left can be told from the terms. -/
theorem negates_of_foldlM {v : Value} (run : v.foldlM step r = .ok r') :
    (r'.wanted, r'.negates) = v.foldl Term.signState (r.wanted, r.negates) := by
  induction v generalizing r with
  | nil => cases run; rfl
  | cons t v ih =>
    rw [List.foldlM_cons] at run
    obtain ⟨r₁, moved, run⟩ := Outcome.bind_eq_ok_iff.1 run
    rw [List.foldl_cons, ← (step_eq_ok.1 moved).signState, ih run]

end Reduction

/-! ## Lists -/

/-- A comma stands behind each item but the last. -/
theorem Value.ofItems_comma {items : List Value} (h : items ≠ []) (v : Value) :
    ofItems true (v :: items) = v ++ Term.op .comma :: ofItems true items := by
  cases items with
  | nil => exact absurd rfl h
  | cons w items => simp [ofItems]

/-- The first operand stands behind signs. -/
theorem Value.eq_of_beginsWithOperand {v : Value} (h : v.beginsWithOperand = true) :
    ∃ signs t rest, v = Arithmetic.signTerms signs ++ t :: rest ∧ t.isOperator = false := by
  fun_induction beginsWithOperand v with
  | case1 => cases h
  | case2 ts ih =>
    obtain ⟨signs, t, rest, rfl, plain⟩ := ih h
    exact ⟨.plus :: signs, t, rest, rfl, plain⟩
  | case3 ts ih =>
    obtain ⟨signs, t, rest, rfl, plain⟩ := ih h
    exact ⟨.minus :: signs, t, rest, rfl, plain⟩
  | case4 t ts => exact ⟨[], t, ts, rfl, by simpa using h⟩

namespace Reduction

/-- An item that has been gone through on its own, whose operators leave the value `w`. -/
structure Reads (v w : Value) (r : Reduction) : Prop where
  run : v.foldlM step {} = .ok r
  sound : r.Sound
  closed : r.groups = []
  left : unwind (· != .leftParen) r.operators r.values = .ok ([], [w])

/-- The group around the items of a list, in front of the first comma or behind it. -/
def listGroup (comma : Bool) : Group := ⟨false, false, comma, 0⟩

/-- A list whose items so far are `items`, behind the next comma. -/
def behindComma (items : Value) : Reduction :=
  ⟨[items], [.leftParen], [listGroup true], 1, true, false, true⟩

section

variable {v w : Value} {r : Reduction}

/-- An item that has a value is gone through. -/
theorem exists_reads (balanced : v.Balanced) (reduced : v.reduce = .ok w) (nonempty : w ≠ []) :
    ∃ r, Reads v w r := by
  cases run : v.foldlM step {} with
  | error e => rw [Value.reduce, run] at reduced; cases reduced
  | ok r =>
    obtain ⟨-, sound, closed⟩ := foldlM_within sound_start (.inl rfl) balanced run (listGroup false)
    have closed := List.length_eq_zero_iff.1 closed
    rw [Value.reduce, run] at reduced
    exact ⟨r, run, sound, closed, sound.unwind_of_finish closed nonempty reduced⟩

/-- No sign is left behind an item that leaves none. -/
theorem Reads.negates_eq (h : Reads v w r) : r.negates = v.leavesSign :=
  congrArg Prod.snd (negates_of_foldlM h.run)

/-- A comma behind an item puts its value behind those in front. -/
theorem Reads.step_comma (h : Reads v w r) (settled : v.leavesSign = false) (pre : Value) (comma : Bool) :
    (r.within pre (listGroup comma)).step (.op .comma) = .ok (behindComma (pre ++ w)) := by
  have negates := h.negates_eq.trans settled
  have depth := h.sound.depth
  rw [h.closed] at depth
  rw [Reduction.step_comma, within, unwind_within rfl h.left]
  simp [Except.map, noteComma, atBottom, h.closed, behindComma, listGroup, negates, depth]

/-- A parenthesis behind the last item makes a list of all values. -/
theorem Reads.step_rightParen (h : Reads v w r) (pre : Value) :
    (r.within pre (listGroup true)).step (.op .rightParen) =
      .ok ⟨[[.list (pre ++ w)]], [], [], 0, false, r.negates, false⟩ := by
  have depth := h.sound.depth
  rw [h.closed] at depth
  rw [Reduction.step_rightParen, within, unwind_within rfl h.left]
  simp [bind, Except.bind, closeGroup, placeGroup, listGroup, atBottom, h.closed, depth]

/-- Behind a comma, an item that begins with an operand is gone through as on its own. -/
theorem Reads.foldlM_behindComma (h : Reads v w r) (balanced : v.Balanced)
    (begins : v.beginsWithOperand = true) (items : Value) :
    v.foldlM step (behindComma items) = .ok (r.within (items ++ [.op .comma]) (listGroup true)) := by
  obtain ⟨signs, t, rest, rfl, plain⟩ := Value.eq_of_beginsWithOperand begins
  have begun (r : Reduction) (wanted : r.wanted = true) (negates : r.negates = false) :
      (Arithmetic.signTerms signs ++ t :: rest).foldlM step r = rest.foldlM step
        ({ r with negates := false }.pushOperand (if Arithmetic.negative signs then t.negate else t)) := by
    obtain ⟨values, operators, groups, depth, _, _, pendingComma⟩ := r
    cases wanted; cases negates
    rw [foldlM_signTerms, Bool.false_xor, List.foldlM_cons, step_of_operand plain]
    rfl
  have run := h.run
  rw [begun _ rfl rfl] at run ⊢
  have follow : Value.depth? 0 rest = some 0 := by
    have := balanced
    rwa [Value.Balanced, Value.depth?_append, Arithmetic.balanced_signTerms signs, Option.bind_some,
      Value.depth?_cons, Term.depth?_operand plain, Option.bind_some] at this
  -- from the first operand on, the item has one below everything else
  have sound (t : Term) : Sound (pushOperand {} t) := ⟨.nil, Nat.le_refl 1, rfl⟩
  have grounded (t : Term) : Grounded (pushOperand {} t) := ⟨List.cons_ne_nil _ _, by simp [pushOperand]⟩
  exact (foldlM_within (sound _) (.inr (grounded _)) follow run _).1

end

end Reduction

namespace Arithmetic

/-- The values of the items behind a comma make a list together with those in front. -/
theorem foldlM_items {items values : List Value} (nonempty : items ≠ [])
    (balanced : ∀ v ∈ items, v.Balanced)
    (reduced : List.Forall₂ (fun v w : Value => v.reduce = .ok w ∧ w ≠ []) items values)
    (begins : ∀ v ∈ items, v.beginsWithOperand = true)
    (settled : ∀ v ∈ items.dropLast, v.leavesSign = false) (front : Value) :
    ∃ negates, (Value.ofItems true items ++ [Term.op .rightParen]).foldlM Reduction.step
        (.behindComma front) =
      .ok ⟨[[.list (front ++ Term.op .comma :: Value.ofItems true values)]], [], [], 0, false, negates,
        false⟩ := by
  induction reduced generalizing front with
  | nil => exact absurd rfl nonempty
  | @cons v w items values h reduced ih =>
    obtain ⟨r, reads⟩ := Reduction.exists_reads (balanced v (by simp)) h.1 h.2
    have through := reads.foldlM_behindComma (balanced v (by simp)) (begins v (by simp)) front
    have regroup : front ++ [Term.op .comma] ++ w = front ++ Term.op .comma :: w := by simp
    -- behind the last item the group closes; the others leave no sign for what stands behind their commas
    by_cases last : items = []
    · obtain rfl := last
      cases reduced
      refine ⟨r.negates, ?_⟩
      rw [Value.ofItems_singleton, Reduction.foldlM_append_of_eq_ok through,
        Reduction.foldlM_cons_of_eq_ok (reads.step_rightParen _), regroup]
      rfl
    · have last' : values ≠ [] := by rintro rfl; cases reduced; exact last rfl
      have comma := reads.step_comma (settled v (by simp [List.dropLast_cons_of_ne_nil last]))
        (front ++ [.op .comma]) true
      obtain ⟨negates, behind⟩ := ih last (fun u hu => balanced u (.tail _ hu))
        (fun u hu => begins u (.tail _ hu))
        (fun u hu => settled u (by simp [List.dropLast_cons_of_ne_nil last, hu]))
        (front ++ .op .comma :: w)
      refine ⟨negates, ?_⟩
      rw [Value.ofItems_comma last, Value.ofItems_comma last', List.append_assoc,
        Reduction.foldlM_append_of_eq_ok through, List.cons_append,
        Reduction.foldlM_cons_of_eq_ok comma, regroup, behind]
      simp

/-- Inside of parentheses, the commas between items may be followed. -/
theorem depth?_ofItems {items : List Value} (balanced : ∀ v ∈ items, v.Balanced) :
    (Value.ofItems true items).depth? 1 = some 1 := by
  induction items with
  | nil => rfl
  | cons v items ih =>
    have first := (balanced v (.head _)).depth? 1
    by_cases last : items = []
    · rw [last, Value.ofItems_singleton, first]
    · rw [Value.ofItems_comma last, Value.depth?_append, first, Option.bind_some, Value.depth?_cons]
      exact ih fun u hu => balanced u (.tail _ hu)

/-- **The items of a list in parentheses** are evaluated as on their own, and become the items of one list,
if those behind a comma begin with an operand and those in front of a comma leave no sign. -/
theorem evaluate_parenthesized {items values : List Value} (two : 2 ≤ items.length)
    (balanced : ∀ v ∈ items, v.Balanced)
    (reduced : List.Forall₂ (fun v w : Value => v.reduce = .ok w ∧ w ≠ []) items values)
    (begins : ∀ v ∈ items.tail, v.beginsWithOperand = true)
    (settled : ∀ v ∈ items.dropLast, v.leavesSign = false) :
    Value.evaluate (.op .leftParen :: (Value.ofItems true items ++ [.op .rightParen])) =
      .ok [.list (Value.ofItems true values)] := by
  have whole : Value.Balanced (.op .leftParen :: (Value.ofItems true items ++ [.op .rightParen])) := by
    rw [Value.Balanced, Value.depth?_cons, Term.depth?, Option.bind_some, Value.depth?_append,
      depth?_ofItems balanced]
    rfl
  rw [Value.evaluate_of_balanced whole, Value.reduce]
  match reduced, two with
  | @List.Forall₂.cons _ _ _ v w items values h reduced, two =>
    have some : items ≠ [] := by rintro rfl; simp at two
    have some' : values ≠ [] := by rintro rfl; cases reduced; exact some rfl
    obtain ⟨r, reads⟩ := Reduction.exists_reads (balanced v (.head _)) h.1 h.2
    -- the first item is read in the group that has just been opened, the others behind a comma
    have through := (Reduction.foldlM_within Reduction.sound_start (.inl rfl) (balanced v (.head _)) reads.run
      (Reduction.listGroup false)).1
    have comma := reads.step_comma (settled v (by simp [List.dropLast_cons_of_ne_nil some])) [] false
    obtain ⟨negates, behind⟩ := foldlM_items some (fun u hu => balanced u (.tail _ hu)) reduced begins
      (fun u hu => settled u (by simp [List.dropLast_cons_of_ne_nil some, hu])) w
    have opened : Reduction.step {} (.op .leftParen) =
        .ok (Reduction.within [] (Reduction.listGroup false) {}) := rfl
    rw [Value.ofItems_comma some, Value.ofItems_comma some', Reduction.foldlM_cons_of_eq_ok opened,
      List.append_assoc, Reduction.foldlM_append_of_eq_ok through, List.cons_append,
      Reduction.foldlM_cons_of_eq_ok comma, List.nil_append, behind]
    rfl

/-- The items of `(-(a), b (c, d), -e)`. -/
def threeItems : List Value :=
  [[.op .minus, .op .leftParen, .ident "a", .op .rightParen],
    [.ident "b", .op .leftParen, .ident "c", .op .comma, .ident "d", .op .rightParen],
    [.op .minus, .ident "e"]]

/-- The values of these items, the second one with a list inside. -/
def threeValues : List Value :=
  [[.ident "-a"], [.ident "b", .list [.ident "c", .op .comma, .ident "d"]], [.ident "-e"]]

/-- In front of the first comma a group keeps its sign, and behind an operand a list stays whole. -/
theorem evaluate_parenthesized_three :
    2 ≤ threeItems.length ∧ (∀ v ∈ threeItems, v.Balanced) ∧
      List.Forall₂ (fun v w : Value => v.reduce = .ok w ∧ w ≠ []) threeItems threeValues ∧
      (∀ v ∈ threeItems.tail, v.beginsWithOperand = true) ∧
      (∀ v ∈ threeItems.dropLast, v.leavesSign = false) ∧
      Value.evaluate (.op .leftParen :: (Value.ofItems true threeItems ++ [.op .rightParen])) =
        .ok [.list (Value.ofItems true threeValues)] := by
  have two : 2 ≤ threeItems.length := by decide
  have balanced : ∀ v ∈ threeItems, v.Balanced := by decide
  have reduced : List.Forall₂ (fun v w : Value => v.reduce = .ok w ∧ w ≠ []) threeItems threeValues :=
    .cons ⟨rfl, by simp⟩ (.cons ⟨rfl, by simp⟩ (.cons ⟨rfl, by simp⟩ .nil))
  have begins : ∀ v ∈ threeItems.tail, v.beginsWithOperand = true := by decide
  have settled : ∀ v ∈ threeItems.dropLast, v.leavesSign = false := by decide
  exact ⟨two, balanced, reduced, begins, settled,
    evaluate_parenthesized two balanced reduced begins settled⟩

/-- A sign in front of a group behind a comma gets lost: the items of `(a, -(b))` are `a` and `-b`, but the
list is `a, b`. -/
theorem negated_item_loses_sign :
    ¬ ∀ items values : List Value, 2 ≤ items.length → (∀ v ∈ items, v.Balanced) →
      List.Forall₂ (fun v w : Value => v.reduce = .ok w ∧ w ≠ []) items values →
      Value.evaluate (.op .leftParen :: (Value.ofItems true items ++ [.op .rightParen])) =
        .ok [.list (Value.ofItems true values)] := by
  intro independent
  have reduced : List.Forall₂ (fun v w : Value => v.reduce = .ok w ∧ w ≠ [])
      [[.ident "a"], [.op .minus, .op .leftParen, .ident "b", .op .rightParen]]
      [[.ident "a"], [.ident "-b"]] :=
    .cons ⟨rfl, by simp⟩ (.cons ⟨rfl, by simp⟩ .nil)
  have expected := independent _ _ (by decide) (by decide) reduced
  have actual : Value.evaluate [.op .leftParen, .ident "a", .op .comma, .op .minus, .op .leftParen,
      .ident "b", .op .rightParen, .op .rightParen] =
      .ok [.list [.ident "a", .op .comma, .ident "b"]] := rfl
  have same := expected.symm.trans actual
  simp [Value.ofItems] at same

end Arithmetic

end Stylesheet

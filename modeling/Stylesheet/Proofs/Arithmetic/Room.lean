import Stylesheet.Proofs.Arithmetic.Sound
import Stylesheet.Proofs.Arithmetic.Steps
import Stylesheet.Proofs.Outcome

/-! # Room on the stacks

Along every run the stacks of a reduction stay **sound** (**`Reduction.Sound`**): the open parentheses among
the operators are those of the open groups (**`Reduction.Nested`**), and no more operands wait than the
operators and groups have room for (**`Reduction.capacity`**). So when a balanced chain has been read and its
operators are carried out, a single operand is left (`Reduction.Sound.unwind_of_finish`). -/

namespace Stylesheet

namespace Reduction

/-- How many operands have room: one for each operator that waits and for each group that directly follows
an operand, and one more. -/
def capacity (operators : List Operator) (groups : List Group) : Nat :=
  operators.countP (· != .leftParen) + groups.countP (·.joinsPrevious) + 1

/-- Every operator that waits makes room for one value more. -/
@[simp] theorem capacity_operator {o : Operator} (plain : o ≠ .leftParen) (operators : List Operator)
    (groups : List Group) : capacity (o :: operators) groups = capacity operators groups + 1 := by
  simp only [capacity, List.countP_cons, bne_iff_ne, ne_eq, plain, not_false_iff, if_true]
  omega

/-- A group that joins its values to those in front makes room for one value more. -/
@[simp] theorem capacity_group (operators : List Operator) (g : Group) (groups : List Group) :
    capacity (.leftParen :: operators) (g :: groups) =
      capacity operators groups + if g.joinsPrevious then 1 else 0 := by
  simp only [capacity, List.countP_cons, bne_self_eq_false, Bool.false_eq_true, if_false]
  omega

/-- There always is room for a value. -/
theorem capacity_pos (operators : List Operator) (groups : List Group) : 0 < capacity operators groups :=
  Nat.succ_pos _

/-- The operands that wait, and the one that will be put down next as one of its own. -/
def demand (r : Reduction) : Nat := r.values.length + if r.wanted && !r.pendingComma then 1 else 0

/-- The open parentheses are those of the groups, and below each group there was room for the operands
waiting there. -/
inductive Nested : List Operator → List Group → Prop
  | nil : Nested [] []
  | operator {o : Operator} {operators : List Operator} {groups : List Group} (plain : o ≠ .leftParen)
      (below : Nested operators groups) : Nested (o :: operators) groups
  | group {operators : List Operator} {g : Group} {groups : List Group} (below : Nested operators groups)
      (room : g.below ≤ capacity operators groups) : Nested (.leftParen :: operators) (g :: groups)

/-- What holds of a reduction behind every term. -/
structure Sound (r : Reduction) : Prop where
  nested : Nested r.operators r.groups
  room : r.demand ≤ capacity r.operators r.groups
  depth : r.depth = r.groups.length

section

variable {goes : Operator → Bool} {operators operators' : List Operator} {values values' : List Value}
  {groups : List Group}

/-- An operator takes two operands and leaves one. -/
theorem length_applyTop {o : Operator} (h : applyTop o values = .ok values') :
    values'.length + 1 = values.length := by
  match values, h with
  | second :: first :: values, h =>
    rw [applyTop] at h
    cases hc : combineValues o first second <;> rw [hc] at h <;> cases h
    rfl

/-- An operator that is no parenthesis belongs to no group. -/
theorem Nested.of_operator {o : Operator} (n : Nested (o :: operators) groups) (plain : o ≠ .leftParen) :
    Nested operators groups := by
  cases n with
  | operator _ below => exact below
  | group => contradiction

/-- Carrying out operators keeps the room, and stops in front of one that is to stay. -/
theorem Nested.unwind (n : Nested operators groups) (stays : goes .leftParen = false)
    (run : Reduction.unwind goes operators values = .ok (operators', values')) :
    Nested operators' groups ∧
      values'.length + capacity operators groups = values.length + capacity operators' groups ∧
      ∀ o ∈ operators'.head?, goes o = false := by
  induction operators generalizing values with
  | nil =>
    cases run
    exact ⟨n, rfl, by simp⟩
  | cons o operators ih =>
    cases going : goes o with
    | true =>
      -- two operands become one, and the operator that asked for two is gone
      have plain : o ≠ .leftParen := ne_leftParen_of_goes stays going
      rw [unwind_cons going] at run
      obtain ⟨applied, hv, run⟩ := Outcome.bind_eq_ok_iff.1 run
      obtain ⟨n', room, head⟩ := ih (n.of_operator plain) run
      refine ⟨n', ?_, head⟩
      have := length_applyTop hv
      rw [capacity_operator plain]
      omega
    | false =>
      rw [unwind_cons_of_stays going] at run
      cases run
      exact ⟨n, rfl, by simpa using going⟩

/-- In front of an open parenthesis, or of nothing, the group is one with nothing waiting in it. -/
theorem Nested.innermost (n : Nested operators groups)
    (head : ∀ o ∈ operators.head?, (o != .leftParen) = false) :
    (operators = [] ∧ groups = []) ∨ ∃ outer g gs, operators = .leftParen :: outer ∧ groups = g :: gs ∧
      Nested outer gs ∧ g.below ≤ capacity outer gs := by
  cases n with
  | nil => exact .inl ⟨rfl, rfl⟩
  | operator plain => exact absurd (by simpa using head _ rfl) plain
  | group below room => exact .inr ⟨_, _, _, rfl, rfl, below, room⟩

end

/-! ## Steps -/

/-- A reduction that has not begun is sound. -/
theorem sound_start : Sound {} := ⟨.nil, Nat.le_refl _, rfl⟩

section

variable {r r' : Reduction} {t : Term}

/-- The open groups are counted as the open parentheses are. -/
theorem Moves.nesting? (m : r.Moves t r') : t.nesting? r.groups.length = some r'.groups.length := by
  cases m with
  | operand plain => cases t <;> first | rfl | cases plain
  | sign o wanted => cases o <;> rfl
  | @operator o _ _ binary unsigned run =>
    obtain ⟨leftParen, rightParen, comma⟩ := binary
    cases o <;> first | rfl | contradiction
  | opens => rfl
  | closes innermost run => simp [Term.nesting?, innermost]
  | comma run => cases r.groups <;> simp [Term.nesting?, noteComma]

/-- Putting an operand down takes the place that was kept for it. -/
theorem length_pushOperand (r : Reduction) (t : Term) :
    (r.pushOperand t).values.length ≤ r.demand ∨ (r.pushOperand t).values.length = 1 := by
  unfold pushOperand demand
  cases r.values with
  | nil => exact .inr rfl
  | cons previous values => left; cases r.wanted <;> cases r.pendingComma <;> simp

/-- A group that closes behind an operand joins it, if one waits. -/
theorem length_placeGroup (g : Group) (values : List Value) :
    (placeGroup g values).length + (if g.joinsPrevious then 1 else 0) = values.length ∨
      (placeGroup g values).length ≤ 1 := by
  match values with
  | [] => exact .inr (Nat.zero_le 1)
  | [top] => exact .inr (Nat.le_refl 1)
  | top :: previous :: values =>
    left
    cases h : g.joinsPrevious <;> simp [placeGroup, h]

/-- Every move keeps the stacks sound. -/
theorem Sound.move (h : r.Sound) (m : r.Moves t r') : r'.Sound := by
  obtain ⟨nested, room, depth⟩ := h
  cases m with
  | operand plain =>
    refine ⟨nested, ?_, depth⟩
    have := length_pushOperand { r with negates := false } (if r.negates then t.negate else t)
    have := capacity_pos r.operators r.groups
    simp only [demand, pushOperand, Bool.false_and, Bool.false_eq_true, if_false] at *
    omega
  | sign o wanted => exact ⟨nested, room, depth⟩
  | operator binary unsigned run =>
    obtain ⟨n, kept, -⟩ := nested.unwind (by rfl) run
    refine ⟨.operator binary.1 n, ?_, depth⟩
    rw [capacity_operator binary.1]
    simp only [demand] at room ⊢
    split <;> omega
  | opens =>
    refine ⟨.group nested ?_, ?_, ?_⟩
    · exact Nat.le_trans (Nat.le_add_right _ _) room
    · obtain ⟨values, operators, groups, depth, wanted, negates, pendingComma⟩ := r
      cases wanted <;> cases pendingComma <;> simp [demand, openGroup] at room ⊢ <;> omega
    · simp [openGroup, depth]
  | @closes _ values g gs innermost run =>
    -- what is carried out stops at the parenthesis of the group, which is taken away with it
    obtain ⟨n, kept, head⟩ := nested.unwind (by rfl) run
    rw [innermost] at n kept room
    obtain ⟨-, ⟨⟩⟩ | ⟨outer, _, _, rfl, ⟨rfl, rfl⟩, below, room'⟩ := n.innermost head
    refine ⟨below, ?_, by simp [depth, innermost]⟩
    have pos := capacity_pos outer gs
    have placed := length_placeGroup g values
    simp only [demand, leaveGroup, capacity_group, List.tail_cons, Bool.false_and, Bool.false_eq_true,
      if_false] at kept room ⊢
    split <;> omega
  | comma run =>
    obtain ⟨values, operators, groups, depth, wanted, negates, pendingComma⟩ := r
    obtain ⟨n, kept, head⟩ := nested.unwind (by rfl) run
    have room : values.length ≤ capacity operators groups := Nat.le_trans (Nat.le_add_right _ _) room
    dsimp only at depth kept n
    -- the comma keeps the group open, so its parenthesis stays, or there is none
    obtain ⟨rfl, rfl⟩ | ⟨outer, g, gs, rfl, rfl, below, room'⟩ := n.innermost head
    · refine ⟨n, ?_, depth⟩
      simp only [demand, noteComma, Bool.not_true, Bool.and_false, Bool.false_eq_true, if_false]
      omega
    · refine ⟨.group below room', ?_, depth⟩
      simp only [demand, noteComma, capacity_group, Bool.not_true, Bool.and_false, Bool.false_eq_true,
        if_false] at kept ⊢
      omega

end

/-- Carrying out the operators of a balanced chain leaves at most one operand. -/
theorem Sound.unwind_of_finish {r : Reduction} {v : Value} (h : r.Sound) (closed : r.groups = [])
    (nonempty : v ≠ []) (finished : r.finish = .ok v) :
    unwind (· != .leftParen) r.operators r.values = .ok ([], [v]) := by
  rw [finish_eq] at finished
  cases run : unwind (· != .leftParen) r.operators r.values with
  | error e => rw [run] at finished; cases finished
  | ok w =>
    obtain ⟨operators, values⟩ := w
    obtain ⟨n, kept, head⟩ := h.nested.unwind (by rfl) run
    rw [closed] at n kept
    obtain ⟨rfl, -⟩ | ⟨_, _, _, -, ⟨⟩, -⟩ := n.innermost head
    have room : r.values.length ≤ capacity r.operators [] :=
      closed ▸ Nat.le_trans (Nat.le_add_right _ _) h.room
    have single : values.length ≤ 1 := by
      have : capacity [] [] = 1 := rfl
      omega
    rw [run] at finished
    obtain rfl : values.reverse.flatten = v := Except.ok.inj finished
    match values, single with
    | [], _ => exact absurd rfl nonempty
    | [top], _ => simp

end Reduction

end Stylesheet

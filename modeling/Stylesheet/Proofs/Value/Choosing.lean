import Stylesheet.Builtin
import Stylesheet.Proofs.Numeric.Order
import Stylesheet.Proofs.Outcome

/-! # Choosing among numbers

`min` and `max` go through their arguments with the best number so far in hand, and compare each number with that one
only. Whether two units that differ are noticed depends therefore on the order of the arguments: a number without a
unit can be compared with all others, and while it is in hand the rest is not looked at (`min_hides_units`).

What does not depend on the order is collected in **`Builtin.call_chooses`**. A number that is chosen is the least
(or the greatest) of all, numbers whose units do not differ are always chosen from, a choice only fails when two units
differ, and it does fail if there is no number without a unit. In general it fails exactly when a number is reached
whose unit differs from that of the number chosen from those in front of it. -/

namespace Stylesheet

/-- Both numbers have a unit, and not the same. -/
def Number.Clash (m n : Number) : Prop := ∃ u v, m.unit = some u ∧ n.unit = some v ∧ u ≠ v

/-- Numbers cannot be compared exactly when their units clash. -/
theorem Number.comparable_eq_false_iff {m n : Number} : m.comparable n = false ↔ m.Clash n := by
  unfold comparable Clash
  cases m.unit <;> cases n.unit <;> simp

/-- The units of two of the numbers clash. -/
def Number.Clashing (ns : List Number) : Prop := ∃ m ∈ ns, ∃ n ∈ ns, m.Clash n

namespace Builtin

/-- Numbers as arguments. -/
def numbers (ns : List Number) : List Value := ns.map fun n => [.number n]

/-- One double goes before another, in a strict order. -/
structure IsStrict (better : Float → Float → Bool) : Prop where
  irrefl : ∀ x, ¬better x x = true
  trans : ∀ {x y z}, better x y = true → better y z = true → better x z = true

/-! ## One choice after the other -/

/-- The better of the number in hand and the next one. -/
def prefer (f : Builtin) (better : Float → Float → Bool) (current n : Number) : Except Error Number :=
  if !current.comparable n then .error (.incomparable f.name current.text n.text)
  else .ok (if better n.scalar current.scalar then n else current)

section

variable {f : Builtin} {better : Float → Float → Bool} {current n c : Number} {ns rest : List Number} {e : Error}

/-- The number behind some others is the argument in that place. -/
theorem number_numbers (f : Builtin) (ns : List Number) (n : Number) (rest : List Number) :
    f.number (numbers (ns ++ n :: rest)) ns.length = .ok n := by
  simp [number, numbers, Value.number?]

/-- The numbers are gone through from the first to the last. -/
theorem best_numbers (f : Builtin) (better : Float → Float → Bool) (ns : List Number) (current : Number)
    (rest : List Number) : f.best better (numbers (ns ++ rest)) ns.length current rest.length =
      rest.foldlM (prefer f better) current := by
  induction rest generalizing ns current with
  | nil => rfl
  | cons n rest ih =>
    have next := ih (ns ++ [n])
    rw [List.append_assoc, List.singleton_append, List.length_append, List.length_singleton] at next
    rw [List.length_cons, best, number_numbers, List.foldlM_cons, prefer]
    simp only [bind, Except.bind]
    split
    next => rfl
    next => exact next _

/-- Choosing among numbers is going through them, each against the best one so far. -/
theorem chooseNumber_numbers (f : Builtin) (better : Float → Float → Bool) (n : Number) (rest : List Number) :
    f.chooseNumber (numbers (n :: rest)) better =
      (rest.foldlM (prefer f better) n).map fun n => [.number n] := by
  have first : f.number (numbers (n :: rest)) 0 = .ok n := number_numbers f [] n rest
  have others := best_numbers f better [n] n rest
  rw [List.singleton_append, List.length_singleton] at others
  have count : (numbers (n :: rest)).length - 1 = rest.length := by simp [numbers]
  have some : (numbers (n :: rest)).isEmpty = false := rfl
  unfold chooseNumber
  rw [some, if_neg Bool.false_ne_true, first, count]
  show (f.best better (numbers (n :: rest)) 1 n rest.length >>= fun n => pure [Term.number n]) = _
  rw [others]
  cases rest.foldlM (prefer f better) n <;> rfl

/-! ## A whole run -/

/-- Where a number is compared, it does not clash with the best one so far, and the better one is kept. -/
theorem prefer_eq_ok (h : f.prefer better current n = .ok c) :
    ¬current.Clash n ∧ c = if better n.scalar current.scalar then n else current := by
  unfold prefer at h
  cases comparable : current.comparable n with
  | false => simp [comparable] at h
  | true =>
    have noClash : ¬current.Clash n := by rw [← Number.comparable_eq_false_iff, comparable]; exact Bool.noConfusion
    simp only [comparable, Bool.not_true, Bool.false_eq_true, if_false, Except.ok.injEq] at h
    exact ⟨noClash, h.symm⟩

/-- Where a number clashes with the best one so far, the two are reported. -/
theorem prefer_of_clash (h : current.Clash n) :
    f.prefer better current n = .error (.incomparable f.name current.text n.text) := by
  rw [prefer, Number.comparable_eq_false_iff.2 h]
  rfl

/-- A choice is one of the numbers, and none of them is better. -/
theorem chosen (order : IsStrict better) (run : rest.foldlM (f.prefer better) current = .ok c) :
    c ∈ current :: rest ∧ (c = current ∨ better c.scalar current.scalar = true) ∧
      ∀ n ∈ current :: rest, ¬better n.scalar c.scalar = true := by
  induction rest generalizing current with
  | nil =>
    cases run
    simp [order.irrefl]
  | cons n rest ih =>
    rw [List.foldlM_cons] at run
    obtain ⟨next, step, run⟩ := Outcome.bind_eq_ok_iff.1 run
    obtain ⟨mem, asGood, best⟩ := ih run
    obtain ⟨-, rfl⟩ := prefer_eq_ok step
    by_cases isBetter : better n.scalar current.scalar = true
    · -- what is chosen later is as good as `n`, which is better than the number in hand
      rw [if_pos isBetter] at mem asGood best
      have ahead : better c.scalar current.scalar = true := by
        rcases asGood with rfl | before
        · exact isBetter
        · exact order.trans before isBetter
      refine ⟨List.mem_cons_of_mem _ mem, .inr ahead, fun m hm => ?_⟩
      rcases List.mem_cons.1 hm with rfl | hm
      · exact fun back => order.irrefl _ (order.trans back ahead)
      · exact best m hm
    · rw [if_neg isBetter] at mem asGood best
      refine ⟨by grind, asGood, fun m hm => ?_⟩
      rcases List.mem_cons.1 hm with rfl | hm
      · exact best m (List.mem_cons_self ..)
      · rcases List.mem_cons.1 hm with rfl | hm
        · rcases asGood with rfl | before
          · exact isBetter
          · exact fun back => isBetter (order.trans back before)
        · exact best m (List.mem_cons_of_mem _ hm)

/-- A choice fails exactly at a number whose unit clashes with that of the choice from those in front of it. -/
theorem foldlM_prefer_eq_error_iff : rest.foldlM (f.prefer better) current = .error e ↔
    ∃ front n behind c, rest = front ++ n :: behind ∧ front.foldlM (f.prefer better) current = .ok c ∧ c.Clash n ∧
      e = .incomparable f.name c.text n.text := by
  constructor
  · intro run
    induction rest generalizing current with
    | nil => cases run
    | cons n rest ih =>
      rw [List.foldlM_cons] at run
      cases step : f.prefer better current n with
      | error e' =>
        rw [step] at run
        cases run
        -- choosing between two numbers fails only if they cannot be compared
        have clash : current.Clash n := by
          by_contra noClash
          rw [← Number.comparable_eq_false_iff, Bool.not_eq_false] at noClash
          simp [prefer, noClash] at step
        rw [prefer_of_clash clash] at step
        cases step
        exact ⟨[], n, rest, current, rfl, rfl, clash, rfl⟩
      | ok next =>
        rw [step] at run
        obtain ⟨front, n', behind, c, rfl, through, clash, rfl⟩ := ih run
        refine ⟨n :: front, n', behind, c, rfl, ?_, clash, rfl⟩
        rw [List.foldlM_cons, step]
        exact through
  · rintro ⟨front, n, behind, c, rfl, through, clash, rfl⟩
    rw [List.foldlM_append, through]
    show (n :: behind).foldlM (f.prefer better) c = _
    rw [List.foldlM_cons, prefer_of_clash clash]
    rfl

/-- Numbers that all have a unit can only be chosen from if it is the same one. -/
theorem unit_eq_of_chosen (units : ∀ n ∈ current :: rest, n.unit.isSome = true)
    (run : rest.foldlM (f.prefer better) current = .ok c) : ∀ n ∈ rest, n.unit = current.unit := by
  induction rest generalizing current with
  | nil => simp
  | cons n rest ih =>
    rw [List.foldlM_cons] at run
    obtain ⟨next, step, run⟩ := Outcome.bind_eq_ok_iff.1 run
    obtain ⟨noClash, rfl⟩ := prefer_eq_ok step
    have same : n.unit = current.unit := by
      obtain ⟨u, hu⟩ := Option.isSome_iff_exists.1 (units current (by simp))
      obtain ⟨v, hv⟩ := Option.isSome_iff_exists.1 (units n (by simp))
      rw [hu, hv]
      by_contra differ
      exact noClash ⟨u, v, hu, hv, fun eq => differ (by rw [eq])⟩
    have next : (if better n.scalar current.scalar = true then n else current).unit = current.unit := by
      split
      · exact same
      · rfl
    have rest' := ih (by grind) run
    rw [next] at rest'
    exact List.forall_mem_cons.2 ⟨same, rest'⟩

end

/-! ## Least and greatest numbers -/

/-- The functions that choose, and how what they choose compares with all others. -/
inductive Chooses : Builtin → (Float → Float → Prop) → Prop
  | least : Chooses .min (· ≤ ·)
  | greatest : Chooses .max (· ≥ ·)

variable {f : Builtin} {atMost : Float → Float → Prop} {ns ms : List Number}

/-- A choice is a run that keeps the better number, by a strict order. -/
theorem Chooses.exists_better (h : Chooses f atMost) : ∃ better : Float → Float → Bool, IsStrict better ∧
    (∀ n rest, f.call (numbers (n :: rest)) = (rest.foldlM (f.prefer better) n).map fun n => [.number n]) ∧
    ∀ x y, x.isNaN = false → y.isNaN = false → ¬better y x = true → atMost x y := by
  have irrefl (x : Float) : ¬x < x := fun lt => lt_irrefl _ (Binary64.lt_iff.1 lt).2.2
  cases h with
  | least =>
    have call (args : List Value) : min.call args = min.chooseNumber args fun x y => x < y := rfl
    refine ⟨fun x y => x < y, ⟨fun x lt => irrefl x (of_decide_eq_true lt), fun hxy hyz => ?_⟩,
      fun n rest => (call _).trans (chooseNumber_numbers ..), fun x y hx hy h => ?_⟩
    · exact decide_eq_true (Binary64.lt_trans (of_decide_eq_true hxy) (of_decide_eq_true hyz))
    · exact Binary64.le_of_not_lt hy hx fun lt => h (decide_eq_true lt)
  | greatest =>
    have call (args : List Value) : max.call args = max.chooseNumber args fun x y => y < x := rfl
    refine ⟨fun x y => y < x, ⟨fun x lt => irrefl x (of_decide_eq_true lt), fun hxy hyz => ?_⟩,
      fun n rest => (call _).trans (chooseNumber_numbers ..), fun x y hx hy h => ?_⟩
    · exact decide_eq_true (Binary64.lt_trans (of_decide_eq_true hyz) (of_decide_eq_true hxy))
    · exact Binary64.le_of_not_lt hx hy fun lt => h (decide_eq_true lt)

/-- There is nothing to choose from no numbers. -/
theorem Chooses.call_nil (h : Chooses f atMost) (v : Value) : f.call (numbers []) ≠ .ok v := by
  cases h <;> exact nofun

/-- A choice fails exactly at a number whose unit clashes with that of the choice from those in front of it. -/
theorem call_eq_error_iff (h : Chooses f atMost) (filled : ns ≠ []) {e : Error} : f.call (numbers ns) = .error e ↔
    ∃ front c n behind, ns = front ++ n :: behind ∧ f.call (numbers front) = .ok [.number c] ∧ c.Clash n ∧
      e = .incomparable f.name c.text n.text := by
  obtain ⟨better, -, run, -⟩ := h.exists_better
  obtain ⟨first, rest, rfl⟩ := List.exists_cons_of_ne_nil filled
  have failed : f.call (numbers (first :: rest)) = .error e ↔ rest.foldlM (f.prefer better) first = .error e := by
    rw [run, Outcome.map_eq_error_iff]
  rw [failed, foldlM_prefer_eq_error_iff]
  constructor
  · rintro ⟨front, n, behind, c, rfl, through, clash, rfl⟩
    refine ⟨first :: front, c, n, behind, rfl, ?_, clash, rfl⟩
    rw [run, through]
    rfl
  · rintro ⟨front, c, n, behind, parts, through, clash, rfl⟩
    cases front with
    | nil => exact absurd through (h.call_nil _)
    | cons first' front =>
      cases parts
      rw [run] at through
      obtain ⟨c', kept, same⟩ := Outcome.map_eq_ok_iff.1 through
      cases same
      exact ⟨front, n, behind, c, rfl, kept, clash, rfl⟩

/-- What is chosen is one of the numbers, and at most as far as all that can be compared with it. -/
theorem atMost_of_call (h : Chooses f atMost) (filled : ns ≠ []) {v : Value} (called : f.call (numbers ns) = .ok v) :
    ∃ c ∈ ns, v = [.number c] ∧
      ∀ n ∈ ns, c.scalar.isNaN = false → n.scalar.isNaN = false → atMost c.scalar n.scalar := by
  obtain ⟨better, order, run, notBetter⟩ := h.exists_better
  obtain ⟨first, rest, rfl⟩ := List.exists_cons_of_ne_nil filled
  rw [run] at called
  obtain ⟨c, kept, rfl⟩ := Outcome.map_eq_ok_iff.1 called
  obtain ⟨mem, -, best⟩ := chosen order kept
  exact ⟨c, mem, rfl, fun n hn hc hn' => notBetter _ _ hc hn' (best n hn)⟩

/-- Where all numbers have a unit, a choice from them shows that it is the same one. -/
theorem not_clashing_of_call (h : Chooses f atMost) (filled : ns ≠ []) (units : ∀ n ∈ ns, n.unit.isSome = true)
    {v : Value} (called : f.call (numbers ns) = .ok v) : ¬Number.Clashing ns := by
  obtain ⟨better, -, run, -⟩ := h.exists_better
  obtain ⟨first, rest, rfl⟩ := List.exists_cons_of_ne_nil filled
  rw [run] at called
  obtain ⟨c, kept, -⟩ := Outcome.map_eq_ok_iff.1 called
  have same : ∀ n ∈ first :: rest, n.unit = first.unit := List.forall_mem_cons.2 ⟨rfl, unit_eq_of_chosen units kept⟩
  rintro ⟨m, hm, n, hn, u, v, hu, hv, differ⟩
  rw [same m hm] at hu
  rw [same n hn, hu] at hv
  exact differ (Option.some.inj hv)

/-- **Choosing.** In every order of the numbers, what `min` and `max` choose is the least and the greatest of them, they
only fail when two units clash, and they do fail then if every number has a unit. In any case they fail exactly when
they come to a number whose unit clashes with that of their choice from the numbers in front of it. -/
theorem call_chooses (chooses : Chooses f atMost) (filled : ns ≠ []) (perm : ms.Perm ns) :
    (¬Number.Clashing ns → ∃ v, f.call (numbers ms) = .ok v) ∧
    (∀ v, f.call (numbers ms) = .ok v → ∃ c ∈ ns, v = [.number c] ∧
      ∀ n ∈ ns, c.scalar.isNaN = false → n.scalar.isNaN = false → atMost c.scalar n.scalar) ∧
    (∀ e, f.call (numbers ms) = .error e → e.kind = .incompatibleUnits ∧ Number.Clashing ns) ∧
    (Number.Clashing ns → (∀ n ∈ ns, n.unit.isSome = true) → ∃ e, f.call (numbers ms) = .error e) ∧
    ((∃ e, f.call (numbers ms) = .error e) ↔ ∃ front c n behind, ms = front ++ n :: behind ∧
      f.call (numbers front) = .ok [.number c] ∧ c.Clash n) := by
  have filled' : ms ≠ [] := fun none => filled (by rw [none] at perm; exact perm.nil_eq.symm)
  have clashing (e : Error) (failed : f.call (numbers ms) = .error e) :
      e.kind = .incompatibleUnits ∧ Number.Clashing ns := by
    obtain ⟨front, c, n, behind, rfl, through, clash, rfl⟩ := (call_eq_error_iff chooses filled').1 failed
    have some : front ≠ [] := by
      rintro rfl
      exact chooses.call_nil _ through
    obtain ⟨c', mem, same, -⟩ := atMost_of_call chooses some through
    cases same
    exact ⟨rfl, c, perm.mem_iff.1 (by simp [mem]), n, perm.mem_iff.1 (by simp), clash⟩
  refine ⟨fun noClash => ?_, fun v called => ?_, clashing, fun clash units => ?_, ?_⟩
  · cases called : f.call (numbers ms) with
    | ok v => exact ⟨v, rfl⟩
    | error e => exact absurd (clashing e called).2 noClash
  · obtain ⟨c, mem, same, least⟩ := atMost_of_call chooses filled' called
    exact ⟨c, perm.mem_iff.1 mem, same, fun n hn => least n (perm.mem_iff.2 hn)⟩
  · cases called : f.call (numbers ms) with
    | error e => exact ⟨e, rfl⟩
    | ok v =>
      refine absurd ?_ (not_clashing_of_call chooses filled' (fun n hn => units n (perm.mem_iff.1 hn)) called)
      obtain ⟨m, hm, n, hn, clash⟩ := clash
      exact ⟨m, perm.mem_iff.2 hm, n, perm.mem_iff.2 hn, clash⟩
  · constructor
    · rintro ⟨e, failed⟩
      obtain ⟨front, c, n, behind, parts, through, clash, -⟩ := (call_eq_error_iff chooses filled').1 failed
      exact ⟨front, c, n, behind, parts, through, clash⟩
    · rintro ⟨front, c, n, behind, parts, through, clash⟩
      exact ⟨_, (call_eq_error_iff chooses filled').2 ⟨front, c, n, behind, parts, through, clash, rfl⟩⟩

/-- The least of numbers with a unit and one without. -/
theorem call_chooses_mixed :
    List.Perm [⟨2, some "px"⟩, ⟨3, some "px"⟩, ⟨1, none⟩] [⟨3, some "px"⟩, ⟨1, none⟩, (⟨2, some "px"⟩ : Number)] ∧
      ∃ c : Number, min.call (numbers [⟨2, some "px"⟩, ⟨3, some "px"⟩, ⟨1, none⟩]) = .ok [.number c] ∧
        ∀ n ∈ [⟨3, some "px"⟩, ⟨1, none⟩, (⟨2, some "px"⟩ : Number)], c.scalar ≤ n.scalar := by
  have perm : List.Perm [⟨2, some "px"⟩, ⟨3, some "px"⟩, ⟨1, none⟩]
      [⟨3, some "px"⟩, ⟨1, none⟩, (⟨2, some "px"⟩ : Number)] :=
    (List.Perm.swap _ _ _).trans (.cons _ (.swap _ _ _))
  have numbers : ∀ n ∈ [⟨3, some "px"⟩, ⟨1, none⟩, (⟨2, some "px"⟩ : Number)], n.scalar.isNaN = false := by
    simp only [List.forall_mem_cons, List.not_mem_nil, false_implies, implies_true, and_true]
    decide +kernel
  obtain ⟨succeeds, least, -⟩ := call_chooses .least (List.cons_ne_nil _ _) perm
  obtain ⟨v, called⟩ := succeeds (by simp [Number.Clashing, Number.Clash])
  obtain ⟨c, mem, rfl, least⟩ := least v called
  exact ⟨perm, c, called, fun n hn => least n hn (numbers c mem) (numbers n hn)⟩

/-- Behind a number without a unit, units that clash are not looked at. -/
theorem min_hides_units :
    Number.Clashing [⟨1, none⟩, ⟨2, some "px"⟩, ⟨3, some "em"⟩] ∧
      min.call (numbers [⟨1, none⟩, ⟨2, some "px"⟩, ⟨3, some "em"⟩]) = .ok [.number ⟨1, none⟩] ∧
      min.call (numbers [⟨2, some "px"⟩, ⟨3, some "em"⟩, ⟨1, none⟩]) = .error (.incomparable "min" "2px" "3em") := by
  refine ⟨⟨_, .tail _ (.head _), _, .tail _ (.tail _ (.head _)), "px", "em", rfl, rfl, by decide⟩, ?_, ?_⟩
  · rfl
  · rfl

end Builtin

end Stylesheet

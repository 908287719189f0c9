import Stylesheet.Proofs.Arithmetic.Balance

/-! # Sound expressions

An expression is **proper** when there is no slash in it and its parentheses match, in the parameters of its
calls and in its lists too (**`Value.Proper`**). It is **sound** when moreover its lists hold no operators but
commas (**`Value.Sound`**). So are its arguments (`Value.Sound.arguments`). All operators of a proper expression
are commas unless it asks for arithmetic (`Value.Proper.eq_comma`). -/

namespace Stylesheet

/-- How many parentheses are open behind a term when `depth` are open in front of it. -/
def Term.nesting? (depth : Nat) : Term → Option Nat
  | .op .leftParen => some (depth + 1)
  | .op .rightParen => if depth = 0 then none else some (depth - 1)
  | _ => some depth

/-- Where a comma may stand outside of parentheses, a term that can be followed is followed in the same way. -/
theorem Term.nesting?_of_depth? {t : Term} {d e : Nat} (h : t.depth? d = some e) : t.nesting? d = some e := by
  cases t with
  | op o =>
    cases o with
    | comma =>
      rw [depth?, Option.ite_none_left_eq_some] at h
      exact h.2
    | _ => exact h
  | _ => exact h

namespace Value

/-- How many parentheses are open behind a chain when `depth` are open in front of it. -/
def nesting? (depth : Nat) (v : Value) : Option Nat := v.foldlM Term.nesting? depth

/-- Whether the parentheses of a chain match. -/
def isClosed (v : Value) : Bool := v.nesting? 0 == some 0

end Value

mutual

/-- Whether a term is no slash, and there is none in it and all parentheses match there. -/
def Term.isProper : Term → Bool
  | .op o => o != .slash
  | .call _ terms | .list terms => Value.isClosed terms && Value.areProper terms
  | _ => true

/-- Whether that is so of all terms of a chain. -/
def Value.areProper : List Term → Bool
  | [] => true
  | t :: ts => t.isProper && Value.areProper ts

end

mutual

/-- Whether lists hold no operators but commas; `listed` tells that the term stands in a list. -/
def Term.isListed (listed : Bool) : Term → Bool
  | .op o => !listed || o == .comma
  | .call _ parameters => Value.areListed false parameters
  | .list items => Value.areListed true items
  | _ => true

/-- Whether that is so of all terms of a chain. -/
def Value.areListed (listed : Bool) : List Term → Bool
  | [] => true
  | t :: ts => t.isListed listed && Value.areListed listed ts

end

namespace Value

/-- There is no slash, and parentheses match. -/
structure Proper (v : Value) : Prop where
  closed : v.isClosed = true
  terms : areProper v = true

/-- Moreover, lists hold no operators but commas. -/
structure Sound (v : Value) : Prop extends v.Proper where
  listed : areListed false v = true

/-- Whether a chain is proper can be decided. -/
instance (v : Value) : Decidable v.Proper :=
  decidable_of_iff (v.isClosed = true ∧ areProper v = true) ⟨fun h => ⟨h.1, h.2⟩, fun h => ⟨h.1, h.2⟩⟩

/-- Whether a chain is sound can be decided. -/
instance (v : Value) : Decidable v.Sound :=
  decidable_of_iff (v.Proper ∧ areListed false v = true) ⟨fun h => ⟨h.1, h.2⟩, fun h => ⟨h.1, h.2⟩⟩

variable {v : Value}

/-- Terms are proper together if each of them is. -/
theorem areProper_iff : areProper v = true ↔ ∀ t ∈ v, t.isProper = true := by
  induction v with
  | nil => simp [areProper]
  | cons t ts ih => simp [areProper, ih]

/-- Terms are listed together if each of them is. -/
theorem areListed_iff {listed : Bool} : areListed listed v = true ↔ ∀ t ∈ v, t.isListed listed = true := by
  induction v with
  | nil => simp [areListed]
  | cons t ts ih => simp [areListed, ih]

/-- The first term nests at the given depth, and the others nest at the depth behind it. -/
theorem nesting?_cons (depth : Nat) (t : Term) (v : Value) :
    nesting? depth (t :: v) = (t.nesting? depth).bind fun d => nesting? d v := List.foldlM_cons ..

/-- The last term nests at the depth behind all others. -/
theorem nesting?_concat (depth : Nat) (v : Value) (t : Term) :
    nesting? depth (v ++ [t]) = (nesting? depth v).bind fun d => t.nesting? d := by
  rw [nesting?, List.foldlM_append]
  cases h : List.foldlM Term.nesting? depth v <;> simp [nesting?, h]

/-- A comma opens and closes nothing. -/
theorem nesting?_comma (depth : Nat) : (Term.op .comma).nesting? depth = some depth := rfl

/-- Arguments are closed when the whole is. -/
theorem isClosed_arguments (h : v.isClosed = true) : ∀ a ∈ v.arguments, a.isClosed = true := by
  -- as many parentheses are open in the argument begun as are open around what is left
  have all (depth : Int) (current : List Term) (v : Value) (d : Nat) (hd : depth = d)
      (hc : nesting? 0 current.reverse = some d) (hv : nesting? d v = some 0) :
      ∀ a ∈ argumentsFrom depth current v, a.isClosed = true := by
    have more {current : List Term} {d e : Nat} {t : Term} {ts : List Term} (ht : t.nesting? d = some e)
        (hc : nesting? 0 current.reverse = some d) (hv : nesting? d (t :: ts) = some 0) :
        nesting? 0 (t :: current).reverse = some e ∧ nesting? e ts = some 0 := by
      rw [List.reverse_cons, nesting?_concat, hc, Option.bind_some]
      rw [nesting?_cons, ht, Option.bind_some] at hv
      exact ⟨ht, hv⟩
    fun_induction argumentsFrom depth current v generalizing d with
    | case1 => simp
    | case2 depth current =>
      obtain rfl : d = 0 := Option.some.inj hv
      simp [isClosed, hc]
    | case3 current ts _ ih =>
      obtain rfl : d = 0 := by omega
      exact ih 0 rfl rfl (more (nesting?_comma 0) hc hv).2
    | case4 current ts _ ih =>
      obtain rfl : d = 0 := by omega
      intro a ha
      rcases List.mem_cons.1 ha with rfl | ha
      · simp [isClosed, hc]
      · exact ih 0 rfl rfl (more (nesting?_comma 0) hc hv).2 a ha
    | case5 depth current ts _ ih =>
      have next := more (nesting?_comma d) hc hv
      exact ih d hd next.1 next.2
    | case6 depth current ts ih =>
      have next := more (t := .op .leftParen) (e := d + 1) rfl hc hv
      exact ih (d + 1) (by omega) next.1 next.2
    | case7 depth current ts ih =>
      -- a parenthesis that closes has one to close
      have opened : d ≠ 0 := by
        rintro rfl
        cases hv
      have next := more (t := .op .rightParen) (e := d - 1) (if_neg opened) hc hv
      exact ih (d - 1) (by omega) next.1 next.2
    | case8 depth current t ts comma left right ih =>
      have same : t.nesting? d = some d := by
        unfold Term.nesting?
        split
        · exact absurd rfl left
        · exact absurd rfl right
        · rfl
      have next := more same hc hv
      exact ih d hd next.1 next.2
  exact all 0 [] v 0 rfl rfl (by simpa [isClosed] using h)

/-- Arguments are sound when the whole is. -/
theorem Sound.arguments (h : v.Sound) : ∀ a ∈ v.arguments, a.Sound := fun a ha =>
  { closed := isClosed_arguments h.closed a ha
    terms := areProper_iff.2 fun t ht => areProper_iff.1 h.terms t (mem_of_mem_arguments ha ht)
    listed := areListed_iff.2 fun t ht => areListed_iff.1 h.listed t (mem_of_mem_arguments ha ht) }

/-- Where nothing asks for arithmetic, all operators are commas. -/
theorem Proper.eq_comma (h : v.Proper) (quiet : v.asksArithmetic = false) : ∀ o, .op o ∈ v → o = .comma := by
  -- there is no parenthesis that opens, so there is none that closes
  have rest (before : Option Term) (v : Value) (terms : areProper v = true) (hv : nesting? 0 v = some 0)
      (asks : asksArithmeticBehind before v = false) : ∀ o, .op o ∈ v → o = .comma := by
    induction v generalizing before with
    | nil => simp
    | cons t ts ih =>
      rw [areProper, Bool.and_eq_true] at terms
      unfold asksArithmeticBehind at asks
      rw [Bool.or_eq_false_iff] at asks
      rw [nesting?_cons] at hv
      have top : ∀ o, t = .op o → o = .comma := by
        rintro o rfl
        cases o with
        | comma => rfl
        | slash => exact absurd terms.1 (by decide)
        | rightParen => exact absurd hv nofun
        | plus | minus | star | percent | leftParen => exact absurd asks.1 nofun
      have open0 : t.nesting? 0 = some 0 := by
        cases t with
        | op o =>
          rw [top o rfl]
          rfl
        | _ => rfl
      rw [open0] at hv
      intro o ho
      rcases List.mem_cons.1 ho with e | ho
      · exact top o e.symm
      · exact ih (some t) terms.2 hv asks.2 o ho
  exact rest none v h.terms (by simpa [isClosed] using h.closed) quiet

end Value

end Stylesheet

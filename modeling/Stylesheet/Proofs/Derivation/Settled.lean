import Stylesheet.Proofs.Arithmetic.Settled
import Stylesheet.Proofs.Arithmetic.Sound
import Stylesheet.Proofs.Derivation.Contract

/-! # What is derived is settled

Where expressions are sound, all variables have settled values and all declarations that are made do too:
sound expressions and settled values are a contract (**`Contract.settled`**), and evaluation meets it
(`Contract.settled_evaluates`). What is substituted in an expression is settled but for the operators of the
expression (**`Value.Settles`**), and when these ask for arithmetic it is done. -/

namespace Stylesheet

open Expansion

/-- If a node is a declaration, its value is settled. -/
def Node.isSettled : Node → Bool
  | .declaration _ value _ => Value.isSettled value
  | _ => true

namespace Tree

/-- Putting selectors in front of those of a block leaves values settled. -/
@[simp] theorem isSettled_nestNode (outer : List String) (n : Node) :
    (nestNode outer n).isSettled = n.isSettled := by
  cases n <;> rfl

/-- Lengthening the name of a declaration leaves values settled. -/
@[simp] theorem isSettled_lengthenNode (name : String) (n : Node) :
    (lengthenNode name n).isSettled = n.isSettled := by
  cases n <;> rfl

end Tree

/-- Another node at the top that is settled. -/
theorem Rose.isSettled_retop {o : Rose Stem} (h : ∀ s ∈ o.labels, s.node.isSettled = true) {s : Stem}
    (hs : s.node.isSettled = true) : ∀ x ∈ (Rose.mk s o.children).labels, x.node.isSettled = true := by
  intro x hx
  rcases mem_labels.1 hx with rfl | ⟨c, hc, hx⟩
  · exact hs
  · exact h x (mem_labels_of_mem_children (r := o) hc hx)

namespace Contract

/-- Expressions are sound, values are settled, and so are all declarations that are made. -/
def settled : Contract where
  expression := Value.Sound
  value v := Value.isSettled v = true
  made o := ∀ s ∈ o.labels, s.node.isSettled = true
  arguments h := h.arguments
  builtin b _ _ h run := b.isSettled_call h _ run
  integer _ := rfl
  items := Value.isSettled_items
  editList edit comma _ _ := Walker.isSettled_editList edit comma
  still := by
    intro n os hn h s hs
    rcases Rose.mem_labels.1 hs with rfl | ⟨o, ho, hs⟩
    · cases n <;> first | rfl | cases hn
    · exact h o ho s hs
  declared := by
    intro name v important h s hs
    rcases Rose.mem_labels.1 hs with rfl | ⟨o, ho, hs⟩
    · exact h
    · cases ho
  flatten := by
    intro selectors mark os h o ho
    rcases List.mem_cons.1 ho with rfl | ho
    · intro s hs
      rcases Rose.mem_labels.1 hs with rfl | ⟨o, ho, hs⟩
      · rfl
      · exact h o (List.mem_filter.1 ho).1 s hs
    · obtain ⟨c, hc, rfl⟩ := List.mem_map.1 ho
      have top := h c (List.mem_filter.1 hc).1
      exact Rose.isSettled_retop top (by simpa using top _ c.label_mem_labels)
  lengthen := by
    intro name os h o ho
    obtain ⟨c, hc, rfl⟩ := List.mem_map.1 ho
    exact Rose.isSettled_retop (h c hc) (by simpa using h c hc _ c.label_mem_labels)

end Contract

/-! ## Substitution -/

/-- The terms of a chain are settled, or they are operators of the other one. -/
def Value.Settles (v w : Value) : Prop := ∀ t ∈ w, t.isSettled = true ∨ (t.isOperator = true ∧ t ∈ v)

namespace Value.Settles

variable {v w v' w' : Value}

/-- Settled terms settle every chain. -/
theorem of_isSettled (h : isSettled w = true) : Settles v w := fun t ht => .inl (isSettled_iff.1 h t ht)

/-- Chains that settle two others settle them one after the other. -/
theorem append (h : Settles v w) (h' : Settles v' w') : Settles (v ++ v') (w ++ w') := by
  intro t ht
  rcases List.mem_append.1 ht with ht | ht
  · exact (h t ht).imp_right fun h => ⟨h.1, List.mem_append_left _ h.2⟩
  · exact (h' t ht).imp_right fun h => ⟨h.1, List.mem_append_right _ h.2⟩

/-- Operators call nothing. -/
theorem isQuiet (h : Settles v w) : Value.isQuiet w = true := by
  refine isQuiet_iff.2 fun t ht => ?_
  rcases h t ht with settled | ⟨operator, -⟩
  · exact Term.isQuiet_of_isSettled settled
  · cases t <;> first | rfl | cases operator

/-- What settles a chain is settled but for its operators. -/
theorem of_isOperator (h : Settles v w) : ∀ t ∈ w, t.isOperator = false → t.isSettled = true := by
  intro t ht operand
  refine (h t ht).resolve_right fun ⟨operator, _⟩ => ?_
  rw [operand] at operator
  cases operator

/-- Where the operators are commas, all is settled. -/
theorem isSettled (h : Settles v w) (commas : ∀ o, .op o ∈ v → o = .comma) : Value.isSettled w = true := by
  refine isSettled_iff.2 fun t ht => (h t ht).elim (fun h => h) fun ⟨operator, member⟩ => ?_
  cases t with
  | op o =>
    rw [commas o member]
    rfl
  | _ => cases operator

end Value.Settles

section

variable {τ : Type} {s : Substitution (Expansion τ)} {K : Contract}

/-- Variables stand for settled values, if for any, and calls do where the parameters are sound; all built-in
functions are called. -/
structure Substitution.Settles (K : Contract) (s : Substitution (Expansion τ)) : Prop where
  ofVar : ∀ name, Meets K (fun r => ∀ v, r = some v → Value.isSettled v = true) (s.ofVar name)
  ofCall : ∀ name {parameters : Value}, parameters.Sound → Meets K
    (fun r => (∀ v, r = some v → Value.isSettled v = true) ∧ (r = none → Builtin.isName name = false))
    (s.ofCall name parameters)

/-- A value that is spliced in is settled as before. -/
theorem Value.isSettled_spliced (nested : Bool) {v : Value} (h : isSettled v = true) :
    isSettled (spliced nested v) = true := by
  unfold spliced
  split
  · rw [isSettled_singleton, Term.isSettled, h]
  · exact h

mutual

/-- Substitution settles a term, at any depth. -/
theorem Substitution.Settles.term (hs : s.Settles K) (nested listed : Bool) : ∀ {t : Term},
    t.isProper = true → t.isListed listed = true → Meets K (Value.Settles [t]) (t.substitute s nested)
  | .number _, _, _ | .color _, _, _ | .ident _, _, _ | .str _, _, _ => by
    unfold Term.substitute
    exact .pure (.of_isSettled rfl)
  | .op o, _, _ => by
    unfold Term.substitute
    exact .pure fun t ht => .inr ⟨by rw [List.mem_singleton.1 ht]; rfl, ht⟩
  | .var name, _, _ => by
    unfold Term.substitute
    refine (hs.ofVar name).bind fun r hr => ?_
    cases r with
    | some v => exact .pure (.of_isSettled (Value.isSettled_spliced nested (hr v rfl)))
    | none => exact .pure (.of_isSettled rfl)
  | .call name parameters, proper, commas => by
    rw [Term.isProper, Bool.and_eq_true] at proper
    rw [Term.isListed] at commas
    unfold Term.substitute
    refine (hs.ofCall name ⟨⟨proper.1, proper.2⟩, commas⟩).bind fun r hr => ?_
    cases r with
    | some v => exact .pure (.of_isSettled (Value.isSettled_spliced nested (hr.1 v rfl)))
    | none =>
      -- a call that stays is one of no built-in function
      refine (hs.value true false proper.2 commas).bind fun ps hps => .pure (.of_isSettled ?_)
      rw [Value.isSettled_singleton, Term.isSettled, hr.2 rfl, hps.isQuiet]
      rfl
  | .list items, proper, commas => by
    rw [Term.isProper, Bool.and_eq_true] at proper
    rw [Term.isListed] at commas
    unfold Term.substitute
    refine (hs.value true true proper.2 commas).bind fun ts hts => .pure (.of_isSettled ?_)
    rw [Value.isSettled_singleton, Term.isSettled]
    refine hts.isSettled fun o ho => ?_
    simpa [Term.isListed] using Value.areListed_iff.1 commas _ ho

/-- What is substituted in a sound expression is settled but for its operators. -/
theorem Substitution.Settles.value (hs : s.Settles K) (nested listed : Bool) : ∀ {v : List Term},
    Value.areProper v = true → Value.areListed listed v = true →
      Meets K (Value.Settles v) (Value.substitute s nested v)
  | [], _, _ => by
    unfold Value.substitute
    exact .pure nofun
  | t :: ts, proper, commas => by
    rw [Value.areProper, Bool.and_eq_true] at proper
    rw [Value.areListed, Bool.and_eq_true] at commas
    unfold Value.substitute
    exact (hs.term nested listed proper.1 commas.1).bind fun _ first =>
      (hs.value nested listed proper.2 commas.2).bind fun _ others => .pure (first.append others)

end

end

/-! ## Evaluation -/

section

variable {d : Deriver Unit}

/-- The values of variables and the results of functions are settled. -/
theorem Deriver.Fulfils.live (h : d.Fulfils .settled) : d.live.Settles .settled where
  ofVar name := .scope_bind fun _ hs => .pure fun _ found => hs.get? found
  ofCall name parameters sound := by
    refine .context_bind fun c _ => ?_
    split
    · refine (h.arguments sound).bind fun args hargs => (h.call name hargs).bind fun result hresult => ?_
      refine .pure ⟨fun v hv => ?_, nofun⟩
      obtain rfl := Option.some.inj hv
      cases result with
      | some v => exact hresult v rfl
      | none => rfl
    · rename_i unknown
      rw [Bool.or_eq_true, not_or] at unknown
      exact .pure ⟨nofun, fun _ => Bool.eq_false_iff.2 unknown.1⟩

/-- Sound expressions have settled values. -/
theorem Deriver.Fulfils.evaluateWith (h : d.Fulfils .settled) {e : Value} (sound : e.Sound) :
    Meets .settled (Value.isSettled · = true) (d.evaluateWith e) := by
  refine (h.live.value false false sound.terms sound.listed).bind fun substituted settles => ?_
  split
  · cases he : Value.evaluate substituted with
    | error e => exact .fail e
    | ok v => exact .pure (Value.isSettled_evaluate settles.of_isOperator v he)
  · rename_i quiet
    exact .pure (settles.isSettled (sound.eq_comma (Bool.eq_false_iff.2 quiet)))

/-- Evaluation gives settled values. -/
theorem Contract.settled_evaluates : settled.Evaluates := fun _ h _ sound v hv => (h.evaluateWith sound v hv).2

end

end Stylesheet

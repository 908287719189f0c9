import Stylesheet.Proofs.Binding.Sharing
import Stylesheet.Proofs.Derivation.Matching

/-! # Steady steps

Two contexts share some frames on top, and below them names may have other values. A name is **known** when it is
bound in these frames, or has the same value below (**`Known`**). A step is **steady** when it leaves the world
alone and has the same result in all such contexts (**`Steady`**): looking up what is known is
(`Steady.lookup`), and so are sequences of steady steps (`Steady.bind`) and substituting by steady steps
(`Steady.value_substitute`). -/

namespace Stylesheet

open Expansion

variable {A : List String} {top : List Frame}

/-- A name is bound in the frames on top, or it has the same value below. -/
def Known (A : List String) (top : List Frame) (x : String) : Prop := Frame.Bound top x ∨ x ∈ A

/-- A name that is known stays known when frames grow. -/
theorem Known.mono {top' : List Frame} {x : String} (h : Known A top x) (g : Frame.Grown top top') :
    Known A top' x := h.imp_left g.bound

/-- A step leaves the world alone, and its result is the same in contexts that share these frames. -/
structure Steady {τ α : Type} (A : List String) (top : List Frame) (m : Expansion τ α) : Prop where
  still : ∀ v, (m.exec v).2 = v
  same : ∀ {v v' : World τ}, Sharing A top v.context v'.context → (m.exec v).1 = (m.exec v').1

namespace Steady

variable {τ α β : Type} {m : Expansion τ α}

/-- A result alone is steady. -/
theorem pure (a : α) : Steady A top (pure a : Expansion τ α) := ⟨fun _ => rfl, fun _ => rfl⟩

/-- Stopping is steady. -/
theorem throw (e : Stop) : Steady A top (throw e : Expansion τ α) := ⟨fun _ => rfl, fun _ => rfl⟩

/-- Failing is steady. -/
theorem fail (e : Error) : Steady A top (fail e : Expansion τ α) := ⟨fun _ => rfl, fun _ => rfl⟩

/-- What is computed apart from the state is steady. -/
theorem ofExcept (x : Except Error α) : Steady A top (ofExcept x : Expansion τ α) := by
  cases x with
  | ok a => exact pure a
  | error e => exact fail e

/-- What follows a steady step. -/
theorem exec_bind (h : Steady A top m) (f : α → Expansion τ β) (v : World τ) :
    (m >>= f).exec v =
      match (m.exec v).1 with
      | .ok a => (f a).exec v
      | .error e => (.error e, v) := by
  have still := h.still v
  rw [Expansion.exec_bind]
  revert still
  rcases m.exec v with ⟨_ | a, v'⟩
  · rintro rfl
    rfl
  · rintro rfl
    rfl

/-- Sequences of steady steps are steady. -/
theorem bind {f : α → Expansion τ β} (h : Steady A top m) (hf : ∀ a, Steady A top (f a)) :
    Steady A top (m >>= f) where
  still v := by
    rw [h.exec_bind]
    split
    · exact (hf _).still v
    · rfl
  same {v v'} hs := by
    rw [h.exec_bind, h.exec_bind, h.same hs]
    split
    · exact (hf _).same hs
    · rfl

/-- A steady step for each element of a list is steady. -/
theorem mapM {f : β → Expansion τ α} {bs : List β} (h : ∀ b ∈ bs, Steady A top (f b)) :
    Steady A top (bs.mapM f) := by
  induction bs with
  | nil => exact pure []
  | cons b bs ih =>
    rw [List.mapM_cons]
    exact (h b (.head _)).bind fun a => (ih fun b hb => h b (.tail _ hb)).bind fun as => pure (a :: as)

/-- The value of a known variable. -/
theorem lookup {x : String} (hx : Known A top x) :
    Steady A top (do Pure.pure ((← scope).get? x) : Expansion τ (Option Value)) where
  still _ := rfl
  same hs := by
    rw [exec_scope_bind, exec_scope_bind, hs.get?_eq hx]
    rfl

/-- What is asked of a context that is the same in contexts that share frames. -/
theorem context_bind {f : Context → Expansion τ α} (hf : ∀ c, Steady A top (f c))
    (same : ∀ c c', Sharing A top c c' → f c = f c') : Steady A top (context >>= f) where
  still v := (hf v.context).still v
  same {v v'} hs := by
    rw [exec_context_bind, exec_context_bind, same _ _ hs]
    exact (hf _).same hs

mutual

/-- Substituting in a term is steady when looking up its variables and its calls is. -/
theorem term_substitute {s : Substitution (Expansion τ)}
    (hv : ∀ x, Known A top x → Steady A top (s.ofVar x))
    (hc : ∀ name ps, (∀ x ∈ Value.names ps, Known A top x) → Steady A top (s.ofCall name ps))
    (nested : Bool) : ∀ t : Term, (∀ x ∈ t.names, Known A top x) → Steady A top (t.substitute s nested)
  | .number _, _ | .color _, _ | .ident _, _ | .str _, _ | .op _, _ => by
    unfold Term.substitute
    exact pure _
  | .var name, h => by
    unfold Term.substitute
    refine (hv name (h name (by simp [Term.names]))).bind fun v => ?_
    cases v <;> exact pure _
  | .call name parameters, h => by
    unfold Term.substitute
    rw [Term.names] at h
    refine (hc name parameters h).bind fun v => ?_
    cases v with
    | some v => exact pure _
    | none => exact (value_substitute hv hc true parameters h).bind fun _ => pure _
  | .list items, h => by
    unfold Term.substitute
    rw [Term.names] at h
    exact (value_substitute hv hc true items h).bind fun _ => pure _

/-- So is substituting in a chain. -/
theorem value_substitute {s : Substitution (Expansion τ)}
    (hv : ∀ x, Known A top x → Steady A top (s.ofVar x))
    (hc : ∀ name ps, (∀ x ∈ Value.names ps, Known A top x) → Steady A top (s.ofCall name ps))
    (nested : Bool) :
    ∀ v : List Term, (∀ x ∈ Value.names v, Known A top x) → Steady A top (Value.substitute s nested v)
  | [], _ => by
    unfold Value.substitute
    exact pure _
  | t :: ts, h => by
    unfold Value.substitute
    rw [Value.names] at h
    exact (term_substitute hv hc nested t fun x hx => h x (List.mem_append_left _ hx)).bind fun _ =>
      (value_substitute hv hc nested ts fun x hx => h x (List.mem_append_right _ hx)).bind fun _ => pure _

end

/-- After a steady step two runs go on with the same result. -/
theorem matches_bind {γ γ' : Type} {Q : γ → World τ → γ' → World τ → Prop} {E : World τ → World τ → Prop}
    (h : Steady A top m) {g : α → Expansion τ γ} {k : α → Expansion τ γ'} {v v' : World τ}
    (hs : Sharing A top v.context v'.context)
    (hok : ∀ a, (m.exec v).1 = .ok a → Matches Q E ((g a).exec v) ((k a).exec v')) (herr : E v v') :
    Matches Q E ((m >>= g).exec v) ((m >>= k).exec v') := by
  rw [h.exec_bind, h.exec_bind, ← h.same hs]
  cases hx : (m.exec v).1 with
  | ok a => exact hok a hx
  | error e => exact .error herr

end Steady

end Stylesheet

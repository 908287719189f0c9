import Mathlib.Tactic.Common

/-! # Outcomes

What is computed may fail. A step that ends well has a result that the next one goes on from
(`Outcome.bind_eq_ok_iff`, `Outcome.map_eq_ok_iff`).

A property **holds of what is given** (**`Gives`**) if it holds of the result whenever there
is one. Such properties are carried through the steps of a computation: through a sequence (`Gives.bind`), a function of
the result (`Gives.map`), a computation for each element of a list (`Gives.mapM`) and a fold over a list
(`Gives.foldlM`). -/

namespace Stylesheet

namespace Outcome

variable {ε α β : Type} {x : Except ε α} {b : β} {e : ε}

/-- A sequence ends well exactly if both its steps do. -/
theorem bind_eq_ok_iff {f : α → Except ε β} : (x >>= f) = .ok b ↔ ∃ a, x = .ok a ∧ f a = .ok b := by
  cases x with
  | ok a => exact ⟨fun h => ⟨a, rfl, h⟩, fun ⟨_, same, h⟩ => Except.ok.inj same ▸ h⟩
  | error e => exact ⟨nofun, nofun⟩

/-- What is changed in the end ends well exactly if it did so before. -/
theorem map_eq_ok_iff {f : α → β} : x.map f = .ok b ↔ ∃ a, x = .ok a ∧ f a = b := by
  cases x <;> simp [Except.map]

/-- What is changed in the end fails exactly as it did before. -/
theorem map_eq_error_iff {f : α → β} : x.map f = .error e ↔ x = .error e := by
  cases x <;> simp [Except.map]

/-- There are as many results as there are elements they are computed for. -/
theorem length_of_mapM {f : α → Except ε β} {as : List α} {bs : List β} (h : as.mapM f = .ok bs) :
    bs.length = as.length := by
  induction as generalizing bs with
  | nil =>
    cases h
    rfl
  | cons a as ih =>
    rw [List.mapM_cons] at h
    obtain ⟨b, -, h⟩ := bind_eq_ok_iff.1 h
    obtain ⟨rest, run, h⟩ := bind_eq_ok_iff.1 h
    cases h
    rw [List.length_cons, List.length_cons, ih run]

end Outcome

/-- If there is a result it has a property. -/
def Gives {ε α : Type} (P : α → Prop) (x : Except ε α) : Prop := ∀ a, x = .ok a → P a

namespace Gives

variable {ε α β : Type} {P : α → Prop} {Q : β → Prop} {x : Except ε α}

/-- The property holds of what is given if it holds of the result. -/
theorem ok {a : α} (h : P a) : Gives P (.ok a : Except ε α) := by
  rintro _ ⟨⟩
  exact h

/-- An error gives nothing. -/
theorem error (e : ε) : Gives P (.error e) := nofun

/-- Whatever comes first, the result is that of the last step. -/
theorem bind {f : α → Except ε β} (h : Gives P x) (hf : ∀ a, P a → Gives Q (f a)) : Gives Q (x >>= f) := by
  cases x with
  | ok a => exact hf a (h a rfl)
  | error e => exact error e

/-- If whatever follows a step gives the property, so does the sequence. -/
theorem any_bind {f : α → Except ε β} (hf : ∀ a, Gives Q (f a)) : Gives Q (x >>= f) :=
  bind (P := fun _ => True) (fun _ _ => trivial) fun a _ => hf a

/-- A changed result has a property that follows from that of the result. -/
theorem map {f : α → β} (h : Gives P x) (hf : ∀ a, P a → Q (f a)) : Gives Q (x.map f) := by
  cases x with
  | ok a => exact ok (hf a (h a rfl))
  | error e => exact error e

/-- If every element gives the property, all of the results have it. -/
theorem mapM {f : β → Except ε α} {bs : List β} (h : ∀ b ∈ bs, Gives P (f b)) :
    Gives (fun as => ∀ a ∈ as, P a) (bs.mapM f) := by
  induction bs with
  | nil => exact ok (by simp)
  | cons b bs ih =>
    rw [List.mapM_cons]
    refine (h b (.head _)).bind fun a ha => (ih fun b hb => h b (.tail _ hb)).bind fun as has => ok ?_
    exact List.forall_mem_cons.2 ⟨ha, has⟩

/-- What a fold starts with and each of its steps keeps is what it ends with. -/
theorem foldlM {f : α → β → Except ε α} {bs : List β} {a : α} (h : P a)
    (hf : ∀ a, ∀ b ∈ bs, P a → Gives P (f a b)) : Gives P (bs.foldlM f a) := by
  induction bs generalizing a with
  | nil => exact ok h
  | cons b bs ih =>
    rw [List.foldlM_cons]
    exact (hf a b (.head _) h).bind fun a' h' => ih h' fun a b hb => hf a b (.tail _ hb)

end Gives

end Stylesheet

import Stylesheet.Proofs.Tree.Fill
import Stylesheet.Proofs.Tree.Relabel

/-! # Loops cut in two

A counting loop with integers as bounds can be **cut** in two that count on from each other
(**`Node.Cut`**), if it is one of those that may be. Two lists of trees that differ only in where loops are cut are
**recut** (**`Rose.Recut`**); so are their copies when placeholders are resolved (`Rose.Recut.interpolate`) and
contents filled in (`Rose.Recut.fill`). Where none of these loops is left, both lists are the same
(`Rose.Recut.eq_of_not_inCut`). -/

namespace Stylesheet

/-- A loop from `a` to `b`, one of those that may be cut, is cut behind `m`: one half runs from `a` through `m`, and the
other one from `m + 1` to `b`. -/
inductive Node.Cut (cuts : Counting → Prop) : Node → Node → Node → Prop
  | counting {name : String} {low mid next high : Number} {inclusive : Bool} {a m b : Int} :
    cuts ⟨name, [.number low], [.number high], inclusive⟩ →
      low.integer? = some a → mid.integer? = some m → next.integer? = some (m + 1) → high.integer? = some b →
      a ≤ m → m < b →
        Cut cuts (.counting ⟨name, [.number low], [.number high], inclusive⟩)
          (.counting ⟨name, [.number low], [.number mid], true⟩)
          (.counting ⟨name, [.number next], [.number high], inclusive⟩)

/-- A loop that may be cut, or one of the halves of such a loop. -/
def Node.InCut (cuts : Counting → Prop) (n : Node) : Prop :=
  ∃ whole first second, Cut cuts whole first second ∧ (n = whole ∨ n = first ∨ n = second)

/-- The variable of a counting loop. -/
def Node.countingVariable? : Node → Option String
  | .counting loop => some loop.variableName
  | _ => none

/-- A loop that may be cut has its variable in common with its halves. -/
theorem Node.InCut.exists_variable {cuts : Counting → Prop} {n : Node} (h : n.InCut cuts) :
    ∃ whole, cuts whole ∧ n.countingVariable? = some whole.variableName := by
  obtain ⟨_, _, _, ⟨one⟩, rfl | rfl | rfl⟩ := h <;> exact ⟨_, one, rfl⟩

namespace Rose

variable {α β : Type} {C : α → α → α → Prop} {D : β → β → β → Prop}

/-- Two lists of trees that are the same but for trees that are cut in two. -/
inductive Recut (C : α → α → α → Prop) : List (Rose α) → List (Rose α) → Prop
  | nil : Recut C [] []
  | cons {a : α} {cs cs' rs rs' : List (Rose α)} : Recut C cs cs' → Recut C rs rs' →
    Recut C (⟨a, cs⟩ :: rs) (⟨a, cs'⟩ :: rs')
  | cut {a b c : α} {cs ds es rs rs' : List (Rose α)} : C a b c → Recut C cs ds → Recut C cs es →
    Recut C rs rs' → Recut C (⟨a, cs⟩ :: rs) (⟨b, ds⟩ :: ⟨c, es⟩ :: rs')
  | join {a b c : α} {cs ds es rs rs' : List (Rose α)} : C a b c → Recut C ds cs → Recut C es cs →
    Recut C rs rs' → Recut C (⟨b, ds⟩ :: ⟨c, es⟩ :: rs) (⟨a, cs⟩ :: rs')

namespace Recut

variable {rs rs' ss ss' : List (Rose α)}

/-- Trees are recut where no loop is cut. -/
theorem refl (rs : List (Rose α)) : Recut C rs rs := by
  have one (r : Rose α) : ∀ rs, Recut C rs rs → Recut C (r :: rs) (r :: rs) := by
    induction r with
    | mk a cs ih =>
      have under : Recut C cs cs := by
        induction cs with
        | nil => exact .nil
        | cons c cs ihc => exact ih c (.head _) cs (ihc fun r hr => ih r (.tail _ hr))
      exact fun _ h => .cons under h
  induction rs with
  | nil => exact .nil
  | cons r rs ih => exact one r rs ih

/-- Lists of trees are recut part by part. -/
theorem append (h : Recut C rs rs') (h' : Recut C ss ss') : Recut C (rs ++ ss) (rs' ++ ss') := by
  induction h with
  | nil => exact h'
  | cons under _ _ rest => exact .cons under rest
  | cut hc first second _ _ _ rest => exact .cut hc first second rest
  | join hc first second _ _ _ rest => exact .join hc first second rest

/-- Other labels that can be cut alike. -/
theorem map {f : α → β} (hf : ∀ {a b c}, C a b c → D (f a) (f b) (f c)) (h : Recut C rs rs') :
    Recut D (rs.map (Rose.map f)) (rs'.map (Rose.map f)) := by
  induction h with
  | nil => exact .nil
  | cons _ _ under rest =>
    rw [List.map_cons, List.map_cons, map_mk, map_mk]
    exact .cons under rest
  | cut hc _ _ _ first second rest =>
    rw [List.map_cons, List.map_cons, List.map_cons, map_mk, map_mk, map_mk]
    exact .cut (hf hc) first second rest
  | join hc _ _ _ first second rest =>
    rw [List.map_cons, List.map_cons, List.map_cons, map_mk, map_mk, map_mk]
    exact .join (hf hc) first second rest

/-- Other labels at the top that can be cut alike. -/
theorem retop {f : α → α} (hf : ∀ {a b c}, C a b c → C (f a) (f b) (f c)) (h : Recut C rs rs') :
    Recut C (rs.map fun r => ⟨f r.label, r.children⟩) (rs'.map fun r => ⟨f r.label, r.children⟩) := by
  induction h with
  | nil => exact .nil
  | cons under _ _ rest => exact .cons under rest
  | cut hc first second _ _ _ rest => exact .cut (hf hc) first second rest
  | join hc first second _ _ _ rest => exact .join (hf hc) first second rest

/-- The trees with some labels at the top, when both halves are taken or none. -/
theorem filter {p : α → Bool} (hp : ∀ {a b c}, C a b c → p b = p a ∧ p c = p a) (h : Recut C rs rs') :
    Recut C (rs.filter fun r => p r.label) (rs'.filter fun r => p r.label) := by
  induction h with
  | nil => exact .nil
  | @cons a _ _ _ _ under _ _ rest =>
    cases ha : p a
    · simpa [ha] using rest
    · simpa [ha] using Recut.cons under rest
  | @cut a b c _ _ _ _ _ hc first second _ _ _ rest =>
    obtain ⟨hb, hd⟩ := hp hc
    cases ha : p a
    · simpa [ha, hb, hd] using rest
    · simpa [ha, hb, hd] using Recut.cut hc first second rest
  | @join a b c _ _ _ _ _ hc first second _ _ _ rest =>
    obtain ⟨hb, hd⟩ := hp hc
    cases ha : p a
    · simpa [ha, hb, hd] using rest
    · simpa [ha, hb, hd] using Recut.join hc first second rest

/-- Where nothing can be cut and there are no halves, both lists are the same. -/
theorem eq_of_forall {P : α → Prop} (hC : ∀ {a b c}, C a b c → ¬P a ∧ ¬P b) (h : Recut C rs rs')
    (hP : ∀ x ∈ rs.flatMap labels, P x) : rs = rs' := by
  induction h with
  | nil => rfl
  | cons _ _ under rest =>
    simp only [List.flatMap_cons, labels_mk, List.mem_append, List.mem_cons] at hP
    rw [under fun x hx => hP x (.inl (.inr hx)), rest fun x hx => hP x (.inr hx)]
  | cut hc => exact absurd (hP _ (by simp)) (hC hc).1
  | join hc => exact absurd (hP _ (by simp)) (hC hc).2

/-! ## Trees of nodes -/

section

variable {cuts : Counting → Prop} {rs rs' contents contents' : List (Rose Node)}

/-- Where none of the loops is left that may be cut, and no half of one, both lists are the same. -/
theorem eq_of_not_inCut (h : Recut (Node.Cut cuts) rs rs') (none : ∀ n ∈ rs.flatMap labels, ¬n.InCut cuts) :
    rs = rs' :=
  h.eq_of_forall (fun cut => ⟨fun other => other ⟨_, _, _, cut, .inl rfl⟩,
    fun other => other ⟨_, _, _, cut, .inr (.inl rfl)⟩⟩) none

/-- Resolving placeholders leaves the loops as they are cut. -/
theorem interpolate (lookup : Lookup) (h : Recut (Node.Cut cuts) rs rs') :
    Recut (Node.Cut cuts) (rs.map (Rose.interpolate lookup)) (rs'.map (Rose.interpolate lookup)) := by
  induction h with
  | nil => exact .nil
  | @cons n _ _ _ _ same _ under rest =>
    rw [List.map_cons, List.map_cons, Rose.interpolate, Rose.interpolate]
    split
    · exact .cons same rest
    · exact .cons under rest
  | cut hc _ _ _ first second rest =>
    obtain ⟨one, ha, hm, hn, hb, le, lt⟩ := hc
    simp only [List.map_cons, Rose.interpolate]
    exact .cut (.counting one ha hm hn hb le lt) first second rest
  | join hc _ _ _ first second rest =>
    obtain ⟨one, ha, hm, hn, hb, le, lt⟩ := hc
    simp only [List.map_cons, Rose.interpolate]
    exact .join (.counting one ha hm hn hb le lt) first second rest

/-- Contents are filled in where they belong. -/
theorem fill (hc : Recut (Node.Cut cuts) contents contents') (h : Recut (Node.Cut cuts) rs rs') :
    Recut (Node.Cut cuts) (rs.flatMap (Rose.fill contents)) (rs'.flatMap (Rose.fill contents')) := by
  induction h with
  | nil => exact .nil
  | cons _ _ under rest =>
    rw [List.flatMap_cons, List.flatMap_cons, Rose.fill, Rose.fill]
    split
    · exact hc.append rest
    · exact .cons under rest
  | cut hn _ _ _ first second rest =>
    have cut := hn
    obtain ⟨⟩ := hn
    simp only [List.flatMap_cons, Rose.fill, Node.isContent, Bool.false_eq_true, if_false]
    exact .cut cut first second rest
  | join hn _ _ _ first second rest =>
    have cut := hn
    obtain ⟨⟩ := hn
    simp only [List.flatMap_cons, Rose.fill, Node.isContent, Bool.false_eq_true, if_false]
    exact .join cut first second rest

end

end Recut

end Rose

end Stylesheet

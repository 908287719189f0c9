import Mathlib.Data.List.Basic
import Stylesheet.Selector

/-! # The selectors of nested blocks

Seen from the top, the innermost of some nested blocks has its selectors under all selectors of the block
around it, those under all selectors of the next block, and so on (**`Selector.combined`**). Blocks are
flattened from the inside out, where the innermost selectors are put under those of one block after another
(**`Selector.flattened`**).

The two agree (`flattened_eq_combined`) if, from the third block on, `&` is nowhere but at the front of
a selector (**`Selector.Leading`**), since then nesting is associative (`placeUnder_assoc`). For a selector
such as `.x &` it is not: from the inside out, what has been put under `b` no longer mentions `&`, so `a`
comes first of all and not in front of `b`. -/

namespace Stylesheet

namespace Selector

/-! ## One selector -/

/-- A selector inside of a block with this one. -/
def place (outer own : String) : String :=
  if own.toList.contains '&' then
    String.ofList (own.toList.flatMap fun c => if c == '&' then outer.toList else [c])
  else String.ofList (outer.toList ++ ' ' :: own.toList)

/-- No blanks stand at either end. -/
def Trimmed (s : String) : Prop := Text.trim s.toList = s.toList

/-- Whether a selector is trimmed can be decided. -/
instance (s : String) : Decidable (Trimmed s) := inferInstanceAs (Decidable (_ = _))

/-- The outer selector is mentioned nowhere but at the front. -/
def Leading (s : String) : Prop := '&' ∉ s.toList.tail

/-- Whether the outer selector is mentioned at the front only can be decided. -/
instance (s : String) : Decidable (Leading s) := inferInstanceAs (Decidable (¬ _))

section

variable {outer own middle : String}

/-- A selector without blanks at its ends is put in as it is. -/
theorem under_of_trimmed (h : Trimmed outer) (own : String) : under outer own = place outer own := by
  rw [under, place, h]

/-- A selector that does not mention the outer one stands behind it. -/
theorem toList_place_of_not_mem (h : '&' ∉ own.toList) (outer : String) :
    (place outer own).toList = outer.toList ++ ' ' :: own.toList := by
  rw [place, if_neg (by simpa using h), String.toList_ofList]

/-- A selector that mentions the outer one has it in each of these places. -/
theorem toList_place_of_mem (h : '&' ∈ own.toList) (outer : String) :
    (place outer own).toList = own.toList.flatMap fun c => if c == '&' then outer.toList else [c] := by
  rw [place, if_pos (by simpa using h), String.toList_ofList]

/-- Where `&` is not mentioned nothing is put in. -/
theorem flatMap_of_not_mem {text : List Char} (h : '&' ∉ text) (outer : List Char) :
    (text.flatMap fun c => if c == '&' then outer else [c]) = text := by
  induction text with
  | nil => rfl
  | cons c text ih =>
    rw [List.mem_cons, not_or] at h
    rw [List.flatMap_cons, ih h.2, if_neg (by simpa using fun e => h.1 e.symm)]
    rfl

/-- A leading selector puts the same text behind every outer one. -/
theorem Leading.exists_behind (h : Leading own) :
    ∃ behind, '&' ∉ behind ∧ ∀ outer, (place outer own).toList = outer.toList ++ behind := by
  rw [Leading] at h
  by_cases mentions : '&' ∈ own.toList
  · -- the only mention is the first character
    obtain ⟨rest, hs⟩ : ∃ rest, own.toList = '&' :: rest := by
      match own.toList, mentions, h with
      | c :: rest, mentions, h => exact ⟨rest, by rw [(List.mem_cons.1 mentions).resolve_right h]⟩
    rw [hs, List.tail_cons] at h
    refine ⟨rest, h, fun outer => ?_⟩
    rw [toList_place_of_mem mentions, hs, List.flatMap_cons, flatMap_of_not_mem h]
    rfl
  · exact ⟨' ' :: own.toList, by simp [mentions], toList_place_of_not_mem mentions⟩

/-- What stands behind a selector without mentioning the outer one stays behind it. -/
theorem toList_place_append {behind : List Char} (none : '&' ∉ behind)
    (h : own.toList = middle.toList ++ behind) (outer : String) :
    (place outer own).toList = (place outer middle).toList ++ behind := by
  by_cases mentions : '&' ∈ middle.toList
  · rw [toList_place_of_mem (by simp [h, mentions]), h, List.flatMap_append, flatMap_of_not_mem none,
      ← toList_place_of_mem mentions]
  · rw [toList_place_of_not_mem (by simp [h, mentions, none]), toList_place_of_not_mem mentions, h]
    simp

/-- **Nesting a selector is associative** for a leading selector. -/
theorem place_place (h : Leading own) (outer middle : String) :
    place outer (place middle own) = place (place outer middle) own := by
  obtain ⟨behind, none, placed⟩ := h.exists_behind
  apply String.toList_injective
  rw [toList_place_append none (placed middle), placed]

/-- Under a leading selector, a leading one is leading. -/
theorem Leading.place (hm : Leading middle) (h : Leading own) : Leading (place middle own) := by
  obtain ⟨behind, none, placed⟩ := h.exists_behind
  rw [Leading] at hm ⊢
  rw [placed]
  cases hs : middle.toList with
  | nil => exact fun mentions => none (List.mem_of_mem_tail mentions)
  | cons c rest =>
    rw [hs] at hm
    simpa [none] using hm

end

/-! ## Lists of selectors -/

/-- Selectors under those of the block around them, in the order of the outer ones. -/
def placeUnder (outer own : List String) : List String := outer.flatMap fun p => own.map (place p)

/-- The full selectors of the innermost of nested blocks, the outermost of which comes first. -/
def combined : List (List String) → List String
  | [] => []
  | own :: inner => inner.foldl placeUnder own

/-- The selectors that the innermost of nested blocks is left with when all are flattened. -/
def flattened : List (List String) → List String
  | [] => []
  | [own] => own
  | own :: inner => nestUnder (flattened inner) own

section

variable {outer middle own : List String}

/-- Nesting is placing, for outer selectors without blanks at their ends. -/
theorem nestUnder_of_trimmed (some : outer ≠ []) (trimmed : ∀ p ∈ outer, Trimmed p) (own : List String) :
    nestUnder own outer = placeUnder outer own := by
  rw [nestUnder, if_neg (by simpa using some), placeUnder]
  exact List.flatMap_congr fun p hp => List.map_congr_left fun s _ => under_of_trimmed (trimmed p hp) s

/-- **Nesting is associative** for leading selectors, and the order of the products agrees. -/
theorem placeUnder_assoc (leading : ∀ s ∈ own, Leading s) (outer middle : List String) :
    placeUnder outer (placeUnder middle own) = placeUnder (placeUnder outer middle) own := by
  simp only [placeUnder, List.flatMap_assoc, List.map_flatMap, List.map_map, List.flatMap_map]
  refine List.flatMap_congr fun p _ => List.flatMap_congr fun m _ => List.map_congr_left fun s hs => ?_
  exact place_place (leading s hs) p m

/-- Leading selectors under leading ones are leading. -/
theorem leading_placeUnder (hm : ∀ m ∈ middle, Leading m) (ho : ∀ s ∈ own, Leading s) :
    ∀ s ∈ placeUnder middle own, Leading s := by
  intro _ h
  obtain ⟨m, hmem, h⟩ := List.mem_flatMap.1 h
  obtain ⟨s, hs, rfl⟩ := List.mem_map.1 h
  exact (hm m hmem).place (ho s hs)

end

/-- The outer one of nested blocks comes last when they are flattened. -/
theorem flattened_cons {own : List String} {inner : List (List String)} (h : inner ≠ []) :
    flattened (own :: inner) = nestUnder (flattened inner) own := by
  cases inner with
  | nil => exact absurd rfl h
  | cons own' inner => rfl

/-- Flattening keeps selectors leading. -/
theorem leading_flattened {blocks : List (List String)} (some : ∀ own ∈ blocks, own ≠ [])
    (trimmed : ∀ own ∈ blocks, ∀ s ∈ own, Trimmed s) (leading : ∀ own ∈ blocks, ∀ s ∈ own, Leading s) :
    ∀ s ∈ flattened blocks, Leading s := by
  induction blocks with
  | nil => simp [flattened]
  | cons own inner ih =>
    by_cases last : inner = []
    · rw [last]
      exact leading own (.head _)
    · rw [flattened_cons last, nestUnder_of_trimmed (some own (.head _)) (trimmed own (.head _))]
      exact leading_placeUnder (leading own (.head _))
        (ih (fun o ho => some o (.tail _ ho)) (fun o ho => trimmed o (.tail _ ho))
          fun o ho => leading o (.tail _ ho))

/-- Flattened under full selectors, nested blocks are combined with them from the top. -/
theorem placeUnder_flattened {blocks : List (List String)} (nonempty : blocks ≠ [])
    (some : ∀ own ∈ blocks, own ≠ []) (trimmed : ∀ own ∈ blocks, ∀ s ∈ own, Trimmed s)
    (leading : ∀ own ∈ blocks.tail, ∀ s ∈ own, Leading s) (outer : List String) :
    placeUnder outer (flattened blocks) = blocks.foldl placeUnder outer := by
  induction blocks generalizing outer with
  | nil => exact absurd rfl nonempty
  | cons own inner ih =>
    by_cases last : inner = []
    · rw [last]
      rfl
    · have some' : ∀ o ∈ inner, o ≠ [] := fun o ho => some o (.tail _ ho)
      have trimmed' : ∀ o ∈ inner, ∀ s ∈ o, Trimmed s := fun o ho => trimmed o (.tail _ ho)
      rw [flattened_cons last, nestUnder_of_trimmed (some own (.head _)) (trimmed own (.head _)),
        placeUnder_assoc (leading_flattened some' trimmed' leading), List.foldl_cons]
      exact ih last some' trimmed' (fun o ho => leading o (List.mem_of_mem_tail ho)) _

/-- **From the inside out as from the top.** Blocks that are flattened have the selectors that they have
seen from the top, if those from the third block on mention the outer selector at most at the front. -/
theorem flattened_eq_combined {blocks : List (List String)} (some : ∀ own ∈ blocks, own ≠ [])
    (trimmed : ∀ own ∈ blocks, ∀ s ∈ own, Trimmed s)
    (leading : ∀ own ∈ blocks.drop 2, ∀ s ∈ own, Leading s) : flattened blocks = combined blocks := by
  match blocks with
  | [] => rfl
  | [own] => rfl
  | own :: own' :: inner =>
    rw [flattened_cons (List.cons_ne_nil _ _),
      nestUnder_of_trimmed (some own (.head _)) (trimmed own (.head _)), combined]
    exact placeUnder_flattened (List.cons_ne_nil _ _) (fun o ho => some o (.tail _ ho))
      (fun o ho => trimmed o (.tail _ ho)) leading own

end Selector

end Stylesheet

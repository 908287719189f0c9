import Mathlib.Algebra.Ring.Int.Defs
import Stylesheet.Value.Basic

/-! # Parting chains at their commas

A chain is parted at the commas outside of parentheses, where a parenthesis may close though none is open
(**`Value.opens`** counts). What lies between two of these commas is an **argument**: it has terms, and no such
comma in it when it is looked at on its own (**`Value.IsArgument`**). All parts are arguments, and each of them but
the last closes what it opens (`isArgument_of_mem_arguments`, `opens_of_mem_dropLast_arguments`). Arguments
like these, joined with commas, are parted again as they were (`arguments_ofItems`).

Nothing but these commas (**`Value.partsAt`**) gets lost on the way, also where parentheses do not match
(`arguments_lossless`). -/

namespace Stylesheet

/-- By how much a term changes the number of open parentheses. -/
def Term.opens : Term → Int
  | .op .leftParen => 1
  | .op .rightParen => -1
  | _ => 0

/-- A comma is the operator that stands for it. -/
theorem Term.isComma_iff {t : Term} : t.isComma = true ↔ t = .op .comma := by
  refine ⟨fun h => ?_, fun h => h ▸ rfl⟩
  cases t with
  | op o =>
    cases o with
    | comma => rfl
    | _ => cases h
  | _ => cases h

namespace Value

/-- By how much a chain changes the number of open parentheses. -/
def opens (v : Value) : Int := (v.map Term.opens).sum

/-- No terms open no parentheses. -/
@[simp] theorem opens_nil : opens [] = 0 := rfl

/-- The first term opens its parenthesis in front of those of the others. -/
@[simp] theorem opens_cons (t : Term) (v : Value) : opens (t :: v) = t.opens + opens v := by simp [opens]

/-- Terms one after the other open the parentheses of both. -/
@[simp] theorem opens_append (v w : Value) : opens (v ++ w) = opens v + opens w := by simp [opens]

/-- Whether a comma stands in the rest of a chain where no parenthesis is open. -/
def partsFrom (depth : Int) : List Term → Bool
  | [] => false
  | t :: ts => (t.isComma && depth == 0) || partsFrom (depth + t.opens) ts

/-- Parts are looked for in the terms one after the other, and the depth goes on. -/
theorem partsFrom_append (depth : Int) (v w : Value) :
    partsFrom depth (v ++ w) = (partsFrom depth v || partsFrom (depth + opens v) w) := by
  induction v generalizing depth with
  | nil => simp [partsFrom]
  | cons t v ih => simp [partsFrom, ih, Bool.or_assoc, Int.add_assoc]

/-- A chain that is one argument: it has terms, and no comma outside of parentheses. -/
def IsArgument (v : Value) : Prop := v ≠ [] ∧ partsFrom 0 v = false

/-- Whether terms are one argument can be decided. -/
instance (v : Value) : Decidable v.IsArgument :=
  decidable_of_iff (v.isEmpty = false ∧ partsFrom 0 v = false) (by simp [IsArgument])

/-- A single term is an argument unless it is a comma. -/
theorem isArgument_singleton {t : Term} : IsArgument [t] ↔ t.isComma = false := by
  simp [IsArgument, partsFrom]

/-! ## Going on by one term -/

variable {depth : Int} {v : Value} {vs : List Value}

/-- A comma outside of parentheses ends the argument begun, and every other term belongs to it. -/
theorem argumentsFrom_term (depth : Int) (current : List Term) (t : Term) (ts : List Term) :
    argumentsFrom depth current (t :: ts) =
      if t.isComma && depth == 0 then (if current.isEmpty then [] else [current.reverse]) ++ argumentsFrom 0 [] ts
      else argumentsFrom (depth + t.opens) (t :: current) ts := by
  cases t with
  | op o =>
    cases o with
    | comma =>
      by_cases outside : depth = 0
      · simp only [argumentsFrom, outside]
        cases current <;> simp
      · simp [argumentsFrom, outside, Term.opens]
    | leftParen | rightParen => rfl
    | plus | minus | star | slash | percent => simp [argumentsFrom, Term.isComma, Term.opens]
  | _ => simp [argumentsFrom, Term.isComma, Term.opens]

/-- What has no comma outside of parentheses belongs to the argument begun. -/
theorem argumentsFrom_of_partsFrom (whole : partsFrom depth v = false) (current rest : List Term) :
    argumentsFrom depth current (v ++ rest) = argumentsFrom (depth + opens v) (v.reverse ++ current) rest := by
  induction v generalizing depth current with
  | nil => simp
  | cons t v ih =>
    obtain ⟨notHere, whole⟩ := Bool.or_eq_false_iff.1 whole
    rw [List.cons_append, argumentsFrom_term, notHere, if_neg Bool.false_ne_true, ih whole]
    simp [Int.add_assoc]

/-- An argument is parted nowhere. -/
theorem IsArgument.arguments_eq (h : v.IsArgument) : v.arguments = [v] := by
  have through := argumentsFrom_of_partsFrom h.2 [] []
  simpa [arguments, argumentsFrom, h.1] using through

/-! ## The parts -/

/-- What is parted off closes what it opens, and is an argument, if this holds of the argument begun. -/
theorem parts_argumentsFrom (depth : Int) (current v : Value) (whole : partsFrom 0 current.reverse = false)
    (begun : opens current.reverse = depth) : (∀ a ∈ argumentsFrom depth current v, a.IsArgument) ∧
      ∀ a ∈ (argumentsFrom depth current v).dropLast, a.opens = 0 := by
  induction v generalizing depth current with
  | nil =>
    cases current with
    | nil => simp [argumentsFrom]
    | cons t current => simpa [argumentsFrom, IsArgument] using whole
  | cons t v ih =>
    rw [argumentsFrom_term]
    split
    next here =>
      -- the argument begun ends here, where all that it has opened is closed
      obtain ⟨rest, closed⟩ := ih 0 [] rfl rfl
      have outside : depth = 0 := by simpa using (Bool.and_eq_true_iff.1 here).2
      cases current with
      | nil => exact ⟨rest, closed⟩
      | cons s current =>
        refine ⟨?_, fun a ha => ?_⟩
        · intro a ha
          rcases List.mem_cons.1 ha with rfl | ha
          · exact ⟨by simp, whole⟩
          · exact rest a ha
        · cases hrest : argumentsFrom 0 [] v with
          | nil => simp [hrest] at ha
          | cons b bs =>
            rw [hrest] at ha closed
            rcases List.mem_cons.1 ha with rfl | ha
            · rw [← outside, ← begun]
            · exact closed a ha
    next notHere =>
      refine ih _ _ ?_ (by simp [begun])
      rw [List.reverse_cons, partsFrom_append, whole, begun, Bool.false_or, Int.zero_add]
      simpa [partsFrom] using notHere

/-- Every part is an argument. -/
theorem isArgument_of_mem_arguments {a : Value} (h : a ∈ v.arguments) : a.IsArgument :=
  (parts_argumentsFrom 0 [] v rfl rfl).1 a h

/-- Every part but the last closes what it opens. -/
theorem opens_of_mem_dropLast_arguments {a : Value} (h : a ∈ v.arguments.dropLast) : a.opens = 0 :=
  (parts_argumentsFrom 0 [] v rfl rfl).2 a h

/-! ## Where a chain is parted -/

/-- Whether the chain is parted at a position: a comma stands there, and in front of it as many parentheses close as
open. -/
def partsAt (v : Value) (i : Nat) : Bool := v[i]?.any Term.isComma && opens (v.take i) == 0

/-- The recursion comes to a comma outside of parentheses exactly if there is a position with one. -/
theorem partsFrom_eq_true_iff :
    partsFrom depth v = true ↔ ∃ i, v[i]?.any Term.isComma = true ∧ depth + opens (v.take i) = 0 := by
  induction v generalizing depth with
  | nil => simp [partsFrom]
  | cons t v ih =>
    rw [partsFrom, Bool.or_eq_true, ih]
    constructor
    · rintro (here | ⟨i, comma, outside⟩)
      · exact ⟨0, by simpa using here⟩
      · exact ⟨i + 1, by simpa using comma, by simpa [Int.add_assoc] using outside⟩
    · rintro ⟨_ | i, comma, outside⟩
      · rw [List.take_zero, opens_nil, Int.add_zero] at outside
        exact .inl (by simpa using ⟨comma, outside⟩)
      · exact .inr ⟨i, by simpa using comma, by simpa [Int.add_assoc] using outside⟩

/-- An argument is parted at no position. -/
theorem IsArgument.partsAt_eq_false (h : v.IsArgument) (i : Nat) : v.partsAt i = false := by
  rw [Bool.eq_false_iff]
  intro here
  rw [partsAt, Bool.and_eq_true, beq_iff_eq] at here
  have parted : partsFrom 0 v = true := partsFrom_eq_true_iff.2 ⟨i, here.1, by rw [here.2, Int.add_zero]⟩
  rw [h.2] at parted
  cases parted

/-- The parts hold what is begun and all that follows, but for the commas at which the chain is parted. -/
theorem flatten_argumentsFrom (depth : Int) (current v : Value) : (argumentsFrom depth current v).flatten =
    current.reverse ++
      (v.zipIdx.filter fun p => !(p.1.isComma && depth + opens (v.take p.2) == 0)).map Prod.fst := by
  induction v generalizing depth current with
  | nil => cases current <;> simp [argumentsFrom]
  | cons t v ih =>
    have later (p : Term × Nat) : depth + opens ((t :: v).take (p.2 + 1)) = depth + t.opens + opens (v.take p.2) := by
      simp [Int.add_assoc]
    rw [argumentsFrom_term, List.zipIdx_cons', List.filter_cons, List.filter_map, Function.comp_def]
    simp only [Prod.map_fst, Prod.map_snd, id_eq, later, List.take_zero, opens_nil, Int.add_zero]
    split
    next here =>
      rw [Bool.and_eq_true, beq_iff_eq, Term.isComma_iff] at here
      obtain ⟨rfl, rfl⟩ := here
      have rest := ih 0 []
      cases current <;> simp [rest, Term.opens, Function.comp_def]
    next notHere =>
      rw [Bool.not_eq_true] at notHere
      rw [ih, if_pos (by rw [notHere, Bool.not_false])]
      simp [Function.comp_def]

/-- Where parting takes nothing away there is a single part. -/
theorem arguments_eq_of_flatten (same : v.arguments.flatten = v) (nonempty : v ≠ []) : v.arguments = [v] := by
  have kept : v.arguments.flatten.length = _ := congrArg List.length (flatten_argumentsFrom 0 [] v)
  rw [same, List.reverse_nil, List.nil_append, List.length_map, ← List.length_zipIdx (l := v) (i := 0)] at kept
  refine IsArgument.arguments_eq ⟨nonempty, Bool.eq_false_iff.2 fun parted => ?_⟩
  obtain ⟨i, comma, outside⟩ := partsFrom_eq_true_iff.1 parted
  obtain ⟨t, there, comma⟩ := (Option.any_eq_true _ _).1 comma
  have stays := List.length_filter_eq_length_iff.1 kept.symm (t, i) (List.mem_zipIdx_iff_getElem?.2 there)
  simp [comma, outside] at stays

/-! ## Joining -/

/-- Arguments of which all but the last close what they open are parted again as they were joined. -/
theorem arguments_ofItems (args : ∀ v ∈ vs, v.IsArgument) (closed : ∀ v ∈ vs.dropLast, v.opens = 0) :
    (ofItems true vs).arguments = vs := by
  induction vs with
  | nil => rfl
  | cons v vs ih =>
    have first := args v (List.mem_cons_self ..)
    cases vs with
    | nil => exact first.arguments_eq
    | cons w vs =>
      have rest := ih (fun u hu => args u (List.mem_cons_of_mem _ hu)) fun u hu => closed u (List.mem_cons_of_mem _ hu)
      have parts : ofItems true (v :: w :: vs) = v ++ .op .comma :: ofItems true (w :: vs) := by simp [ofItems]
      rw [parts, arguments, argumentsFrom_of_partsFrom first.2, closed v (List.mem_cons_self ..), argumentsFrom_term]
      simp only [Term.isComma_comma, Int.add_zero, beq_self_eq_true, Bool.and_self, if_pos, List.append_nil]
      rw [if_neg (by simpa using first.1), List.reverse_reverse]
      exact congrArg (v :: ·) rest

/-! ## Nothing is lost -/

/-- **Parting loses nothing and is stable.** Whether or not the parentheses match, every part has terms and is itself
parted nowhere; put together, the parts are the chain without the commas at which it is parted; and joined with commas
they are parted again as they were. -/
theorem arguments_lossless (v : Value) :
    (∀ a ∈ v.arguments, a ≠ [] ∧ ∀ i, a.partsAt i = false) ∧
    v.arguments.flatten = (v.zipIdx.filter fun p => !v.partsAt p.2).map Prod.fst ∧
    (ofItems true v.arguments).arguments = v.arguments := by
  refine ⟨fun a ha => ?_, ?_, ?_⟩
  · have argument := isArgument_of_mem_arguments ha
    exact ⟨argument.1, argument.partsAt_eq_false⟩
  · rw [arguments, flatten_argumentsFrom, List.reverse_nil, List.nil_append]
    refine congrArg _ (List.filter_congr fun p hp => ?_)
    have there : v[p.2]? = some p.1 := List.mem_zipIdx_iff_getElem?.1 hp
    rw [partsAt, there, Option.any_some, Int.zero_add]
  · exact arguments_ofItems (fun _ => isArgument_of_mem_arguments) fun _ => opens_of_mem_dropLast_arguments

/-- A parenthesis that closes nothing keeps together what stands behind it. -/
theorem arguments_lossless_unmatched :
    let v : Value := [.op .comma, .ident "a", .op .comma, .op .rightParen, .op .comma, .ident "b", .op .leftParen,
      .op .comma, .op .comma]
    let b : Value := [.op .rightParen, .op .comma, .ident "b", .op .leftParen]
    v.arguments = [[.ident "a"], b] ∧ (b ≠ [] ∧ ∀ i, b.partsAt i = false) ∧ v.arguments.flatten = .ident "a" :: b ∧
      (ofItems true [[.ident "a"], b]).arguments = [[.ident "a"], b] := by
  intro v b
  have parts : v.arguments = [[.ident "a"], b] := rfl
  obtain ⟨each, together, again⟩ := arguments_lossless v
  rw [parts] at each again
  exact ⟨parts, each b (by simp), together.trans rfl, again⟩

end Value

end Stylesheet

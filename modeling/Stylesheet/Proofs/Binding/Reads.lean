import Stylesheet.Proofs.Arithmetic.Balance
import Stylesheet.Proofs.Derivation.Basic

/-! # What a function reads

A function **reads** a variable when its body or a default mentions the variable where the function has not
bound it itself: as a parameter, as the variable of a loop around, or by an assignment further up in the
same body (**`Rose.reads`**, **`Signature.reads`**). Together these are the names that the functions of
a context may have to find outside of their own calls (**`Context.reads`**).

In a condition, a name counts as mentioned wherever a variable could be cut off
(**`Interpolation.names`**); a condition has the same meaning for lookups that agree on these names
(`substituteVariables_congr`). -/

namespace Stylesheet

/-! ## Values and conditions -/

mutual

/-- The variables that a term mentions, at any depth. -/
def Term.names : Term → List String
  | .var name => [name]
  | .call _ parameters => Value.names parameters
  | .list items => Value.names items
  | _ => []

/-- The variables that a chain mentions. -/
def Value.names : List Term → List String
  | [] => []
  | t :: ts => t.names ++ Value.names ts

end

/-- The variables that a condition may mention. -/
def Interpolation.names (condition : String) : List String :=
  condition.toList.tails.filterMap fun text => (cutVariable? text).map Prod.fst

/-- Searches that find the same in all that is left of a text replace the same. -/
theorem Text.replaceMatches_congr {cut? cut?' : List Char → Option (List Char × List Char)}
    {text : List Char} (h : ∀ s, s <:+ text → cut? s = cut?' s)
    (behind : ∀ s written rest, cut? s = some (written, rest) → rest <:+ s) :
    replaceMatches cut? text = replaceMatches cut?' text := by
  fun_induction replaceMatches cut? text with
  | case1 => rw [replaceMatches_nil]
  | case2 c cs written rest found shorter ih =>
    rw [ih fun s hs => h s (hs.trans (behind _ _ _ found))]
    rw [h _ (List.suffix_refl _)] at found
    rw [replaceMatches_of_some found shorter]
  | case3 c cs written rest found longer ih =>
    rw [ih fun s hs => h s (hs.trans (List.suffix_cons c cs))]
    rw [h _ (List.suffix_refl _)] at found
    conv_rhs => rw [replaceMatches, found]
    simp [longer]
  | case4 c cs none ih =>
    rw [ih fun s hs => h s (hs.trans (List.suffix_cons c cs))]
    rw [h _ (List.suffix_refl _)] at none
    rw [replaceMatches_of_none none]

/-- What stands behind a variable is the end of the text. -/
theorem Interpolation.suffix_of_cutVariable? {text rest : List Char} {name : String}
    (h : cutVariable? text = some (name, rest)) : rest <:+ text := by
  unfold cutVariable? at h
  split at h
  · rename_i cs
    dsimp only at h
    split at h
    · cases h
    · cases h
      exact (List.dropWhile_suffix _).trans (List.suffix_cons '$' cs)
  · cases h

open Interpolation in
/-- Lookups that agree on the names in a condition resolve it alike. -/
theorem substituteVariables_congr {lookup lookup' : Lookup} {condition : String}
    (h : ∀ name ∈ Interpolation.names condition, lookup name = lookup' name) :
    substituteVariables lookup condition = substituteVariables lookup' condition := by
  unfold substituteVariables
  rw [Text.replaceMatches_congr fun s hs => ?_]
  · intro s written rest found
    unfold writing at found
    split at found
    · cases found
    · rename_i name behind cut
      obtain ⟨value, -, eq⟩ := Option.map_eq_some_iff.1 found
      cases eq
      exact suffix_of_cutVariable? cut
  · unfold writing
    split
    · rfl
    · rename_i name rest cut
      have mentioned : name ∈ Interpolation.names condition :=
        List.mem_filterMap.2 ⟨s, (List.mem_tails _ _).2 hs, by rw [cut]; rfl⟩
      rw [h name mentioned]

/-! ## Nodes -/

/-- The variables that a node mentions in its own values and in its condition. -/
def Node.names : Node → List String
  | .assignment _ value _ | .result value | .declaration _ value _ | .each _ value => Value.names value
  | .functionCall c => Value.names c.arguments
  | .listDirective d => Value.names d.list ++ Value.names d.items
  | .counting c => Value.names c.low ++ Value.names c.high
  | .whileLoop condition | .branch condition => Interpolation.names condition
  | _ => []

/-- The variable that a loop binds in its body. -/
def Node.loopVariable? : Node → Option String
  | .counting c => some c.variableName
  | .each name _ => some name
  | _ => none

/-- The variable that a node assigns, and that what stands behind it can read. -/
def Node.assigned? : Node → Option String
  | .assignment name _ _ => some name
  | .listDirective d => some d.variableName
  | _ => none

/-- Some names without one of them, if there is one to leave out. -/
def leaveOut (bound : Option String) (names : List String) : List String :=
  names.filter fun name => bound != some name

/-- Whether what stands under a node is expanded in order. Of the branches of a conditional only one is. -/
def Node.inOrder : Node → Bool
  | .conditional => false
  | _ => true

mutual

/-- The variables that a node and what stands under it read before they are bound there. -/
def Rose.reads : Rose Node → List String
  | ⟨n, rs⟩ => n.names ++ leaveOut n.loopVariable? (Rose.readsAll n.inOrder rs)

/-- The variables that nodes read before they are bound there. In order, what stands behind an assignment
finds its variable bound. -/
def Rose.readsAll (inOrder : Bool) : List (Rose Node) → List String
  | [] => []
  | r :: rs =>
    r.reads ++ leaveOut (if inOrder then r.label.assigned? else none) (Rose.readsAll inOrder rs)

end

/-- The variables that a body behind some parameters reads. The default of a parameter can refer to the
parameters before it, and the body to all of them. -/
def Signature.readsBehind (body : List (Rose Node)) : List Parameter → List String
  | [] => Rose.readsAll true body
  | p :: ps => Value.names p.default ++ leaveOut p.name (readsBehind body ps)

/-- The variables that the functions of a context read. -/
def Context.reads (c : Context) : List String :=
  (c.functions.map Prod.fst).flatMap fun name =>
    match c.function name with
    | .ok (definition, signature) => Signature.readsBehind (Deriver.bodyOf c definition) signature.parameters
    | .error _ => []

/-! ## Laws -/

/-- Leaving out a bound name leaves all others. -/
@[simp] theorem mem_leaveOut {bound : Option String} {names : List String} {x : String} :
    x ∈ leaveOut bound names ↔ x ∈ names ∧ bound ≠ some x := by
  simp [leaveOut]

/-- A tree reads what its top mentions, and what is read under it other than the variable of a loop. -/
theorem Rose.mem_reads {r : Rose Node} {x : String} :
    x ∈ r.reads ↔ x ∈ r.label.names ∨
      (x ∈ readsAll r.label.inOrder r.children ∧ r.label.loopVariable? ≠ some x) := by
  obtain ⟨n, rs⟩ := r
  rw [reads, List.mem_append, mem_leaveOut, label_mk, children_mk]

/-- In order, the nodes behind the first one can read what it assigns. -/
theorem Rose.mem_readsAll_cons {r : Rose Node} {rs : List (Rose Node)} {x : String} :
    x ∈ readsAll true (r :: rs) ↔ x ∈ r.reads ∨ (x ∈ readsAll true rs ∧ r.label.assigned? ≠ some x) := by
  rw [readsAll, List.mem_append, mem_leaveOut, if_pos rfl]

/-- Without order, all nodes read for themselves. -/
theorem Rose.mem_readsAll_false {rs : List (Rose Node)} {x : String} :
    x ∈ readsAll false rs ↔ ∃ r ∈ rs, x ∈ r.reads := by
  induction rs with
  | nil => simp [readsAll]
  | cons r rs ih => simp [readsAll, ih]

/-- A value mentions what its terms mention. -/
theorem Value.mem_names {v : Value} {x : String} : x ∈ Value.names v ↔ ∃ t ∈ v, x ∈ t.names := by
  induction v with
  | nil => simp [Value.names]
  | cons t ts ih => simp [Value.names, ih]

/-- What a function of a context reads is read by the functions of the context. -/
theorem Context.mem_reads {c : Context} {name : String} {definition : NodeId} {signature : Signature}
    (h : c.function name = .ok (definition, signature)) {x : String}
    (hx : x ∈ Signature.readsBehind (Deriver.bodyOf c definition) signature.parameters) : x ∈ c.reads := by
  have entered : name ∈ c.functions.map Prod.fst := by
    unfold Context.function at h
    split at h
    · cases h
    · rename_i id found
      obtain ⟨before, after, eq, -⟩ := List.lookup_eq_some_iff.1 found
      simp [eq]
  refine List.mem_flatMap.2 ⟨name, entered, ?_⟩
  rw [h]
  exact hx

/-- What is read depends on the functions and their definitions only. -/
theorem Context.reads_congr {c c' : Context} (functions : c.functions = c'.functions)
    (definitions : c.definitions = c'.definitions) : c.reads = c'.reads := by
  unfold Context.reads Context.function Deriver.bodyOf
  rw [functions, definitions]

section

variable (lookup : Lookup) (n : Node)

/-- Interpolation changes no value, so a node mentions the same variables. -/
@[simp] theorem Node.names_interpolate : (n.interpolate lookup).names = n.names := by
  cases n <;> rfl

/-- Interpolation changes no loop variable. -/
@[simp] theorem Node.loopVariable?_interpolate : (n.interpolate lookup).loopVariable? = n.loopVariable? := by
  cases n <;> rfl

/-- Interpolation changes no assignment. -/
@[simp] theorem Node.assigned?_interpolate : (n.interpolate lookup).assigned? = n.assigned? := by
  cases n <;> rfl

/-- Interpolation does not change whether children are taken in order. -/
@[simp] theorem Node.inOrder_interpolate : (n.interpolate lookup).inOrder = n.inOrder := by
  cases n <;> rfl

/-- The top of an interpolated tree assigns what it assigned. -/
@[simp] theorem Rose.assigned?_interpolate (r : Rose Node) :
    (r.interpolate lookup).label.assigned? = r.label.assigned? := by
  obtain ⟨n, rs⟩ := r
  rw [Rose.interpolate]
  split <;> simp

mutual

/-- Texts that are resolved read nothing else. -/
@[simp] theorem Rose.reads_interpolate : ∀ r : Rose Node, (r.interpolate lookup).reads = r.reads
  | ⟨n, rs⟩ => by
    rw [Rose.interpolate]
    split
    · rfl
    · rw [Rose.reads, Rose.reads, Node.names_interpolate, Node.loopVariable?_interpolate,
        Node.inOrder_interpolate, Rose.readsAll_interpolate n.inOrder rs]

/-- Interpolated trees in a row read what they read. -/
@[simp] theorem Rose.readsAll_interpolate (inOrder : Bool) : ∀ rs : List (Rose Node),
    readsAll inOrder (rs.map fun r => Rose.interpolate lookup r) = readsAll inOrder rs
  | [] => rfl
  | r :: rs => by
    rw [List.map_cons, Rose.readsAll, Rose.readsAll, Rose.assigned?_interpolate, Rose.reads_interpolate r,
      Rose.readsAll_interpolate inOrder rs]

end

end

end Stylesheet

import Stylesheet.Proofs.Outcome
import Stylesheet.Proofs.Value.RoundTrip
import Stylesheet.Proofs.Value.Splitting
import Stylesheet.Value.Substitution

/-! # Substitution and arguments

The parameters of a call are parted into arguments at their commas, and what is substituted in them may have commas
of its own. All the same, it does not matter whether they are parted before or after: among parameters, what takes the
place of a term parts the chain where this term does, and opens as many parentheses (**`Term.StandIn`**). A value with
commas is kept together there, and the others have none. It only has to be a value that is not empty and brings no
parentheses along (**`Substitution.Fills`**).

So the calls that stay, at any depth (**`Substitution.Leaves`**), have as many arguments as before
(**`Value.arguments_substitute`**). -/

namespace Stylesheet

/-- The substitution puts this value in the place of a variable or a call. -/
def Substitution.Gives (s : Substitution (Except Error)) (v : Value) : Prop :=
  (∃ name, s.ofVar name = .ok (some v)) ∨ ∃ name parameters, s.ofCall name parameters = .ok (some v)

/-- All its values have terms, and none of them is a parenthesis. -/
def Substitution.Fills (s : Substitution (Except Error)) : Prop :=
  ∀ v, s.Gives v → v ≠ [] ∧ ∀ t ∈ v, t ≠ .op .leftParen ∧ t ≠ .op .rightParen

/-- The substitution leaves a call of these parameters in a chain, at any depth. -/
inductive Substitution.Leaves (s : Substitution (Except Error)) (name : String) (parameters : Value) : Value → Prop
  | here {v : Value} (mem : .call name parameters ∈ v) (left : s.ofCall name parameters = .ok none) :
    Leaves s name parameters v
  | parameter {v outer : Value} {outerName : String} (mem : .call outerName outer ∈ v)
    (left : s.ofCall outerName outer = .ok none) (inside : Leaves s name parameters outer) :
    Leaves s name parameters v
  | item {v items : Value} (mem : .list items ∈ v) (inside : Leaves s name parameters items) :
    Leaves s name parameters v

section

variable {s : Substitution (Except Error)} {nested : Bool} {t u : Term} {v w p q ws : Value} {name : String} {e : Error}

/-! ## Single terms -/

/-- A call that is left in place has its parameters substituted in. -/
theorem Term.substitute_call_of_left {ps : Value} (left : s.ofCall name ps = .ok none) :
    (Term.call name ps).substitute s nested = (Value.substitute s true ps).map fun qs => [.call name qs] := by
  unfold Term.substitute
  rw [left]
  cases Value.substitute s true ps <;> rfl

/-- In a list, substitution takes place in its items, as nested ones. -/
theorem Term.substitute_list (items : Value) :
    (Term.list items).substitute s nested = (Value.substitute s true items).map fun others => [.list others] := by
  unfold Term.substitute
  cases Value.substitute s true items <;> rfl

/-- What can take the place of a term: a value; a call or a list with other contents; or the term itself. -/
inductive Term.Becomes (s : Substitution (Except Error)) (nested : Bool) : Term → Value → Prop
  | value {t : Term} {v : Value} (given : s.Gives v) (comma : t.isComma = false) (opens : t.opens = 0) :
    Becomes s nested t (Value.spliced nested v)
  | call {name : String} {ps qs : Value} (left : s.ofCall name ps = .ok none)
    (inner : Value.substitute s true ps = .ok qs) : Becomes s nested (.call name ps) [.call name qs]
  | list {items others : Value} (inner : Value.substitute s true items = .ok others) :
    Becomes s nested (.list items) [.list others]
  | same {t : Term} (call : ∀ name ps, t ≠ .call name ps) (list : ∀ items, t ≠ .list items) : Becomes s nested t [t]

/-- What a term is replaced by is described by what it becomes. -/
theorem Term.becomes (h : t.substitute s nested = .ok ws) : t.Becomes s nested ws := by
  cases t with
  | number | color | ident | str | op =>
    unfold Term.substitute at h
    cases h
    exact .same (by simp) (by simp)
  | var name =>
    unfold Term.substitute at h
    obtain ⟨_ | v, given, h⟩ := Outcome.bind_eq_ok_iff.1 h <;> cases h
    · exact .same (by simp) (by simp)
    · exact .value (.inl ⟨name, given⟩) rfl rfl
  | call name ps =>
    cases left : s.ofCall name ps with
    | error e =>
      unfold Term.substitute at h
      rw [left] at h
      cases h
    | ok given =>
      cases given with
      | none =>
        rw [substitute_call_of_left left] at h
        obtain ⟨qs, inner, rfl⟩ := Outcome.map_eq_ok_iff.1 h
        exact .call left inner
      | some v =>
        unfold Term.substitute at h
        rw [left] at h
        cases h
        exact .value (.inr ⟨name, ps, left⟩) rfl rfl
  | list items =>
    rw [substitute_list] at h
    obtain ⟨others, inner, rfl⟩ := Outcome.map_eq_ok_iff.1 h
    exact .list inner

/-- Terms that part a chain where a term does, and open as many parentheses. -/
structure Term.StandIn (t : Term) (ws : Value) : Prop where
  nonempty : ws ≠ []
  opens : Value.opens ws = t.opens
  partsFrom : ∀ depth, Value.partsFrom depth ws = (t.isComma && depth == 0)

/-- Every term stands in for itself. -/
theorem Term.standIn_self (t : Term) : t.StandIn [t] :=
  ⟨List.cons_ne_nil _ _, by simp, fun depth => by simp [Value.partsFrom]⟩

/-- Terms that neither part nor open stand in for one another. -/
theorem Term.standIn_of_forall (comma : t.isComma = false) (opens : t.opens = 0) (nonempty : ws ≠ [])
    (all : ∀ u ∈ ws, u.isComma = false ∧ u.opens = 0) : t.StandIn ws := by
  refine ⟨nonempty, ?_, fun depth => ?_⟩
  · rw [opens]
    exact List.sum_eq_zero (List.forall_mem_map.2 fun u hu => (all u hu).2)
  · rw [comma, Bool.false_and]
    induction ws generalizing depth with
    | nil => exact absurd rfl nonempty
    | cons u us ih =>
      rw [Value.partsFrom, (all u (.head _)).1, Bool.false_and, Bool.false_or]
      cases us with
      | nil => rfl
      | cons => exact ih (List.cons_ne_nil _ _) (fun u hu => all u (.tail _ hu)) _

/-- Only parentheses open or close. -/
theorem Term.opens_eq_zero (left : t ≠ .op .leftParen) (right : t ≠ .op .rightParen) : t.opens = 0 := by
  unfold Term.opens
  split
  · exact absurd rfl left
  · exact absurd rfl right
  · rfl

/-- Among parameters, whatever takes the place of a term stands in for it. -/
theorem Term.Becomes.standIn (fills : s.Fills) (h : t.Becomes s true ws) : t.StandIn ws := by
  cases h with
  | @value t v given comma opens =>
    obtain ⟨nonempty, free⟩ := fills v given
    unfold Value.spliced
    split
    next =>
      refine Term.standIn_of_forall comma opens (List.cons_ne_nil _ _) fun u hu => ?_
      rw [List.mem_singleton.1 hu]
      exact ⟨rfl, rfl⟩
    next together =>
      refine Term.standIn_of_forall comma opens nonempty fun u hu => ?_
      -- the value has no comma, or it would have been kept together
      rw [Bool.true_and] at together
      exact ⟨Bool.eq_false_iff.2 fun comma => together (List.any_eq_true.2 ⟨u, hu, comma⟩),
        Term.opens_eq_zero (free u hu).1 (free u hu).2⟩
  | call | list => exact Term.standIn_of_forall rfl rfl (List.cons_ne_nil _ _) (by simp [Term.opens, Term.isComma])
  | same => exact t.standIn_self

/-! ## Chains -/

/-- A chain is substituted term by term, and what comes of them stands one after the other. -/
theorem Value.substitute_cons_eq_ok_iff {ts : Value} : substitute s nested (t :: ts) = .ok q ↔
    ∃ ws rest, t.substitute s nested = .ok ws ∧ substitute s nested ts = .ok rest ∧ ws ++ rest = q := by
  rw [substitute]
  constructor
  · intro h
    obtain ⟨ws, first, h⟩ := Outcome.bind_eq_ok_iff.1 h
    obtain ⟨rest, others, h⟩ := Outcome.bind_eq_ok_iff.1 h
    exact ⟨ws, rest, first, others, Except.ok.inj h⟩
  · rintro ⟨ws, rest, first, others, rfl⟩
    rw [first, others]
    rfl

/-- Each term of the result takes the place of one of the chain. -/
theorem Value.exists_becomes_of_mem (h : substitute s nested p = .ok q) (mem : u ∈ q) :
    ∃ t ∈ p, ∃ ws, t.Becomes s nested ws ∧ u ∈ ws := by
  induction p generalizing q with
  | nil =>
    cases h
    cases mem
  | cons t ts ih =>
    obtain ⟨ws, rest, first, others, rfl⟩ := substitute_cons_eq_ok_iff.1 h
    rcases List.mem_append.1 mem with mem | mem
    · exact ⟨t, .head _, ws, Term.becomes first, mem⟩
    · obtain ⟨t', ht', found⟩ := ih others mem
      exact ⟨t', .tail _ ht', found⟩

/-- Each term of the chain gives way to terms of the result. -/
theorem Value.exists_substitute_of_mem (h : substitute s nested p = .ok q) (mem : t ∈ p) :
    ∃ ws, t.substitute s nested = .ok ws ∧ ∀ u ∈ ws, u ∈ q := by
  induction p generalizing q with
  | nil => cases mem
  | cons t' ts ih =>
    obtain ⟨ws, rest, first, others, rfl⟩ := substitute_cons_eq_ok_iff.1 h
    rcases List.mem_cons.1 mem with rfl | mem
    · exact ⟨ws, first, fun u => List.mem_append_left rest⟩
    · obtain ⟨ws', done, sub⟩ := ih others mem
      exact ⟨ws', done, fun u hu => List.mem_append_right ws (sub u hu)⟩

/-- Nothing is substituted in an empty chain, and nothing else becomes one. -/
theorem Value.eq_nil_iff_of_substitute (fills : s.Fills) (h : substitute s true p = .ok q) : q = [] ↔ p = [] := by
  cases p with
  | nil =>
    cases h
    simp
  | cons t ts =>
    obtain ⟨ws, rest, first, -, rfl⟩ := substitute_cons_eq_ok_iff.1 h
    simp [((Term.becomes first).standIn fills).nonempty]

/-! ## Parting and substituting -/

/-- Where the argument begun cannot be substituted in, neither can all arguments. -/
theorem Value.mapM_argumentsFrom_error (depth : Int) (current v : Value)
    (failed : substitute s true current.reverse = .error e) :
    (argumentsFrom depth current v).mapM (substitute s true) = .error e := by
  have begun : current.isEmpty = false := by
    cases current with
    | nil => cases failed
    | cons => rfl
  induction v generalizing depth current with
  | nil =>
    rw [argumentsFrom, begun, if_neg Bool.false_ne_true, List.mapM_cons, failed]
    rfl
  | cons t v ih =>
    rw [argumentsFrom_term]
    split
    · rw [begun, if_neg Bool.false_ne_true, List.singleton_append, List.mapM_cons, failed]
      rfl
    · refine ih _ (t :: current) ?_ rfl
      rw [List.reverse_cons, substitute_append, failed]
      rfl

/-- An argument that is begun with terms is substituted in; one without terms is none before and after. -/
theorem Value.mapM_begun (fills : s.Fills) {current done : Value}
    (begun : substitute s true current.reverse = .ok done.reverse) :
    (if current.isEmpty then [] else [current.reverse]).mapM (substitute s true) =
      .ok (if done.isEmpty then [] else [done.reverse]) := by
  have same := eq_nil_iff_of_substitute fills begun
  rw [List.reverse_eq_nil_iff, List.reverse_eq_nil_iff] at same
  have empty : done.isEmpty = current.isEmpty := by rw [Bool.eq_iff_iff, List.isEmpty_iff, List.isEmpty_iff, same]
  rw [empty]
  cases current.isEmpty with
  | true => rfl
  | false =>
    rw [if_neg Bool.false_ne_true, if_neg Bool.false_ne_true, List.mapM_cons, begun]
    rfl

/-- To part the rest of a chain and substitute in each part is to substitute in the rest and part what comes of it,
with what has come of the argument begun in front. -/
theorem Value.mapM_argumentsFrom (fills : s.Fills) (depth : Int) (current done v : Value)
    (begun : substitute s true current.reverse = .ok done.reverse) :
    (argumentsFrom depth current v).mapM (substitute s true) =
      (substitute s true v).map (argumentsFrom depth done) := by
  induction v generalizing depth current done with
  | nil => exact mapM_begun fills begun
  | cons t v ih =>
    rw [argumentsFrom_term, substitute]
    split
    next here =>
      -- the chain is parted at this comma, which stays a comma: the argument begun ends in front of it
      have rest := ih 0 [] [] rfl
      rw [Bool.and_eq_true, beq_iff_eq, Term.isComma_iff] at here
      obtain ⟨rfl, rfl⟩ := here
      have comma : Term.substitute s true (.op .comma) = .ok [.op .comma] := by
        unfold Term.substitute
        rfl
      rw [List.mapM_append, mapM_begun fills begun, rest, comma]
      cases substitute s true v with
      | error e => rfl
      | ok w => exact congrArg Except.ok (argumentsFrom_term 0 done (.op .comma) w).symm
    next notHere =>
      cases first : t.substitute s true with
      | error e =>
        have failed : substitute s true (t :: current).reverse = .error e := by
          rw [List.reverse_cons, substitute_append, begun, substitute, first]
          rfl
        rw [mapM_argumentsFrom_error _ _ _ failed]
        rfl
      | ok ws =>
        -- no comma that parts has come in, so what stands in goes on the argument begun
        have standIn := (Term.becomes first).standIn fills
        have whole : partsFrom depth ws = false := by
          rw [standIn.partsFrom, Bool.eq_false_iff]
          exact notHere
        have more : substitute s true (t :: current).reverse = .ok (ws.reverse ++ done).reverse := by
          rw [List.reverse_cons, substitute_append, begun, substitute, first, List.reverse_append, List.reverse_reverse]
          exact congrArg (fun ws => Except.ok (done.reverse ++ ws)) (List.append_nil ws)
        have next (w : Value) : argumentsFrom depth done (ws ++ w) =
            argumentsFrom (depth + t.opens) (ws.reverse ++ done) w := by
          rw [argumentsFrom_of_partsFrom whole, standIn.opens]
        rw [ih _ _ _ more]
        cases substitute s true v with
        | error e => rfl
        | ok w => exact congrArg Except.ok (next w).symm

/-- Parameters have as many arguments after the substitution as before. -/
theorem Value.length_arguments_of_substitute (fills : s.Fills) (h : substitute s true p = .ok q) :
    q.arguments.length = p.arguments.length := by
  have parted := mapM_argumentsFrom fills 0 [] [] p rfl
  rw [h] at parted
  exact Outcome.length_of_mapM parted

/-! ## Calls that stay -/

/-- A call that is left in a chain is found in the result, with its parameters substituted in. -/
theorem Substitution.Leaves.exists_occurs {ps : Value} (left : s.Leaves name ps p)
    (h : Value.substitute s nested p = .ok q) :
    ∃ qs, Value.substitute s true ps = .ok qs ∧ Occurs (.call name qs) q := by
  induction left generalizing nested q with
  | here mem left =>
    obtain ⟨ws, done, sub⟩ := Value.exists_substitute_of_mem h mem
    rw [Term.substitute_call_of_left left] at done
    obtain ⟨qs, inner, rfl⟩ := Outcome.map_eq_ok_iff.1 done
    exact ⟨qs, inner, .here (sub _ (List.mem_singleton_self _))⟩
  | parameter mem left _ ih =>
    obtain ⟨ws, done, sub⟩ := Value.exists_substitute_of_mem h mem
    rw [Term.substitute_call_of_left left] at done
    obtain ⟨others, inner, rfl⟩ := Outcome.map_eq_ok_iff.1 done
    obtain ⟨qs, same, inside⟩ := ih inner
    exact ⟨qs, same, .parameter (sub _ (List.mem_singleton_self _)) inside⟩
  | item mem _ ih =>
    obtain ⟨ws, done, sub⟩ := Value.exists_substitute_of_mem h mem
    rw [Term.substitute_list] at done
    obtain ⟨others, inner, rfl⟩ := Outcome.map_eq_ok_iff.1 done
    obtain ⟨qs, same, inside⟩ := ih inner
    exact ⟨qs, same, .item (sub _ (List.mem_singleton_self _)) inside⟩

/-- What stands in a value stands in it when it is spliced in. -/
theorem Occurs.of_spliced {ps : Value} (h : Occurs (.call name ps) (Value.spliced nested v)) :
    Occurs (.call name ps) v := by
  unfold Value.spliced at h
  split at h
  · cases h with
    | here mem => cases List.mem_singleton.1 mem
    | parameter mem => cases List.mem_singleton.1 mem
    | item mem inside =>
      cases List.mem_singleton.1 mem
      exact inside
  · exact h

/-- A call in the result stands in a value of the substitution, or it was left in the chain. -/
theorem Value.occurs_or_leaves {qs : Value} (occurs : Occurs (.call name qs) q) (h : substitute s nested p = .ok q) :
    (∃ v, s.Gives v ∧ Occurs (.call name qs) v) ∨ ∃ ps, s.Leaves name ps p ∧ substitute s true ps = .ok qs := by
  induction occurs generalizing nested p with
  | here mem =>
    -- every term of the result comes of one term of the chain
    obtain ⟨t, ht, ws, becomes, mem⟩ := exists_becomes_of_mem h mem
    cases becomes with
    | value given => exact .inl ⟨_, given, (Occurs.here mem).of_spliced⟩
    | call left inner =>
      cases List.mem_singleton.1 mem
      exact .inr ⟨_, .here ht left, inner⟩
    | list => cases List.mem_singleton.1 mem
    | same notCall => exact absurd (List.mem_singleton.1 mem).symm (notCall _ _)
  | parameter mem inside ih =>
    obtain ⟨t, ht, ws, becomes, mem⟩ := exists_becomes_of_mem h mem
    cases becomes with
    | value given => exact .inl ⟨_, given, (Occurs.parameter mem inside).of_spliced⟩
    | call left inner =>
      cases List.mem_singleton.1 mem
      exact (ih inner).imp_right fun ⟨ps, leaves, same⟩ => ⟨ps, .parameter ht left leaves, same⟩
    | list => cases List.mem_singleton.1 mem
    | same notCall => exact absurd (List.mem_singleton.1 mem).symm (notCall _ _)
  | item mem inside ih =>
    obtain ⟨t, ht, ws, becomes, mem⟩ := exists_becomes_of_mem h mem
    cases becomes with
    | value given => exact .inl ⟨_, given, (Occurs.item mem inside).of_spliced⟩
    | call => cases List.mem_singleton.1 mem
    | list inner =>
      cases List.mem_singleton.1 mem
      exact (ih inner).imp_right fun ⟨ps, leaves, same⟩ => ⟨ps, .item ht leaves, same⟩
    | same _ notList => exact absurd (List.mem_singleton.1 mem).symm (notList _)

/-- **Substitution does not change how parameters are parted**, whatever commas the values have: to substitute and then
part is to part and then substitute in each argument, failures included. So every call that is left in a chain, at any
depth, keeps the number of its arguments; and all calls in the result are such calls, or stand in a value. -/
theorem Value.arguments_substitute (fills : s.Fills) (p : Value) :
    (substitute s true p).map arguments = p.arguments.mapM (substitute s true) ∧
    ∀ nested q, substitute s nested p = .ok q →
      (∀ name ps, s.Leaves name ps p → ∃ qs, substitute s true ps = .ok qs ∧ Occurs (.call name qs) q ∧
        qs.arguments.length = ps.arguments.length) ∧
      ∀ name (qs : Value), Occurs (.call name qs) q → (∃ v, s.Gives v ∧ Occurs (.call name qs) v) ∨
        ∃ ps, s.Leaves name ps p ∧ substitute s true ps = .ok qs ∧ qs.arguments.length = ps.arguments.length := by
  refine ⟨(mapM_argumentsFrom fills 0 [] [] p rfl).symm, fun nested q h => ⟨fun name ps left => ?_, ?_⟩⟩
  · obtain ⟨qs, same, occurs⟩ := left.exists_occurs h
    exact ⟨qs, same, occurs, length_arguments_of_substitute fills same⟩
  · intro name qs occurs
    exact (occurs_or_leaves occurs h).imp_right fun ⟨ps, left, same⟩ =>
      ⟨ps, left, same, length_arguments_of_substitute fills same⟩

end

/-- A list of fonts, put in front of a parenthesis that stays open and into a call behind it. -/
theorem Value.arguments_substitute_fonts :
    let fonts : Value := [.ident "Helvetica", .op .comma, .ident "Arial"]
    let s : Substitution (Except Error) := ⟨fun name => .ok (if name = "fonts" then some fonts else none),
      fun _ _ => .ok none⟩
    let p : Value := [.var "fonts", .op .comma, .op .leftParen, .call "f" [.ident "a", .op .comma, .var "fonts"]]
    s.Fills ∧
      (substitute s true p).map arguments =
        .ok [[.list fonts], [.op .leftParen, .call "f" [.ident "a", .op .comma, .list fonts]]] ∧
      ∃ q qs, substitute s false p = .ok q ∧ Occurs (.call "f" qs) q ∧ arguments qs = [[.ident "a"], [.list fonts]] ∧
        (arguments qs).length = (arguments [.ident "a", .op .comma, .var "fonts"]).length := by
  intro fonts s p
  have fills : s.Fills := by
    rintro v (⟨name, given⟩ | ⟨_, _, given⟩)
    · by_cases known : name = "fonts"
      · have same : fonts = v := by simpa [s, known] using given
        subst same
        exact ⟨List.cons_ne_nil _ _, by simp [fonts]⟩
      · simp [s, known] at given
    · simp [s] at given
  obtain ⟨parted, calls⟩ := Value.arguments_substitute fills p
  have result : substitute s false p = .ok (fonts ++
      [.op .comma, .op .leftParen, .call "f" [.ident "a", .op .comma, .list fonts]]) := rfl
  obtain ⟨qs, same, occurs, length⟩ := (calls false _ result).1 "f" [.ident "a", .op .comma, .var "fonts"]
    (.here (by simp [p]) rfl)
  cases same
  exact ⟨fills, parted.trans rfl, _, _, result, occurs, rfl, length⟩

end Stylesheet

import Stylesheet.Proofs.Interpolation.Visits

/-! # Placeholders in copied bodies

The body of a loop, a mixin or a function has the placeholders of the innermost variables resolved when it
is copied, and when loops are nested it is copied several times. What is left is resolved when the walk
comes to it. That comes to the same as resolving all placeholders then, as long as what was resolved
early (**`Lookup.AgreesWith`**) is still what its variables stand for (`traverse_resolves_copied`). -/

namespace Stylesheet

open Expansion

variable {σ : Type}

namespace Interpolation

/-! ## Clean texts -/

/-- Every opening brace in a text belongs to a placeholder. -/
inductive Clean : List Char → Prop
  | nil : Clean []
  | char {c : Char} {cs : List Char} (other : c ≠ '\x7b') (rest : Clean cs) : Clean (c :: cs)
  | placeholder {name placeholder : String} {cs : List Char} (written : IsPlaceholder name placeholder)
    (rest : Clean cs) : Clean (placeholder.toList ++ cs)

/-- Characters other than opening braces may stand in front of a clean text. -/
theorem Clean.append_left {l cs : List Char} (free : '\x7b' ∉ l) (h : Clean cs) : Clean (l ++ cs) := by
  induction l with
  | nil => exact h
  | cons c l ih =>
    rw [List.mem_cons, not_or] at free
    exact .char (Ne.symm free.1) (ih free.2)

/-- A clean text does not begin with an opening brace. -/
theorem Clean.head_ne {cs : List Char} (h : Clean cs) : cs.head? ≠ some '\x7b' := by
  cases h with
  | nil => nofun
  | char other => simpa using other
  | placeholder written =>
    obtain ⟨-, before, after, -, written⟩ := written
    rw [written]
    simp

/-- No placeholder begins right in front of a clean text. -/
theorem Clean.uncut {cs : List Char} (h : Clean cs) (c : Char) : cutPlaceholder? (c :: cs) = none := by
  have head := h.head_ne
  cases cs with
  | nil => simp [cutPlaceholder?]
  | cons d cs =>
    have other : d ≠ '\x7b' := by simpa using head
    simp [cutPlaceholder?, other]

variable {lookup : Lookup}

/-- Characters other than opening braces are kept in front of a clean text. -/
theorem Clean.resolveChars_append {l cs : List Char} (free : '\x7b' ∉ l) (h : Clean cs) :
    resolveChars lookup (l ++ cs) = l ++ resolveChars lookup cs := by
  induction l with
  | nil => rfl
  | cons c l ih =>
    rw [List.mem_cons, not_or] at free
    rw [List.cons_append, resolveChars_cons ((h.append_left free.2).uncut c), ih free.2, List.cons_append]

/-- A placeholder without a value is kept. -/
theorem resolveChars_placeholder_of_none {name placeholder : String} (none : lookup name = none)
    (h : IsPlaceholder name placeholder) (rest : List Char) :
    resolveChars lookup (placeholder.toList ++ rest) =
      placeholder.toList ++ resolveChars lookup rest := by
  have cut := cutPlaceholder?_placeholder h rest
  obtain ⟨named, before, after, blank, written⟩ := h
  rw [List.all_eq_true] at blank
  -- behind its first character there is no other place where one could begin
  have inside : ∀ c ∈ '\x7b' :: (before ++ '$' :: (name.toList ++ (after ++ ['\x7d']))), c ≠ '#' := by
    rintro c hc rfl
    simp only [List.mem_cons, List.mem_append, List.not_mem_nil, or_false] at hc
    rcases hc with hc | hc | hc | hc | hc | hc
    · exact absurd hc (by decide)
    · exact absurd (blank '#' (by simp [hc])) (by decide)
    · exact absurd hc (by decide)
    · exact absurd (named.chars '#' hc) (by decide)
    · exact absurd (blank '#' (by simp [hc])) (by decide)
    · exact absurd hc (by decide)
  have kept (l : List Char) (free : ∀ c ∈ l, c ≠ '#') :
      resolveChars lookup (l ++ rest) = l ++ resolveChars lookup rest := by
    induction l with
    | nil => rfl
    | cons c l ih =>
      have other : c ≠ '#' := free c (.head _)
      rw [List.cons_append, resolveChars_cons (by simp [cutPlaceholder?, other]),
        ih fun c hc => free c (.tail _ hc), List.cons_append]
  rw [written, List.cons_append] at cut ⊢
  rw [resolveChars, Text.replaceMatches_of_none (by rw [writing, cut]; simp [none])]
  exact congrArg _ (kept _ inside)

end Interpolation

/-! ## Resolving early -/

/-- What a lookup knows is written without opening braces, and the same stands for it in another one. -/
def Lookup.AgreesWith (early live : Lookup) : Prop :=
  ∀ name value, early name = some value → '\x7b' ∉ value.unquoted.toList ∧
    ∃ value', live name = some value' ∧ value'.unquoted = value.unquoted

namespace Interpolation

/-- Resolving some placeholders of a clean text early, by what is still their value later, makes no
difference, and leaves the text clean. -/
theorem Clean.resolveChars_resolveChars {early live : Lookup} (agrees : early.AgreesWith live)
    {cs : List Char} (h : Clean cs) :
    Clean (resolveChars early cs) ∧
      resolveChars live (resolveChars early cs) = resolveChars live cs := by
  induction h with
  | nil =>
    rw [resolveChars_nil]
    exact ⟨.nil, rfl⟩
  | @char c cs other rest ih =>
    rw [resolveChars_cons (rest.uncut c), resolveChars_cons (rest.uncut c),
      resolveChars_cons (ih.1.uncut c), ih.2]
    exact ⟨.char other ih.1, rfl⟩
  | @placeholder name placeholder cs written rest ih =>
    -- a placeholder that is known early is known later with the same text; one that is not waits for the later lookup
    cases known : early name with
    | none =>
      rw [resolveChars_placeholder_of_none known written]
      refine ⟨.placeholder written ih.1, ?_⟩
      cases found : live name with
      | none =>
        rw [resolveChars_placeholder_of_none found written, resolveChars_placeholder_of_none found written, ih.2]
      | some value => rw [resolveChars_placeholder found written, resolveChars_placeholder found written, ih.2]
    | some value =>
      obtain ⟨free, value', found, same⟩ := agrees name value known
      rw [resolveChars_placeholder known written, resolveChars_placeholder found written,
        ih.1.resolveChars_append free, ih.2, same]
      exact ⟨ih.1.append_left free, rfl⟩

end Interpolation

open Interpolation in
/-- A text that was interpolated early is interpolated later as it would have been without that, if nothing that is
filled in brings a placeholder. -/
theorem interpolate_interpolate {early live : Lookup} (agrees : early.AgreesWith live) {text : String}
    (clean : Clean text.toList) :
    Clean (interpolate early text).toList ∧
      interpolate live (interpolate early text) = interpolate live text := by
  obtain ⟨clean', same⟩ := clean.resolveChars_resolveChars agrees
  have early' : (interpolate early text).toList = resolveChars early text.toList := String.toList_ofList
  refine ⟨by rwa [early'], ?_⟩
  show String.ofList (resolveChars live (interpolate early text).toList) = _
  rw [early', same]
  rfl

/-! ## Nodes -/

namespace Node

/-- The texts of a node that may hold placeholders. -/
def texts : Node → List String
  | .block selectors => selectors
  | .declaration name _ _ => [name]
  | .nesting name => [name]
  | .media query => [query]
  | .plain text => [text]
  | .keyframeBlock selectors => selectors
  | .extend targets => targets
  | .keyframes _ name => [name]
  | .importing i => [i.uri]
  | _ => []

/-- A node with other texts. -/
def mapTexts (f : String → String) : Node → Node
  | .block selectors => .block (selectors.map f)
  | .declaration name value important => .declaration (f name) value important
  | .nesting name => .nesting (f name)
  | .media query => .media (f query)
  | .plain text => .plain (f text)
  | .keyframeBlock selectors => .keyframeBlock (selectors.map f)
  | .extend targets => .extend (targets.map f)
  | .keyframes keyword name => .keyframes keyword (f name)
  | .importing i => .importing { i with uri := f i.uri }
  | n => n

variable {f g : String → String} {n : Node}

/-- Interpolating a node is interpolating each of its texts. -/
theorem interpolate_eq_mapTexts (lookup : Lookup) (n : Node) :
    n.interpolate lookup = n.mapTexts (Stylesheet.interpolate lookup) := by cases n <;> rfl

/-- The texts of a changed node are the texts changed. -/
theorem texts_mapTexts : (n.mapTexts f).texts = n.texts.map f := by cases n <;> rfl

/-- Changing texts does not change whether they are to be kept. -/
theorem keepsTexts_mapTexts : (n.mapTexts f).keepsTexts = n.keepsTexts := by cases n <;> rfl

/-- Changing texts twice is changing them once by both changes. -/
theorem mapTexts_mapTexts : (n.mapTexts f).mapTexts g = n.mapTexts (g ∘ f) := by
  cases n <;> simp [mapTexts]

/-- Changes that agree on the texts of a node change it alike. -/
theorem mapTexts_congr (h : ∀ text ∈ n.texts, f text = g text) : n.mapTexts f = n.mapTexts g := by
  cases n <;> simp_all [mapTexts, texts]

/-- A node that lookups have been used on one after the other. -/
def interpolateAll (early : List Lookup) (n : Node) : Node :=
  early.foldl (fun n lookup => n.interpolate lookup) n

/-- Interpolating a node early does not change whether its texts are to be kept. -/
theorem keepsTexts_interpolateAll (early : List Lookup) (n : Node) :
    (n.interpolateAll early).keepsTexts = n.keepsTexts := by
  induction early generalizing n with
  | nil => rfl
  | cons lookup early ih =>
    rw [interpolateAll, List.foldl_cons]
    exact (ih _).trans (by rw [interpolate_eq_mapTexts, keepsTexts_mapTexts])

/-- Resolving some placeholders of a node early, by what are still their values later, makes no difference. -/
theorem interpolate_interpolateAll {early : List Lookup} {live : Lookup}
    (agree : ∀ lookup ∈ early, lookup.AgreesWith live)
    (clean : ∀ text ∈ n.texts, Interpolation.Clean text.toList) :
    (n.interpolateAll early).interpolate live = n.interpolate live := by
  induction early generalizing n with
  | nil => rfl
  | cons lookup early ih =>
    have one (text : String) (h : text ∈ n.texts) :=
      interpolate_interpolate (agree lookup (.head _)) (clean text h)
    have clean' : ∀ text ∈ (n.interpolate lookup).texts, Interpolation.Clean text.toList := by
      rw [interpolate_eq_mapTexts, texts_mapTexts]
      intro text h
      obtain ⟨own, member, rfl⟩ := List.mem_map.1 h
      exact (one own member).1
    calc ((n.interpolate lookup).interpolateAll early).interpolate live
        = (n.interpolate lookup).interpolate live := ih (fun l hl => agree l (.tail _ hl)) clean'
      _ = n.mapTexts (Stylesheet.interpolate live ∘ Stylesheet.interpolate lookup) := by
        rw [interpolate_eq_mapTexts, interpolate_eq_mapTexts, mapTexts_mapTexts]
      _ = n.interpolate live := by
        rw [interpolate_eq_mapTexts]
        exact mapTexts_congr fun text h => (one text h).2

end Node

/-! ## Copies -/

/-- Every node of a copy is a node of the body, resolved, or as it stands inside of a definition. -/
theorem Rose.exists_of_mem_interpolate {lookup : Lookup} {r : Rose Node} {m : Node}
    (h : m ∈ (r.interpolate lookup).labels) : ∃ n ∈ r.labels, m = n ∨ m = n.interpolate lookup := by
  induction r with
  | mk n rs ih =>
    rw [Rose.interpolate] at h
    split at h
    · exact ⟨m, h, .inl rfl⟩
    · rw [Rose.labels_mk, List.flatMap_map, List.mem_cons, List.mem_flatMap] at h
      rcases h with rfl | ⟨r, hr, h⟩
      · exact ⟨n, Rose.label_mem_labels _, .inr rfl⟩
      · obtain ⟨n', hn, same⟩ := ih r hr h
        exact ⟨n', Rose.mem_labels_of_mem_children (r := ⟨n, rs⟩) hr hn, same⟩

/-! ## Expanding copies -/

/-- A bound variable evaluates to what it is bound to. -/
theorem evaluate_var (services : Services σ) (depth : Nat) {w : World σ} {name : String}
    {value : Value} (found : w.context.scope.get? name = some value) :
    (evaluate services (depth + 1) [.var name]).exec w = (.ok value, w) := by
  have known : ((walker services depth).live.ofVar name).exec w = (.ok (some value), w) := by
    show (Expansion.scope >>= fun s => pure (s.get? name)).exec w = _
    rw [exec_scope_bind, exec_pure, found]
  have substituted : ((walker services depth).replaceVariables [.var name]).exec w = (.ok value, w) := by
    rw [Walker.replaceVariables, Value.substitute, Value.substitute_nil, Term.substitute, exec_bind, exec_bind,
      known]
    simp
  rw [evaluate]
  show ((walker services depth).replaceVariables [.var name] >>= fun substituted => _).exec w = _
  rw [exec_bind, substituted]
  rfl

/-- **A body that is copied has its placeholders resolved like its values**: when a node is what its copies have
become by resolving some placeholders early, and what was resolved is still what the variables stand for,
expanding it leaves its texts as if all of their placeholders were resolved when the walk came to it, each
by the value that the variable evaluates to. -/
theorem traverse_resolves_copied (services : Services σ) (depth : Nat) (mode : Mode) {w w' : World σ}
    {top p id : NodeId} (linked : w.tree.LinkedFrom 0) (alone : w.tree.parent? top = none)
    (reached : w.tree.Reaches top p) (child : w.tree.parent? id = some p)
    (run : (traverse services depth id mode).exec w = (.ok .finished, w')) {n : Node}
    {early : List Lookup} (copied : w.tree.node id = n.interpolateAll early)
    (clean : ∀ text ∈ n.texts, Interpolation.Clean text.toList)
    (agree : ∀ lookup ∈ early, lookup.AgreesWith w.context.scope.get?) (resolving : n.keepsTexts = false) :
    Leaves services mode p id w w' (n.interpolate w.context.scope.get?) ∧
      ∀ name value placeholder, w.context.scope.get? name = some value → IsPlaceholder name placeholder →
        (evaluate services depth [.var name]).exec w = (.ok value, w) ∧
          ∀ l r, interpolate w.context.scope.get? (l ++ placeholder ++ r) =
            interpolate w.context.scope.get? l ++ value.unquoted ++
              interpolate w.context.scope.get? r := by
  obtain ⟨d, hd⟩ := reached.exists_depth linked alone child
  have leaves := traverse_leaves services depth mode linked hd child run
  rw [Node.resolve, copied, Node.keepsTexts_interpolateAll, if_neg (by simp [resolving]),
    Node.interpolate_interpolateAll agree clean] at leaves
  refine ⟨leaves, fun name value placeholder found h => ⟨?_, fun l r => interpolate_placeholder found h l r⟩⟩
  cases depth with
  | zero => cases run
  | succ depth => exact evaluate_var services depth found

/-- A copy of a media query whose first placeholder has been resolved early. -/
def copiedQuery : World Unit :=
  ⟨Tree.ofNodes [⟨.media "b and #\x7b$y\x7d", [⟨.comment "c", []⟩]⟩],
    { Context.empty with scope := (Scope.empty.define "x" [.ident "b"]).define "y" [.str "d"] }, ()⟩

/-- The query comes to what it would have come to with both placeholders. -/
theorem traverse_resolves_copied_query :
    ((traverse Services.plain 5 ⟨1⟩ .stylesheet).exec copiedQuery).2.tree.node ⟨1⟩ =
        (Node.media "#\x7b$x\x7d and #\x7b$y\x7d").interpolate copiedQuery.context.scope.get? ∧
      (evaluate Services.plain 5 [.var "x"]).exec copiedQuery = (.ok [.ident "b"], copiedQuery) := by
  have alone : copiedQuery.tree.parent? Tree.root = none := by decide +kernel
  have child : copiedQuery.tree.parent? ⟨1⟩ = some Tree.root := by decide +kernel
  have linked : copiedQuery.tree.LinkedFrom 0 := (Tree.ofNodes_isStylesheet _).linked
  have run : (traverse Services.plain 5 ⟨1⟩ .stylesheet).exec copiedQuery =
      (.ok .finished, ((traverse Services.plain 5 ⟨1⟩ .stylesheet).exec copiedQuery).2) :=
    Prod.ext rfl rfl
  have writtenx : IsPlaceholder "x" "#\x7b$x\x7d" := ⟨⟨by decide, by decide⟩, [], [], rfl, by decide⟩
  have writteny : IsPlaceholder "y" "#\x7b$y\x7d" := ⟨⟨by decide, by decide⟩, [], [], rfl, by decide⟩
  -- as the pass of a loop has bound it
  let early : Lookup := Bindings.lookup [⟨"x", [.ident "b"]⟩]
  have copied : copiedQuery.tree.node ⟨1⟩ =
      (Node.media "#\x7b$x\x7d and #\x7b$y\x7d").interpolateAll [early] :=
    congrArg Node.media (by decide +kernel)
  have clean : ∀ text ∈ (Node.media "#\x7b$x\x7d and #\x7b$y\x7d").texts, Interpolation.Clean text.toList := by
    intro text h
    rw [List.mem_singleton.1 h]
    exact .placeholder writtenx (.append_left (show '\x7b' ∉ " and ".toList by decide)
      (.placeholder writteny .nil))
  have agree : ∀ lookup ∈ [early], lookup.AgreesWith copiedQuery.context.scope.get? := by
    intro lookup h name value known
    rw [List.mem_singleton.1 h] at known
    by_cases hx : name = "x"
    · subst hx
      cases known
      exact ⟨by decide, _, rfl, rfl⟩
    · have unknown : early name = none := by simp [early, Bindings.lookup, Ne.symm hx]
      rw [unknown] at known
      cases known
  obtain ⟨⟨media, -⟩, values⟩ := traverse_resolves_copied Services.plain 5 .stylesheet linked alone .self child
    run copied clean agree rfl
  exact ⟨media, (values "x" [.ident "b"] _ rfl writtenx).1⟩

/-- A loop in a loop over the same variable. -/
def shadowingLoops : Tree := Tree.ofNodes
  [⟨.each "i" [.ident "a", .ident "b"], [⟨.each "i" [.ident "c", .ident "d"],
    [⟨.block [".x-#\x7b$i\x7d"], [⟨.declaration "w" [.var "i"] false, []⟩]⟩]⟩]⟩]

/-- The values are those of the inner loop, but the placeholders have been resolved by the outer one. -/
theorem compile_resolves_shadowed :
    let run := (compile Services.plain 9).exec ⟨shadowingLoops, .empty, ()⟩
    run.1 = .ok () ∧
      run.2.tree.outline = ".x-a\n  w: c\n.x-a\n  w: d\n.x-b\n  w: c\n.x-b\n  w: d" :=
  ⟨by decide +kernel, by decide +kernel⟩

end Stylesheet

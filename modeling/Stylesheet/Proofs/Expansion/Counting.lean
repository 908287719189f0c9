import Stylesheet.Proofs.Expansion.Exchange
import Stylesheet.Proofs.Expansion.Unrolling

/-! # What counting loops stand for

Stylesheets in which counting loops are cut elsewhere are compiled alike (`compile_recut`). A counting loop
stands for its passes, and so it can be cut in two anywhere between its bounds (`counting_unrolls`). A body that
returns a value is run once only (`counting_returns_early`). -/

namespace Stylesheet

open Expansion

/-! ## Loops cut in two -/

/-- Two stylesheets are the same but for where loops are cut, of those that may be. -/
structure Tree.SourcesRecut (cuts : Counting → Prop) (t t' : Tree) : Prop where
  stylesheet : t.IsStylesheet
  stylesheet' : t'.IsStylesheet
  roses : ∃ rs rs', t.rose t.size root = ⟨.root, rs⟩ ∧ t'.rose t'.size root = ⟨.root, rs'⟩ ∧
    Rose.Recut (Node.Cut cuts) rs rs'

/-- In trees that are planted under a root, loops may be cut elsewhere. -/
theorem Tree.SourcesRecut.ofNodes {cuts : Counting → Prop} {rs rs' : List (Rose Node)}
    (recut : Rose.Recut (Node.Cut cuts) rs rs') :
    (Tree.ofNodes rs).SourcesRecut cuts (Tree.ofNodes rs') :=
  ⟨ofNodes_isStylesheet rs, ofNodes_isStylesheet rs', rs, rs', rose_ofNodes rs, rose_ofNodes rs', recut⟩

/-- Both outlines are the same up to the loops that are cut. -/
theorem Tree.SourcesRecut.exists_outlines {cuts : Counting → Prop} {t t' : Tree} (h : t.SourcesRecut cuts t') :
    ∃ rs rs', t.outline = Rose.outline rs ∧ t'.outline = Rose.outline rs' ∧ Rose.Recut (Node.Cut cuts) rs rs' := by
  obtain ⟨rs, rs', read, read', recut⟩ := h.roses
  exact ⟨rs, rs', by rw [outline_eq, read, Rose.outline], by rw [outline_eq, read', Rose.outline], recut⟩

/-- Where none of the loops is left that may be cut, and no half of one, both have the same outline. -/
theorem Tree.SourcesRecut.outline_eq {cuts : Counting → Prop} {t t' : Tree} (h : t.SourcesRecut cuts t')
    (none : ∀ x ∈ t.descendants root, ¬(t.node x).InCut cuts) : t'.outline = t.outline := by
  obtain ⟨rs, rs', read, read', recut⟩ := h.roses
  obtain ⟨ss, site⟩ := h.stylesheet.exists_site
  obtain rfl : rs = ss.map (Rose.map t.node) := (Rose.mk.inj (read.symm.trans (h.stylesheet.rose_eq site))).2
  have plain : ∀ n ∈ (ss.map (Rose.map t.node)).flatMap Rose.labels, ¬n.InCut cuts := by
    intro n hn
    obtain ⟨r, hr, hn⟩ := List.mem_flatMap.1 hn
    obtain ⟨s, hs, rfl⟩ := List.mem_map.1 hr
    obtain ⟨x, hx, rfl⟩ := Rose.mem_labels_map.1 hn
    refine none x ?_
    rw [h.stylesheet.descendants_eq site]
    exact .tail _ (List.mem_flatMap.2 ⟨s, hs, hx⟩)
  -- a loop that is cut, or one of its halves, would be left in the tree
  rw [Tree.outline_eq, Tree.outline_eq, read, read', recut.eq_of_not_inCut plain]

/-- In two worlds the same variables and definitions are known, but for where loops are cut in definitions. -/
structure World.KnowsRecut {σ : Type} (cuts : Counting → Prop) (w w' : World σ) : Prop where
  context : w.context.bare.Recut cuts w'.context.bare
  loader : w.loader = w'.loader

section

variable {σ : Type} {services : Services σ} {depth : Nat} {cuts : Counting → Prop}

/-- What is known where derivations are matched is recut as it is there. -/
theorem World.KnowsRecut.of_alike {w w' v v' : World σ} (hv : v.Recut cuts v') (h : Alike (· = ·) w v)
    (h' : Alike (· = ·) w' v') : w.KnowsRecut cuts w' where
  context := by
    rw [h.bare, h'.bare]
    exact hv.context.bare
  loader := (h.loader.trans hv.loader).trans h'.loader.symm

/-- Compilations that show what was derived alike, but for where loops are cut, end alike. -/
theorem Shows.of_recut {x x' : Except Stop Unit × World σ} {D D' : Except Stop Yield × World σ}
    (h : Shows (· = ·) x D) (h' : Shows (· = ·) x' D') (stylesheet : ∀ u, x = (.ok (), u) → u.tree.IsStylesheet)
    (stylesheet' : ∀ u, x' = (.ok (), u) → u.tree.IsStylesheet)
    (derived : Matches (fun yield v yield' v' => yield.Recut cuts yield' ∧ v.Recut cuts v') (World.Recut cuts) D D') :
    Matches (fun _ u _ u' => u.tree.SourcesRecut cuts u'.tree ∧ u.KnowsRecut cuts u') (World.KnowsRecut cuts) x x' := by
  cases derived with
  | error recut =>
    cases h with
    | error alike =>
      cases h' with
      | error alike' => exact .error (.of_alike recut alike alike')
  | ok both =>
    obtain ⟨yields, recut⟩ := both
    cases h with
    | ok left =>
      cases h' with
      | ok left' =>
        obtain ⟨alike, made, rfl, rose⟩ := left
        obtain ⟨alike', made', rfl, rose'⟩ := left'
        refine .ok ⟨⟨stylesheet _ rfl, stylesheet' _ rfl, _, _, rose, rose', ?_⟩, .of_alike recut alike alike'⟩
        cases yields with
        | finished madeRecut =>
          -- both have noted the same extensions
          rw [recut.context.extensions]
          refine (Deriver.recut_foldl_extendMade madeRecut _).map ?_
          rintro _ _ _ ⟨hn⟩
          exact hn

/-- **Loops may be cut anywhere.** When two stylesheets are the same but for where counting loops are cut, to
compile the second one twice as deep ends as to compile the first one, unless that gives up for depth: both
fail with the same error, or both leave stylesheets that are the same but for where loops are cut. -/
theorem compile_recut (services : Services σ) {w w' : World σ} {depth' : Nat} (enough : 2 * depth ≤ depth')
    (sources : w.tree.SourcesRecut cuts w'.tree) (known : w.KnowsRecut cuts w') :
    ((compile services depth).exec w).1 = .error .tooDeep ∨
      Matches (fun _ u _ u' => u.tree.SourcesRecut cuts u'.tree ∧ u.KnowsRecut cuts u') (World.KnowsRecut cuts)
        ((compile services depth).exec w) ((compile services depth').exec w') := by
  obtain ⟨rs, rs', read, read', recut⟩ := sources.roses
  -- both compilations show derivations, and the second derivation covers the first one
  have shows : Shows (· = ·) ((compile services depth).exec w) _ :=
    compile_derives rfl services.loadsAlike_refl depth ⟨sources.stylesheet, read⟩ rfl
  have shows' : Shows (· = ·) ((compile services depth').exec w') _ :=
    compile_derives rfl services.loadsAlike_refl depth' ⟨sources.stylesheet', read'⟩ rfl
  have derives : Covers cuts (Yield.Recut cuts) ((deriver services depth).deriveChildren none .stylesheet rs)
      ((deriver services depth').deriveChildren none .stylesheet rs') :=
    (deriver_covers services enough).deriveChildren recut
  have unentered : w.unentered.Recut cuts w'.unentered := ⟨known.context, rfl, known.loader⟩
  refine (derives unentered).imp shows.fst_eq_error fun derived => ?_
  exact shows.of_recut shows' (fun _ => compile_isStylesheet sources.stylesheet)
    (fun _ => compile_isStylesheet sources.stylesheet') derived

/-- When a compilation has not given up for depth, the same stylesheet with its loops cut elsewhere ends with
the same result and with the same variables. If it succeeds, what is left is the same but for where loops are
cut that have not been reached, and so is the outline. -/
theorem compile_eq_of_recut {w w' u : World σ} {depth' : Nat} (enough : 2 * depth ≤ depth')
    (sources : w.tree.SourcesRecut cuts w'.tree) (known : w.KnowsRecut cuts w') {result : Except Stop Unit}
    (run : (compile services depth).exec w = (result, u)) (shallow : result ≠ .error .tooDeep) :
    ∃ u', (compile services depth').exec w' = (result, u') ∧ u.context.scope = u'.context.scope ∧
      u.KnowsRecut cuts u' ∧
      (result = .ok () → u.tree.SourcesRecut cuts u'.tree ∧
        (∃ rs rs', u.tree.outline = Rose.outline rs ∧ u'.tree.outline = Rose.outline rs' ∧
          Rose.Recut (Node.Cut cuts) rs rs') ∧
        ((∀ x ∈ u.tree.descendants Tree.root, ¬(u.tree.node x).InCut cuts) →
          u'.tree.outline = u.tree.outline)) := by
  have alike := compile_recut services enough sources known
  rw [run] at alike
  have matching := alike.resolve_left shallow
  revert matching
  rcases (compile services depth').exec w' with ⟨result', u'⟩
  intro matching
  cases matching with
  | error known => exact ⟨u', rfl, known.context.scope, known, by rintro ⟨⟩⟩
  | ok left =>
    obtain ⟨sources, known⟩ := left
    exact ⟨u', rfl, known.context.scope, known, fun _ => ⟨sources, sources.exists_outlines, sources.outline_eq⟩⟩

/-! ## Bodies that return -/

variable {l : LoopSite} {mode : Mode} {name : String} {outs new : List NodeId} {W : World σ} {returned : Value}
  {cs rest : List (Rose Node)}

/-- A pass that returns at once does not finish. -/
theorem LoopSite.Pass.not_finished {value : Value} {ending : Except Stop Flow × World σ}
    (h : l.Pass (walker services depth) mode name value outs W new ending)
    (body : l.body = ⟨.result returned, cs⟩ :: rest) : ending.1 ≠ .ok .finished := by
  obtain @⟨copies, t, x, W', -, holds, read, -, -, run, -, -, -⟩ := h
  -- the first copy is the node that returns, and it is under the parent of the loop
  rw [body, List.map_cons] at read
  obtain ⟨c, more, rfl, top, -⟩ := List.map_eq_cons_iff.1 read
  have node : t.node c = .result returned := by
    rw [← Tree.label_rose t t.size c, top, Rose.interpolate]
    rfl
  have attached : t.isAttached c = true := by
    have child : c ∈ t.children l.parent := by simp [holds.children]
    rw [Tree.isAttached, (holds.linked.child (Nat.zero_le _) child).2]
    rfl
  rintro rfl
  rw [Walker.walkNodes, exec_tree_bind] at run
  dsimp only at run
  rw [attached, if_pos rfl] at run
  cases depth with
  | zero => cases run
  | succ depth =>
    have step : (walker services (depth + 1)).traverse c mode =
        Walker.traverseWith services (walker services depth) c mode := rfl
    obtain ⟨flow, W₁, first, run⟩ := exec_bind_ok run
    rw [step, Walker.traverseWith, exec_tree_bind] at first
    dsimp only at first
    rw [node] at first
    obtain ⟨_, W₂, -, first⟩ := exec_bind_ok first
    dsimp only at first
    split at first
    · obtain ⟨result, W₃, -, first⟩ := exec_bind_ok first
      cases first
      cases run
    · cases first

/-- A body that returns at once is run once. -/
theorem LoopSite.Unrolls.length_eq_one {i : Int} {count : Nat} {made : List (List NodeId)}
    {ending : Except Stop Flow × World σ}
    (h : l.Unrolls (walker services depth) mode name i (count + 1) outs W made ending)
    (body : l.body = ⟨.result returned, cs⟩ :: rest) : made.length = 1 := by
  cases h with
  | stop => rfl
  | next _ passed _ => exact absurd rfl (passed.not_finished body)

/-- Of three passes for the body `@return $i` one is made, and a function that adds one to a variable in each
pass and returns it in the first one returns one. -/
theorem counting_returns_early :
    let loop : Counting := ⟨"i", Counting.valueOf 1, Counting.valueOf 3, true⟩
    let w : World Unit := ⟨Tree.ofNodes [⟨.counting loop, [⟨.result [.var "i"], []⟩]⟩], .empty, ()⟩
    let l : LoopSite := ⟨Tree.root, ⟨1⟩, [], [], (w.tree.children ⟨1⟩).map (w.tree.rose w.tree.size)⟩
    let counts : Rose Node := ⟨.functionDefinition ⟨"f", []⟩, [⟨.assignment "n" (Counting.valueOf 0) false, []⟩,
      ⟨.counting loop, [⟨.assignment "n" (.var "n" :: .op .plus :: Counting.valueOf 1) false, []⟩,
        ⟨.result [.var "n"], []⟩]⟩]⟩
    let u := (compile Services.plain 12).exec
      ⟨Tree.ofNodes [counts, ⟨.declaration "w" [.call "f" []] false, []⟩], .empty, ()⟩
    loop.Reached Services.plain 8 Tree.root ⟨1⟩ 1 3 w w ∧ loop.passes 1 3 = 3 ∧
      (∀ made ending, l.Unrolls (walker Services.plain 8) .function "i" 1 3 [] w made ending →
        made.length = 1) ∧
      u.1 = .ok () ∧ u.2.tree.outline = "w: 1" := by
  intro loop w l counts u
  have stylesheet : w.tree.IsStylesheet := Tree.ofNodes_isStylesheet _
  refine ⟨⟨stylesheet.linked, ⟨_, stylesheet.depth⟩, by decide +kernel, rfl, _, _, w, rfl, ?_, rfl, ?_⟩, rfl,
    fun made ending h => h.length_eq_one rfl, by decide +kernel, by decide +kernel⟩
  · exact Counting.integer?_valueOf (i := 1) (by decide) (by decide)
  · exact Counting.integer?_valueOf (i := 3) (by decide) (by decide)

end

/-- **Counting loops count exactly.** Wherever a loop is reached whose bounds are evaluated to integers
`a ≤ b` within `2 ^ 53`, it is unrolled: a pass is made for each of `a`, `a + 1` and so on up to `b`, each one on
copies of the same body and with the variable bound to the integer, until one of them fails or returns a
value; and unless one fails, what the passes have made stands in the place of the loop in their order.

Therefore two stylesheets that are the same but for where some loops are cut in two are compiled with the same
error, or with the same variables and with outlines that are the same up to these loops; where none of them is left,
since walks have reached them all, the outline is the same, with all other loops in it that no walk has reached. -/
theorem counting_unrolls {σ : Type} (services : Services σ) :
    (∀ (depth : Nat) (mode : Mode) (loop : Counting) (p id : NodeId) (a b : Int) (w w' : World σ),
      loop.Reached services depth p id a b w w' → a ≤ b → -2 ^ 53 ≤ a → b ≤ 2 ^ 53 →
        loop.Unrolled services depth mode p id a b w w') ∧
    (∀ (cuts : Counting → Prop) (depth depth' : Nat) (w w' : World σ), 2 * depth ≤ depth' →
      w.tree.SourcesRecut cuts w'.tree →
      w.KnowsRecut cuts w' → ∀ result u, (compile services depth).exec w = (result, u) → result ≠ .error .tooDeep →
        ∃ u', (compile services depth').exec w' = (result, u') ∧ u.context.scope = u'.context.scope ∧
          u.KnowsRecut cuts u' ∧ (result = .ok () → u.tree.SourcesRecut cuts u'.tree ∧
            (∃ rs rs', u.tree.outline = Rose.outline rs ∧ u'.tree.outline = Rose.outline rs' ∧
              Rose.Recut (Node.Cut cuts) rs rs') ∧
            ((∀ x ∈ u.tree.descendants Tree.root, ¬(u.tree.node x).InCut cuts) →
              u'.tree.outline = u.tree.outline))) :=
  ⟨fun _ mode _ _ _ _ _ _ _ reached le least greatest => reached.unrolled mode le least greatest,
    fun _ _ _ _ _ enough sources known _ _ run shallow => compile_eq_of_recut enough sources known run shallow⟩

/-- A loop from one through three, and the same loop cut behind one. Another loop, under a comment, is not reached and
stays in the outline. -/
theorem counting_unrolls_three :
    let loop (a b : Int) : Rose Node := ⟨.counting ⟨"i", Counting.valueOf a, Counting.valueOf b, true⟩,
      [⟨.declaration "w" [.var "i"] false, []⟩]⟩
    let kept : Rose Node := ⟨.comment "kept", [⟨.counting ⟨"j", Counting.valueOf 4, Counting.valueOf 5, true⟩, []⟩]⟩
    let alone : World Unit := ⟨Tree.ofNodes [loop 1 3], .empty, ()⟩
    let w : World Unit := ⟨Tree.ofNodes [loop 1 3, kept], .empty, ()⟩
    let w' : World Unit := ⟨Tree.ofNodes [loop 1 1, loop 2 3, kept], .empty, ()⟩
    let u := ((compile Services.plain 9).exec w).2
    Counting.Unrolled ⟨"i", Counting.valueOf 1, Counting.valueOf 3, true⟩ Services.plain 8 .stylesheet
      Tree.root ⟨1⟩ 1 3 alone alone ∧
    w.tree.SourcesRecut (·.variableName = "i") w'.tree ∧
    u.tree.outline = "w: 1\nw: 2\nw: 3\nkept\n  @for $j from 4 through 5" ∧
    ∃ u', (compile Services.plain 18).exec w' = (.ok (), u') ∧ u.context.scope = u'.context.scope ∧
      u'.tree.outline = u.tree.outline := by
  intro loop kept alone w w' u
  have read (i : Int) (low : -2 ^ 53 ≤ i) (high : i ≤ 2 ^ 53) :
      (Number.ofFloat (Float.ofInt i)).integer? = some i := Number.integer?_ofInt low high
  have one := read 1 (by decide) (by decide)
  have two := read 2 (by decide) (by decide)
  have three := read 3 (by decide) (by decide)
  have stylesheet : alone.tree.IsStylesheet := Tree.ofNodes_isStylesheet _
  have reached : Counting.Reached ⟨"i", Counting.valueOf 1, Counting.valueOf 3, true⟩ Services.plain 8
      Tree.root ⟨1⟩ 1 3 alone alone :=
    ⟨stylesheet.linked, ⟨_, stylesheet.depth⟩, by decide +kernel, rfl, _, _, alone, rfl, one, rfl, three⟩
  have sources : w.tree.SourcesRecut (·.variableName = "i") w'.tree :=
    .ofNodes (.cut (.counting rfl one one two three (by decide) (by decide)) (.refl _) (.refl _) (.refl _))
  have run : (compile Services.plain 9).exec w = (.ok (), u) := Prod.fst_eq_iff.1 (by decide +kernel)
  obtain ⟨u', run', scope, -, left⟩ := (counting_unrolls Services.plain).2 _ 9 18 w w' (by decide) sources
    ⟨.empty, rfl⟩ _ u run (by simp)
  have unrolled := (counting_unrolls Services.plain).1 8 .stylesheet _ _ _ 1 3 alone alone reached (by decide)
    (by decide) (by decide)
  -- the loop that is left has another variable
  have others : ∀ x ∈ u.tree.descendants Tree.root, (u.tree.node x).countingVariable? ≠ some "i" := by decide +kernel
  have none : ∀ x ∈ u.tree.descendants Tree.root, ¬(u.tree.node x).InCut (·.variableName = "i") := by
    intro x hx uncut
    obtain ⟨whole, bound, shared⟩ := uncut.exists_variable
    exact others x hx (bound ▸ shared)
  exact ⟨unrolled, sources, by decide +kernel, u', run', scope, (left rfl).2.2 none⟩

end Stylesheet

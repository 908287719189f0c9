import Stylesheet.Proofs.Binding.Reads
import Stylesheet.Proofs.Expansion.Isolation
import Stylesheet.Proofs.Tree.Leaves

/-! # Loops are hygienic

A pass of a loop has a frame of its own, in which the variable of the loop is bound. Assignments in the body
go through this frame to names that are bound outside, but a name that is new stays in the frame, and so does
what is assigned to the variable of the loop. So around a loop a name can only be **`Reassigned`**: each frame
has the names it had, and the variable of the loop has the values it had.

That passes do no more follows from what a body does to the scope of a pass (`Scope.ChangedInside.reassigned`);
the run of a loop is made of passes, of looks at its bounds or its condition, and of dropping the loop. -/

namespace Stylesheet

open Expansion

/-- A directive that expands its body once for each pass. -/
def Node.isLoop : Node → Bool
  | .counting _ | .each _ _ | .whileLoop _ => true
  | _ => false

/-- One scope came from the other by assigning names where they are bound, but for those that are fixed. -/
structure Scope.Reassigned (fixed : Option String) (s s' : Scope) : Prop where
  kinds : s'.frames.map Frame.kind = s.frames.map Frame.kind
  names : s'.frames.map Frame.binds = s.frames.map Frame.binds
  kept : ∀ name ∈ fixed, Frame.values name s'.frames = Frame.values name s.frames

/-- What a body changes around a pass it has changed by assigning: the frame of the pass takes new names, and
stops the variable that is bound in it. -/
theorem Scope.ChangedInside.reassigned {s inside s' : Scope} {fixed : Option String} (h : ChangedInside inside s')
    (around : inside.outer = s.frames) (bound : ∀ name ∈ fixed, inside.inner.binds name = true) :
    Reassigned fixed s s'.leave := by
  have kinds := h.kinds
  have names := h.names
  rw [around] at names
  rw [frames, frames, List.map_cons, List.map_cons, around] at kinds
  have left : s'.leave.frames = s'.outer := by
    cases hs : s'.outer with
    | nil => simp [hs, frames] at names
    | cons f fs => simp [leave, hs, frames]
  refine ⟨?_, ?_, fun name fixed => ?_⟩ <;> rw [left]
  · exact (List.cons.inj kinds).2
  · exact names
  · rw [← around]
    exact h.shielded (i := 0) rfl (.inl (bound name fixed))

/-- The scopes of two worlds are related so. -/
structure Reassigned {σ : Type} (fixed : Option String) (w w' : World σ) : Prop where
  scope : Scope.Reassigned fixed w.context.scope w'.context.scope

section

variable {σ : Type} {fixed : Option String}

/-- Keeping names fixed is reflexive and transitive. -/
instance : IsPreorder (World σ) (Reassigned fixed) where
  refl _ := ⟨rfl, rfl, fun _ _ => rfl⟩
  trans _ _ _ h h' :=
    ⟨h'.scope.kinds.trans h.scope.kinds, h'.scope.names.trans h.scope.names,
      fun name fixed => (h'.scope.kept name fixed).trans (h.scope.kept name fixed)⟩

/-- A world that did not move has no name assigned. -/
theorem Unmoved.reassigned {w w' : World σ} (h : Unmoved w w') : Reassigned fixed w w' where
  scope := by
    rw [h.context]
    exact ⟨rfl, rfl, fun _ _ => rfl⟩

namespace Walker.Isolates

variable {w : Walker σ}

/-- A pass keeps the names around it, and the variable that it binds. -/
theorem reassigned_pass (h : w.Isolates) (place : LoopPlace) (mode : Mode) (bound : Option (String × Value)) :
    Keeps (Reassigned (bound.map Prod.fst)) (w.pass place mode bound) := fun W => by
  refine ⟨?_⟩
  unfold Walker.pass
  rw [exec_inFrame, World.context_mapScope, Context.scope_withScope]
  cases bound with
  | none => exact (h.copied place mode _).scope.reassigned rfl nofun
  | some b =>
    rw [exec_modifyScope_bind]
    refine (h.copied place mode _).scope.reassigned rfl fun name hname => ?_
    obtain rfl := Option.some.inj hname
    simp [Scope.define, Frame.binds_eq, Frame.bind]

/-- So does a loop with all its passes. -/
theorem reassigned_expandDirective (h : w.Isolates) (services : Services σ) {W : World σ} {id : NodeId}
    (loop : (W.tree.node id).isLoop = true) (mode : Mode) :
    Reassigned (W.tree.node id).loopVariable? W ((Walker.expandDirective services w id mode).exec W).2 := by
  have evaluated {fixed : Option String} (value : Value) : Keeps (Reassigned fixed) (w.evaluate value) :=
    (h.evaluate value).mono fun _ _ unmoved => unmoved.reassigned
  have dropped {fixed : Option String} {parent : NodeId} {m : Expansion σ Flow} (hm : Keeps (Reassigned fixed) m) :
      Keeps (Reassigned fixed) (do
        let flow ← m
        modifyTree fun t => (t.setChildren id []).remove parent id
        pure flow) :=
    hm.bind fun flow => ((unmoved_modifyTree _).mono fun _ _ unmoved => unmoved.reassigned).bind fun _ => .pure _
  unfold Walker.expandDirective
  rw [exec_tree_bind]
  refine related_ofExcept_bind fun parent _ => ?_
  dsimp only
  cases hn : W.tree.node id with
  | counting c =>
    exact dropped (.expandCounting evaluated fun value => h.reassigned_pass _ mode (some (c.variableName, value))) W
  | each name list =>
    exact dropped (.expandEach evaluated (fun value => h.reassigned_pass _ mode (some (name, value))) list) W
  | whileLoop condition => exact dropped (.passesWhile services (h.reassigned_pass _ mode none) _ _) W
  | _ => rw [hn] at loop; cases loop

end Walker.Isolates

/-- A loop, however its expansion ends, leaves every frame that was open before with the names that it had.
The variable of the loop has in each of them the value that it had, or none where it had none. -/
theorem expandDirective_hygienic (services : Services σ) (depth : Nat) (w : World σ) (id : NodeId) (mode : Mode)
    (loop : (w.tree.node id).isLoop = true) :
    let s := w.context.scope
    let s' := ((Walker.expandDirective services (walker services depth) id mode).exec w).2.context.scope
    s'.frames.map Frame.kind = s.frames.map Frame.kind ∧
      s'.frames.map Frame.binds = s.frames.map Frame.binds ∧
      ∀ name, (w.tree.node id).loopVariable? = some name →
        s'.frames.map (·.bindings.lookup name) = s.frames.map (·.bindings.lookup name) := by
  have changed := ((walker_isolates services depth).reassigned_expandDirective services loop mode).scope
  exact ⟨changed.kinds, changed.names, changed.kept⟩

/-- A loop over `$i` whose body assigns `$i`, the variable `$x` of the outermost frame and a new variable,
repeats itself over `$i` inside and then fails. Around it `$x` has its new value, but `$i` is `z` as before
and the new variable is gone. -/
theorem expandDirective_hygienic_each :
    let t := Tree.ofNodes [⟨.each "i" [.ident "a"], [⟨.assignment "i" [.ident "b"] false, []⟩,
      ⟨.assignment "x" [.var "i"] false, []⟩, ⟨.assignment "y" [.var "x"] false, []⟩,
      ⟨.each "i" [.ident "c"], [⟨.assignment "i" [.ident "d"] false, []⟩]⟩, ⟨.result [.var "i"], []⟩]⟩]
    let c := Context.empty.withScope ⟨⟨.global, [⟨"i", [.ident "z"]⟩, ⟨"x", [.ident "z"]⟩]⟩, []⟩
    let run := (Walker.expandDirective Services.plain (walker Services.plain 7) ⟨1⟩ .stylesheet).exec ⟨t, c, ()⟩
    (t.node ⟨1⟩).isLoop = true ∧ run.1.map (fun _ => ()) = .error (.failed (.strayReturn "$i")) ∧
      run.2.context.scope.frames.map Frame.binds = c.scope.frames.map Frame.binds ∧
      run.2.context.scope.frames.map (·.bindings.lookup "i") = c.scope.frames.map (·.bindings.lookup "i") ∧
      (run.2.context.scope.get? "x").map Value.text = some "b" := by
  have hygienic (w : World Unit) := expandDirective_hygienic Services.plain 7 w ⟨1⟩ .stylesheet
  exact ⟨by decide +kernel, by decide +kernel, (hygienic _ (by decide +kernel)).2.1,
    (hygienic _ (by decide +kernel)).2.2 "i" (by decide +kernel), by decide +kernel⟩

end

end Stylesheet

import StepGraph.Package.Link
import StepGraph.Proofs.Compile.Code

open EStateM (bind_apply)

namespace StepGraph

variable {α β : Type}

namespace Link

end Link

-- The errors of a package itself: its code, and what its variables and initializers do.
def BuildError.isOfPackage : BuildError → Bool
  | compile _ | undefined _ | init _ | exhausted => true
  | load _ | frontEnd _ | unknownImport _ | importCycle _ => false

namespace Link

-- Something that a package does by itself, without a look at other packages. Functions that keep
-- calls are known to do so afterwards, if they were before.
def Internal (x : Link α) : Prop :=
  ∀ l, match x l with
    | .ok _ l' => l'.loaded = l.loaded ∧ (l.library.Flagged → l'.library.Flagged)
    | .error e _ => e.isOfPackage = true

namespace Internal

theorem pure (a : α) : Internal (pure a) := fun _ => ⟨rfl, id⟩

theorem bind {x : Link α} {f : α → Link β} (hx : Internal x) (hf : ∀ a, Internal (f a)) :
    Internal (x >>= f) := by
  intro l
  have hl := hx l
  rw [bind_apply]
  cases hr : x l with
  | error e l₁ =>
      rw [hr] at hl
      exact hl
  | ok a l₁ =>
      rw [hr] at hl
      have hl₁ := hf a l₁
      dsimp only
      cases hr₁ : f a l₁ with
      | error e l₂ =>
          rw [hr₁] at hl₁
          exact hl₁
      | ok b l₂ =>
          rw [hr₁] at hl₁
          exact ⟨hl₁.1.trans hl.1, hl₁.2 ∘ hl.2⟩

theorem throw {e : BuildError} (he : e.isOfPackage = true) : Internal (throw e : Link α) :=
  fun _ => he

theorem get : Internal get := fun _ => ⟨rfl, id⟩

theorem onHeap (x : HeapM α) : Internal (onHeap x) := fun _ => ⟨rfl, id⟩

theorem exec (x : Exec α) : Internal (exec x) := by
  intro l
  unfold Link.exec
  cases x l.machine <;> exact ⟨rfl, id⟩

theorem compile {x : Compile α} (hx : Compile.AddsFunctions x) : Internal (compile x) := by
  intro l
  unfold Link.compile
  cases hr : x l.library with
  | error e lib => rfl
  | ok a lib => exact ⟨rfl, (hx l.library a lib hr).flagged⟩

end Internal

variable (o : BuildOptions) (p : Program)

theorem internal_failInit (u : Unwind) : Internal (failInit o p u : Link α) := by
  refine .bind (.exec _) fun r => ?_
  split <;> exact .throw rfl

theorem internal_runPass (scope : ScopeId) (units : List CodeRef) :
    Internal (runPass o p scope units) := by
  induction units with
  | nil => exact .pure _
  | cons unit rest ih =>
      unfold runPass
      split
      · exact ih
      · refine .bind (.exec _) fun r => ?_
        split
        · exact ih
        · exact .bind ih fun _ => .pure _
        · exact internal_failInit o p _

theorem internal_runUnits (scope : ScopeId) (n : Nat) (units : List CodeRef) :
    Internal (runUnits o p scope n units) := by
  induction n generalizing units with
  | zero =>
      cases units with
      | nil => exact .pure _
      | cons => exact .throw rfl
  | succ n ih =>
      cases units with
      | nil => exact .pure _
      | cons unit rest =>
          unfold runUnits
          refine .bind (internal_runPass o p scope _) fun r => ?_
          dsimp only
          split
          · exact .throw rfl
          · exact ih _

theorem internal_runInits (scope : ScopeId) (inits : List CodeRef) :
    Internal (runInits o p scope inits) := by
  induction inits with
  | nil => exact .pure _
  | cons init rest ih =>
      unfold runInits
      refine .bind (.exec _) fun r => ?_
      split
      · exact ih
      · exact .throw rfl
      · exact .throw rfl

theorem internal_addMethods (scope : ScopeId) (methods : List (Receiver × String × CodeRef)) :
    Internal (addMethods scope methods) := by
  induction methods with
  | nil => exact .pure _
  | cons method rest ih =>
      unfold addMethods
      refine .bind .get fun l => ?_
      dsimp only
      split
      · exact .bind (fun _ => ⟨rfl, id⟩) fun _ => ih
      · exact .bind (.throw rfl) fun _ => ih

theorem internal_program (initializing : Bool) : Internal (program o initializing) :=
  .bind .get fun _ => .pure _

theorem internal_linkDecls (scope : ScopeId) (pkg : Package) (imports : List String) :
    Internal (linkDecls o scope pkg imports) :=
  .bind (.compile (Compile.adds_declareTypes _)) fun _ =>
    .bind (.compile (Compile.adds_package _)) fun _ => .bind (.onHeap _) fun _ =>
      .bind (internal_addMethods _ _) fun _ => .bind (internal_program o _) fun _ =>
        .bind (internal_runUnits o _ _ _ _) fun _ => .bind (internal_program o _) fun _ =>
          internal_runInits o _ _ _

end Link

end StepGraph

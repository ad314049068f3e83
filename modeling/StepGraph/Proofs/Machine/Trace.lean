import StepGraph.Machine.Run
import StepGraph.Proofs.Machine.Exec

open EStateM (bind_apply bind_of_ok)

namespace StepGraph.Program

open Exec

-- What one step of a run does. The result is the successor, and nothing after a return. `n` bounds
-- the calls that the step makes.
def advance (p : Program) (n : Nat) (steps : Array Step) (id : StepId) :
    Exec (Option (Option StepId)) :=
  match steps[id]? with
  | none => fatal (.custom ("step #" ++ toString id ++ " out of range"))
  | some s => do
      match ← annotated s.span (p.step s.op) with
      | .next => return some s.next
      | .goto target => return some target
      | .ret => return none
      | .call callee args spread results =>
          annotated s.span do pushResults (← call p n callee args spread s.span) results
          return some s.next
      | .builtin b ty args spread results =>
          annotated s.span do
            let sv := ⟨p.types, fun f xs => call p n f xs false Span.none⟩
            pushResults (← p.callBuiltin sv b ty args spread) results
          return some s.next
      | .defer entry args spread builtin =>
          annotated s.span do
            run p n steps (some entry)
            keepDeferred args spread builtin s.span
          return some s.next

theorem run_none (p : Program) (n : Nat) (steps : Array Step) (m : Machine) :
    p.run n steps none m = .ok () m := by
  unfold run
  rfl

theorem run_zero (p : Program) (steps : Array Step) (id : StepId) (m : Machine) :
    p.run 0 steps (some id) m = .error .exhausted m := by
  unfold run
  rfl

-- A run is one step and then the rest of the run.
theorem run_succ (p : Program) (n : Nat) (steps : Array Step) (id : StepId) (m : Machine) :
    p.run (n + 1) steps (some id) m =
      match p.advance n steps id m with
      | .ok (some k) m => p.run n steps k m
      | .ok none m => .ok () m
      | .error u m => .error u m := by
  unfold advance
  rw [run]
  cases hs : steps[id]? with
  | none => simp [fatal, raise]
  | some s =>
      simp only
      rw [bind_apply, bind_apply]
      cases annotated s.span (p.step s.op) m with
      | error u m₁ => rfl
      | ok after m₁ =>
          cases after with
          | next | goto | ret => rfl
          | call | builtin | defer =>
              simp only
              rw [bind_apply, bind_apply]
              split <;> rfl

theorem annotated_eq_ok {α : Type} {span : Span} {x : Exec α} {a : α} {m m' : Machine} :
    annotated span x m = .ok a m' ↔ x m = .ok a m' := by
  unfold annotated
  cases x m with
  | ok b m₁ => rfl
  | error u m₁ => cases u <;> simp

theorem annotated_ok {α : Type} {x : Exec α} {a : α} {m m' : Machine} (span : Span)
    (h : x m = .ok a m') : annotated span x m = .ok a m' := annotated_eq_ok.mpr h

theorem advance_ret (p : Program) (n : Nat) {steps : Array Step} {id : StepId} {s : Step}
    {m m' : Machine} (hs : steps[id]? = some s) (hstep : p.step s.op m = .ok .ret m') :
    p.advance n steps id m = .ok none m' := by
  unfold advance
  simp only [hs]
  rw [bind_of_ok (annotated_ok _ hstep)]
  rfl

theorem advance_next (p : Program) (n : Nat) {steps : Array Step} {id : StepId} {s : Step}
    {m m' : Machine} (hs : steps[id]? = some s) (hstep : p.step s.op m = .ok .next m') :
    p.advance n steps id m = .ok (some s.next) m' := by
  unfold advance
  simp only [hs]
  rw [bind_of_ok (annotated_ok _ hstep)]
  rfl

theorem advance_goto (p : Program) (n : Nat) {steps : Array Step} {id : StepId} {s : Step}
    {m m' : Machine} {k : Option StepId} (hs : steps[id]? = some s)
    (hstep : p.step s.op m = .ok (.goto k) m') : p.advance n steps id m = .ok (some k) m' := by
  unfold advance
  simp only [hs]
  rw [bind_of_ok (annotated_ok _ hstep)]
  rfl

-- A step that calls a function of the program goes on once the results are on the stack.
theorem advance_call (p : Program) (n : Nat) {steps : Array Step} {id : StepId} {s : Step}
    {m m' : Machine} {callee : Value} {args : List Value} {spread : Bool} {results : CallResults}
    (hs : steps[id]? = some s)
    (hstep : p.step s.op m = .ok (.call callee args spread results) m') :
    p.advance n steps id m =
      (annotated s.span (p.call n callee args spread s.span >>= fun vs => pushResults vs results) >>=
        fun _ => pure (some s.next)) m' := by
  unfold advance
  simp only [hs]
  rw [bind_of_ok (annotated_ok _ hstep)]

theorem advance_builtin (p : Program) (n : Nat) {steps : Array Step} {id : StepId} {s : Step}
    {m m' : Machine} {b : Builtin} {ty : Option Ty} {args : List Value} {spread : Bool}
    {results : CallResults} (hs : steps[id]? = some s)
    (hstep : p.step s.op m = .ok (.builtin b ty args spread results) m') :
    p.advance n steps id m =
      (annotated s.span (p.callBuiltin ⟨p.types, fun f xs => call p n f xs false Span.none⟩ b ty args
          spread >>= fun vs => pushResults vs results) >>=
        fun _ => pure (some s.next)) m' := by
  unfold advance
  simp only [hs]
  rw [bind_of_ok (annotated_ok _ hstep)]

-- A stretch of a run, from one step with `n` steps left to another with `n'` steps left.
inductive RunLeads (p : Program) (steps : Array Step) :
    Nat → Option StepId → Machine → Nat → Option StepId → Machine → Prop
  | refl (n : Nat) (k : Option StepId) (m : Machine) : RunLeads p steps n k m n k m
  | step {n n' : Nat} {id : StepId} {k k' : Option StepId} {m m₁ m' : Machine}
      (hstep : p.advance n steps id m = .ok (some k) m₁)
        (hrest : RunLeads p steps n k m₁ n' k' m') :
      RunLeads p steps (n + 1) (some id) m n' k' m'

theorem RunLeads.run_eq {p : Program} {steps : Array Step} {n n' : Nat} {k k' : Option StepId}
    {m m' : Machine} (hl : RunLeads p steps n k m n' k' m') :
    p.run n steps k m = p.run n' steps k' m' := by
  induction hl with
  | refl => rfl
  | step hstep _ ih =>
      rw [run_succ, hstep]
      exact ih

end StepGraph.Program

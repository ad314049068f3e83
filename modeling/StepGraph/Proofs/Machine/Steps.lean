import StepGraph.Proofs.Machine.Operations
import StepGraph.Machine.Run

open EStateM (bind_of_ok)

namespace StepGraph

variable {α β : Type}

-- The same call with the same active calls around it, and nothing else has been kept for its end.
structure CallContinues (m m' : Machine) : Prop where
  calls : m'.calls = m.calls
  deferring : m'.deferring = m.deferring
  deferred : m'.frame.deferred = m.frame.deferred
  funcScope : m'.frame.funcScope = m.frame.funcScope
  nests : ScopesNest m.heap m'.heap

-- The call also is in the same scope.
structure ContinuesInScope (m m' : Machine) : Prop extends CallContinues m m' where
  scope : m'.frame.scope = m.frame.scope
  depth : m'.frame.depth = m.frame.depth

theorem CallContinues.trans {m m' m'' : Machine} (h₁ : CallContinues m m')
    (h₂ : CallContinues m' m'') :
    CallContinues m m'' where
  calls := h₂.calls.trans h₁.calls
  deferring := h₂.deferring.trans h₁.deferring
  deferred := h₂.deferred.trans h₁.deferred
  funcScope := h₂.funcScope.trans h₁.funcScope
  nests := h₁.nests.trans h₂.nests

namespace ContinuesInScope

variable {m m' m'' : Machine}

theorem of_positionStays (h : PositionStays m m') : ContinuesInScope m m' :=
  ⟨⟨h.calls, h.deferring, by rw [h.frame], by rw [h.frame], h.nests⟩, by rw [h.frame],
    by rw [h.frame]⟩

theorem trans (h₁ : ContinuesInScope m m') (h₂ : ContinuesInScope m' m'') :
    ContinuesInScope m m'' where
  toCallContinues := h₁.toCallContinues.trans h₂.toCallContinues
  scope := h₂.scope.trans h₁.scope
  depth := h₂.depth.trans h₁.depth

-- Only the operands and the results of the call are other ones.
theorem of_frame {m : Machine} {operands : List Value} {results : Option (List Value)} :
    ContinuesInScope m { m with frame := { m.frame with operands, results } } :=
  ⟨⟨rfl, rfl, rfl, rfl, .refl _⟩, rfl, rfl⟩

end ContinuesInScope

-- Something that a call does by itself, with its own operands and scopes.
def Exec.Local (x : Exec α) : Prop :=
  ∀ m, match x m with
    | .ok _ m' => ContinuesInScope m m'
    | .error _ m' => ContinuesInScope m m'

namespace Exec

theorem Local.quiet {x : Exec α} (hx : Quiet.trait.Holds x) : Local x := by
  intro m
  have hm := hx m
  cases hr : x m with
  | ok a m₁ =>
      rw [hr] at hm
      exact .of_positionStays hm
  | error u m₁ =>
      rw [hr] at hm
      exact .of_positionStays hm.1

def Local.trait : Exec.ScopeTrait where
  Holds := Local
  pure a := Local.quiet (Quiet.trait.pure a)
  bind_yields := Moves.bind .trans
  throw hu hu' := Local.quiet (Quiet.trait.throw hu hu')
  heap := Local.quiet Quiet.trait.heap
  currentScope := Local.quiet Quiet.trait.currentScope
  gentle hx := Local.quiet (Quiet.trait.gentle hx)
  apart hx := Local.quiet (Quiet.trait.apart hx)
  quiet hx := Local.quiet (Quiet.trait.quiet hx)

theorem Local.operands : Local.trait.Operands where
  frame _ := .of_frame
  setOperands _ _ := .of_frame
  setResults _ _ := .of_frame
  underflow _ := .of_frame

end Exec

namespace Program

open Exec (Local Quiet)

theorem yields_undefined {p : Program} {post : α → Prop} (name : String) :
    Exec.Yields post (p.undefined name : Exec α) := by
  unfold undefined
  split
  · intro m a m' h
    cases h
  · exact .fatal _

variable (p : Program)

theorem unwindTo_apply (depth : Nat) (m : Machine) : Exec.unwindTo depth m = .ok () { m with
    frame := { m.frame with
      scope := Exec.leaveScopes (m.frame.depth - depth) m.frame.scope m.heap
      depth := min m.frame.depth depth } } := by
  unfold Exec.unwindTo
  rw [bind_of_ok (Exec.frame_apply m)]
  by_cases hd : depth < m.frame.depth
  · rw [if_pos hd, Nat.min_eq_right (Nat.le_of_lt hd)]
    rfl
  · have hle : m.frame.depth ≤ depth := Nat.le_of_not_lt hd
    rw [if_neg hd, Nat.min_eq_left hle, Nat.sub_eq_zero_of_le hle]
    rfl

theorem step_jump (depth : Nat) (m : Machine) : p.step (.jump depth) m = .ok .next { m with
    frame := { m.frame with
      scope := Exec.leaveScopes (m.frame.depth - depth) m.frame.scope m.heap
      depth := min m.frame.depth depth } } :=
  bind_of_ok (unwindTo_apply depth m)

theorem step_popScope (m : Machine) : p.step .popScope m = .ok .next { m with
    frame := { m.frame with
      scope := Exec.leaveScopes (m.frame.depth - (m.frame.depth - 1)) m.frame.scope m.heap
      depth := min m.frame.depth (m.frame.depth - 1) } } :=
  bind_of_ok (unwindTo_apply (m.frame.depth - 1) m)

theorem step_pushScope (m : Machine) : p.step .pushScope m = .ok .next { m with
    heap := (Heap.newScope (some m.frame.scope) m.heap).2
    frame := { m.frame with scope := m.heap.scopes.size, depth := m.frame.depth + 1 } } := rfl

-- Whatever a step does before anything is called, it does within the call.
theorem continues_step (op : StepOp) (m : Machine) :
    match p.step op m with
    | .ok _ m' => CallContinues m m'
    | .error _ m' => CallContinues m m' := by
  by_cases hop : Moving op
  · cases op with
    | jump depth =>
        rw [step_jump]
        exact ⟨rfl, rfl, rfl, rfl, .refl _⟩
    | popScope =>
        rw [step_popScope]
        exact ⟨rfl, rfl, rfl, rfl, .refl _⟩
    | pushScope =>
        rw [step_pushScope]
        exact ⟨rfl, rfl, rfl, rfl, Heap.quiet_newScope _ _⟩
    | _ => exact hop.elim
  · have hlocal : Local (p.step op) := holds_step Local.operands p hop
    have hm := hlocal m
    cases hr : p.step op m with
    | ok after m₁ | error u m₁ =>
        rw [hr] at hm
        exact hm.toCallContinues

end Program

end StepGraph

import StepGraph.Machine.Basic
import StepGraph.Proofs.Outcomes

open EStateM (bind_apply bind_eq_ok)

namespace StepGraph.Exec

variable {α β : Type}

-- What the operations of a machine do to a given machine. Later proofs compute with these and
-- leave the monad closed.

@[simp] theorem pure_apply (a : α) (m : Machine) : (pure a : Exec α) m = .ok a m := rfl

@[simp] theorem throw_apply (u : Unwind) (m : Machine) :
    (throw u : Exec α) m = .error u m := rfl

@[simp] theorem get_apply (m : Machine) : (get : Exec Machine) m = .ok m m := rfl

@[simp] theorem modify_apply (f : Machine → Machine) (m : Machine) :
    (modify f : Exec Unit) m = .ok () (f m) := rfl

@[simp] theorem heap_apply (m : Machine) : heap m = .ok m.heap m := rfl

@[simp] theorem frame_apply (m : Machine) : frame m = .ok m.frame m := rfl

@[simp] theorem currentScope_apply (m : Machine) : currentScope m = .ok m.frame.scope m := rfl

@[simp] theorem modifyFrame_apply (f : Frame → Frame) (m : Machine) :
    modifyFrame f m = .ok () { m with frame := f m.frame } := rfl

@[simp] theorem onHeap_apply (x : HeapM α) (m : Machine) :
    onHeap x m = .ok (x m.heap).1 { m with heap := (x m.heap).2 } := rfl

@[simp] theorem monadLift_apply (x : HeapM α) (m : Machine) :
    (liftM x : Exec α) m = .ok (x m.heap).1 { m with heap := (x m.heap).2 } := rfl

@[simp] theorem push_apply (v : Value) (m : Machine) :
    push v m = .ok () { m with frame := { m.frame with operands := v :: m.frame.operands } } := rfl

@[simp] theorem ofExcept_ok (a : α) (m : Machine) : ofExcept (.ok a) m = .ok a m := rfl

theorem ofExcept_eq_ok {x : Except Failure α} {a : α} {m m' : Machine} :
    ofExcept x m = .ok a m' ↔ x = .ok a ∧ m = m' := by
  cases x with
  | ok b => simp
  | error e =>
      cases e with
      | fault f => simp [ofExcept, raise, bind_apply]
      | fatal e => simp [ofExcept, raise]

theorem attempt_apply (x : Attempt α) (m : Machine) :
    attempt x m = ofExcept (x.run m.heap).1 { m with heap := (x.run m.heap).2 } := rfl

theorem fault_ne_ok (f : Fault) (m m' : Machine) (a : α) : fault f m ≠ .ok a m' := by
  simp [fault, raise, bind_apply]

theorem fatal_ne_ok (e : Fatal) (m m' : Machine) (a : α) : fatal e m ≠ .ok a m' := by
  simp [fatal, raise]

theorem notDefined_ne_ok (op kind : String) (m m' : Machine) (a : α) :
    notDefined op kind m ≠ .ok a m' := by
  simp [notDefined, raise, Failure.notDefined]

-- Whatever the operation gives has the property.
def Yields (post : α → Prop) (x : Exec α) : Prop := ∀ m a m', x m = .ok a m' → post a

namespace Yields

variable {post : α → Prop}

theorem pure {a : α} (h : post a) : Yields post (pure a) := by
  intro m b m' hb
  cases hb
  exact h

theorem bind {x : Exec β} {f : β → Exec α} (hf : ∀ b, Yields post (f b)) :
    Yields post (x >>= f) := by
  intro m a m' h
  obtain ⟨b, m₁, -, h⟩ := bind_eq_ok.mp h
  exact hf b m₁ a m' h

theorem fault (f : Fault) : Yields post (fault f : Exec α) :=
  fun m a m' h => absurd h (fault_ne_ok f m m' a)

theorem fatal (e : Fatal) : Yields post (fatal e : Exec α) :=
  fun m a m' h => absurd h (fatal_ne_ok e m m' a)

theorem throw (u : Unwind) : Yields post (throw u : Exec α) := by
  intro m a m' h
  cases h

theorem notDefined (op kind : String) : Yields post (notDefined op kind : Exec α) :=
  fun m a m' h => absurd h (notDefined_ne_ok op kind m m' a)

theorem mapM {f : β → Exec α} (l : List β) : Yields (·.length = l.length) (l.mapM f) := by
  induction l with
  | nil => exact pure rfl
  | cons b l ih =>
      rw [List.mapM_cons]
      refine bind fun a => ?_
      intro m vs m' h
      obtain ⟨as, _, hrest, h⟩ := bind_eq_ok.mp h
      cases h
      exact congrArg (· + 1) (ih _ as _ hrest)

end Yields

end StepGraph.Exec

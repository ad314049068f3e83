import StepGraph.Heap.Chan
import StepGraph.Heap.Map
import StepGraph.Operator.Evaluate
import StepGraph.Types.Member
import StepGraph.Proofs.Outcomes
import Mathlib.Tactic.Common

namespace StepGraph

variable {α β : Type}

-- A result that is not the failure of an operation that found too few operands.
def UnderflowFree (x : Except Failure α) : Prop := x ≠ .error (.fatal .operandUnderflow)

namespace UnderflowFree

theorem ok (a : α) : UnderflowFree (.ok a) := nofun

theorem pure (a : α) : UnderflowFree (pure a : Except Failure α) := nofun

theorem fault (f : Fault) : UnderflowFree (.error (.fault f) : Except Failure α) := by
  simp [UnderflowFree]

theorem notDefined (op kind : String) :
    UnderflowFree (.error (.notDefined op kind) : Except Failure α) := by
  simp [UnderflowFree, Failure.notDefined]

theorem bind {x : Except Failure α} {f : α → Except Failure β} (hx : UnderflowFree x)
    (hf : ∀ a, UnderflowFree (f a)) : UnderflowFree (x >>= f) := by
  cases x with
  | error e =>
      intro h
      cases h
      exact hx rfl
  | ok a => exact hf a

theorem map {x : Except Failure α} (f : α → β) (hx : UnderflowFree x) :
    UnderflowFree (x.map f) := by
  cases x with
  | error e =>
      intro h
      cases h
      exact hx rfl
  | ok a => exact ok _

theorem mapM {l : List α} {f : α → Except Failure β} (hf : ∀ a, UnderflowFree (f a)) :
    UnderflowFree (l.mapM f) := Compositional.mapM ⟨pure, bind⟩ hf

end UnderflowFree

attribute [local grind ←] UnderflowFree.ok UnderflowFree.pure UnderflowFree.fault
  UnderflowFree.notDefined UnderflowFree.bind UnderflowFree.map UnderflowFree.mapM

namespace Heap

variable (h : Heap)

theorem underflowFree_load (a : Address) : UnderflowFree (h.load a) := by
  unfold load fatal
  split
  · exact .ok _
  · simp [UnderflowFree]

theorem underflowFree_deref (a : Option Address) : UnderflowFree (h.deref a) := by
  cases a with
  | none => exact .fault _
  | some a => exact h.underflowFree_load a

theorem underflowFree_keyOf (v : Value) : UnderflowFree (h.keyOf v) := by
  have hwith : ∀ (inBlock : Value → Except Failure MapKey), (∀ v, UnderflowFree (inBlock v)) →
      ∀ v, UnderflowFree (keyWith inBlock h v) := by
    intro inBlock hin v
    induction v with
    | named t v ih =>
        unfold keyWith
        grind
    | _ =>
        unfold keyWith
        grind [Heap.fault]
  have hupTo : ∀ n v, UnderflowFree (keyUpTo h n v) := by
    intro n
    induction n with
    | zero => exact fun v => .fault _
    | succ n ih => exact hwith _ ih
  exact hupTo _ v

theorem underflowFree_firstFound {search : Value → Except Failure (Option α)}
    (hs : ∀ v, UnderflowFree (search v)) (vs : List Value) :
    UnderflowFree (firstFound search vs) := by
  induction vs with
  | nil => exact .ok _
  | cons v vs ih =>
      unfold firstFound
      grind

theorem underflowFree_locate (v : Value) (name : String) : UnderflowFree (h.locate v name) := by
  have hupTo : ∀ n v, UnderflowFree (locateUpTo h name n v) := by
    intro n
    induction n with
    | zero => exact fun _ => by simp [locateUpTo, fatal, UnderflowFree]
    | succ n ih =>
        have hload := h.underflowFree_load
        have hfirst := underflowFree_firstFound ih
        intro v
        unfold locateUpTo
        grind [Heap.fault]
  exact hupTo _ v

theorem underflowFree_equal (v w : Value) : UnderflowFree (h.equal v w) := by
  have hall : ∀ (eq : Value → Value → Except Failure Bool), (∀ v w, UnderflowFree (eq v w)) →
      ∀ xs ys, UnderflowFree (allEqual eq xs ys) := by
    intro eq heq xs
    induction xs with
    | nil =>
        intro ys
        unfold allEqual
        exact .ok _
    | cons x xs ih =>
        intro ys
        cases ys with
        | nil =>
            unfold allEqual
            exact .ok _
        | cons y ys =>
            unfold allEqual
            grind
  have hbare : ∀ (eq : Value → Value → Except Failure Bool), (∀ v w, UnderflowFree (eq v w)) →
      ∀ v w, UnderflowFree (equalBare eq h v w) := by
    intro eq heq v w
    have := hall eq heq
    unfold equalBare
    split <;> grind
  have hwith : ∀ (eq : Value → Value → Except Failure Bool), (∀ v w, UnderflowFree (eq v w)) →
      ∀ v w, UnderflowFree (equalWith eq h v w) := by
    intro eq heq v
    have := hbare eq heq
    induction v <;> intro w <;> unfold equalWith <;> grind
  have hupTo : ∀ n v w, UnderflowFree (equalUpTo h n v w) := by
    intro n
    induction n with
    | zero => exact fun _ _ => .ok _
    | succ n ih => exact hwith _ ih
  exact hupTo _ v w

end Heap

theorem Chan.underflowFree_send (c : Chan) (v : Value) : UnderflowFree (c.send v) := by
  unfold send
  split
  · exact .fault _
  · split
    · exact .ok _
    · simp [UnderflowFree]

theorem Chan.underflowFree_close (c : Chan) : UnderflowFree c.close := by
  unfold close
  grind

namespace TypeTable

variable (t : TypeTable) (h : Heap)

theorem underflowFree_hasMethod (v : Value) (name : String) :
    UnderflowFree (t.hasMethod h v name) := by
  have hload := h.underflowFree_load
  have hupTo : ∀ n pointer v, UnderflowFree (t.methodSetUpTo h name n pointer v) := by
    intro n
    induction n with
    | zero => exact fun _ _ => by simp [methodSetUpTo, Heap.fatal, UnderflowFree]
    | succ n ih =>
        intro pointer v
        unfold methodSetUpTo
        split
        · exact .ok _
        · split
          · refine .map _ (Heap.underflowFree_firstFound (fun v => ?_) _)
            grind
          · exact .ok _
  unfold hasMethod
  grind

theorem underflowFree_hasMethods (v : Value) (names : List String) :
    UnderflowFree (t.hasMethods h v names) := by
  induction names with
  | nil => exact .ok _
  | cons m ms ih =>
      have := t.underflowFree_hasMethod h v m
      unfold hasMethods
      grind

theorem underflowFree_holdsType (v : Value) (ty : Ty) : UnderflowFree (t.holdsType h v ty) := by
  have hload := h.underflowFree_load
  have hmethods := t.underflowFree_hasMethods h v
  cases ty with
  | pointer elem =>
      have ih := fun v => underflowFree_holdsType v elem
      unfold holdsType
      grind
  | _ =>
      unfold holdsType
      grind

end TypeTable

namespace Family

theorem underflowFree_shift (op : BinaryOp) (l r : Value) : UnderflowFree (shift op l r) := by
  have hcount : UnderflowFree (shiftCount op r) := by
    unfold shiftCount notDefined
    grind
  unfold shift notDefined
  grind

theorem underflowFree_apply (family : Family) (op : BinaryOp) (l r : Value) :
    UnderflowFree (family.apply op l r) := by
  have hshift := underflowFree_shift op l r
  have hint : ∀ a b, UnderflowFree (intOp op l a b) := fun a b => by
    unfold intOp notDefined
    grind
  have hfloat : ∀ single a b, UnderflowFree (floatOp op l single a b) := fun single a b => by
    unfold floatOp notDefined
    grind
  have hcomplex : ∀ single a b, UnderflowFree (complexOp op l single a b) := fun single a b => by
    unfold complexOp notDefined
    grind
  have hstring : ∀ a b, UnderflowFree (stringOp op l a b) := fun a b => by
    unfold stringOp notDefined
    grind
  have hbool : ∀ a b, UnderflowFree (boolOp op l a b) := fun a b => by
    unfold boolOp notDefined
    grind
  unfold apply notDefined
  grind

end Family

theorem underflowFree_evaluateBinary (h : Heap) (op : BinaryOp) (l r : Value) :
    UnderflowFree (evaluateBinary h op l r) := by
  have hequal := h.underflowFree_equal l r
  have hshift := Family.underflowFree_shift op l r
  have happly := fun (family : Family) => family.underflowFree_apply op
  unfold evaluateBinary Family.notDefined
  grind

theorem underflowFree_evaluateUnary (op : UnaryOp) (v : Value) :
    UnderflowFree (evaluateUnary op v) := by
  have hnot : ∀ v, UnderflowFree (evaluateUnary.notDefined op v) := fun _ => .notDefined _ _
  induction v <;> unfold evaluateUnary <;> grind

end StepGraph

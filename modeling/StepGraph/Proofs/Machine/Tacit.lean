import StepGraph.Proofs.Machine.Operations
import StepGraph.Proofs.Machine.Trace

namespace StepGraph

variable {α β : Type}

-- What was there before is the same, and nothing was printed.
structure Untouched (m m' : Machine) : Prop where
  heap : SparesHeap m.heap m'.heap
  printer : m'.printer = m.printer

namespace Untouched

variable {m m' m'' : Machine}

theorem refl (m : Machine) : Untouched m m := ⟨.refl _, rfl⟩

theorem trans (h₁ : Untouched m m') (h₂ : Untouched m' m'') : Untouched m m'' :=
  ⟨h₁.heap.trans h₂.heap, h₂.printer.trans h₁.printer⟩

end Untouched

-- An operation that leaves everything untouched when it is done at this machine.
def Exec.TacitAt (m : Machine) (x : Exec α) : Prop :=
  match x m with
  | .ok _ m' => Untouched m m'
  | .error _ m' => Untouched m m'

-- The same at every machine.
def Exec.Tacit (x : Exec α) : Prop := ∀ m, TacitAt m x

namespace Exec.Tacit

def trait : Exec.Trait where
  Holds := Tacit
  pure _ m := .refl m
  bind_yields := Moves.bind .trans
  throw _ _ m := .refl m
  heap m := .refl m
  currentScope m := .refl m
  gentle hx m := ⟨hx.sparing m.heap, rfl⟩

theorem operands : trait.Operands where
  frame m := .refl m
  setOperands _ _ := ⟨.refl _, rfl⟩
  setResults _ _ := ⟨.refl _, rfl⟩
  underflow m := .refl m

theorem lift {x : HeapM α} (hx : HeapM.Sparing x) : trait.Holds (liftM x : Exec α) :=
  fun m => ⟨hx m.heap, rfl⟩

end Exec.Tacit

-- The builtins that change nothing that is there.
def Builtin.isTacit : Builtin → Bool
  | len | cap | complex | real | imag | make | new | max | min => true
  | _ => false

-- The steps of expressions that change nothing that is there. A literal is one of them unless it
-- fills a field twice.
def StepOp.isTacit : StepOp → Bool
  | callBuiltin b .. => b.isTacit
  | compose _ (.fields names) => decide names.Nodup
  | unary op => decide (op ≠ .recv)
  | const _ | load _ | binary .. | addressOf _ | deref | shortCircuit .. | index .. | slice ..
  | select _ | compose .. | closure _ | typeAssert .. | typeTest _ | convert _ | pop => true
  | _ => false

namespace Program

open Exec (Tacit Trait Yields)

variable (p : Program)

theorem tacit_addressOf (kind : AddressKind) : Tacit.trait.Holds (p.addressOf kind) := by
  refine holds_addressOf Tacit.operands p fun name _ => ?_
  refine Tacit.trait.bind Tacit.trait.heap fun h =>
    Tacit.trait.bind Tacit.trait.currentScope fun s => ?_
  split
  · refine Tacit.trait.bind (Tacit.lift (Heap.sparing_variableAddress _ name)) fun a => ?_
    split
    · exact Tacit.trait.pure _
    · exact holds_undefined _ p name
  · exact holds_undefined _ p name

attribute [local grind ←] Trait.pure Trait.bind Trait.discard Trait.heap Trait.currentScope
  Trait.gentle Trait.ofExcept Trait.tried Trait.Operands.push Trait.Operands.pop
  Heap.gentle_ofConstant Heap.gentle_box Heap.underflowFree_keyOf TypeTable.gentle_convert
  TypeTable.gentle_make TypeTable.underflowFree_holdsType Family.underflowFree_apply
  underflowFree_evaluateBinary holds_undefined holds_zeroValue holds_deref holds_index holds_select
  holds_typeAssert holds_firstArg holds_twoArgs holds_typeArg holds_expandSpread holds_lengthOf
  holds_capacityOf holds_makeComplex holds_partOf holds_extremumOf Tacit.lift
  Heap.sparing_markEscaped tacit_addressOf

theorem tacit_callBuiltin (sv : Services) {b : Builtin} (hb : b.isTacit = true) (ty : Option Ty)
    (args : List Value) (spread : Bool) : Tacit.trait.Holds (p.callBuiltin sv b ty args spread) := by
  cases b with
  | len | cap | complex | real | imag | make | new | max | min =>
      unfold callBuiltin
      grind
  | _ => cases hb

theorem tacit_work {op : StepOp} (hop : op.isTacit = true) : Tacit.trait.Holds (p.work op) := by
  have hT := Tacit.operands
  cases op with
  | compose ty shape =>
      have hshape : shape.Distinct := by
        cases shape with
        | fields names => exact (of_decide_eq_true hop : names.Nodup)
        | _ => trivial
      exact Tacit.trait.bind (hT.takeN _) fun values => Tacit.trait.bind
        (Tacit.trait.attempt_of_run (Tacit.lift (p.types.sparing_compose ty hshape values))
          fun h => (p.types.apart_compose ty shape values h).2) fun _ => hT.push _
  | unary op =>
      exact Tacit.trait.bind hT.pop fun v => Tacit.trait.bind
        (holds_unary_of_ne_recv Tacit.trait (of_decide_eq_true hop) v) fun _ => hT.push _
  | slice low high max => exact holds_work_slice hT p low high max
  | const | load | binary | addressOf | deref | index | select | closure | typeAssert | typeTest
  | convert | pop =>
      unfold work
      grind
  | shortCircuit => exact Tacit.trait.pure _
  | callBuiltin => exact Tacit.trait.pure _
  | _ => cases hop

-- Such a step leads on in the graph, or calls a builtin of the same kind.
theorem yields_tacit_step {op : StepOp} (hop : op.isTacit = true) :
    Yields (fun
      | .next | .goto _ => True
      | .builtin b .. => b.isTacit = true
      | _ => False) (p.step op) := by
  cases op with
  | callBuiltin b ty args spread results =>
      unfold step
      exact .bind fun _ => .pure hop
  | shortCircuit stop other =>
      unfold step shortCircuit
      refine .bind fun v => ?_
      split
      · exact .notDefined _ _
      · split
        · exact .pure trivial
        · exact .bind fun _ => .pure trivial
  | const | load | binary | unary | addressOf | deref | index | slice | select | compose | closure
  | typeAssert | typeTest | convert | pop =>
      unfold step
      exact .bind fun _ => .pure trivial
  | _ => cases hop

theorem tacit_step {op : StepOp} (hop : op.isTacit = true) : Tacit.trait.Holds (p.step op) := by
  cases op with
  | callBuiltin b ty args spread results =>
      exact Tacit.trait.bind (Tacit.operands.take args) fun _ => Tacit.trait.pure _
  | shortCircuit stop other => exact holds_shortCircuit Tacit.operands stop other
  | const | load | binary | unary | addressOf | deref | index | slice | select | compose | closure
  | typeAssert | typeTest | convert | pop =>
      exact Tacit.trait.bind (p.tacit_work hop) fun _ => Tacit.trait.pure _
  | _ => cases hop

theorem tacit_annotated (span : Span) {x : Exec α} (hx : Tacit x) : Tacit (annotated span x) := by
  intro m
  have hm := hx m
  unfold Exec.TacitAt at hm ⊢
  unfold annotated
  cases hr : x m with
  | ok a m₁ =>
      rw [hr] at hm
      exact hm
  | error u m₁ =>
      rw [hr] at hm
      cases u with
      | panic v => exact ⟨hm.heap, hm.printer⟩
      | _ => exact hm

theorem tacit_advance (n : Nat) {steps : Array Step} {id : StepId} {s : Step}
    (hs : steps[id]? = some s) (hop : s.op.isTacit = true) : Tacit (p.advance n steps id) := by
  unfold advance
  simp only [hs]
  refine Tacit.trait.bind_yields (tacit_annotated s.span (p.tacit_step hop))
    (fun m a m' h => p.yields_tacit_step hop m a m' (annotated_eq_ok.mp h)) fun a ha => ?_
  cases a with
  | next | goto => exact Tacit.trait.pure _
  | builtin b ty args spread results =>
      exact Tacit.trait.bind (tacit_annotated s.span (Tacit.trait.bind
        (p.tacit_callBuiltin _ ha ty args spread) fun _ => Tacit.operands.pushResults _ _))
        fun _ => Tacit.trait.pure _
  | _ => exact ha.elim

end Program

end StepGraph

import StepGraph.Machine.Binding
import StepGraph.Machine.Step
import StepGraph.Proofs.Machine.Attempts
import StepGraph.Proofs.Machine.Exec

open EStateM (bind_apply bind_eq_error)

namespace StepGraph

variable {α β : Type}

-- The name of which a store through a target may change the variable.
def Target.touched : Target → List String
  | var x | field x => [x]
  | _ => []

-- The names of which a step may change variables in whatever scope they are found.
def StepOp.touched : StepOp → List String
  | .declareZero names _ | .carryOut names => names
  | .assign targets _ => targets.flatMap (·.touched)
  | .addressOf (.var name) => [name]
  | _ => []

-- The names that a step binds to values in the present scope.
def StepOp.bound : StepOp → List String
  | .declare names .. => names
  | .rangeInit _ cursor => [cursor]
  | _ => []

-- The run failed because an operation found too few operands.
def Unwind.Underflows : Unwind → Prop
  | .fatal e => e.cause = .operandUnderflow
  | _ => False

-- Nothing is different but the heap, in which the scopes are still inside each other, and what
-- was printed.
structure PositionStays (m m' : Machine) : Prop where
  frame : m'.frame = m.frame
  calls : m'.calls = m.calls
  deferring : m'.deferring = m.deferring
  nests : ScopesNest m.heap m'.heap

namespace PositionStays

variable {m m' m'' : Machine}

theorem refl (m : Machine) : PositionStays m m := ⟨rfl, rfl, rfl, .refl _⟩

theorem trans (h₁ : PositionStays m m') (h₂ : PositionStays m' m'') : PositionStays m m'' where
  frame := h₂.frame.trans h₁.frame
  calls := h₂.calls.trans h₁.calls
  deferring := h₂.deferring.trans h₁.deferring
  nests := h₁.nests.trans h₂.nests

end PositionStays

-- An operation that takes a machine only to machines that the relation holds of, whether it comes
-- to its end or fails.
def Exec.Moves (R : Machine → Machine → Prop) (x : Exec α) : Prop :=
  ∀ m, match x m with
    | .ok _ m' | .error _ m' => R m m'

theorem Exec.Moves.mono {R R' : Machine → Machine → Prop} {x : Exec α} (hx : Moves R x)
    (hR : ∀ m m', R m m' → R' m m') : Moves R' x := by
  intro m
  have h := hx m
  cases hr : x m with
  | ok a m₁ | error u m₁ =>
      rw [hr] at h
      exact hR _ _ h

theorem Exec.moves_imp_iff {P : Machine → Prop} {R : Machine → Machine → Prop} {x : Exec α} :
    Moves (fun m m' => P m → R m m') x ↔ ∀ m, P m → match x m with
      | .ok _ m' | .error _ m' => R m m' := by
  refine forall_congr' fun m => ?_
  cases x m <;> exact Iff.rfl

-- An operation that fails only in such ways.
def Exec.Fails (E : Unwind → Prop) (x : Exec α) : Prop := ∀ m u m', x m = .error u m' → E u

-- In both lemmas, `P` tells what the first operation gives.

theorem Exec.Moves.bind {R : Machine → Machine → Prop}
    (htrans : ∀ {m m' m''}, R m m' → R m' m'' → R m m'') {P : α → Prop} {x : Exec α}
    {f : α → Exec β} (hx : Moves R x) (hpost : Yields P x) (hf : ∀ a, P a → Moves R (f a)) :
    Moves R (x >>= f) := by
  intro m
  have hm := hx m
  rw [bind_apply]
  cases hr : x m with
  | error u m₁ =>
      rw [hr] at hm
      exact hm
  | ok a m₁ =>
      rw [hr] at hm
      have hm₁ := hf a (hpost m a m₁ hr) m₁
      simp only
      cases hr₁ : f a m₁ with
      | ok b m₂ | error u m₂ =>
          rw [hr₁] at hm₁
          exact htrans hm hm₁

theorem Exec.Fails.bind {E : Unwind → Prop} {P : α → Prop} {x : Exec α} {f : α → Exec β}
    (hx : Fails E x) (hpost : Yields P x) (hf : ∀ a, P a → Fails E (f a)) : Fails E (x >>= f) := by
  intro m u m' h
  rcases bind_eq_error.mp h with h | ⟨a, m₁, h₁, h⟩
  · exact hx m u m' h
  · exact hf a (hpost m a m₁ h₁) m₁ u m' h

theorem Exec.moves_and_fails_iff {R : Machine → Machine → Prop} {E : Unwind → Prop} {x : Exec α} :
    (Moves R x ∧ Fails E x) ↔ ∀ m, match x m with
      | .ok _ m' => R m m'
      | .error u m' => R m m' ∧ E u := by
  refine ⟨fun h m => ?_, fun h => ⟨fun m => ?_, fun m u m' hr => ?_⟩⟩
  · have hm := h.1 m
    cases hr : x m with
    | ok a m₁ =>
        rw [hr] at hm
        exact hm
    | error u m₁ =>
        rw [hr] at hm
        exact ⟨hm, h.2 m u m₁ hr⟩
  · have hm := h m
    cases hr : x m with
    | ok a m₁ =>
        rw [hr] at hm
        exact hm
    | error u m₁ =>
        rw [hr] at hm
        exact hm.1
  · have hm := h m
    rw [hr] at hm
    exact hm.2

-- A property of operations that goes from the parts to the whole. It does not matter to it that an
-- operation looks at the heap, makes something new on it or fails for a reason of the program.
structure Exec.Trait where
  Holds : ∀ {α : Type}, Exec α → Prop
  pure : ∀ {α : Type} (a : α), Holds (pure a : Exec α)
  bind_yields : ∀ {α β : Type} {P : α → Prop} {x : Exec α} {f : α → Exec β}, Holds x → Yields P x →
    (∀ a, P a → Holds (f a)) → Holds (x >>= f)
  throw : ∀ {α : Type} {u : Unwind}, u ≠ .exhausted → ¬ u.Underflows → Holds (throw u : Exec α)
  heap : Holds heap
  currentScope : Holds currentScope
  gentle : ∀ {α : Type} {x : HeapM α}, HeapM.Gentle x → Holds (liftM x : Exec α)

-- Nor does a change of the heap matter that has nothing to do with the scopes.
structure Exec.HeapTrait extends Exec.Trait where
  apart : ∀ {α : Type} {x : HeapM α}, HeapM.Apart x → Holds (liftM x : Exec α)

-- To go only to such machines is one, if that is the same for machines with the same scopes.
def Exec.Moves.trait (R : Machine → Machine → Prop)
    (hheap : ∀ m h, h.scopes = m.heap.scopes → R m { m with heap := h })
    (htrans : ∀ m m' m'', R m m' → R m' m'' → R m m'') : Exec.HeapTrait where
  Holds := Moves R
  pure _ m := hheap m m.heap rfl
  bind_yields hx := Moves.bind (R := R) (htrans _ _ _) hx
  throw _ _ m := hheap m m.heap rfl
  heap m := hheap m m.heap rfl
  currentScope m := hheap m m.heap rfl
  gentle hx m := hheap m _ (hx.apart m.heap)
  apart hx m := hheap m _ (hx m.heap)

namespace Exec.HeapTrait

-- Variables of this name may be declared and assigned to, and their address may be taken.
structure Touches (T : Exec.HeapTrait) (x : String) : Prop where
  declare : ∀ s v, T.Holds (liftM (Heap.declare s x v) : Exec Unit)
  assign : ∀ s v, T.Holds (liftM (Heap.assign s x v) : Exec Bool)
  setLocal : ∀ s v, T.Holds (liftM (Heap.setLocal s x v) : Exec Bool)
  address : ∀ s, T.Holds (liftM (Heap.variableAddress s x) : Exec (Option Address))

-- This name may be bound in the present scope.
def Binds (T : Exec.HeapTrait) (x : String) : Prop :=
  ∀ v, T.Holds (do Heap.declare (← currentScope) x v : Exec Unit)

end Exec.HeapTrait

-- Nor a change of what the scopes bind.
structure Exec.ScopeTrait extends Exec.HeapTrait where
  quiet : ∀ {α : Type} {x : HeapM α}, HeapM.Quiet x → Holds (liftM x : Exec α)

-- Then any name may be bound.
theorem Exec.ScopeTrait.touches (T : Exec.ScopeTrait) (x : String) : T.Touches x where
  declare s v := T.quiet (Heap.quiet_declare s x v)
  assign s v := T.quiet (Heap.quiet_assign s x v)
  setLocal s v := T.quiet (Heap.quiet_setLocal s x v)
  address s := T.quiet (Heap.quiet_variableAddress s x)

theorem Exec.ScopeTrait.binds (T : Exec.ScopeTrait) (x : String) : T.Binds x := fun v =>
  T.bind_yields T.currentScope (P := fun _ => True) (fun _ _ _ _ => trivial) fun s _ =>
    (T.touches x).declare s v

-- Nor what is done with the operands and the results of the present call.
structure Exec.Trait.Operands (T : Exec.Trait) : Prop where
  frame : T.Holds frame
  setOperands : ∀ f : List Value → List Value,
    T.Holds (modifyFrame fun fr => { fr with operands := f fr.operands })
  setResults : ∀ values : List Value,
    T.Holds (modifyFrame fun fr => { fr with results := some values })
  underflow : ∀ {α : Type}, T.Holds (fatal .operandUnderflow : Exec α)

namespace Exec.Trait

variable (T : Exec.Trait)

theorem bind {x : Exec α} {f : α → Exec β} (hx : T.Holds x) (hf : ∀ a, T.Holds (f a)) :
    T.Holds (x >>= f) :=
  T.bind_yields hx (P := fun _ => True) (fun _ _ _ _ => trivial) fun a _ => hf a

theorem compositional : Compositional (M := Exec) T.Holds := ⟨T.pure, T.bind⟩

theorem discard {x : Exec α} (hx : T.Holds x) : T.Holds (discard x) := T.compositional.discard hx

theorem forM {l : List α} {f : α → Exec PUnit} (hf : ∀ a, T.Holds (f a)) : T.Holds (l.forM f) :=
  T.compositional.forM hf

theorem mapM {l : List α} {f : α → Exec β} (hf : ∀ a, T.Holds (f a)) : T.Holds (l.mapM f) :=
  T.compositional.mapM hf

theorem raise {e : Failure} (he : UnderflowFree (.error e : Except Failure α)) :
    T.Holds (raise e : Exec α) := by
  cases e with
  | fault f => exact T.bind (T.gentle (Heap.gentle_newError _ _)) fun _ => T.throw nofun id
  | fatal e => exact T.throw nofun fun hu => he (congrArg (Except.error ∘ Failure.fatal) hu)

theorem fault (f : Fault) : T.Holds (fault f : Exec α) := T.raise (.fault f)

theorem fatal {e : Fatal} (he : e ≠ .operandUnderflow) : T.Holds (fatal e : Exec α) :=
  T.raise fun h => he (by cases h; rfl)

theorem notDefined (op kind : String) : T.Holds (notDefined op kind : Exec α) :=
  T.raise (.notDefined op kind)

theorem ofExcept {x : Except Failure α} (hx : UnderflowFree x) : T.Holds (ofExcept x) := by
  cases x with
  | ok a => exact T.pure a
  | error e => exact T.raise fun h => hx (by cases h; rfl)

-- What an attempt does to the heap matters, and its failure is one of the program.
theorem attempt_of_run {x : Attempt α} (hx : T.Holds (liftM x.run : Exec (Except Failure α)))
    (hsound : ∀ h, UnderflowFree (x.run h).1) : T.Holds (attempt x) := by
  refine T.bind_yields hx (P := UnderflowFree) (fun m a m' h => ?_) fun _ => T.ofExcept
  cases h
  exact hsound m.heap

theorem tried {x : Attempt α} (hx : Attempt.Gentle x) : T.Holds (attempt x) :=
  T.attempt_of_run (T.gentle hx.run) fun h => (hx.apart h).2

end Exec.Trait

theorem Exec.HeapTrait.attempt (T : Exec.HeapTrait) {x : Attempt α} (hx : Attempt.Apart x) :
    T.Holds (attempt x) :=
  T.attempt_of_run (T.apart hx.run) fun h => (hx h).2

namespace Exec.Trait.Operands

variable {T : Exec.Trait} (hT : T.Operands)

include hT

theorem push (v : Value) : T.Holds (push v) := hT.setOperands _

theorem pushResults (vs : List Value) (results : CallResults) : T.Holds (pushResults vs results) := by
  cases results with
  | discard => exact T.pure _
  | one => exact hT.push _
  | forward => exact T.bind (hT.setOperands fun _ => _) fun _ => hT.push _

theorem pop : T.Holds pop := by
  refine T.bind hT.frame fun f => ?_
  split
  · exact T.bind (hT.setOperands fun _ => _) fun _ => T.pure _
  · exact hT.underflow

theorem top : T.Holds top := by
  refine T.bind hT.frame fun f => ?_
  split
  · exact T.pure _
  · exact hT.underflow

theorem peekN (n : Nat) : T.Holds (peekN n) := by
  refine T.bind hT.frame fun f => ?_
  dsimp only
  split
  · exact hT.underflow
  · exact T.pure _

theorem takeN (n : Nat) : T.Holds (takeN n) := by
  refine T.bind hT.frame fun f => ?_
  dsimp only
  split
  · exact hT.underflow
  · exact T.bind (hT.setOperands fun _ => _) fun _ => T.pure _

theorem popN (n : Nat) : T.Holds (popN n) := by
  induction n with
  | zero => exact T.pure _
  | succ n ih => exact T.bind hT.pop fun _ => T.bind ih fun _ => T.pure _

theorem take (arity : Arity) : T.Holds (take arity) := by
  cases arity with
  | fixed n => exact hT.takeN n
  | forwarded =>
      refine T.bind hT.pop fun v => ?_
      split
      · split
        · exact hT.underflow
        · exact hT.popN _
      · exact hT.underflow

end Exec.Trait.Operands

-- An operation of a machine that leaves the position of the run alone and needs no operands.
def Exec.Quiet (x : Exec α) : Prop :=
  ∀ m, match x m with
    | .ok _ m' => PositionStays m m'
    | .error u m' => PositionStays m m' ∧ ¬ u.Underflows

namespace Exec.Quiet

theorem iff_moves {x : Exec α} : Quiet x ↔ Moves PositionStays x ∧ Fails (¬ ·.Underflows) x :=
  moves_and_fails_iff.symm

def trait : Exec.ScopeTrait where
  Holds := Quiet
  pure _ m := .refl m
  bind_yields hx hpost hf := iff_moves.mpr
    ⟨(iff_moves.mp hx).1.bind .trans hpost fun a ha => (iff_moves.mp (hf a ha)).1,
      (iff_moves.mp hx).2.bind hpost fun a ha => (iff_moves.mp (hf a ha)).2⟩
  throw _ hu m := ⟨.refl m, hu⟩
  heap m := .refl m
  currentScope m := .refl m
  gentle hx m := ⟨rfl, rfl, rfl, hx.apart.quiet m.heap⟩
  apart hx m := ⟨rfl, rfl, rfl, hx.quiet m.heap⟩
  quiet hx m := ⟨rfl, rfl, rfl, hx m.heap⟩

theorem get : trait.Holds get := fun m => .refl m

theorem exhausted : trait.Holds (throw .exhausted : Exec α) := fun m => ⟨.refl m, id⟩

theorem print (s : String) : trait.Holds (print s) := fun m => ⟨rfl, rfl, rfl, .refl m.heap⟩

theorem printLine (s : String) : trait.Holds (printLine s) := fun m =>
  ⟨rfl, rfl, rfl, .refl m.heap⟩

end Exec.Quiet

-- Such an operation that has nothing to do with the scopes either.
def Exec.Apart (x : Exec α) : Prop :=
  Quiet x ∧ ∀ m, match x m with
    | .ok _ m' | .error _ m' => m'.heap.scopes = m.heap.scopes

namespace Exec.Apart

theorem quiet {x : Exec α} (hx : Apart x) : Quiet x := hx.1

theorem moves {x : Exec α} (hx : Apart x) :
    Moves (fun m m' => m'.heap.scopes = m.heap.scopes) x := hx.2

def trait : Exec.HeapTrait where
  Holds := Apart
  pure a := ⟨Quiet.trait.pure a, fun _ => rfl⟩
  bind_yields hx hpost hf := ⟨Quiet.trait.bind_yields hx.1 hpost fun a ha => (hf a ha).1,
    hx.moves.bind (fun h₁ h₂ => h₂.trans h₁) hpost fun a ha => (hf a ha).moves⟩
  throw _ hu := ⟨fun m => ⟨.refl m, hu⟩, fun _ => rfl⟩
  heap := ⟨Quiet.trait.heap, fun _ => rfl⟩
  currentScope := ⟨Quiet.trait.currentScope, fun _ => rfl⟩
  gentle hx := ⟨Quiet.trait.gentle hx, fun m => hx.apart m.heap⟩
  apart hx := ⟨Quiet.trait.apart hx, fun m => hx m.heap⟩

theorem print (s : String) : trait.Holds (print s) := ⟨Quiet.print s, fun _ => rfl⟩

theorem printLine (s : String) : trait.Holds (printLine s) := ⟨Quiet.printLine s, fun _ => rfl⟩

end Exec.Apart

end StepGraph

namespace StepGraph.Program

open Exec

variable {α : Type}

section trait

variable (T : Exec.Trait) (p : Program)

attribute [local grind ←] HeapM.Gentle.pure HeapM.Gentle.bind HeapM.Gentle.get Trait.pure Trait.bind
  Trait.discard Trait.forM Trait.mapM Trait.heap Trait.currentScope Trait.gentle Trait.fault
  Trait.fatal Trait.notDefined Trait.ofExcept Trait.tried Heap.gentle_box Heap.gentle_copy
  Heap.gentle_ofConstant Heap.gentle_slotAddress Heap.gentle_newSlice TypeTable.gentle_zeroValue
  TypeTable.gentle_coerce TypeTable.gentle_method TypeTable.gentle_convert TypeTable.gentle_make
  Heap.underflowFree_load Heap.underflowFree_deref Heap.underflowFree_keyOf
  Heap.underflowFree_locate underflowFree_evaluateBinary underflowFree_evaluateUnary
  TypeTable.underflowFree_holdsType

theorem holds_undefined (name : String) : T.Holds (p.undefined name : Exec α) := by
  unfold undefined
  split
  · exact T.throw nofun id
  · exact T.fatal nofun

theorem holds_zeroValue (ty : Ty) : T.Holds (p.zeroValue ty) := T.gentle (p.types.gentle_zeroValue ty)

theorem holds_coerce (v : Value) (ty : Ty) : T.Holds (p.coerce v ty) :=
  T.gentle (p.types.gentle_coerce v ty)

theorem holds_member? (ref : PackageRef) (name : String) : T.Holds (p.member? ref name) := by
  unfold member?
  grind

attribute [local grind ←] holds_undefined holds_zeroValue holds_coerce holds_member?

theorem holds_selectMethod (name : String) (n : Nat) (v : Value) :
    T.Holds (p.selectMethod name n v) := by
  have hno : ∀ v, T.Holds (selectMethod.noMember name v) :=
    fun v => T.bind T.heap fun _ => T.fatal nofun
  have hfound : ∀ v o, T.Holds (selectMethod.found name v o) := by
    intro v o
    unfold selectMethod.found
    grind
  have hagain : ∀ n, (∀ v, T.Holds (p.selectMethod name n v)) →
      ∀ v, T.Holds (selectMethod.again p name n v) := by
    intro n hn v
    unfold selectMethod.again
    grind
  induction n generalizing v with
  | zero =>
      unfold selectMethod
      exact hno v
  | succ n ih =>
      have := hagain n ih
      unfold selectMethod
      grind

theorem holds_select (base : Value) (name : String) : T.Holds (p.select base name) := by
  have hmethod := holds_selectMethod T p name
  unfold select
  grind

theorem holds_deref (v : Value) : T.Holds (deref v) := by
  unfold deref
  grind

theorem holds_checkedIndex (index : Value) (length : Nat) : T.Holds (checkedIndex index length) := by
  unfold checkedIndex
  grind

theorem holds_orOutOfRange (i length : Nat) (v : Option Value) :
    T.Holds (orOutOfRange i length v) := by
  unfold orOutOfRange
  grind

theorem holds_missingEntry (m : Option MapId) (elem : Option Ty) :
    T.Holds (p.missingEntry m elem) := by
  unfold missingEntry
  grind

theorem holds_behindPointers (n : Nat) (v : Value) : T.Holds (behindPointers n v) := by
  induction n generalizing v with
  | zero => exact T.pure v
  | succ n ih =>
      unfold behindPointers
      grind

attribute [local grind ←] holds_deref holds_checkedIndex holds_orOutOfRange holds_missingEntry
  holds_behindPointers holds_select

theorem holds_index (base index : Value) (elem : Option Ty) : T.Holds (p.index base index elem) := by
  have hbare : ∀ base, T.Holds (p.indexBare base index elem) := by
    intro base
    unfold indexBare
    split <;> grind
  unfold Program.index
  grind

theorem holds_bound? (v : Option Value) : T.Holds (bound? v) := by
  unfold bound?
  grind

theorem holds_slice (bounds : Bounds) (v : Value) : T.Holds (slice bounds v) := by
  have hwindow : ∀ length capacity, T.Holds (bounds.window length capacity) := by
    intro length capacity
    unfold Bounds.window
    grind
  have harray : ∀ b, T.Holds (sliceArray b bounds) := by
    intro b
    unfold sliceArray
    grind
  induction v with
  | named t v ih =>
      unfold slice
      grind
  | _ =>
      unfold slice
      grind

theorem holds_locateField (base : Value) (name : String) : T.Holds (locateField base name) := by
  have hmissing : T.Holds (missingField base name : Exec FieldRef) := by
    unfold missingField
    grind
  unfold locateField
  grind

attribute [local grind ←] holds_locateField holds_index

theorem holds_loadTarget (target : Target) (operands : List Value) (ty : Option Ty) :
    T.Holds (p.loadTarget target operands ty) := by
  unfold loadTarget
  split <;> grind

theorem holds_addressOfField (base : Value) (name : String) :
    T.Holds (addressOfField base name) := by
  unfold addressOfField
  grind

theorem holds_addressOfElement (base index : Value) : T.Holds (addressOfElement base index) := by
  unfold addressOfElement
  refine T.bind T.heap fun h => T.bind (holds_behindPointers T _ _) fun v => ?_
  split <;> grind

theorem holds_mismatch (want got : Nat) : T.Holds (mismatch want got : Exec α) := T.fatal nofun

theorem holds_branch (v : Value) (other : Option StepId) : T.Holds (branch v other) := by
  unfold branch
  split
  · exact T.pure _
  · exact T.pure _
  · exact T.notDefined _ _

-- Only the receive operator takes something away.
theorem holds_unary_of_ne_recv {op : UnaryOp} (hop : op ≠ .recv) (v : Value) :
    T.Holds (unary op v) := by
  unfold unary
  split
  · exact holds_deref T v
  · exact absurd rfl hop
  · exact T.bind (T.gentle (Heap.gentle_box v)) fun _ => T.pure _
  · exact T.ofExcept (underflowFree_evaluateUnary _ v)

-- What a call starts and ends with.

theorem holds_receiverValue (recv : Receiver) (v : Value) : T.Holds (receiverValue recv v) := by
  unfold receiverValue
  grind

theorem holds_passed (ty : Ty) (v : Value) : T.Holds (p.passed ty v) := by
  unfold passed
  grind

theorem holds_variadicSlice (ty : Ty) (args : List Value) (spread : Bool) :
    T.Holds (p.variadicSlice ty args spread) := by
  have := holds_passed T p
  unfold variadicSlice
  grind

theorem holds_namedResult (scope : ScopeId) (r : Param) : T.Holds (p.namedResult scope r) := by
  unfold namedResult
  grind

theorem holds_collectResults (hframe : T.Holds frame) (sig : Signature) :
    T.Holds (p.collectResults sig) := by
  have := holds_namedResult T p
  unfold collectResults
  grind

-- Calls of builtins that only look at their arguments or make new values.

theorem holds_firstArg (args : List Value) : T.Holds (firstArg args) := by
  unfold firstArg missing
  grind

theorem holds_twoArgs (args : List Value) : T.Holds (twoArgs args) := by
  unfold twoArgs missing
  grind

theorem holds_typeArg (b : Builtin) (ty : Option Ty) : T.Holds (typeArg b ty) := by
  unfold typeArg missing
  grind

theorem holds_expandSpread (args : List Value) : T.Holds (expandSpread args) := by
  unfold expandSpread
  grind

theorem holds_lengthOf (v : Value) : T.Holds (lengthOf v) := by
  unfold lengthOf
  split <;> grind

theorem holds_capacityOf (v : Value) : T.Holds (capacityOf v) := by
  unfold capacityOf
  split <;> grind

theorem holds_makeComplex (re im : Value) : T.Holds (makeComplex re im) := by
  have hpart : ∀ v, T.Holds (complexPart v) := by
    intro v
    unfold complexPart
    grind
  unfold makeComplex
  grind

theorem holds_partOf (b : Builtin) (v : Value) : T.Holds (partOf b v) := by
  unfold partOf
  grind

theorem holds_extremumOf (b : Builtin) (args : List Value) : T.Holds (extremumOf b args) := by
  have hextremum : ∀ op best vs, T.Holds (extremum op best vs) := by
    intro op best vs
    induction vs generalizing best with
    | nil => exact T.pure _
    | cons v vs ih =>
        unfold extremum
        grind
  unfold extremumOf
  grind

theorem holds_raisePanic (payload : Value) : T.Holds (raisePanic payload) := by
  unfold raisePanic
  split
  · exact T.fault _
  · exact T.throw nofun id

end trait

section heap

variable (T : Exec.HeapTrait) (p : Program)

attribute [local grind ←] Trait.pure Trait.bind Trait.discard Trait.forM Trait.mapM Trait.heap
  Trait.gentle HeapTrait.apart Trait.fault Trait.fatal Trait.notDefined Trait.ofExcept Trait.tried
  HeapTrait.attempt Heap.gentle_box Heap.gentle_copy Heap.apart_storeElement Heap.apart_remove
  Heap.apart_clear Heap.apart_sliceSet Heap.apart_append Heap.apart_send Heap.apart_close
  Heap.apart_receive Heap.apart_insert TypeTable.gentle_make Heap.underflowFree_keyOf
  holds_zeroValue holds_deref holds_checkedIndex holds_firstArg holds_twoArgs holds_typeArg
  holds_expandSpread holds_lengthOf holds_capacityOf holds_makeComplex holds_partOf holds_extremumOf
  holds_raisePanic

theorem holds_receive (v : Value) : T.Holds (receive v) := by
  unfold receive
  grind

theorem holds_send (chan v : Value) : T.Holds (send chan v) := by
  unfold send
  grind

theorem holds_storeElement (base key v : Value) : T.Holds (storeElement base key v) := by
  have hslot : ∀ b j i length, T.Holds (storeSlot (.element b j) i length v) := by
    intro b j i length
    unfold storeSlot
    grind
  unfold storeElement
  split <;> grind

theorem holds_unary (op : UnaryOp) (v : Value) : T.Holds (unary op v) := by
  by_cases hop : op = .recv
  · subst hop
    exact T.bind (holds_receive T v) fun _ => T.pure _
  · exact holds_unary_of_ne_recv T.toTrait hop v

theorem holds_setItem (w : Option Window) (i : Nat) (v : Value) :
    T.Holds (discard (Heap.sliceSet w i v : HeapM Bool) : Exec Unit) :=
  T.discard (T.apart (Heap.apart_sliceSet w i v))

theorem holds_copyElements (dst src : Value) : T.Holds (copyElements dst src) := by
  have hcopy : ∀ {f : Value × Nat → Exec Unit}, (∀ v i, T.Holds (f (v, i))) →
      ∀ items : List Value, T.Holds (do
        items.zipIdx.forM f
        return items.length : Exec Nat) :=
    fun hf _ => T.bind (T.forM fun vi => hf vi.1 vi.2) fun _ => T.pure _
  have hitem : ∀ w v i, T.Holds (do
      let v ← Heap.copy v
      discard (Heap.sliceSet w i v : HeapM Bool) : Exec Unit) :=
    fun w v i => T.bind (T.gentle (Heap.gentle_copy v)) fun v => holds_setItem T w i v
  unfold copyElements
  split
  · split
    · exact T.bind T.heap fun _ => T.bind (T.pure _) fun _ => hcopy (hitem _) _
    · exact T.bind (T.pure _) fun _ => hcopy (hitem _) _
    · exact T.bind (T.pure _) fun _ => hcopy (hitem _) _
    · exact T.bind (T.notDefined _ _) fun _ => hcopy (hitem _) _
  · exact T.notDefined _ _

theorem holds_clearValue (v : Value) : T.Holds (clearValue v) := by
  unfold clearValue
  split
  · exact T.apart (Heap.apart_clear _)
  · exact T.bind T.heap fun _ => T.forM fun (v, i) => T.bind T.heap fun _ =>
      T.bind (T.gentle (Heap.gentle_ofConstant _)) fun zero => holds_setItem T _ i zero
  · exact T.notDefined _ _

theorem holds_closeValue (v : Value) : T.Holds (closeValue v) := by
  unfold closeValue
  grind

theorem holds_appendValues (ty : Option Ty) (args : List Value) (spread : Bool) :
    T.Holds (p.appendValues ty args spread) := by
  have hbase : ∀ v, T.Holds (appendBase v) := by
    intro v
    unfold appendBase
    grind
  have happend : ∀ {f : Value → Value → Exec Value}, (∀ v v', T.Holds (f v v')) →
      ∀ name w (items : List Value), T.Holds (do
        let items ← items.mapM fun v => do f v (← Heap.copy v)
        return (Value.slice (← Heap.append w items)).wearing name : Exec Value) :=
    fun hf _ w _ => T.bind (T.mapM fun v => T.bind (T.gentle (Heap.gentle_copy v)) fun _ => hf _ _)
      fun items => T.bind (T.apart (Heap.apart_append w items)) fun _ => T.pure _
  have hcoerce := holds_coerce T.toTrait p
  unfold appendValues
  split
  · exact T.notDefined _ _
  · refine T.bind (hbase _) fun base => ?_
    dsimp only
    split
    · exact T.bind (holds_expandSpread T.toTrait _) fun _ => happend (fun _ _ => by grind) _ _ _
    · exact T.bind (T.pure _) fun _ => happend (fun _ _ => by grind) _ _ _

attribute [local grind ←] holds_clearValue holds_closeValue holds_copyElements holds_appendValues

-- Only three builtins call something, print or touch the active calls.
theorem holds_callBuiltin {sv : Services} {b : Builtin} (hrecover : b ≠ .recover)
    (hprint : b ≠ .print) (hprintln : b ≠ .println) (ty : Option Ty) (args : List Value)
    (spread : Bool) : T.Holds (p.callBuiltin sv b ty args spread) := by
  cases b with
  | recover => exact absurd rfl hrecover
  | print => exact absurd rfl hprint
  | println => exact absurd rfl hprintln
  | _ =>
      unfold callBuiltin
      grind

end heap

section names

variable {T : Exec.HeapTrait} (p : Program) {name : String}

attribute [local grind ←] Trait.pure Trait.bind Trait.discard Trait.forM Trait.mapM Trait.heap
  Trait.currentScope Trait.gentle HeapTrait.apart Trait.fault Trait.fatal Trait.notDefined
  Trait.ofExcept Trait.tried HeapTrait.attempt HeapTrait.Touches.declare HeapTrait.Touches.assign
  HeapTrait.Touches.setLocal HeapTrait.Touches.address Heap.gentle_copy Heap.apart_storeElement
  Heap.apart_storeAt Heap.underflowFree_deref holds_undefined holds_zeroValue holds_coerce
  holds_behindPointers holds_locateField holds_storeElement holds_passed holds_variadicSlice
  holds_receiverValue

theorem holds_storeField (hname : T.Touches name) (base v : Value) :
    T.Holds (p.storeField base name v) := by
  unfold storeField
  split
  · grind
  · refine T.bind (holds_locateField T.toTrait _ _) fun field => ?_
    split <;> grind

theorem holds_storeTarget {target : Target} (ht : ∀ x ∈ target.touched, T.Touches x)
    (operands : List Value) (v : Value) : T.Holds (p.storeTarget target operands v) := by
  have hfield : ∀ x base, target = .field x → T.Holds (p.storeField base x v) :=
    fun x base hx => holds_storeField p (ht x (hx ▸ List.mem_singleton_self x)) base v
  have hvar : ∀ x s, target = .var x → T.Holds (liftM (Heap.assign s x v) : Exec Bool) :=
    fun x s hx => (ht x (hx ▸ List.mem_singleton_self x)).assign s v
  unfold storeTarget
  split <;> grind

theorem holds_addressOfVariable (hname : T.Touches name) : T.Holds (p.addressOfVariable name) := by
  unfold addressOfVariable
  grind

-- What steps do with values that they have taken off the stack.

theorem holds_declareValue (hname : T.Binds name) (ty : Option Ty) (v : Value) :
    T.Holds (p.declareValue ty name v) := by
  unfold declareValue
  split
  · exact T.pure _
  · refine T.bind (T.gentle (Heap.gentle_copy v)) fun v => ?_
    split
    · exact T.bind (holds_coerce T.toTrait p v _) hname
    · exact T.bind (T.pure v) hname

theorem holds_declareZero (hname : T.Touches name) (ty : Ty) :
    T.Holds (p.declareZero ty name) := by
  unfold declareZero
  grind

theorem holds_storeAll {targets : List Target}
    (ht : ∀ x ∈ targets.flatMap (·.touched), T.Touches x) (operands : List (List Value))
    (values : List Value) : T.Holds (p.storeAll targets operands values) := by
  induction targets generalizing operands values with
  | nil => exact T.pure _
  | cons t targets ih =>
      rw [List.flatMap_cons] at ht
      obtain ⟨ht, hrest⟩ := List.forall_mem_append.mp ht
      match operands, values with
      | [], _ | _ :: _, [] => exact T.pure _
      | ops :: operands, v :: values =>
          exact T.bind (T.gentle (Heap.gentle_copy v)) fun _ =>
            T.bind (holds_storeTarget p ht _ _) fun _ => ih hrest _ _

theorem holds_carryOut {names : List String} (hnames : ∀ x ∈ names, T.Touches x) :
    T.Holds (carryOut names) := by
  unfold carryOut
  refine T.bind T.currentScope fun scope => T.bind T.heap fun h => ?_
  split
  · exact T.pure _
  · exact T.compositional.forM_mem fun x hx => by grind

-- What a call starts with.

section call

variable {scope : ScopeId}
  (hscope : ∀ x v, T.Holds (liftM (Heap.declare scope x v) : Exec Unit))

include hscope

theorem holds_bindName (name : Option String) (v : Value) : T.Holds (bindName scope name v) := by
  unfold bindName
  grind

theorem holds_bindReceiver (recv : Option Receiver) (v : Option Value) :
    T.Holds (bindReceiver scope recv v) := by
  have := holds_bindName hscope
  unfold bindReceiver
  grind

theorem holds_bindParams (f : Function) (args : List Value) (spread : Bool) :
    T.Holds (p.bindParams scope f args spread) := by
  have hbind := holds_bindName hscope
  unfold bindParams
  grind

theorem holds_declareResults (sig : Signature) : T.Holds (p.declareResults scope sig) := by
  unfold declareResults
  grind

end call

end names

section operands

variable {T : Exec.Trait} (hT : T.Operands) (p : Program)

include hT

theorem holds_takeOperands (targets : List Target) : T.Holds (takeOperands targets) := by
  induction targets with
  | nil => exact T.pure _
  | cons t rest ih => exact T.bind ih fun _ => T.bind (hT.takeN _) fun _ => T.pure _

theorem holds_popIf (present : Bool) : T.Holds (popIf present) := by
  cases present with
  | true => exact T.bind hT.pop fun _ => T.pure _
  | false => exact T.pure _

theorem holds_addressOf {kind : AddressKind}
    (hvar : ∀ name, kind = .var name → T.Holds (p.addressOfVariable name)) :
    T.Holds (p.addressOf kind) := by
  cases kind with
  | var name => exact hvar name rfl
  | field name => exact T.bind hT.pop fun _ => holds_addressOfField T _ _
  | index => exact T.bind hT.pop fun _ => T.bind hT.pop fun _ => holds_addressOfElement T _ _
  | value => exact T.bind hT.pop fun v => T.gentle (Heap.gentle_box v)

theorem holds_typeAssert (ty : Ty) (commaOk : Bool) : T.Holds (p.typeAssert ty commaOk) := by
  refine T.bind hT.pop fun v => T.bind T.heap fun h =>
    T.bind (T.ofExcept (p.types.underflowFree_holdsType h v ty)) fun ok => ?_
  have hpair : ∀ v, T.Holds (push v >>= fun _ => push (.bool ok)) :=
    fun v => T.bind (hT.push v) fun _ => hT.push _
  split
  · dsimp only
    split
    · exact T.bind (T.pure v) hpair
    · exact T.bind (holds_zeroValue T p ty) hpair
  · split
    · exact hT.push _
    · exact T.bind T.heap fun _ => T.fault _

theorem holds_work_slice (low high max : Bool) : T.Holds (p.work (.slice low high max)) :=
  T.bind (holds_popIf hT max) fun max => T.bind (holds_popIf hT high) fun high =>
    T.bind (holds_popIf hT low) fun low => T.bind hT.pop fun base =>
      T.bind (holds_bound? T low) fun _ => T.bind (holds_bound? T high) fun _ =>
        T.bind (holds_bound? T max) fun _ => T.bind (holds_slice T _ base) fun _ => hT.push _

theorem holds_shortCircuit (stop : Bool) (other : Option StepId) :
    T.Holds (shortCircuit stop other) := by
  refine T.bind hT.top fun v => ?_
  split
  · exact T.notDefined _ _
  · split
    · exact T.pure _
    · exact T.bind (T.discard hT.pop) fun _ => T.pure _

theorem holds_step_ret (arity : Arity) : T.Holds (p.step (.ret arity)) := by
  unfold step
  dsimp only
  split
  · exact T.bind (hT.take arity) fun _ => T.bind (hT.setResults _) fun _ => T.pure _
  · exact T.pure _

end operands

-- The steps that open or leave scopes.
def Moving : StepOp → Prop
  | .jump _ | .pushScope | .popScope => True
  | _ => False

section steps

variable {T : Exec.HeapTrait} (hT : T.Operands) (p : Program) {op : StepOp}

include hT

attribute [local grind ←] Trait.pure Trait.bind Trait.discard Trait.heap Trait.currentScope
  Trait.gentle HeapTrait.apart Trait.ofExcept Trait.tried HeapTrait.attempt Trait.Operands.push
  Trait.Operands.pop Trait.Operands.peekN Trait.Operands.takeN Trait.Operands.take
  Heap.gentle_ofConstant TypeTable.gentle_convert TypeTable.apart_compose
  TypeTable.underflowFree_holdsType Family.underflowFree_apply underflowFree_evaluateBinary
  holds_undefined holds_loadTarget holds_unary holds_deref holds_index holds_select holds_send
  holds_receive holds_typeAssert

theorem holds_rangeNext (cursor : String) (value : Bool) (exit : Option StepId) :
    T.Holds (p.rangeNext cursor value exit) := by
  refine T.bind T.heap fun h => T.bind T.currentScope fun s => ?_
  split
  · refine T.bind (T.attempt (Heap.apart_advance _)) fun r => ?_
    split
    · cases value with
      | true => exact T.bind (hT.push _) fun _ => T.bind (hT.push _) fun _ => T.pure _
      | false => exact T.bind (hT.push _) fun _ => T.pure _
    · exact T.pure _
  · exact holds_undefined _ p cursor

variable (htouched : ∀ x ∈ op.touched, T.Touches x) (hbound : ∀ x ∈ op.bound, T.Binds x)
  (hescaped : ∀ s, T.Holds (liftM (Heap.markEscaped s) : Exec Unit))

include htouched hbound hescaped

theorem holds_work (hop : ¬ Moving op) : T.Holds (p.work op) := by
  cases op with
  | jump | pushScope | popScope => exact absurd trivial hop
  | declare names ty arity =>
      refine T.bind (hT.take arity) fun values => ?_
      have hnames : T.Holds ((names.zip values).forM fun x => p.declareValue ty x.1 x.2) :=
        T.compositional.forM_mem fun x hx =>
          holds_declareValue p (hbound x.1 (List.of_mem_zip hx).1) ty x.2
      split
      · exact T.bind (holds_mismatch T.toTrait _ _) fun _ => hnames
      · exact hnames
  | declareZero names ty =>
      exact T.compositional.forM_mem fun x hx => holds_declareZero p (htouched x hx) ty
  | assign targets arity =>
      have hstore : ∀ values, T.Holds (do p.storeAll targets (← takeOperands targets) values) :=
        fun values => T.bind (holds_takeOperands hT targets) fun _ => holds_storeAll p htouched _ _
      refine T.bind (hT.take arity) fun values => ?_
      split
      · exact T.bind (holds_mismatch T.toTrait _ _) fun _ => hstore values
      · exact hstore values
  | carryOut names => exact holds_carryOut htouched
  | closure code =>
      exact T.bind T.currentScope fun s => T.bind (hescaped s) fun _ => hT.push _
  | rangeInit kind cursor =>
      exact T.bind hT.pop fun v => T.bind (T.attempt (Heap.apart_startCursor kind v)) fun c =>
        hbound cursor (List.mem_singleton_self cursor) c
  | addressOf kind =>
      refine T.bind (holds_addressOf hT p (fun x hx => ?_)) fun _ => hT.push _
      exact holds_addressOfVariable p (htouched x (by rw [hx]; exact List.mem_singleton_self x))
  | slice low high max => exact holds_work_slice hT p low high max
  | _ =>
      unfold work
      grind

-- Whatever another step does before anything is called.
theorem holds_step_of (hop : ¬ Moving op) : T.Holds (p.step op) := by
  cases op with
  | jump | pushScope | popScope => exact absurd trivial hop
  | branch other => exact T.bind hT.pop fun v => holds_branch _ v other
  | shortCircuit stop other => exact holds_shortCircuit hT stop other
  | rangeNext cursor value exit => exact holds_rangeNext hT p cursor value exit
  | call args spread results =>
      exact T.bind hT.pop fun _ => T.bind (hT.take args) fun _ => T.pure _
  | callBuiltin b ty args spread results => exact T.bind (hT.take args) fun _ => T.pure _
  | ret arity => exact holds_step_ret hT p arity
  | defer entry args spread builtin => exact T.pure _
  | _ => exact T.bind (holds_work hT p htouched hbound hescaped hop) fun _ => T.pure _

end steps

theorem holds_step {T : Exec.ScopeTrait} (hT : T.Operands) (p : Program) {op : StepOp}
    (hop : ¬ Moving op) : T.Holds (p.step op) :=
  holds_step_of hT p (fun x _ => T.touches x) (fun x _ => T.binds x)
    (fun s => T.quiet (Heap.quiet_markEscaped s)) hop

end StepGraph.Program

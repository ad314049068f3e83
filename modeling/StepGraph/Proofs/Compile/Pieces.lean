import StepGraph.Compile.Lower
import Mathlib.Tactic.SplitIfs

namespace StepGraph

namespace Build

-- A type is no operand.
theorem compile_typeExpr (note : Note) (ty : Ty) (want : Want) :
    compile (.typeExpr note ty) want = unsupported "type used as expression" note.span := by
  unfold compile
  rfl

-- The values of a round go to places that are no variables of the loop.
def rangeAssign (span : Span) (key value : Option Expr) : Build Unit := do
  let count := if value.isSome then 2 else 1
  let keyTemp ← temp "k"
  let valueTemp ← temp "v"
  let temps := keyTemp :: (if value.isSome then [valueTemp] else [])
  emit' (.declare temps none (.fixed count)) span
  let keyTarget ← compileRangeTarget key
  let valueTarget ← compileRangeTarget value
  temps.forM fun x => emit' (.load x) span
  emit' (.assign ([keyTarget, valueTarget].take count) (.fixed count)) span

-- What a range loop at this depth builds in front of its body. The result is its head.
def rangeHead (span : Span) (key value : Option Expr) (define : Bool) (subject : Expr)
    (label : Option String) (depth : Nat) : Build StepId := do
  let n ← names
  let (kind, keyTy, valueTy) := n.rangeShape (n.inferType subject)
  discard (compile subject (.value none))
  let cursor ← temp "range"
  emit' (.rangeInit kind cursor) span
  let head ← emit (.rangeNext cursor value.isSome none) span
  pushContext .loop label depth depth
  enterScope span
  let count := if value.isSome then 2 else 1
  if key.isNone && value.isNone then emit' .pop span
  else if define then
    let xs := nameOr key :: (if value.isSome then [nameOr value] else [])
    emit' (.declare xs none (.fixed count)) span
    modifyNames fun n => n.declareAll xs [keyTy, valueTy]
  else rangeAssign span key value
  return head

-- What it builds behind its body.
def rangeTail (span : Span) (depth : Nat) (head : StepId) : Build Unit := do
  let (breaks, continues) ← popContext
  leaveScope span
  link (← jump depth span) head
  linkAll continues head
  addPending (⟨head, .other⟩ :: breaks)
  leaveScope span

theorem compileStmt_range (span : Span) (key value : Option Expr) (define : Bool) (subject : Expr)
    (body : List Stmt) (label : Option String) :
    compileStmt (.range span key value define subject body) label = (do
      enterScope span
      let depth := (← get).depth
      let head ← rangeHead span key value define subject label depth
      inScope body Span.none (compileStmts body)
      rangeTail span depth head) := by
  unfold compileStmt rangeHead rangeAssign rangeTail
  simp only [bind_assoc]
  split_ifs <;> simp only [bind_assoc, pure_bind]

-- What a type switch builds in front of its clauses: the variable that holds its subject, the paths
-- to each clause, and those past all of them.
def typeSwitchHead (span : Span) (subject : Expr) (clauses : List TypeClause)
    (label : Option String) : Build ((String × Option Ty) × List (List Slot) × List Slot) := do
  let subjectTy := (← names).staticType subject
  discard (compile subject (.value none))
  let x ← temp "subj"
  declareTop x span
  declare x subjectTy
  let entries ← clauses.mapM fun c => typeTests x c.types
  let (entries, exits) :=
    addUnmatched (clauses.map fun c => c.isDefault) (← takePending) entries
  let depth := (← get).depth
  pushContext .switch label depth depth
  return ((x, subjectTy), entries, exits)

theorem compileStmt_typeSwitch (span : Span) (init : Option Stmt) (binding : Option String)
    (subject : Expr) (clauses : List TypeClause) (label : Option String) :
    compileStmt (.typeSwitch span init binding subject clauses) label = (do
      enterScope span
      compileOptional init
      let ((x, ty), entries, exits) ← typeSwitchHead span subject clauses label
      let exits ← compileTypeBodies (bindSubject binding x ty) clauses entries exits
      let (breaks, _) ← popContext
      setPending (exits ++ breaks)
      leaveScope span) := by
  unfold compileStmt typeSwitchHead
  simp only [bind_assoc, pure_bind]

-- What the steps of a deferred call leave: how its arguments lie, and the builtin that is called.
def deferredCall (span : Span) (f : Expr) (args : List Expr) (spread : Bool) :
    Build (Arity × Option (Builtin × Option Ty)) := do
  match (← names).callShape f with
  | .builtin b =>
      let ty ← builtinType b args span
      let arity ← if b.takesType then compileRest args [] spread else compileArgs args [] spread
      return (arity, some (b, ty))
  | .conversion _ => unsupported "defer of a conversion" span
  | .call =>
      let arity ← compileArgs args [] spread
      discard (compile f (.value none))
      return (arity, none)

-- An action after which there is at least one step more.
def padded {α : Type} (span : Span) (x : Build α) : Build α := do
  let entry := (← get).steps.size
  let a ← x
  if (← get).steps.size = entry then emit' .nop span
  return a

theorem padded_bind {α β : Type} (span : Span) (x : Build α) (rest : α → Build β) :
    padded span x >>= rest = (do
      let entry := (← get).steps.size
      let a ← x
      if (← get).steps.size = entry then emit' .nop span
      rest a) := by
  unfold padded
  simp only [bind_assoc]
  refine congrArg (get >>= ·) (funext fun b => congrArg (x >>= ·) (funext fun a => ?_))
  refine congrArg (get >>= ·) (funext fun b' => ?_)
  split_ifs <;> simp only [bind_assoc, pure_bind]

-- The steps of a deferred call stand apart, and what led to the next step comes behind them.
def chain (span : Span) (spread : Bool) (call : Build (Arity × Option (Builtin × Option Ty))) :
    Build Unit := do
  let saved ← takePending
  let entry := (← get).steps.size
  let (arity, builtin) ← padded span call
  setPending saved
  emit' (.defer entry arity spread builtin) span

theorem deferredCall_bind {α : Type} (span : Span) (f : Expr) (args : List Expr) (spread : Bool)
    (rest : Arity × Option (Builtin × Option Ty) → Build α) :
    deferredCall span f args spread >>= rest = (do
      let n ← names
      match n.callShape f with
      | .builtin b =>
          let ty ← builtinType b args span
          let arity ← if b.takesType then compileRest args [] spread else compileArgs args [] spread
          let r ← pure (arity, some (b, ty))
          rest r
      | .conversion _ =>
          let r ← unsupported "defer of a conversion" span
          rest r
      | .call =>
          let arity ← compileArgs args [] spread
          discard (compile f (.value none))
          let r ← pure (arity, none)
          rest r) := by
  unfold deferredCall
  rw [bind_assoc]
  refine congrArg (names >>= ·) (funext fun n => ?_)
  cases n.callShape f with
  | builtin b =>
      simp only [bind_assoc]
      split_ifs <;> simp only [bind_assoc]
  | conversion _ => rfl
  | call => simp only [bind_assoc]

theorem compileStmt_defer (span : Span) (note : Note) (f : Expr) (args : List Expr) (spread : Bool)
    (label : Option String) : compileStmt (.defer span (.call note f args spread)) label = (do
      modify fun b => { b with hasDefer := true }
      if (← get).steps.isEmpty then emit' .nop span
      chain span spread (deferredCall span f args spread)) := by
  unfold compileStmt chain
  simp only [padded_bind, deferredCall_bind]
  rfl

end Build

end StepGraph

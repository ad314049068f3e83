import StepGraph.Compile.Constant

namespace StepGraph

-- What the place of an expression makes of it: one value of an expected type, all values that
-- it has, nothing but its effects, or the address of what it stands for.
inductive Want where
  | value (hint : Option Ty)
  | values
  | discard
  | address (span : Span)

namespace Want

def hint : Want → Option Ty
  | value h => h
  | _ => none

def results : Want → CallResults
  | value _ | address _ => .one
  | values => .forward
  | discard => .discard

end Want

namespace Build

-- Turns the one value on top of the stack into what is wanted.
def settle (want : Want) (span : Span) : Build Arity := do
  match want with
  | .value _ | .values => pure ()
  | .discard => emit' .pop span
  | .address s => emit' (.addressOf .value) s
  return .fixed 1

-- The same after a call, which has left as many results as were wanted.
def settleCall (want : Want) : Build Arity := do
  match want with
  | .value _ => return .fixed 1
  | .values => return .forwarded
  | .discard => return .fixed 0
  | .address s =>
      emit' (.addressOf .value) s
      return .fixed 1

-- A number of operands has to fit 16 bits.
def countOperands (count : Nat) (span : Span) : Build Arity :=
  if count < pow2 16 then pure (.fixed count) else unsupported "too many operands" span

-- The hints for the operands of an operator.
def operandHints (n : Names) (op : BinaryOp) (l r : Expr) (hint : Option Ty) :
    Option Ty × Option Ty :=
  if op.isShift then ((n.staticType l).or hint, none)
  else
    let shared := ((n.staticType l).or (n.staticType r)).or
      (if op.isComparison then none else hint)
    (shared, shared)

-- The type of an operand after it took a hint. Only a literal takes one for sure.
def operandType (n : Names) (e : Expr) (hint : Option Ty) : Option Ty :=
  (n.staticType e).or <| match e with
    | .lit _ v => some (hint.getD v.ty)
    | _ => none

def resolved? (op : BinaryOp) (l r : Option Ty) : Option Family :=
  match l, r with
  | some l, some r => resolveOperator? l op r
  | _, _ => none

-- The type that a call of a builtin carries: its type argument, or the type of the slice
-- that `append` extends.
def builtinType (b : Builtin) (args : List Expr) (span : Span) : Build (Option Ty) := do
  let n ← names
  if b.takesType then
    match args with
    | [] => unsupported (b.name ++ " without a type") span
    | first :: _ =>
        match n.typeArgument? first with
        | some ty => return some ty
        | none => unsupported (b.name ++ " of a non-type") span
  else if b = .append then return args.head?.bind n.staticType
  else return none

def builtinHints (n : Names) (b : Builtin) (ty : Option Ty) (count : Nat) : List (Option Ty) :=
  match b with
  | .make => List.replicate count (some .plainInt)
  | .append => ty :: List.replicate (count - 1) (ty.bind n.elem?)
  | _ => []

-- The type of a composite literal behind pointers, and the number of pointers.
def composedType (n : Names) : Nat → Ty → Ty × Nat
  | 0, ty => (ty, 0)
  | fuel + 1, ty =>
      match n.resolve ty with
      | .pointer inner =>
          let (ty', count) := composedType n fuel inner
          (ty', count + 1)
      | _ => (ty, 0)

def isFieldLiteral (elems : List Element) : Bool :=
  !elems.isEmpty && elems.all fun e => e.fieldName?.isSome

def isKeyed : Element → Bool
  | .plain _ => false
  | .field .. | .keyed .. => true

def declareType (name : String) (ty : Ty) : Build Unit := do
  match (← names).types.declare? name ty with
  | some types => modifyNames fun n => { n with types }
  | none => fail (.duplicateType name)

-- The operator and the store of `target op= value` once both operands are on the stack.
def emitUpdate (op : BinaryOp) (target : Target) (ty : Option Ty) (span : Span) : Build Unit := do
  let resolved := if op.isShift then none else resolved? op ty ty
  emit' (.binary op resolved) span
  emit' (.assign [target] (.fixed 1)) span

-- The variables of a loop, which each round has anew.
def loopVariables : Option Stmt → List String
  | some (.define _ names _) => names.filter (· ≠ Names.blank)
  | some (.var _ spec) => spec.names.filter (· ≠ Names.blank)
  | _ => []

-- Gives one round of a loop its own copy of a variable.
def refresh (span : Span) (name : String) : Build Unit := do
  emit' (.load name) span
  declareTop name span
  declare name ((← names).local? name).join

def nameOr (e : Option Expr) : String := (e.bind Expr.ident?).getD Names.blank

-- The first clause that is marked gets the paths that no test took.
def addUnmatched (defaults : List Bool) (unmatched : List Slot) (entries : List (List Slot)) :
    List (List Slot) × List Slot :=
  match defaults.findIdx? id with
  | some i => (entries.modify i (· ++ unmatched), [])
  | none => (entries, unmatched)

-- Tests the subject of a type switch against the types of a clause.
def typeTests (subject : String) : List Ty → Build (List Slot)
  | [] => pure []
  | ty :: rest => do
      emit' (.load subject) Span.none
      emit' (.typeTest ty) Span.none
      let miss ← branch Span.none
      let hit ← takePending
      setPending [miss]
      return hit ++ (← typeTests subject rest)

-- Binds the subject in a clause. A clause with one type gives the binding that type.
def bindSubject (binding : Option String) (subject : String) (subjectTy : Option Ty)
    (types : List Ty) : Build Unit := do
  match binding with
  | none => pure ()
  | some name =>
      emit' (.load subject) Span.none
      let bound := match types with
        | [ty] => if ty.isUntypedNil then none else some ty
        | _ => none
      match bound with
      | some ty => emit' (.typeAssert ty false) Span.none
      | none => pure ()
      declareTop name Span.none
      declare name (bound.or subjectTy)

-- The span of a `fallthrough` that ends a clause.
def fallthrough? (body : List Stmt) : Option Span :=
  match body.getLast? with
  | some (.fallthrough s) => some s
  | _ => none

-- Where the results of a return go when they are variables.
def resultTargets (sig : Signature) : List Target :=
  sig.results.map fun p =>
    match p.name with
    | some x => if x = Names.blank then .discard else .var x
    | none => .discard

-- A line of a constant block: its type and how its values are pushed.
structure ConstLine where
  ty : Option Ty
  values : List Expr
  push : Nat → List (Option Ty) → Build Arity

mutual

def compile : Expr → Want → Build Arity
  | .lit note v, want => do
      emitConstant v.value (want.hint.or note.ty) note.span
      settle want note.span
  | .ident note x, want => do
      match want with
      | .address s =>
          emit' (.addressOf (.var x)) s
          return .fixed 1
      | _ =>
          emitName x want.hint note.span
          settle want note.span
  | .binary note op l r, want => do
      if op.isLogical then
        discard (compile l (.value none))
        let short ← emitFork (.shortCircuit (op = .logicalOr) none) note.span
        discard (compile r (.value none))
        addPending [short]
      else
        let n ← names
        let (lh, rh) := operandHints n op l r want.hint
        discard (compile l (.value lh))
        discard (compile r (.value rh))
        emit' (.binary op (resolved? op (operandType n l lh) (operandType n r rh))) note.span
      settle want note.span
  | .unary note op x, want => do
      match op with
      | .addrOf =>
          discard (compile x (.address note.span))
          settle want note.span
      | .deref =>
          discard (compile x (.value none))
          match want with
          | .address _ => return .fixed 1
          | _ =>
              emit' .deref note.span
              settle want note.span
      | .recv =>
          discard (compile x (.value none))
          match want with
          | .values =>
              emit' (.recv true) note.span
              return .fixed 2
          | _ =>
              emit' (.recv false) note.span
              settle want note.span
      | op =>
          match op, x with
          | .neg, .lit _ v =>
              match v.negated? with
              | some neg => emitConstant neg want.hint note.span
              | none =>
                  discard (compile x (.value want.hint))
                  emit' (.unary op) note.span
          | _, _ =>
              discard (compile x (.value want.hint))
              emit' (.unary op) note.span
          settle want note.span
  | .call note f args spread, want => do
      let n ← names
      match n.callShape f with
      | .builtin b =>
          let ty ← builtinType b args note.span
          let arity ←
            if b.takesType then compileRest args (builtinHints n b ty (args.length - 1)) spread
            else compileArgs args (builtinHints n b ty args.length) spread
          emit' (.callBuiltin b ty arity spread want.results) note.span
          settleCall want
      | .conversion ty =>
          match args with
          | [arg] =>
              discard (compile arg (.value (some ty)))
              emit' (.convert ty) note.span
              settle want note.span
          | _ => unsupported "conversion with other than one argument" note.span
      | .call =>
          let arity ← compileArgs args (n.paramHints f args.length) spread
          discard (compile f (.value none))
          emit' (.call arity spread want.results) note.span
          settleCall want
  | .index note b k, want => do
      match want with
      | .address s =>
          discard (compile b (.value none))
          discard (compile k (.value (some .plainInt)))
          emit' (.addressOf .index) s
          return .fixed 1
      | _ =>
          let elem := (← names).mapValueType? b
          discard (compile b (.value none))
          discard (compile k (.value ((← names).keyHint b)))
          match want with
          | .values =>
              emit' (.index true elem) note.span
              return .fixed 2
          | _ =>
              emit' (.index false elem) note.span
              settle want note.span
  | .slice note b low high max, want => do
      discard (compile b (.value none))
      compileBound low
      compileBound high
      compileBound max
      emit' (.slice low.isSome high.isSome max.isSome) note.span
      settle want note.span
  | .select note b field, want => do
      let n ← names
      match want, n.isImport b with
      | .address s, false =>
          discard (compile b (.value none))
          emit' (.addressOf (.field field)) s
          return .fixed 1
      | _, _ =>
          if n.wantsAddress b field then discard (compile b (.address note.span))
          else discard (compile b (.value none))
          emit' (.select field) note.span
          settle want note.span
  | .composite note ty elems, want => do
      match ty.or want.hint with
      | none => unsupported "composite literal without a type" note.span
      | some ty =>
          let n ← names
          let (ty, pointers) := composedType n 64 ty
          let shape ← match n.resolve ty with
            | .struct fields =>
                if isFieldLiteral elems then
                  compileFields fields elems
                  pure (Shape.fields (elems.filterMap Element.fieldName?))
                else
                  compilePositional fields elems
                  pure (Shape.positional elems.length)
            | .slice e | .array _ e =>
                compileSequence e note.span elems
                pure (Shape.sequence (elems.map isKeyed))
            | .map k v =>
                compileEntries k v note.span elems
                pure (Shape.map elems.length)
            | _ => unsupported "composite literal of a non-composite type" note.span
          emit' (.compose ty shape) note.span
          (List.replicate pointers ()).forM fun _ => emit' (.addressOf .value) note.span
          settle want note.span
  | .funcLit note sig body, want => do
      let code ← nested sig (compileStmts body)
      emit' (.closure code) note.span
      settle want note.span
  | .assert note b ty, want => do
      discard (compile b (.value none))
      match want with
      | .values =>
          emit' (.typeAssert ty true) note.span
          return .fixed 2
      | _ =>
          emit' (.typeAssert ty false) note.span
          settle want note.span
  | .convert note ty x, want => do
      discard (compile x (.value (some ty)))
      emit' (.convert ty) note.span
      settle want note.span
  | .typeExpr note _, _ => unsupported "type used as expression" note.span

def compileBound : Option Expr → Build Unit
  | some e => discard (compile e (.value (some .plainInt)))
  | none => pure ()

def compileEach : List Expr → List (Option Ty) → Build Unit
  | [], _ => pure ()
  | e :: rest, hints => do
      discard (compile e (.value hints.head?.join))
      compileEach rest hints.tail

-- Arguments from left to right. A call that stands alone passes on all of its results.
def compileArgs : List Expr → List (Option Ty) → Bool → Build Arity
  | [], _, _ => pure (.fixed 0)
  | e :: rest, hints, spread => do
      if rest.isEmpty && !spread && e.isCall then compile e .values
      else
        discard (compile e (.value hints.head?.join))
        compileEach rest hints.tail
        countOperands (rest.length + 1) e.span

-- The arguments behind a type argument.
def compileRest : List Expr → List (Option Ty) → Bool → Build Arity
  | [], _, _ => pure (.fixed 0)
  | _ :: rest, hints, spread => compileArgs rest hints spread

-- The values for `want` places. One expression may have several values.
def compileValues : List Expr → Nat → List (Option Ty) → Build Arity
  | [], _, _ => pure (.fixed 0)
  | e :: rest, want, hints => do
      if rest.isEmpty && 1 < want then compile e .values
      else
        discard (compile e (.value hints.head?.join))
        compileEach rest hints.tail
        countOperands (rest.length + 1) e.span

def compileFields (fields : List Field) : List Element → Build Unit
  | [] => pure ()
  | .field x v :: rest => do
      discard (compile v (.value ((fields.find? (·.name == x)).map (·.ty))))
      compileFields fields rest
  | .plain _ :: rest | .keyed _ _ :: rest => compileFields fields rest

-- Values without a field are left out.
def compilePositional : List Field → List Element → Build Unit
  | f :: fields, .plain v :: rest | f :: fields, .field _ v :: rest
  | f :: fields, .keyed _ v :: rest => do
      discard (compile v (.value (some f.ty)))
      compilePositional fields rest
  | _, _ => pure ()

def compileSequence (elem : Ty) (span : Span) : List Element → Build Unit
  | [] => pure ()
  | .plain v :: rest => do
      discard (compile v (.value (some elem)))
      compileSequence elem span rest
  | .keyed k v :: rest => do
      discard (compile k (.value (some .plainInt)))
      discard (compile v (.value (some elem)))
      compileSequence elem span rest
  | .field _ _ :: _ => unsupported "field key in a sequence literal" span

def compileEntries (key value : Ty) (span : Span) : List Element → Build Unit
  | [] => pure ()
  | .keyed k v :: rest => do
      discard (compile k (.value (some key)))
      discard (compile v (.value (some value)))
      compileEntries key value span rest
  | .field x v :: rest => do
      emitName x (some key) span
      discard (compile v (.value (some value)))
      compileEntries key value span rest
  | .plain _ :: _ => unsupported "map literal element without a key" span

-- Pushes the operands of a destination.
def compileTarget : Expr → Build Target
  | .ident _ x => pure (if x = Names.blank then .discard else .var x)
  | .index _ b k => do
      let hint := (← names).keyHint b
      discard (compile b (.value none))
      discard (compile k (.value hint))
      return .index
  | .select _ b field => do
      discard (compile b (.value none))
      return .field field
  | .unary _ .deref x => do
      discard (compile x (.value none))
      return .deref
  | e => fail (.invalidAssignTarget e.span)

def compileTargets : List Expr → Build (List (Target × Option Ty))
  | [] => pure []
  | e :: rest => do
      let target ← compileTarget e
      let ty := (← names).staticType e
      return (target, ty) :: (← compileTargets rest)

def compileStmts : List Stmt → Build Unit
  | [] => pure ()
  | s :: rest => do
      compileStmt s none
      compileStmts rest

def compileOptional : Option Stmt → Build Unit
  | some s => compileStmt s none
  | none => pure ()

def compileTest : Option Expr → Span → Build (List Slot)
  | some e, span => do
      discard (compile e (.value (some .bool)))
      return [← branch span]
  | none, _ => pure []

-- `label` is the label that stands right in front of the statement.
def compileStmt : Stmt → Option String → Build Unit
  | .empty _, _ => pure ()
  | .expr _ e, _ => discard (compile e .discard)
  | .define span xs values, _ => do
      let arity ← compileValues values xs.length []
      emit' (.declare xs none arity) span
      modifyNames fun n => n.declareAll xs (n.valueTypes values xs.length)
  | .var _ ⟨xs, ty, values⟩, _ => do
      if values.isEmpty then
        match ty with
        | none => unsupported "variable without type or value" Span.none
        | some ty =>
            emit' (.declareZero xs ty) Span.none
            modifyNames fun n => n.declareAll xs (List.replicate xs.length (some ty))
      else
        let arity ← compileValues values xs.length (List.replicate xs.length ty)
        emit' (.declare xs ty arity) Span.none
        modifyNames fun n => n.declareAll xs
          (if ty.isSome then List.replicate xs.length ty else n.valueTypes values xs.length)
  | .const _ specs, _ => compileConsts specs 0 none
  | .typeDecl _ x ty, _ => declareType x ty
  | .assign span targets values, _ => do
      let compiled ← compileTargets targets
      let arity ← compileValues values targets.length (compiled.map (·.2))
      emit' (.assign (compiled.map (·.1)) arity) span
  | .opAssign span op target value, _ => do
      let ty := (← names).staticType target
      let compiled ← compileTarget target
      emit' (.loadTarget compiled ty) span
      discard (compile value (.value (if op.isShift then none else ty)))
      emitUpdate op compiled ty span
  | .incDec span target increment, _ => do
      let ty := (← names).staticType target
      let compiled ← compileTarget target
      emit' (.loadTarget compiled ty) span
      emitConstant (.plainInt 1) ty span
      emitUpdate (if increment then .add else .sub) compiled ty span
  | .send span chan value, _ => do
      let n ← names
      discard (compile chan (.value none))
      discard (compile value (.value ((n.staticType chan).bind n.elem?)))
      emit' .send span
  | .block _ body, _ => inScope body Span.none (compileStmts body)
  | .cond span init test yes no, _ => do
      if init.isSome then enterScope span
      compileOptional init
      discard (compile test (.value (some .bool)))
      let other ← branch span
      inScope yes Span.none (compileStmts yes)
      let exits ← takePending
      setPending [other]
      compileOptional no
      addPending exits
      if init.isSome then leaveScope span
  | .loop span init test post body, label => do
      enterScope span
      let depth := (← get).depth
      compileOptional init
      let head ← emit .nop span
      let exit ← compileTest test span
      pushContext .loop label depth (depth + 1)
      enterScope span
      let vars := loopVariables init
      vars.forM (refresh span)
      inScope body Span.none (compileStmts body)
      let (breaks, continues) ← popContext
      addPending continues
      unless vars.isEmpty do emit' (.carryOut vars) span
      leaveScope span
      compileOptional post
      link (← jump depth span) head
      addPending (exit ++ breaks)
      leaveScope span
  | .range span key value define subject body, label => do
      enterScope span
      let depth := (← get).depth
      let n ← names
      let (kind, keyTy, valueTy) := n.rangeShape (n.inferType subject)
      discard (compile subject (.value none))
      let cursor ← temp "range"
      emit' (.rangeInit kind cursor) span
      let head ← emit (.rangeNext cursor value.isSome none) span
      pushContext .loop label depth depth
      enterScope span
      let count := if value.isSome then 2 else 1
      if key.isNone && value.isNone then emit' .pop span
      else if define then
        let xs := nameOr key :: (if value.isSome then [nameOr value] else [])
        emit' (.declare xs none (.fixed count)) span
        modifyNames fun n => n.declareAll xs [keyTy, valueTy]
      else
        let keyTemp ← temp "k"
        let valueTemp ← temp "v"
        let temps := keyTemp :: (if value.isSome then [valueTemp] else [])
        emit' (.declare temps none (.fixed count)) span
        let keyTarget ← compileRangeTarget key
        let valueTarget ← compileRangeTarget value
        temps.forM fun x => emit' (.load x) span
        emit' (.assign ([keyTarget, valueTarget].take count) (.fixed count)) span
      inScope body Span.none (compileStmts body)
      let (breaks, continues) ← popContext
      leaveScope span
      link (← jump depth span) head
      linkAll continues head
      addPending (⟨head, .other⟩ :: breaks)
      leaveScope span
  | .switch span init tag clauses, label => do
      enterScope span
      compileOptional init
      let tag ← compileTag tag span
      let entries ← compileTests clauses tag
      let (entries, exits) :=
        addUnmatched (clauses.map fun c => c.isDefault) (← takePending) entries
      let depth := (← get).depth
      pushContext .switch label depth depth
      let exits ← compileBodies clauses entries [] exits
      let (breaks, _) ← popContext
      setPending (exits ++ breaks)
      leaveScope span
  | .typeSwitch span init binding subject clauses, label => do
      enterScope span
      compileOptional init
      let subjectTy := (← names).staticType subject
      discard (compile subject (.value none))
      let x ← temp "subj"
      declareTop x span
      declare x subjectTy
      let entries ← clauses.mapM fun c => typeTests x c.types
      let (entries, exits) :=
        addUnmatched (clauses.map fun c => c.isDefault) (← takePending) entries
      let depth := (← get).depth
      pushContext .switch label depth depth
      let exits ← compileTypeBodies (bindSubject binding x subjectTy) clauses entries exits
      let (breaks, _) ← popContext
      setPending (exits ++ breaks)
      leaveScope span
  | .labeled span l body, _ => do
      placeLabel l span
      compileStmt body (if body.takesLabel then some l else none)
  | .ret span values, _ => do
      let sig := (← get).sig
      let hints := sig.results.map fun p => some p.ty
      if sig.hasNamedResults then
        unless values.isEmpty do
          let arity ← compileValues values sig.results.length hints
          emit' (.assign (resultTargets sig) arity) span
        emit' (.ret (.fixed 0)) span
      else
        let arity ← compileValues values sig.results.length hints
        emit' (.ret arity) span
      setPending []
  | .brk span l, _ => breakOut l span
  | .cont span l, _ => continueLoop l span
  | .goto span l, _ => gotoLabel l span
  | .fallthrough span, _ => fail (.misplacedFallthrough span)
  | .defer span (.call _ f args spread), _ => do
      modify fun b => { b with hasDefer := true }
      if (← get).steps.isEmpty then emit' .nop span
      let saved ← takePending
      let entry := (← get).steps.size
      let n ← names
      let (arity, builtin) ← match n.callShape f with
        | .builtin b => do
            let ty ← builtinType b args span
            let arity ←
              if b.takesType then compileRest args [] spread else compileArgs args [] spread
            pure (arity, some (b, ty))
        | .conversion _ => unsupported "defer of a conversion" span
        | .call => do
            let arity ← compileArgs args [] spread
            discard (compile f (.value none))
            pure (arity, none)
      if (← get).steps.size = entry then emit' .nop span
      setPending saved
      emit' (.defer entry arity spread builtin) span
  | .defer span _, _ => unsupported "defer of a non-call" span
  | .go span _, _ => fail (.goStatement span)

def compileRangeTarget : Option Expr → Build Target
  | some e => compileTarget e
  | none => pure .discard

-- Binds the value that a switch compares with, under a name of its own.
def compileTag : Option Expr → Span → Build (Option (String × Option Ty))
  | none, _ => pure none
  | some e, span => do
      let ty := (← names).inferType e
      discard (compile e (.value none))
      let x ← temp "tag"
      declareTop x span
      declare x ty
      return some (x, ty)

-- The tests of all clauses in turn. The results are the paths to each clause.
def compileTests : List Clause → Option (String × Option Ty) → Build (List (List Slot))
  | [], _ => pure []
  | ⟨values, _, _⟩ :: rest, tag => do
      let matched ← compileCases values tag
      return matched :: (← compileTests rest tag)

def compileCases : List Expr → Option (String × Option Ty) → Build (List Slot)
  | [], _ => pure []
  | e :: rest, tag => do
      match tag with
      | some (x, ty) =>
          let valueTy := (← names).staticType e
          emit' (.load x) e.span
          discard (compile e (.value ty))
          emit' (.binary .eq (resolved? .eq ty (valueTy.or ty))) e.span
      | none => discard (compile e (.value (some .bool)))
      let miss ← branch e.span
      let hit ← takePending
      setPending [miss]
      return hit ++ (← compileCases rest tag)

-- The bodies of a switch. A body that falls through leads into the next one.
def compileBodies : List Clause → List (List Slot) → List Slot → List Slot → Build (List Slot)
  | [], _, _, exits => pure exits
  | ⟨_, _, body⟩ :: rest, entries, carried, exits => do
      match fallthrough? body with
      | some s => if rest.isEmpty then fail (.misplacedFallthrough s)
      | none => pure ()
      setPending (entries.headD [] ++ carried)
      enterScope Span.none
      compileClause body
      leaveScope Span.none
      let out ← takePending
      if (fallthrough? body).isSome then compileBodies rest entries.tail out exits
      else compileBodies rest entries.tail [] (exits ++ out)

-- The statements of a clause but for a `fallthrough` at their end.
def compileClause : List Stmt → Build Unit
  | [] => pure ()
  | s :: rest => do
      if rest.isEmpty && s.isFallthrough then pure ()
      else
        compileStmt s none
        compileClause rest

def compileTypeBodies (bind : List Ty → Build Unit) :
    List TypeClause → List (List Slot) → List Slot → Build (List Slot)
  | [], _, exits => pure exits
  | ⟨types, _, body⟩ :: rest, entries, exits => do
      setPending (entries.headD [])
      enterScope Span.none
      bind types
      compileStmts body
      leaveScope Span.none
      compileTypeBodies bind rest entries.tail (exits ++ (← takePending))

-- The lines of a constant block from line `iota` on. A line without values takes those of
-- the line before it, and that line's type.
def compileConsts : List ConstSpec → Nat → Option ConstLine → Build Unit
  | [], _, _ => modify fun b => { b with iota := none }
  | ⟨xs, ty, values⟩ :: rest, iota, previous => do
      let line : ConstLine :=
        if values.isEmpty then previous.getD ⟨ty, [], fun _ _ => pure (.fixed 0)⟩
        else ⟨ty, values, fun want hints => compileValues values want hints⟩
      modify fun b => { b with iota := some iota }
      let arity ← line.push xs.length (List.replicate xs.length line.ty)
      emit' (.declare xs line.ty arity) Span.none
      modifyNames fun n => n.declareAll xs
        (if line.ty.isSome then List.replicate xs.length line.ty
          else n.valueTypes line.values xs.length)
      compileConsts rest (iota + 1) (some line)

end

end Build

end StepGraph

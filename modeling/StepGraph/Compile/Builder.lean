import StepGraph.Compile.StaticType
import StepGraph.Error.CompileError
import StepGraph.Graph.Step

namespace StepGraph

-- Where a label stands: its step and the number of scopes around it.
structure LabelTarget where
  step : StepId
  depth : Nat

-- A `goto` whose label may come later.
structure PendingGoto where
  jump : StepId
  label : String
  span : Span

inductive JumpKind where
  | loop | switch
  deriving DecidableEq

-- A loop or switch around the present statement, with the jumps out of it and to its next round.
structure JumpContext where
  kind : JumpKind
  label : Option String
  breakDepth : Nat
  continueDepth : Nat
  breaks : List Slot
  continues : List Slot

-- A function in the making. `pending` holds the open successors that lead to the next step,
-- `depth` counts the scopes that are open above that of the function, and `code` holds
-- every function that is finished.
structure Builder where
  names : Names
  code : Array Function
  sig : Signature
  steps : Array Step
  pending : List Slot
  depth : Nat
  labels : List (String × LabelTarget)
  gotos : List PendingGoto
  contexts : List JumpContext
  hasDefer : Bool
  temps : Nat
  iota : Option Nat

namespace Builder

-- The variables that a signature declares. The last parameter of a variadic function is a slice.
def signatureNames (sig : Signature) : BlockNames :=
  (go sig.variadic sig.params ++ sig.results.filterMap bind).reverse
where
  bind (p : Param) : Option (String × Option Ty) := p.name.map fun x => (x, some p.ty)
  go (variadic : Bool) : List Param → BlockNames
    | [] => []
    | [p] => (bind (if variadic then { p with ty := .slice p.ty } else p)).toList
    | p :: ps => (bind p).toList ++ go variadic ps

-- A builder for a function inside the given blocks.
def start (names : Names) (code : Array Function) (sig : Signature) : Builder where
  names := { names with blocks := signatureNames sig :: names.blocks }
  code := code
  sig := sig
  steps := #[]
  pending := []
  depth := 0
  labels := []
  gotos := []
  contexts := []
  hasDefer := false
  temps := 0
  iota := none

end Builder

abbrev Build := EStateM CompileError Builder

namespace Build

def fail {α : Type} (e : CompileError) : Build α := throw e

def unsupported {α : Type} (what : String) (span : Span) : Build α :=
  fail (.unsupported what span)

def link (slot : Slot) (target : StepId) : Build Unit := do
  match (← get).steps[slot.step]? with
  | some s =>
      match s.link? slot.edge target with
      | some s' => modify fun b => { b with steps := b.steps.setIfInBounds slot.step s' }
      | none => fail (.doubleLink slot.step)
  | none => fail (.doubleLink slot.step)

def linkAll (slots : List Slot) (target : StepId) : Build Unit :=
  slots.forM fun s => link s target

def takePending : Build (List Slot) :=
  modifyGet fun b => (b.pending, { b with pending := [] })

def setPending (slots : List Slot) : Build Unit := modify fun b => { b with pending := slots }

def addPending (slots : List Slot) : Build Unit :=
  modify fun b => { b with pending := b.pending ++ slots }

-- Appends a step. All open successors lead to it, and its own is the one that is open then.
def emit (op : StepOp) (span : Span) : Build StepId := do
  let id := (← get).steps.size
  modify fun b => { b with steps := b.steps.push ⟨op, none, span⟩ }
  linkAll (← takePending) id
  setPending [⟨id, .next⟩]
  return id

def emit' (op : StepOp) (span : Span) : Build Unit := discard (emit op span)

-- Appends a step with two successors. The result is the second one, which stays open.
def emitFork (op : StepOp) (span : Span) : Build Slot := return ⟨← emit op span, .other⟩

def branch (span : Span) : Build Slot := emitFork (.branch none) span

-- Appends a jump out of scopes. Its successor is the result, and nothing else is open then.
def jump (depth : Nat) (span : Span) : Build Slot := do
  let id ← emit (.jump depth) span
  setPending []
  return ⟨id, .next⟩

def names : Build Names := return (← get).names

def modifyNames (f : Names → Names) : Build Unit := modify fun b => { b with names := f b.names }

def enterScope (span : Span) : Build Unit := do
  emit' .pushScope span
  modify fun b =>
    { b with depth := b.depth + 1, names := { b.names with blocks := [] :: b.names.blocks } }

def leaveScope (span : Span) : Build Unit := do
  emit' .popScope span
  modify fun b =>
    { b with depth := b.depth - 1, names := { b.names with blocks := b.names.blocks.drop 1 } }

-- A block has a scope of its own only if it declares something.
def inScope (body : List Stmt) (span : Span) (build : Build Unit) : Build Unit := do
  if body.any (·.declares) then
    enterScope span
    build
    leaveScope span
  else build

def declare (name : String) (ty : Option Ty) : Build Unit := modifyNames (·.declare name ty)

-- A name for a value that the program has no name for.
def temp (stem : String) : Build String :=
  modifyGet fun b => ("." ++ stem ++ toString (b.temps + 1), { b with temps := b.temps + 1 })

-- Binds the value on top of the stack.
def declareTop (name : String) (span : Span) : Build Unit :=
  emit' (.declare [name] none (.fixed 1)) span

def pushContext (kind : JumpKind) (label : Option String) (breakDepth continueDepth : Nat) :
    Build Unit :=
  modify fun b =>
    { b with contexts := ⟨kind, label, breakDepth, continueDepth, [], []⟩ :: b.contexts }

-- Ends the innermost loop or switch. The results are the jumps out of it and to its next round.
def popContext : Build (List Slot × List Slot) := do
  match (← get).contexts with
  | c :: rest =>
      modify fun b => { b with contexts := rest }
      return (c.breaks, c.continues)
  | [] => return ([], [])

-- Changes the innermost context for which `p` holds.
def modifyContext (p : JumpContext → Bool) (f : JumpContext → JumpContext) :
    List JumpContext → List JumpContext
  | [] => []
  | c :: rest => if p c then f c :: rest else c :: modifyContext p f rest

def updateContext (p : JumpContext → Bool) (f : JumpContext → JumpContext) : Build Unit :=
  modify fun b => { b with contexts := modifyContext p f b.contexts }

def findContext (p : JumpContext → Bool) : Build (Option JumpContext) :=
  return (← get).contexts.find? p

def hasLabel (label : String) (c : JumpContext) : Bool := c.label == some label

def breakOut (label : Option String) (span : Span) : Build Unit := do
  let wanted : JumpContext → Bool := match label with
    | some l => hasLabel l
    | none => fun _ => true
  match ← findContext wanted, label with
  | some c, _ =>
      let slot ← jump c.breakDepth span
      updateContext wanted fun c => { c with breaks := c.breaks ++ [slot] }
  | none, some l => fail (.unknownLabel l span)
  | none, none => fail (.misplacedBreak span)

def continueLoop (label : Option String) (span : Span) : Build Unit := do
  let wanted : JumpContext → Bool := match label with
    | some l => hasLabel l
    | none => fun c => c.kind == .loop
  match ← findContext wanted, label with
  | some c, _ =>
      if c.kind ≠ .loop then fail (.misplacedContinue span)
      let slot ← jump c.continueDepth span
      updateContext wanted fun c => { c with continues := c.continues ++ [slot] }
  | none, some l => fail (.unknownLabel l span)
  | none, none => fail (.misplacedContinue span)

def gotoLabel (label : String) (span : Span) : Build Unit := do
  let slot ← jump 0 span
  modify fun b => { b with gotos := b.gotos ++ [⟨slot.step, label, span⟩] }

def placeLabel (label : String) (span : Span) : Build Unit := do
  if ((← get).labels.lookup label).isSome then fail (.duplicateLabel label span)
  let step ← emit .nop span
  modify fun b => { b with labels := (label, ⟨step, b.depth⟩) :: b.labels }

-- Leads every `goto` to its label.
def resolveGotos : Build Unit := do
  (← get).gotos.forM fun g => do
    match (← get).labels.lookup g.label with
    | some target =>
        modify fun b =>
          { b with steps := b.steps.modify g.jump fun s => { s with op := .jump target.depth } }
        link ⟨g.jump, .next⟩ target.step
    | none => fail (.unknownLabel g.label g.span)

-- The finished function, which gets a number in the code.
def finish (name : String) (recv : Option Receiver) (literal : Bool) : Build CodeRef := do
  resolveGotos
  modifyGet fun b =>
    (⟨b.code.size, name⟩,
      { b with code := b.code.push ⟨name, b.sig, recv, literal, b.hasDefer, b.steps⟩ })

-- Builds a function literal inside the present one. The types that its body declares and
-- the finished code are kept.
def nested (sig : Signature) (body : Build Unit) : Build CodeRef := do
  let outer ← get
  set (Builder.start outer.names outer.code sig)
  body
  let code ← finish "func" none true
  modify fun b =>
    { outer with code := b.code, names := { outer.names with types := b.names.types } }
  return code

end Build

end StepGraph

import StepGraph.Proofs.Compile.Pieces
import StepGraph.Proofs.Stack.Chart

namespace StepGraph

-- What a statement marks in the graph: where a label stands, and the jumps of `goto`, `break` and
-- `continue` and the one back to the head of a loop. The number counts the scopes around.
inductive Mark where
  | label (name : String) (depth : Nat)
  | goto (name : String) (depth : Nat)
  | leave | again | round
  deriving DecidableEq

namespace Mark

def isJump : Mark → Bool
  | label .. => false
  | _ => true

-- The jumps that may lead back to steps that ran before.
def isBackward : Mark → Bool
  | goto .. | round => true
  | _ => false

end Mark

-- The depth of the statements of a block.
def blockDepth (body : List Stmt) (n : Nat) : Nat := if body.any (·.declares) then n + 1 else n

mutual

-- The marks of a statement at some depth, in the order in which their steps stand.
def Stmt.marks : Stmt → Nat → List Mark
  | .block _ body, n => marksOf body (blockDepth body n)
  | .cond _ init _ yes no, n =>
      let n := if init.isSome then n + 1 else n
      marksOfOptional init n ++ (marksOf yes (blockDepth yes n) ++ marksOfOptional no n)
  | .loop _ init _ post body, n =>
      marksOfOptional init (n + 1) ++ (marksOf body (blockDepth body (n + 2)) ++
        (marksOfOptional post (n + 1) ++ [.round]))
  | .range _ _ _ _ _ body, n => marksOf body (blockDepth body (n + 2)) ++ [.round]
  | .switch _ init _ clauses, n => marksOfOptional init (n + 1) ++ marksOfClauses clauses (n + 2)
  | .typeSwitch _ init _ _ clauses, n =>
      marksOfOptional init (n + 1) ++ marksOfTypeClauses clauses (n + 2)
  | .labeled _ l body, n => .label l n :: body.marks n
  | .brk .., _ => [.leave]
  | .cont .., _ => [.again]
  | .goto _ l, n => [.goto l n]
  | _, _ => []

def marksOf : List Stmt → Nat → List Mark
  | [], _ => []
  | s :: rest, n => s.marks n ++ marksOf rest n

def marksOfOptional : Option Stmt → Nat → List Mark
  | some s, n => s.marks n
  | none, _ => []

def marksOfClauses : List Clause → Nat → List Mark
  | [], _ => []
  | ⟨_, _, body⟩ :: rest, n => marksOf body n ++ marksOfClauses rest n

def marksOfTypeClauses : List TypeClause → Nat → List Mark
  | [], _ => []
  | ⟨_, _, body⟩ :: rest, n => marksOf body n ++ marksOfTypeClauses rest n

end

namespace Build

variable {α : Type}

-- The first steps of statements that are built from a builder on.
abbrev Starts := Builder → List StepId

def begins (t : Starts) : Starts := fun b => b.steps.size :: t b

def after (x : Build α) (f : α → Starts) : Starts := fun b =>
  match x b with
  | .ok a b' => f a b'
  | .error .. => []

def during (t : Starts) (x : Build α) (f : α → Starts) : Starts := fun b => t b ++ after x f b

-- The statements of a block, which may have a scope of its own.
def startsInScope (body : List Stmt) (t : Starts) : Starts :=
  if body.any (·.declares) then after (enterScope Span.none) fun _ => t else t

mutual

-- The first steps of a statement and of all statements in it. A statement without steps starts
-- where the next one does.
def startsOf : Stmt → Option String → Starts
  | .block _ body, _ => begins <| startsInScope body (startsOfAll body)
  | .cond span init test yes no, _ => begins <|
      after (if init.isSome then enterScope span else pure ()) fun _ =>
      during (startsOfOptional init) (compileOptional init) fun _ =>
      after (discard (compile test (.value (some .bool)))) fun _ =>
      after (branch span) fun other =>
      during (startsInScope yes (startsOfAll yes)) (inScope yes Span.none (compileStmts yes)) fun _ =>
      after takePending fun _ =>
      after (setPending [other]) fun _ => startsOfOptional no
  | .loop span init test post body, label => begins <|
      after (enterScope span) fun _ =>
      after get fun outer =>
      during (startsOfOptional init) (compileOptional init) fun _ =>
      after (emit .nop span) fun _ =>
      after (compileTest test span) fun _ =>
      after (pushContext .loop label outer.depth (outer.depth + 1)) fun _ =>
      after (enterScope span) fun _ =>
      after ((loopVariables init).forM (refresh span)) fun _ =>
      during (startsInScope body (startsOfAll body)) (inScope body Span.none (compileStmts body))
        fun _ =>
      after popContext fun (_, continues) =>
      after (addPending continues) fun _ =>
      after (if (loopVariables init).isEmpty then pure ()
        else emit' (.carryOut (loopVariables init)) span) fun _ =>
      after (leaveScope span) fun _ => startsOfOptional post
  | .range span key value define subject body, label => begins <|
      after (enterScope span) fun _ =>
      after get fun outer =>
      after (rangeHead span key value define subject label outer.depth) fun _ =>
      startsInScope body (startsOfAll body)
  | .switch span init tag clauses, label => begins <|
      after (enterScope span) fun _ =>
      during (startsOfOptional init) (compileOptional init) fun _ =>
      after (compileTag tag span) fun tag =>
      after (compileTests clauses tag) fun entries =>
      after takePending fun pending =>
      after get fun outer =>
      after (pushContext .switch label outer.depth outer.depth) fun _ =>
      let (entries, exits) := addUnmatched (clauses.map fun c => c.isDefault) pending entries
      startsOfBodies clauses entries [] exits
  | .typeSwitch span init binding subject clauses, label => begins <|
      after (enterScope span) fun _ =>
      during (startsOfOptional init) (compileOptional init) fun _ =>
      after (typeSwitchHead span subject clauses label) fun ((x, ty), entries, exits) =>
      startsOfTypeBodies (bindSubject binding x ty) clauses entries exits
  | .labeled span l body, _ => begins <|
      after (placeLabel l span) fun _ => startsOf body (if body.takesLabel then some l else none)
  | _, _ => begins fun _ => []

def startsOfAll : List Stmt → Starts
  | [] => fun _ => []
  | s :: rest => during (startsOf s none) (compileStmt s none) fun _ => startsOfAll rest

def startsOfOptional : Option Stmt → Starts
  | some s => startsOf s none
  | none => fun _ => []

def startsOfBodies : List Clause → List (List Slot) → List Slot → List Slot → Starts
  | [], _, _, _ => fun _ => []
  | ⟨_, _, body⟩ :: rest, entries, carried, exits =>
      after (setPending (entries.headD [] ++ carried)) fun _ =>
      after (enterScope Span.none) fun _ =>
      during (startsOfClause body) (compileClause body) fun _ =>
      after (leaveScope Span.none) fun _ =>
      after takePending fun out =>
      if (fallthrough? body).isSome then startsOfBodies rest entries.tail out exits
      else startsOfBodies rest entries.tail [] (exits ++ out)

def startsOfClause : List Stmt → Starts
  | [] => fun _ => []
  | s :: rest =>
      if rest.isEmpty && s.isFallthrough then fun _ => []
      else during (startsOf s none) (compileStmt s none) fun _ => startsOfClause rest

def startsOfTypeBodies (bind : List Ty → Build Unit) :
    List TypeClause → List (List Slot) → List Slot → Starts
  | [], _, _ => fun _ => []
  | ⟨types, _, body⟩ :: rest, entries, exits =>
      after (setPending (entries.headD [])) fun _ =>
      after (enterScope Span.none) fun _ =>
      after (bind types) fun _ =>
      during (startsOfAll body) (compileStmts body) fun _ =>
      after (leaveScope Span.none) fun _ =>
      after takePending fun out =>
      startsOfTypeBodies bind rest entries.tail (exits ++ out)

end

end Build

end StepGraph

namespace StepGraph

-- An open successor that is set aside. Whoever takes it comes to this depth with these operands.
-- `again` tells those of jumps to the next round of a loop.
structure Loose where
  slot : Slot
  depth : Nat
  items : List Item
  again : Bool

namespace Loose

-- Where one leaves a statement, and where one goes to the next round of a loop.
def exit (depth : Nat) (slot : Slot) : Loose := ⟨slot, depth, [], false⟩

def round (depth : Nat) (slot : Slot) : Loose := ⟨slot, depth, [], true⟩

end Loose

-- A step that stands, with what whoever comes to it has. `ranges` tells those that take the next
-- element of what a loop runs over.
structure Head where
  step : StepId
  ranges : Bool
  depth : Nat
  items : List Item

def StepOp.isRangeNext : StepOp → Bool
  | rangeNext .. => true
  | _ => false

def JumpContext.bare (c : JumpContext) : JumpContext := { c with breaks := [], continues := [] }

-- What is known of a builder at work: its depth, the operands that the next step finds, what is set
-- aside, the steps to which loops go back, and the loops and switches around.
structure Site where
  depth : Nat
  items : List Item
  held : List Loose
  heads : List Head
  contexts : List JumpContext

namespace Site

-- The beginning of a function.
def start : Site := ⟨0, [], [], [], []⟩

def slots (s : Site) : List Slot := s.held.map (·.slot)

-- A successor with which one comes to the next step.
def loose (s : Site) (slot : Slot) : Loose := ⟨slot, s.depth, s.items, false⟩

def withItems (s : Site) (items : List Item) : Site := { s with items }

-- After a step that leaves these operands alone.
def emitted (s : Site) (op : StepOp) (rest : List Item) (id : StepId) : Site where
  depth := op.depthEmitted s.depth
  items := (op.gives .next).getD [] ++ rest
  held := ((op.gives .other).map fun given =>
    (⟨⟨id, .other⟩, op.depthEmitted s.depth, given ++ rest, false⟩ : Loose)).toList ++ s.held
  heads := ⟨id, op.isRangeNext, s.depth, s.items⟩ :: s.heads
  contexts := s.contexts

end Site

namespace StepOp

-- The steps that go on to the next one, at the depth that the builder has then.
def isPlain : StepOp → Bool
  | jump _ | ret _ | defer .. => false
  | op => op.other?.isNone

-- The steps that go on to the next one alone, at the depth that they have.
def isSerial : StepOp → Bool
  | branch _ | shortCircuit .. | rangeNext .. | pushScope | popScope => false
  | op => op.isPlain

theorem isPlain_of_isSerial {op : StepOp} (h : op.isSerial = true) : op.isPlain = true := by
  cases op <;> first | exact h | cases h

theorem depthEmitted_of_isSerial {op : StepOp} (h : op.isSerial = true) (n : Nat) :
    op.depthEmitted n = n := by
  cases op <;> first | rfl | cases h

theorem gives_other_of_isSerial {op : StepOp} (h : op.isSerial = true) :
    op.gives .other = none := by
  cases op <;> first | rfl | cases h

theorem gives_next_of_isPlain {op : StepOp} (h : op.isPlain = true) :
    (op.gives .next).isSome := by
  cases op <;> first | rfl | cases h

-- The steps that expressions are made of.
def isOperation : StepOp → Bool
  | const _ | load _ | binary .. | unary _ | addressOf _ | deref | shortCircuit .. | call ..
  | callBuiltin .. | index .. | slice .. | select _ | compose .. | closure _ | typeAssert ..
  | convert _ | recv _ | pop => true
  | _ => false

end StepOp

-- Whether steps belong to an expression, a deferred call, or a statement.
inductive Stage where
  | expr | call | stmt
  deriving DecidableEq

-- A step that goes on to the next one is built here. It leaves these operands alone.
structure Site.Takes (s : Site) (stage : Stage) (types : TypeTable) (op : StepOp)
    (rest : List Item) : Prop where
  plain : op.isPlain = true
  stage : stage = .expr → op.isOperation = true
  gives : (op.gives .next).isSome
  needs : op.LiteralFits types → s.items = op.needs ++ rest
  depth : op = .popScope → 1 ≤ s.depth

def JumpContext.leaving (slot : Slot) (c : JumpContext) : JumpContext :=
  { c with breaks := c.breaks ++ [slot] }

def JumpContext.repeating (slot : Slot) (c : JumpContext) : JumpContext :=
  { c with continues := c.continues ++ [slot] }

open Build in
-- What a builder does in the course of its work. A statement is told with its marks and with the
-- first steps of all statements in it.
inductive Progress : Stage → Site → Builder → List Mark → List StepId → Site → Builder → Prop
  | refl {stage : Stage} {s : Site} {b : Builder} : Progress stage s b [] [] s b
  | trans {stage : Stage} {s s₁ s' : Site} {b b₁ b' : Builder} {marks marks' : List Mark}
      {starts starts' : List StepId} (hfirst : Progress stage s b marks starts s₁ b₁)
      (hrest : Progress stage s₁ b₁ marks' starts' s' b') :
      Progress stage s b (marks ++ marks') (starts ++ starts') s' b'
  | names {stage : Stage} {s : Site} {b : Builder} (names : Names) (temps : Nat)
      (iota : Option Nat) (htypes : b.names.types.KeepsStructs names.types) :
      Progress stage s b [] [] s { b with names, temps, iota }
  | emit {stage : Stage} {s : Site} {b b₁ : Builder} {op : StepOp} {rest : List Item} {id : StepId}
      (hop : s.Takes stage b.names.types op rest) (he : Emitted op b id b₁) :
      Progress stage s b [] [] (s.emitted op rest id) { b₁ with depth := op.depthEmitted b.depth }
  -- What leads to the next step is set aside.
  | take {stage : Stage} {s : Site} {b : Builder} :
      Progress stage s b [] [] { s with held := b.pending.map s.loose ++ s.held }
        { b with pending := [] }
  -- What was set aside leads to the next step.
  | put {stage : Stage} {s : Site} {b : Builder} (moved held : List Loose)
      (hheld : s.held.Perm (moved ++ held))
      (hmoved : ∀ x ∈ moved, x.depth = s.depth ∧ x.items = s.items) :
      Progress stage s b [] [] { s with held } { b with pending := b.pending ++ moved.map (·.slot) }
  | forget {stage : Stage} {s : Site} {b : Builder} (heads : List Head) (hheads : heads ⊆ s.heads) :
      Progress stage s b [] [] { s with heads } b
  | literal {stage : Stage} {s : Site} {b b₁ b₂ : Builder} {sig : Signature} {body : List Stmt}
      {ref : CodeRef} (hbody : compileStmts body (.start b.names b.code sig) = .ok () b₁)
      (hinner : Progress .stmt .start (.start b.names b.code sig) (marksOf body 0)
        (startsOfAll body (.start b.names b.code sig)) .start b₁)
      (hfinish : finish "func" none true b₁ = .ok ref b₂) :
      Progress stage s b [] [] s
        { b with code := b₂.code, names := { b.names with types := b₂.names.types } }
  -- Some of what leads nowhere so far is given up.
  | drop {s : Site} {b : Builder} {pending : List Slot} (given held : List Loose)
      (hheld : s.held.Perm (given ++ held)) (hpending : pending = b.pending ∨ pending = []) :
      Progress .stmt s b [] [] { s with held } { b with pending }
  | start {s : Site} {b : Builder} (hitems : s.items = []) :
      Progress .stmt s b [] [b.steps.size] s b
  | flag {s : Site} {b : Builder} : Progress .stmt s b [] [] s { b with hasDefer := true }
  | ret {s : Site} {b b₁ : Builder} {arity : Arity} {rest : List Item} {id : StepId}
      (hneeds : s.items = arity.items ++ rest) (he : Emitted (.ret arity) b id b₁) :
      Progress .stmt s b [] [] (s.withItems []) { b₁ with pending := [] }
  | push {s : Site} {b : Builder} (c : JumpContext) (hbreaks : c.breaks = [])
      (hcontinues : c.continues = []) :
      Progress .stmt s b [] [] { s with contexts := c :: s.contexts }
        { b with contexts := c :: b.contexts }
  | pop {s : Site} {b : Builder} {c : JumpContext} {rest : List JumpContext}
      (hcontexts : b.contexts = c :: rest) :
      Progress .stmt s b [] []
        { s with
          contexts := s.contexts.tail
          held := c.breaks.map (.exit c.breakDepth) ++
            (c.continues.map (.round c.continueDepth) ++ s.held) }
        { b with contexts := rest }
  | leave {s : Site} {b b₁ : Builder} {p : JumpContext → Bool} {c : JumpContext} {id : StepId}
      (hc : b.contexts.find? p = some c) (hdepth : c.breakDepth ≤ s.depth) (hitems : s.items = [])
      (he : Emitted (.jump c.breakDepth) b id b₁) :
      Progress .stmt s b [.leave] [] s
        { b₁ with
          pending := []
          contexts := modifyContext p (.leaving ⟨id, .next⟩) b₁.contexts }
  | again {s : Site} {b b₁ : Builder} {p : JumpContext → Bool} {c : JumpContext} {id : StepId}
      (hc : b.contexts.find? p = some c) (hdepth : c.continueDepth ≤ s.depth) (hitems : s.items = [])
      (he : Emitted (.jump c.continueDepth) b id b₁) :
      Progress .stmt s b [.again] [] s
        { b₁ with
          pending := []
          contexts := modifyContext p (.repeating ⟨id, .next⟩) b₁.contexts }
  | goto {s : Site} {b b₁ : Builder} {id : StepId} (label : String) (span : Span)
      (hitems : s.items = []) (he : Emitted (.jump 0) b id b₁) :
      Progress .stmt s b [.goto label s.depth] [] s
        { b₁ with pending := [], gotos := b₁.gotos ++ [⟨id, label, span⟩] }
  | label {s : Site} {b b₁ : Builder} {id : StepId} (label : String)
      (hfresh : b.labels.lookup label = none) (hitems : s.items = []) (he : Emitted .nop b id b₁) :
      Progress .stmt s b [.label label s.depth] [] s
        { b₁ with labels := (label, ⟨id, b₁.depth⟩) :: b₁.labels }
  -- A loop jumps back to its head. If there the next element is taken, so do the jumps to its next
  -- round.
  | round {s : Site} {b b₁ : Builder} {id : StepId} {head : Head} {moved held : List Loose}
      {steps steps' : Array Step} (hhead : head ∈ s.heads) (hdepth : head.depth ≤ s.depth)
      (hitems : head.items = []) (hclear : s.items = []) (he : Emitted (.jump head.depth) b id b₁)
      (hlinked : Linked b₁.steps [⟨id, .next⟩] head.step steps)
      (hheld : s.held.Perm (moved ++ held))
      (hmoved : ∀ x ∈ moved, head.ranges = true ∧ x.depth = head.depth ∧ x.items = [] ∧
        x.again = true)
      (hrounds : Linked steps (moved.map (·.slot)) head.step steps') :
      Progress .stmt s b [.round] [] { s with held } { b₁ with pending := [], steps := steps' }
  | defer {s : Site} {b b₁ b₂ : Builder} {args : Arity} {spread : Bool}
      {builtin : Option (Builtin × Option Ty)} {id : StepId} (hpos : 0 < b.steps.size)
      (hflag : b.hasDefer = true)
      (hchain : Progress .call { s with held := [], heads := [] } { b with pending := [] } [] []
        { s with items := StepOp.callItems args builtin ++ s.items, held := [], heads := [] } b₁)
      (hsome : b.steps.size < b₁.steps.size)
      (he : Emitted (.defer b.steps.size args spread builtin) { b₁ with pending := b.pending } id b₂) :
      Progress .stmt s b [] [] s b₂

-- What is set aside has no order.
theorem Progress.reorder {stage : Stage} {s : Site} {b : Builder} {held : List Loose}
    (hheld : s.held.Perm held) : Progress stage s b [] [] { s with held } b := by
  have hput : Progress stage s b [] [] _ _ := .put [] held hheld nofun
  rwa [List.map_nil, List.append_nil] at hput

end StepGraph

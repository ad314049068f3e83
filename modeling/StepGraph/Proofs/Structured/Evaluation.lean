import StepGraph.Compile.Names
import StepGraph.Machine.Basic
import StepGraph.Operator.Evaluate
import StepGraph.Tree.Package

namespace StepGraph.Structured

-- The types of variables, parameters and results of structured programs.
inductive Base where
  | int | bool | string
  deriving DecidableEq

namespace Base

def ty : Base → Ty
  | int => .plainInt
  | bool => .bool
  | string => .string

def family : Base → Family
  | int => .int
  | bool => .bool
  | string => .string

-- The values of a type.
inductive Has : Base → Value → Prop
  | int (n : IntValue) (hn : n.kind = .int) : Has int (.int n)
  | bool (b : Bool) : Has bool (.bool b)
  | string (s : String) : Has string (.str s)

def zero : Base → Value
  | int => .plainInt 0
  | bool => .bool false
  | string => .str ""

-- The type of `l op r` where both operands have type `t`. The operators with a short circuit are
-- not among these.
def result? (t : Base) (op : BinaryOp) : Option Base :=
  if op.isLogical then none
  else if op.isShift then if t = int then some int else none
  else if t.family.defines op then some (if op.isComparison then bool else t)
  else none

-- Whether the operator can stand in front of an operand of the type. The result has its type.
def allows (t : Base) (op : UnaryOp) : Bool :=
  match t, op with
  | int, .neg | int, .plus | int, .bitNot | bool, .not => true
  | _, _ => false

end Base

structure FuncType where
  params : List Base
  result : Option Base

-- The declared functions.
abbrev Funcs := List (String × FuncType)

-- The variables in scope, block by block. The innermost block comes first, and in a block the
-- last declaration.
abbrev Vars := List (List (String × Base))

namespace Vars

def type? (vars : Vars) (x : String) : Option Base := vars.findSome? fun b => b.lookup x

def declare (vars : Vars) (x : String) (t : Base) : Vars :=
  if x = Names.blank then vars
  else match vars with
    | b :: rest => ((x, t) :: b) :: rest
    | [] => []

end Vars

-- The note on an expression says nothing about its type, or the truth.
def Marks (note : Note) (t : Base) : Prop := note.ty = none ∨ note.ty = some t.ty

-- A name that no variable and no function has.
structure FreeName (funcs : Funcs) (vars : Vars) (x : String) : Prop where
  vars : vars.type? x = none
  funcs : funcs.lookup x = none
  blank : x ≠ Names.blank

mutual

inductive HasType (funcs : Funcs) (vars : Vars) : Expr → Base → Prop
  | int (note : Note) (n : Int) (hnote : Marks note .int) :
      HasType funcs vars (.lit note (.int n)) .int
  | string (note : Note) (s : String) (hnote : Marks note .string) :
      HasType funcs vars (.lit note (.str s)) .string
  | bool (note : Note) (x : String) (b : Bool) (hnote : Marks note .bool) (hx : x = toString b)
      (hfree : FreeName funcs vars x) : HasType funcs vars (.ident note x) .bool
  | var (note : Note) (x : String) (t : Base) (hnote : Marks note t)
      (hx : vars.type? x = some t) (hblank : x ≠ Names.blank) :
      HasType funcs vars (.ident note x) t
  | logical (note : Note) (op : BinaryOp) (l r : Expr) (hnote : Marks note .bool)
      (hop : op.isLogical) (hl : HasType funcs vars l .bool) (hr : HasType funcs vars r .bool) :
      HasType funcs vars (.binary note op l r) .bool
  | binary (note : Note) (op : BinaryOp) (l r : Expr) (s t : Base) (hnote : Marks note t)
      (hop : s.result? op = some t) (hl : HasType funcs vars l s) (hr : HasType funcs vars r s) :
      HasType funcs vars (.binary note op l r) t
  | unary (note : Note) (op : UnaryOp) (e : Expr) (t : Base) (hnote : Marks note t)
      (hop : t.allows op) (he : HasType funcs vars e t) :
      HasType funcs vars (.unary note op e) t
  | call (note callee : Note) (f : String) (args : List Expr) (sig : FuncType) (t : Base)
      (hnote : Marks note t) (hf : funcs.lookup f = some sig) (hlocal : vars.type? f = none)
      (hblank : f ≠ Names.blank) (hresult : sig.result = some t)
      (hargs : HaveTypes funcs vars args sig.params) :
      HasType funcs vars (.call note (.ident callee f) args false) t

inductive HaveTypes (funcs : Funcs) (vars : Vars) : List Expr → List Base → Prop
  | nil : HaveTypes funcs vars [] []
  | cons (e : Expr) (t : Base) (es : List Expr) (ts : List Base) (he : HasType funcs vars e t)
      (hes : HaveTypes funcs vars es ts) : HaveTypes funcs vars (e :: es) (t :: ts)

end

-- Statements that contain no other statement and do not jump, with the variables in front of them
-- and behind them.
inductive Simple (funcs : Funcs) : Vars → Stmt → Vars → Prop
  | empty (vars : Vars) (span : Span) : Simple funcs vars (.empty span) vars
  | print (vars : Vars) (span : Span) (note callee : Note) (f : String) (args : List Expr)
      (ts : List Base) (hf : f = "print" ∨ f = "println") (hfree : FreeName funcs vars f)
      (hargs : HaveTypes funcs vars args ts) :
      Simple funcs vars (.expr span (.call note (.ident callee f) args false)) vars
  | call (vars : Vars) (span : Span) (note callee : Note) (f : String) (args : List Expr)
      (sig : FuncType) (hf : funcs.lookup f = some sig) (hlocal : vars.type? f = none)
      (hblank : f ≠ Names.blank) (hargs : HaveTypes funcs vars args sig.params) :
      Simple funcs vars (.expr span (.call note (.ident callee f) args false)) vars
  | define (vars : Vars) (span : Span) (x : String) (e : Expr) (t : Base)
      (he : HasType funcs vars e t) :
      Simple funcs vars (.define span [x] [e]) (vars.declare x t)
  | var (vars : Vars) (span : Span) (x : String) (e : Expr) (t : Base)
      (he : HasType funcs vars e t) :
      Simple funcs vars (.var span ⟨[x], some t.ty, [e]⟩) (vars.declare x t)
  | assign (vars : Vars) (span : Span) (note : Note) (x : String) (e : Expr) (t : Base)
      (hnote : Marks note t) (hx : vars.type? x = some t) (hblank : x ≠ Names.blank)
      (he : HasType funcs vars e t) :
      Simple funcs vars (.assign span [.ident note x] [e]) vars
  | update (vars : Vars) (span : Span) (op : BinaryOp) (note : Note) (x : String) (e : Expr)
      (t : Base) (hnote : Marks note t) (hx : vars.type? x = some t) (hblank : x ≠ Names.blank)
      (hop : t.result? op = some t) (he : HasType funcs vars e t) :
      Simple funcs vars (.opAssign span op (.ident note x) e) vars
  | step (vars : Vars) (span : Span) (note : Note) (x : String) (up : Bool)
      (hnote : Marks note .int) (hx : vars.type? x = some .int) (hblank : x ≠ Names.blank) :
      Simple funcs vars (.incDec span (.ident note x) up) vars

inductive SimpleOption (funcs : Funcs) : Vars → Option Stmt → Vars → Prop
  | none (vars : Vars) : SimpleOption funcs vars none vars
  | some (vars vars' : Vars) (s : Stmt) (hs : Simple funcs vars s vars') :
      SimpleOption funcs vars (some s) vars'

mutual

-- Statements of a function with this result, with the variables in front of them and behind them.
inductive StructuredStmt (funcs : Funcs) (result : Option Base) : Vars → Stmt → Vars → Prop
  | simple (vars vars' : Vars) (s : Stmt) (hs : Simple funcs vars s vars') :
      StructuredStmt funcs result vars s vars'
  | block (vars inner : Vars) (span : Span) (body : List Stmt)
      (hbody : StructuredStmts funcs result ([] :: vars) body inner) :
      StructuredStmt funcs result vars (.block span body) vars
  | cond (vars outer inner : Vars) (span : Span) (init : Option Stmt) (test : Expr)
      (yes : List Stmt) (no : Option Stmt) (hinit : SimpleOption funcs ([] :: vars) init outer)
      (htest : HasType funcs outer test .bool)
      (hyes : StructuredStmts funcs result ([] :: outer) yes inner)
      (hno : Else funcs result outer no) :
      StructuredStmt funcs result vars (.cond span init test yes no) vars
  | loop (vars outer inner : Vars) (span : Span) (init : Option Stmt) (test : Option Expr)
      (post : Option Stmt) (body : List Stmt)
      (hinit : SimpleOption funcs ([] :: vars) init outer)
      (htest : ∀ e ∈ test, HasType funcs outer e .bool) (hpost : SimpleOption funcs outer post outer)
      (hkeep : ∀ s ∈ post, s.declares = false)
      (hbody : StructuredStmts funcs result ([] :: outer) body inner) :
      StructuredStmt funcs result vars (.loop span init test post body) vars
  | switch (vars outer : Vars) (span : Span) (init : Option Stmt) (clauses : List Clause)
      (hinit : SimpleOption funcs ([] :: vars) init outer)
      (hclauses : Clauses funcs result outer clauses) :
      StructuredStmt funcs result vars (.switch span init none clauses) vars
  | labeled (vars : Vars) (span : Span) (l : String) (body : Stmt) (hlabel : body.takesLabel)
      (hbody : StructuredStmt funcs result vars body vars) :
      StructuredStmt funcs result vars (.labeled span l body) vars
  | brk (vars : Vars) (span : Span) (l : Option String) :
      StructuredStmt funcs result vars (.brk span l) vars
  | cont (vars : Vars) (span : Span) (l : Option String) :
      StructuredStmt funcs result vars (.cont span l) vars
  | fallthrough (vars : Vars) (span : Span) : StructuredStmt funcs result vars (.fallthrough span) vars
  | ret (vars : Vars) (span : Span) (hresult : result = none) :
      StructuredStmt funcs result vars (.ret span []) vars
  | retValue (vars : Vars) (span : Span) (e : Expr) (t : Base) (hresult : result = some t)
      (he : HasType funcs vars e t) : StructuredStmt funcs result vars (.ret span [e]) vars

inductive StructuredStmts (funcs : Funcs) (result : Option Base) : Vars → List Stmt → Vars → Prop
  | nil (vars : Vars) : StructuredStmts funcs result vars [] vars
  | cons (vars vars' vars'' : Vars) (s : Stmt) (rest : List Stmt)
      (hs : StructuredStmt funcs result vars s vars')
      (hrest : StructuredStmts funcs result vars' rest vars'') :
      StructuredStmts funcs result vars (s :: rest) vars''

-- What may stand behind `else`: nothing, a block or another `if`.
inductive Else (funcs : Funcs) (result : Option Base) : Vars → Option Stmt → Prop
  | none (vars : Vars) : Else funcs result vars none
  | block (vars : Vars) (span : Span) (body : List Stmt)
      (hs : StructuredStmt funcs result vars (.block span body) vars) :
      Else funcs result vars (some (.block span body))
  | cond (vars : Vars) (span : Span) (init : Option Stmt) (test : Expr) (yes : List Stmt)
      (no : Option Stmt) (hs : StructuredStmt funcs result vars (.cond span init test yes no) vars) :
      Else funcs result vars (some (.cond span init test yes no))

inductive Clauses (funcs : Funcs) (result : Option Base) : Vars → List Clause → Prop
  | nil (vars : Vars) : Clauses funcs result vars []
  | cons (vars inner : Vars) (values : List Expr) (isDefault : Bool) (body : List Stmt)
      (rest : List Clause) (hdefault : values = [] → isDefault = true)
      (hvalues : ∀ e ∈ values, HasType funcs vars e .bool)
      (hbody : StructuredStmts funcs result ([] :: vars) body inner)
      (hrest : Clauses funcs result vars rest) :
      Clauses funcs result vars (⟨values, isDefault, body⟩ :: rest)

end

-- What a parameter with a name is.
def paramEntry {α : Type} (p : Param) (a : α) : List (String × α) :=
  match p.name with
  | some x => if x = Names.blank then [] else [(x, a)]
  | none => []

-- The block of the parameters of a function, the last one first.
def paramBlock {α : Type} (sig : Signature) (items : List α) : List (String × α) :=
  ((sig.params.zip items).flatMap fun (p, a) => paramEntry p a).reverse

-- The declaration of a function of this type.
structure DeclaresFunc (funcs : Funcs) (d : FuncDecl) (sig : FuncType) : Prop where
  recv : d.recv = none
  variadic : d.sig.variadic = false
  params : d.sig.params.map (·.ty) = sig.params.map Base.ty
  results : d.sig.results = (sig.result.map fun t => ⟨none, t.ty⟩).toList
  body : ∃ inner, StructuredStmts funcs sig.result [paramBlock d.sig sig.params] d.body inner

end StepGraph.Structured

namespace StepGraph.Structured

-- Why an evaluation ends before its time. `timeout` tells that a loop has taken the number of
-- rounds that it may take, and `stuck` that the tree has no meaning.
inductive Stop where
  | panic (f : Fault)
  | overflow
  | timeout
  | stuck

-- An evaluation goes along with what is printed.
abbrev Eval := EStateM Stop Printer

-- The values of variables, block by block as for `Vars`.
abbrev Env := List (List (String × Value))

namespace Env

def value? (env : Env) (x : String) : Option Value := env.findSome? fun b => b.lookup x

def declare (env : Env) (x : String) (v : Value) : Env :=
  if x = Names.blank then env
  else match env with
    | b :: rest => ((x, v) :: b) :: rest
    | [] => []

-- The innermost variable of the name takes the value.
def assign (env : Env) (x : String) (v : Value) : Env :=
  match env with
  | [] => []
  | b :: rest => if (b.lookup x).isSome then ((x, v) :: b) :: rest else b :: assign rest x v

end Env

-- How a statement ends.
inductive Signal where
  | done
  | brk (label : Option String)
  | cont (label : Option String)
  | ret (value : Option Value)

-- What the functions do.
abbrev Calls := String → Option (List Value → Eval (Option Value))

def ofExcept {α : Type} : Except Failure α → Eval α
  | .ok a => pure a
  | .error (.fault f) => throw (.panic f)
  | .error (.fatal _) => throw .stuck

def ofOption {α : Type} : Option α → Eval α
  | some a => pure a
  | none => throw .stuck

-- A binary operator other than the two with a short circuit, on operands of one type.
def operate (op : BinaryOp) (l r : Value) : Except Failure Value :=
  if op.isShift then Family.shift op l r
  else match OperandKey.ofValue? l with
    | some key => key.family.apply op l r
    | none => Family.notDefined op l

-- The text of a value that is printed.
def text : Value → String
  | .int n => n.text
  | .bool b => toString b
  | .str s => s
  | _ => ""

def print (f : String) (vs : List Value) : Eval Unit :=
  if f = "println" then modify fun p => p.writeLine (" ".intercalate (vs.map text))
  else if f = "print" then modify fun p => p.write (String.join (vs.map text))
  else throw .stuck

def test (v : Value) : Eval Bool := ofOption v.bool?

mutual

def expr (calls : Calls) (env : Env) : Expr → Eval Value
  | .lit _ (.int n) => pure (.plainInt n)
  | .lit _ (.str s) => pure (.str s)
  | .ident _ x =>
      match env.value? x with
      | some v => pure v
      | none =>
          if x = "true" then pure (.bool true)
          else if x = "false" then pure (.bool false)
          else throw .stuck
  | .binary _ op l r => do
      let a ← expr calls env l
      if op.isLogical then
        if (← test a) = (op = .logicalOr : Bool) then return a else expr calls env r
      else
        let b ← expr calls env r
        ofExcept (operate op a b)
  | .unary _ op e => do
      let a ← expr calls env e
      ofExcept (evaluateUnary op a)
  | .call _ (.ident _ f) args _ => do
      let vs ← exprs calls env args
      let call ← ofOption (calls f)
      ofOption (← call vs)
  | _ => throw .stuck

-- Arguments from left to right.
def exprs (calls : Calls) (env : Env) : List Expr → Eval (List Value)
  | [] => pure []
  | e :: es => do
      let v ← expr calls env e
      let vs ← exprs calls env es
      return v :: vs

end

theorem expr_ident {calls : Calls} {env : Env} {note : Note} {x : String} {v : Value}
    (h : env.value? x = some v) : expr calls env (.ident note x) = pure v := by
  simp only [expr, h]

-- The condition of a loop. A loop without one goes on.
def condition (calls : Calls) (env : Env) : Option Expr → Eval Bool
  | some e => do test (← expr calls env e)
  | none => return true

-- A statement in a block of its own.
def inBlock (body : Env → Eval (Env × Signal)) (env : Env) : Eval (Env × Signal) := do
  let (env, signal) ← body ([] :: env)
  return (env.tail, signal)

-- What becomes of a loop when its body ends: it goes on, it ends, or something around it does.
inductive Round where
  | again
  | ended
  | out (signal : Signal)

-- Whether a jump with this label concerns a statement with that one.
def concerns (label : Option String) : Option String → Bool
  | none => true
  | some l => label == some l

def Signal.round (label : Option String) : Signal → Round
  | done => .again
  | brk l => if concerns label l then .ended else .out (brk l)
  | cont l => if concerns label l then .again else .out (cont l)
  | ret v => .out (ret v)

-- The rounds of a loop.
def rounds (label : Option String) (test : Env → Eval Bool) (body : Env → Eval (Env × Signal))
    (post : Env → Eval Env) : Nat → Env → Eval (Env × Signal)
  | 0, _ => throw .timeout
  | n + 1, env => do
      if ← test env then
        let (env, signal) ← body env
        match signal.round label with
        | .again => do
            let env ← post env
            rounds label test body post n env
        | .ended => return (env, .done)
        | .out signal => return (env, signal)
      else return (env, .done)

-- A `break` that concerns a switch ends it.
def Signal.atSwitch (label : Option String) : Signal → Signal
  | brk l => if concerns label l then done else brk l
  | signal => signal

-- Whether one of the values of a clause holds. The first one that does ends the search.
def anyHolds (calls : Calls) (env : Env) : List Expr → Eval Bool
  | [] => return false
  | e :: es => do
      let v ← expr calls env e
      if ← test v then return true else anyHolds calls env es

-- The number of the first clause with a value that holds.
def firstClause (calls : Calls) (env : Env) : List Clause → Eval (Option Nat)
  | [] => return none
  | ⟨values, _, _⟩ :: rest => do
      if ← anyHolds calls env values then return some 0
      else return (← firstClause calls env rest).map (· + 1)

-- Whether the body of a clause leads into the next one.
def fallsThrough (body : List Stmt) : Bool :=
  match body.getLast? with
  | some s => s.isFallthrough
  | none => false

mutual

-- A statement, with the label right in front of it. `n` bounds the rounds of each loop.
def stmt (calls : Calls) (n : Nat) : Stmt → Option String → Env → Eval (Env × Signal)
  | .empty _, _, env => return (env, .done)
  | .expr _ (.call _ (.ident _ f) args _), _, env => do
      let vs ← exprs calls env args
      match calls f with
      | some call => discard (call vs)
      | none => print f vs
      return (env, .done)
  | .define _ [x] [e], _, env | .var _ ⟨[x], some _, [e]⟩, _, env => do
      let v ← expr calls env e
      return (env.declare x v, .done)
  | .assign _ [.ident _ x] [e], _, env => do
      let v ← expr calls env e
      return (env.assign x v, .done)
  | .opAssign _ op (.ident _ x) e, _, env => do
      let old ← ofOption (env.value? x)
      let v ← expr calls env e
      let new ← ofExcept (operate op old v)
      return (env.assign x new, .done)
  | .incDec _ (.ident _ x) up, _, env => do
      let old ← ofOption (env.value? x)
      let new ← ofExcept (operate (if up then .add else .sub) old (.plainInt 1))
      return (env.assign x new, .done)
  | .block _ body, _, env => inBlock (stmts calls n body) env
  | .cond _ init e yes no, _, env =>
      inBlock (fun env => do
        let (env, _) ← optional calls n init env
        let v ← expr calls env e
        if ← test v then inBlock (stmts calls n yes) env else optional calls n no env) env
  | .loop _ init e post body, label, env =>
      inBlock (fun env => do
        let (env, _) ← optional calls n init env
        rounds label
          (fun env => condition calls env e)
          (inBlock (stmts calls n body))
          (fun env => do
            let (env, _) ← optional calls n post env
            return env) n env) env
  | .switch _ init none cs, label, env =>
      inBlock (fun env => do
        let (env, _) ← optional calls n init env
        let chosen ← firstClause calls env cs
        match chosen.or (cs.findIdx? (·.isDefault)) with
        | some i => do
            let (env, signal) ← clauses calls n cs i env
            return (env, signal.atSwitch label)
        | none => return (env, .done)) env
  | .labeled _ l body, _, env => stmt calls n body (some l) env
  | .brk _ l, _, env => return (env, .brk l)
  | .cont _ l, _, env => return (env, .cont l)
  | .fallthrough _, _, env => return (env, .done)
  | .ret _ [], _, env => return (env, .ret none)
  | .ret _ [e], _, env => do
      let v ← expr calls env e
      return (env, .ret (some v))
  | _, _, _ => throw .stuck

def stmts (calls : Calls) (n : Nat) : List Stmt → Env → Eval (Env × Signal)
  | [], env => return (env, .done)
  | s :: rest, env => do
      let (env, signal) ← stmt calls n s none env
      match signal with
      | .done => stmts calls n rest env
      | signal => return (env, signal)

def optional (calls : Calls) (n : Nat) : Option Stmt → Env → Eval (Env × Signal)
  | some s, env => stmt calls n s none env
  | none, env => return (env, .done)

-- The bodies of a switch from clause `i` on, as far as each of them falls through.
def clauses (calls : Calls) (n : Nat) : List Clause → Nat → Env → Eval (Env × Signal)
  | [], _, env => return (env, .done)
  | _ :: rest, i + 1, env => clauses calls n rest i env
  | ⟨_, _, body⟩ :: rest, 0, env => do
      let (env, signal) ← inBlock (stmts calls n body) env
      match signal with
      | .done => if fallsThrough body then clauses calls n rest 0 env else return (env, .done)
      | signal => return (env, signal)

end

def zero : Ty → Value
  | .int k => .intOf k 0
  | .bool => .bool false
  | .string => .str ""
  | _ => .nil

-- A call of a function. A body that does not return gives the zero value of the result.
def function (calls : Calls) (n : Nat) (d : FuncDecl) (args : List Value) :
    Eval (Option Value) := do
  let (_, signal) ← stmts calls n d.body [paramBlock d.sig args]
  match signal with
  | .ret v => return v
  | .done => return d.sig.results.head?.map fun r => zero r.ty
  | _ => throw .stuck

-- The functions of a package, with room for so many calls inside each other.
def calls (funcs : List FuncDecl) (n : Nat) : Nat → Calls
  | 0, f => (funcs.find? (·.name = f)).map fun _ _ => throw .overflow
  | room + 1, f => (funcs.find? (·.name = f)).map (function (calls funcs n room) n)

end StepGraph.Structured

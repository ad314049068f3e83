import StepGraph.Tree.Span
import StepGraph.Tree.Operator
import StepGraph.Tree.Ty

namespace StepGraph

-- A constant as it is written. A literal has no type of its own until its context gives it one.
inductive Literal where
  | int (value : Int)
  | float (value : Float)
  | imag (value : Float)
  | rune (value : Char)
  | str (value : String)

-- A parameter or a result. The type of a variadic parameter is the type of one argument.
structure Param where
  name : Option String
  ty : Ty

structure Signature where
  params : List Param
  results : List Param
  variadic : Bool

namespace Signature

-- Results are variables as soon as one of them has a name.
def hasNamedResults (sig : Signature) : Bool := sig.results.any (·.name.isSome)

def empty : Signature := ⟨[], [], false⟩

end Signature

-- What is known about an expression apart from its shape.
structure Note where
  ty : Option Ty
  span : Span

namespace Note

def empty : Note := ⟨none, Span.none⟩

def ofType (ty : Option Ty) : Note := ⟨ty, Span.none⟩

end Note

mutual

inductive Expr where
  | lit (note : Note) (value : Literal)
  | ident (note : Note) (name : String)
  | binary (note : Note) (op : BinaryOp) (left right : Expr)
  | unary (note : Note) (op : UnaryOp) (operand : Expr)
  | call (note : Note) (callee : Expr) (args : List Expr) (spread : Bool)
  | index (note : Note) (base key : Expr)
  | slice (note : Note) (base : Expr) (low high max : Option Expr)
  | select (note : Note) (base : Expr) (field : String)
  | composite (note : Note) (ty : Option Ty) (elems : List Element)
  | funcLit (note : Note) (sig : Signature) (body : List Stmt)
  | assert (note : Note) (base : Expr) (ty : Ty)
  | convert (note : Note) (ty : Ty) (operand : Expr)
  | typeExpr (note : Note) (ty : Ty)

-- An element of a composite literal: a value alone, under a field name, or under a key.
inductive Element where
  | plain (value : Expr)
  | field (name : String) (value : Expr)
  | keyed (key value : Expr)

inductive Stmt where
  | empty (span : Span)
  | expr (span : Span) (value : Expr)
  | define (span : Span) (names : List String) (values : List Expr)
  | var (span : Span) (spec : VarSpec)
  | const (span : Span) (specs : List ConstSpec)
  | typeDecl (span : Span) (name : String) (ty : Ty)
  | assign (span : Span) (targets values : List Expr)
  | opAssign (span : Span) (op : BinaryOp) (target value : Expr)
  | incDec (span : Span) (target : Expr) (increment : Bool)
  | send (span : Span) (chan value : Expr)
  | block (span : Span) (body : List Stmt)
  | cond (span : Span) (init : Option Stmt) (test : Expr) (yes : List Stmt) (no : Option Stmt)
  | loop (span : Span) (init : Option Stmt) (test : Option Expr) (post : Option Stmt)
      (body : List Stmt)
  | range (span : Span) (key value : Option Expr) (define : Bool) (subject : Expr)
      (body : List Stmt)
  | switch (span : Span) (init : Option Stmt) (tag : Option Expr) (clauses : List Clause)
  | typeSwitch (span : Span) (init : Option Stmt) (binding : Option String) (subject : Expr)
      (clauses : List TypeClause)
  | labeled (span : Span) (label : String) (body : Stmt)
  | ret (span : Span) (values : List Expr)
  | brk (span : Span) (label : Option String)
  | cont (span : Span) (label : Option String)
  | goto (span : Span) (label : String)
  | fallthrough (span : Span)
  | defer (span : Span) (call : Expr)
  | go (span : Span) (call : Expr)

-- `var names ty = values`.
structure VarSpec where
  names : List String
  ty : Option Ty
  values : List Expr

-- One line of a constant block. A line without values repeats those of the line before it.
structure ConstSpec where
  names : List String
  ty : Option Ty
  values : List Expr

-- A clause of a switch. A clause may have values and be the default clause at the same time.
structure Clause where
  values : List Expr
  isDefault : Bool
  body : List Stmt

structure TypeClause where
  types : List Ty
  isDefault : Bool
  body : List Stmt

end

namespace Expr

def note : Expr → Note
  | lit n _ | ident n _ | binary n _ _ _ | unary n _ _ | call n _ _ _ | index n _ _
  | slice n _ _ _ _ | select n _ _ | composite n _ _ | funcLit n _ _ | assert n _ _
  | convert n _ _ | typeExpr n _ => n

def ty (e : Expr) : Option Ty := e.note.ty

def span (e : Expr) : Span := e.note.span

def withNote (e : Expr) (n : Note) : Expr :=
  match e with
  | lit _ v => lit n v
  | ident _ x => ident n x
  | binary _ op l r => binary n op l r
  | unary _ op x => unary n op x
  | call _ f xs s => call n f xs s
  | index _ b k => index n b k
  | slice _ b l h m => slice n b l h m
  | select _ b f => select n b f
  | composite _ t es => composite n t es
  | funcLit _ s b => funcLit n s b
  | assert _ b t => assert n b t
  | convert _ t x => convert n t x
  | typeExpr _ t => typeExpr n t

def withType (e : Expr) (ty : Option Ty) : Expr := e.withNote { e.note with ty }

def withSpan (e : Expr) (span : Span) : Expr := e.withNote { e.note with span }

def ident? : Expr → Option String
  | ident _ x => some x
  | _ => none

def isCall : Expr → Bool
  | call .. => true
  | _ => false

end Expr

namespace Element

def value : Element → Expr
  | plain v | field _ v | keyed _ v => v

def fieldName? : Element → Option String
  | field n _ => some n
  | _ => none

end Element

namespace Stmt

def span : Stmt → Span
  | empty s | expr s _ | define s _ _ | var s _ | const s _ | typeDecl s _ _ | assign s _ _
  | opAssign s _ _ _ | incDec s _ _ | send s _ _ | block s _ | cond s _ _ _ _ | loop s _ _ _ _
  | range s _ _ _ _ _ | switch s _ _ _ | typeSwitch s _ _ _ _ | labeled s _ _ | ret s _
  | brk s _ | cont s _ | goto s _ | fallthrough s | defer s _ | go s _ => s

def withSpan (stmt : Stmt) (s : Span) : Stmt :=
  match stmt with
  | empty _ => empty s
  | expr _ v => expr s v
  | define _ ns vs => define s ns vs
  | var _ spec => var s spec
  | const _ specs => const s specs
  | typeDecl _ n t => typeDecl s n t
  | assign _ ts vs => assign s ts vs
  | opAssign _ op t v => opAssign s op t v
  | incDec _ t up => incDec s t up
  | send _ c v => send s c v
  | block _ b => block s b
  | cond _ i t y n => cond s i t y n
  | loop _ i t p b => loop s i t p b
  | range _ k v d x b => range s k v d x b
  | switch _ i t cs => switch s i t cs
  | typeSwitch _ i n x cs => typeSwitch s i n x cs
  | labeled _ l b => labeled s l b
  | ret _ vs => ret s vs
  | brk _ l => brk s l
  | cont _ l => cont s l
  | goto _ l => goto s l
  | fallthrough _ => fallthrough s
  | defer _ c => defer s c
  | go _ c => go s c

-- Statements that a label on them names for `break` and `continue`.
def takesLabel : Stmt → Bool
  | loop .. | range .. | switch .. | typeSwitch .. => true
  | _ => false

-- Statements that bind names in the scope they stand in.
def declares : Stmt → Bool
  | define .. | var .. | const .. | typeDecl .. => true
  | _ => false

def isFallthrough : Stmt → Bool
  | fallthrough _ => true
  | _ => false

end Stmt

end StepGraph

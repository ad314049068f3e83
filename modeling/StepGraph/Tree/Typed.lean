import StepGraph.Tree.Node

namespace StepGraph.Expr

-- Constructors that give a node the static type its parts determine, and no span.

def int (n : Int) : Expr := .lit .empty (.int n)

def float (x : Float) : Expr := .lit .empty (.float x)

def imaginary (x : Float) : Expr := .lit .empty (.imag x)

def rune (c : Char) : Expr := .lit .empty (.rune c)

def str (s : String) : Expr := .lit (.ofType (some .string)) (.str s)

def bool (b : Bool) : Expr := .ident (.ofType (some .bool)) (if b then "true" else "false")

def nil : Expr := .ident (.ofType (some .untypedNil)) "nil"

def name (x : String) : Expr := .ident .empty x

-- A comparison is a bool, a shift has the type of what is shifted, and any other operator
-- has the type of the first operand that has one.
def binaryType (op : BinaryOp) (left right : Option Ty) : Option Ty :=
  if op.isComparison || op.isLogical then some .bool
  else if op.isShift then left
  else left.or right

def unaryType (op : UnaryOp) (operand : Option Ty) : Option Ty :=
  match op with
  | .neg | .plus | .bitNot | .not => operand
  | .addrOf => operand.map .pointer
  | .deref | .recv => operand.bind Ty.elem?

-- An element of a string is a byte.
def indexType (base : Option Ty) : Option Ty :=
  base.bind fun
    | .string => some (.int .uint8)
    | t => t.elem?

def binaryOf (op : BinaryOp) (l r : Expr) : Expr :=
  .binary (.ofType (binaryType op l.ty r.ty)) op l r

def unaryOf (op : UnaryOp) (x : Expr) : Expr := .unary (.ofType (unaryType op x.ty)) op x

def indexOf (b k : Expr) : Expr := .index (.ofType (indexType b.ty)) b k

def callOf (f : Expr) (args : List Expr) (spread : Bool) : Expr := .call .empty f args spread

def sliceOf (b : Expr) (low high max : Option Expr) : Expr := .slice .empty b low high max

def selectOf (b : Expr) (field : String) : Expr := .select .empty b field

-- Without a type the literal is elided and takes the type its context expects.
def compositeOf (ty : Option Ty) (elems : List Element) : Expr :=
  .composite (.ofType ty) ty elems

def funcOf (sig : Signature) (body : List Stmt) : Expr := .funcLit .empty sig body

def assertOf (b : Expr) (ty : Ty) : Expr := .assert (.ofType (some ty)) b ty

def convertOf (ty : Ty) (x : Expr) : Expr := .convert (.ofType (some ty)) ty x

def typeOf (ty : Ty) : Expr := .typeExpr .empty ty

end StepGraph.Expr

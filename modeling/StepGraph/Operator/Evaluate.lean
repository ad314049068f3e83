import StepGraph.Operator.Equality
import StepGraph.Operator.Table

namespace StepGraph

namespace Value

-- A result of the declared type of an operand.
def wearing (name : Option String) (v : Value) : Value :=
  match name with
  | some n => .named n v
  | none => v

def wrapperName? : Value → Option String
  | named n _ => some n
  | _ => none

end Value

-- An operator on operands whose types are known only now.
def evaluateBinary (h : Heap) (op : BinaryOp) (l r : Value) : Except Failure Value :=
  match op with
  | .eq => return .bool (← h.equal l r)
  | .notEq => return .bool !(← h.equal l r)
  | .shl | .shr => return (← Family.shift op l r).wearing l.wrapperName?
  | _ =>
      let (l', r') := Value.unify l.unwrap r.unwrap
      match OperandKey.ofValue? l' with
      | some key =>
          if key.family.defines op then do
            let v ← key.family.apply op l' r'
            if op.isComparison || op.isLogical then return v
            return v.wearing (l.wrapperName?.or r.wrapperName?)
          else Family.notDefined op l'
      | none => Family.notDefined op l'

-- The operators on one value. The other unary operators belong to locations and channels.
def evaluateUnary (op : UnaryOp) : Value → Except Failure Value
  | .named t v => return .named t (← evaluateUnary op v)
  | .int n =>
      match op with
      | .plus => .ok (.int n)
      | .neg => .ok (.int n.neg)
      | .bitNot => .ok (.int n.complement)
      | _ => notDefined (.int n)
  | .float32 x =>
      match op with
      | .plus => .ok (.float32 x)
      | .neg => .ok (.float32 (-x))
      | _ => notDefined (.float32 x)
  | .float64 x =>
      match op with
      | .plus => .ok (.float64 x)
      | .neg => .ok (.float64 (-x))
      | _ => notDefined (.float64 x)
  | .complex64 z =>
      match op with
      | .plus => .ok (.complex64 z)
      | .neg => .ok (.complex64 z.neg)
      | _ => notDefined (.complex64 z)
  | .complex128 z =>
      match op with
      | .plus => .ok (.complex128 z)
      | .neg => .ok (.complex128 z.neg)
      | _ => notDefined (.complex128 z)
  | .bool b => if op = .not then .ok (.bool !b) else notDefined (.bool b)
  | v => notDefined v
where
  notDefined (v : Value) : Except Failure Value := .error (.notDefined op.symbol v.kindName)

end StepGraph

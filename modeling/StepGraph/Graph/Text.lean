import StepGraph.Graph.Step
import StepGraph.Heap.Dump

namespace StepGraph

def Constant.dump (c : Constant) : String :=
  let (v, h) := (Heap.ofConstant c).run Heap.empty
  h.dump v

namespace StepOp

def stepText (id : StepId) : String := "#" ++ toString id

def successorText : Option StepId → String
  | some id => "Some(" ++ stepText id ++ ")"
  | none => "None"

def namesText (names : List String) : String := Heap.listText names

def arityText : Arity → String
  | .fixed n => "Fixed(" ++ toString n ++ ")"
  | .forwarded => "Forwarded"

def resultsText : CallResults → String
  | .discard => "Discard"
  | .one => "One"
  | .forward => "Forward"

def targetText : Target → String
  | .var n => "Var(" ++ n ++ ")"
  | .discard => "Discard"
  | .index => "Index"
  | .field n => "Field(" ++ n ++ ")"
  | .deref => "Deref"

def addressText : AddressKind → String
  | .var n => "Var(" ++ n ++ ")"
  | .field n => "Field(" ++ n ++ ")"
  | .index => "Index"
  | .value => "Value"

def shapeText : Shape → String
  | .positional n => "Positional(" ++ toString n ++ ")"
  | .fields names => "Fields(" ++ namesText names ++ ")"
  | .sequence keyed => "Seq(" ++ Heap.listText (keyed.map toString) ++ ")"
  | .map n => "Map(" ++ toString n ++ ")"

def rangeText : RangeKind → String
  | .indexed => "Indexed"
  | .str => "Str"
  | .map => "Map"
  | .int => "Int"
  | .chan => "Chan"
  | .dynamic => "Dynamic"

-- The text of a step in a listing of a function.
def text : StepOp → String
  | nop => "Nop"
  | const c => "Const(" ++ c.dump ++ ")"
  | load n => "Load(" ++ n ++ ")"
  | declare ns _ a => "Declare(" ++ namesText ns ++ ", " ++ arityText a ++ ")"
  | declareZero ns _ => "DeclareZero(" ++ namesText ns ++ ")"
  | assign ts a => "Assign(" ++ Heap.listText (ts.map targetText) ++ ", " ++ arityText a ++ ")"
  | loadTarget t _ => "LoadTarget(" ++ targetText t ++ ")"
  | binary op resolved =>
      "Binary(" ++ op.symbol ++ (if resolved.isSome then ", resolved" else "") ++ ")"
  | unary op => "Unary(" ++ op.symbol ++ ")"
  | addressOf k => "AddrOf(" ++ addressText k ++ ")"
  | deref => "Deref"
  | branch other => "Branch(else " ++ successorText other ++ ")"
  | shortCircuit stop other =>
      "ShortCircuit(" ++ toString stop ++ ", " ++ successorText other ++ ")"
  | jump d => "Jump(depth " ++ toString d ++ ")"
  | pushScope => "PushScope"
  | popScope => "PopScope"
  | carryOut ns => "CarryOut(" ++ namesText ns ++ ")"
  | call a _ r => "Call(" ++ arityText a ++ ", " ++ resultsText r ++ ")"
  | callBuiltin b _ a _ _ => "CallBuiltin(" ++ b.name ++ ", " ++ arityText a ++ ")"
  | ret a => "Return(" ++ arityText a ++ ")"
  | defer entry _ _ _ => "Defer(" ++ stepText entry ++ ")"
  | index commaOk _ => "Index(comma_ok " ++ toString commaOk ++ ")"
  | slice _ _ _ => "SliceExpr"
  | select n => "Select(" ++ n ++ ")"
  | compose _ shape => "Compose(" ++ shapeText shape ++ ")"
  | closure code => "Closure(" ++ code.name ++ ")"
  | typeAssert _ commaOk => "TypeAssert(comma_ok " ++ toString commaOk ++ ")"
  | typeTest _ => "TypeTest"
  | convert _ => "Convert"
  | send => "Send"
  | recv commaOk => "Recv(comma_ok " ++ toString commaOk ++ ")"
  | rangeInit kind _ => "RangeInit(" ++ rangeText kind ++ ")"
  | rangeNext _ _ exit => "RangeNext(exit " ++ successorText exit ++ ")"
  | pop => "Pop"

end StepOp

end StepGraph

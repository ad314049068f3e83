import StepGraph.Error.Fault
import StepGraph.Tree.Span

namespace StepGraph

-- A call in a backtrace, with the place it was made from.
structure TraceFrame where
  name : String
  span : Option Span
  deriving DecidableEq

-- Why a run ended: the step it ended in, the calls that were active, the innermost first,
-- and the operands of that step's function, the top first.
structure EvalError where
  cause : Fatal
  span : Option Span
  trace : Option (List TraceFrame)
  operands : List String

namespace EvalError

def ofCause (cause : Fatal) : EvalError := ⟨cause, none, none, []⟩

def message (e : EvalError) : String := e.cause.message

def isPanic (e : EvalError) : Bool :=
  match e.cause with
  | .panicked _ => true
  | _ => false

def spanText : Option Span → String
  | some s => " at " ++ s.text
  | none => ""

def frameText (i : Nat) (f : TraceFrame) : String :=
  "  " ++ toString i ++ ": " ++ f.name ++ spanText f.span ++ "\n"

def traceText (trace : List TraceFrame) : String :=
  "stack backtrace:\n" ++ String.join (trace.zipIdx.map fun (f, i) => frameText i f)

-- The message with the place of the error and the calls that were active.
def text (e : EvalError) : String :=
  e.message ++ spanText e.span ++
    match e.trace with
    | none | some [] => ""
    | some trace => "\n" ++ traceText trace

end EvalError

end StepGraph

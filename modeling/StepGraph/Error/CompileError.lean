import StepGraph.Tree.Span

namespace StepGraph

-- Why a package cannot be compiled.
inductive CompileError where
  | unsupported (what : String) (span : Span)
  | unknownLabel (label : String) (span : Span)
  | duplicateLabel (label : String) (span : Span)
  | misplacedBreak (span : Span)
  | misplacedContinue (span : Span)
  | misplacedFallthrough (span : Span)
  | goStatement (span : Span)
  | doubleLink (step : Nat)
  | duplicateType (name : String)
  | invalidAssignTarget (span : Span)
  deriving DecidableEq

namespace CompileError

def message : CompileError → String
  | unsupported what _ => "unsupported construct: " ++ what
  | unknownLabel l _ => "label " ++ l ++ " not defined"
  | duplicateLabel l _ => "label " ++ l ++ " already defined"
  | misplacedBreak _ => "break is not in a loop, switch, or select"
  | misplacedContinue _ => "continue is not in a loop"
  | misplacedFallthrough _ => "fallthrough statement out of place"
  | goStatement _ => "go statements are not supported"
  | doubleLink step => "internal error: successor of step " ++ toString step ++ " linked twice"
  | duplicateType n => "type " ++ n ++ " redeclared"
  | invalidAssignTarget _ => "cannot assign to expression"

-- The kind of the error in one word.
def label : CompileError → String
  | unsupported .. => "UnsupportedConstruct"
  | unknownLabel .. => "UnknownLabel"
  | duplicateLabel .. => "DuplicateLabel"
  | misplacedBreak _ => "MisplacedBreak"
  | misplacedContinue _ => "MisplacedContinue"
  | misplacedFallthrough _ => "MisplacedFallthrough"
  | goStatement _ => "GoStatement"
  | doubleLink _ => "DoubleLink"
  | duplicateType _ => "DuplicateType"
  | invalidAssignTarget _ => "InvalidAssignTarget"

def span? : CompileError → Option Span
  | unsupported _ s | unknownLabel _ s | duplicateLabel _ s | misplacedBreak s
  | misplacedContinue s | misplacedFallthrough s | goStatement s | invalidAssignTarget s => some s
  | doubleLink _ | duplicateType _ => none

end CompileError

end StepGraph

namespace StepGraph

-- What goes wrong while a program runs. A program can recover from every fault.
inductive Fault where
  | nilDereference
  | indexOutOfRange (index : Int) (length : Nat)
  | boundsOutOfRange (low high : Int) (capacity : Nat)
  | divideByZero
  | negativeShift
  | nilMapAssignment
  | unhashable (kind : String)
  | uncomparable (kind : String)
  | badAssertion (got want : String)
  | sizeOutOfRange (what : String)
  | noOperands
  | sendOnClosed
  | closeOfClosed
  | closeOfNil
  | nilPanic
  deriving DecidableEq

namespace Fault

-- Faults of an operation on a channel, and of `panic` itself, carry no mark.
def message : Fault → String
  | nilDereference => runtime "invalid memory address or nil pointer dereference"
  | indexOutOfRange i n =>
      runtime ("index out of range [" ++ toString i ++ "] with length " ++ toString n)
  | boundsOutOfRange l h c =>
      runtime ("slice bounds out of range [" ++ toString l ++ ":" ++ toString h ++
        "] with capacity " ++ toString c)
  | divideByZero => runtime "integer divide by zero"
  | negativeShift => runtime "negative shift amount"
  | nilMapAssignment => runtime "assignment to entry in nil map"
  | unhashable k => runtime ("hash of unhashable type " ++ k)
  | uncomparable k => runtime ("comparing uncomparable type " ++ k)
  | badAssertion got want =>
      runtime ("interface conversion: interface \x7b\x7d is " ++ got ++ ", not " ++ want)
  | sizeOutOfRange what => runtime ("makeslice: " ++ what ++ " out of range")
  | noOperands => runtime "max/min of no values"
  | sendOnClosed => "send on closed channel"
  | closeOfClosed => "close of closed channel"
  | closeOfNil => "close of nil channel"
  | nilPanic => "panic called with nil argument"
where
  runtime (s : String) : String := "runtime error: " ++ s

end Fault

-- What ends a run for good.
inductive Fatal where
  | panicked (message : String)
  | stackOverflow (limit : Nat)
  | undefinedVariable (name : String)
  | undefinedFunction (name : String)
  | notCallable (kind : String)
  | noFieldOrMethod (name kind : String)
  | unknownMember (package member : String)
  | arityMismatch (name : String) (expected got : Nat)
  | invalidAddress (address : Nat)
  | operandUnderflow
  | invalidOperation (op kind : String)
  | invalidAssignTarget
  | deadlock
  | custom (message : String)
  -- The process has been aborted for want of stack. Nothing goes on after that.
  | aborted
  deriving DecidableEq

namespace Fatal

def hexText (n : Nat) : String := "0x" ++ String.ofList (Nat.toDigits 16 n)

def message : Fatal → String
  | panicked m => "panic: " ++ m
  | stackOverflow limit => "maximum call depth exceeded (limit: " ++ toString limit ++ ")"
  | undefinedVariable n => "undefined: " ++ n
  | undefinedFunction n => "undefined function: " ++ n
  | notCallable k => "cannot call non-function " ++ k
  | noFieldOrMethod n k => k ++ " has no field or method " ++ n
  | unknownMember p m => "undefined: " ++ p ++ "." ++ m
  | arityMismatch n expected got =>
      n ++ " expects " ++ toString expected ++
        (if expected = 1 then " argument" else " arguments") ++ ", got " ++ toString got
  | invalidAddress a => "invalid heap address " ++ hexText a
  | operandUnderflow => "operand stack underflow"
  | invalidOperation op k => "invalid operation: operator " ++ op ++ " not defined on " ++ k
  | invalidAssignTarget => "invalid assignment target"
  | deadlock => "all goroutines are asleep - deadlock!"
  | custom m => m
  | aborted => "stack overflow of the process"

-- The kind of the error in one word.
def label : Fatal → String
  | panicked _ => "Panic"
  | stackOverflow _ => "StackOverflow"
  | undefinedVariable _ => "UndefinedVariable"
  | undefinedFunction _ => "UndefinedFunction"
  | notCallable _ => "NotCallable"
  | noFieldOrMethod .. => "NoFieldOrMethod"
  | unknownMember .. => "UnknownMember"
  | arityMismatch .. => "ArityMismatch"
  | invalidAddress _ => "InvalidHeapAddress"
  | operandUnderflow => "OperandUnderflow"
  | invalidOperation .. => "InvalidOperation"
  | invalidAssignTarget => "InvalidAssignTarget"
  | deadlock => "Deadlock"
  | custom _ => "Custom"
  | aborted => "Aborted"

end Fatal

-- Either kind of failure, before it is raised in a running machine.
inductive Failure where
  | fault (fault : Fault)
  | fatal (fatal : Fatal)
  deriving DecidableEq

namespace Failure

def notDefined (op kind : String) : Failure := .fatal (.invalidOperation op kind)

end Failure

end StepGraph

import StepGraph.Host.Package
import StepGraph.Text.Directive
import StepGraph.Text.Utf8
import StepGraph.Types.Member
import StepGraph.Value.MapKey

namespace StepGraph.Services

open Exec

-- Values that can have methods of their own.
def mayHaveMethods : Value → Bool
  | .struct s => s.typeName.isSome
  | .named .. | .pointer (some _) => true
  | _ => false

def boundMethod (sv : Services) (v : Value) (name : String) : Exec (Option Value) := do
  match v with
  | .pointer a => do
      let target ← ofExcept ((← heap).deref a)
      attempt (sv.types.method target (some v) name)
  | _ => attempt (sv.types.method v none name)

-- The text that a method of a value gives, if the value has the method.
def methodText (sv : Services) (v : Value) (name : String) : Exec (Option String) := do
  if ← ofExcept (sv.types.hasMethod (← heap) v name) then
    match ← sv.boundMethod v name with
    | some f => return ((← sv.call f []).head?.bind Value.str?)
    | none => return none
  else return none

-- The text that a value gives of itself. `Error` comes before `String`.
def ownText (sv : Services) (v : Value) : Exec (Option String) := do
  if mayHaveMethods v then
    match ← sv.methodText v TypeTable.errorMethod with
    | some s => return some s
    | none => sv.methodText v "String"
  else return none

def spaced (items : List String) : String := " ".intercalate items

-- Values that are shown behind a pointer.
def isComposite : Value → Bool
  | .struct _ | .array _ | .slice _ | .map _ => true
  | _ => false

-- A value without methods of its own. `inner` shows what it holds, and `plus` asks
-- for the names of fields. Only at the top is it shown what a pointer points to.
def showBare (inner : Value → Exec String) (plus top : Bool) : Value → Exec String
  | .nil | .pointer none | .func none | .chan none => return "<nil>"
  | .bool b => return toString b
  | .int n => return n.text
  | .float32 x => return Text.general x.toFloat true
  | .float64 x => return Text.general x false
  | .complex64 z => return Text.complex z true
  | .complex128 z => return Text.complex z false
  | .str s => return s
  | .slice w => return "[" ++ spaced (← ((← heap).sliceElems w).mapM inner) ++ "]"
  | .array b => return "[" ++ spaced (← ((← heap).block b).toList.mapM inner) ++ "]"
  | .map m => do
      let entries := sortBy (fun a b => keyBefore a.keyValue b.keyValue) ((← heap).entries m)
      let items ← entries.mapM fun e => do
        return (← inner e.keyValue) ++ ":" ++ (← inner e.value)
      return "map[" ++ spaced items ++ "]"
  | .struct s => do
      let fields := s.layout.names.zip ((← heap).block s.block).toList
      let items ← fields.mapM fun (name, v) => do
        return (if plus then name ++ ":" else "") ++ (← inner v)
      return "\x7b" ++ spaced items ++ "\x7d"
  | .pointer (some a) => do
      let target ← ofExcept ((← heap).load a)
      if top && isComposite target.unwrap then return "&" ++ (← inner target)
      else return Fatal.hexText a
  | .func (some (.closure code _)) | .method code _ _ => return "func " ++ code.name
  | .func (some (.host f)) => return "host func " ++ f.name
  | .func (some (.errorText _)) => return "host func Error"
  | .chan (some c) => return Fatal.hexText (c + 1)
  | .package ref => return "package " ++ ref.name
  | .error e => return e.message
  | .cursor _ => return "range"
  | .named .. => return ""

def showWith (sv : Services) (inner : Value → Exec String) (plus top : Bool) :
    Value → Exec String
  | .named t v => do
      match ← sv.ownText (.named t v) with
      | some s => return s
      | none => sv.showWith inner plus top v
  | v => do
      match ← sv.ownText v with
      | some s => return s
      | none => showBare inner plus top v

def showUpTo (sv : Services) (plus : Bool) : Nat → Bool → Value → Exec String
  | 0, _, _ => fatal .aborted
  | n + 1, top, v => sv.showWith (sv.showUpTo plus n false) plus top v

-- A value that lies inside itself has no text: to show it uses up the stack.
def showDepth (h : Heap) : Nat := h.reach + h.maps.size

theorem exists_showDepth (h : Heap) : ∃ n, showDepth h = n + 1 :=
  ⟨showDepth h - 1, by have hpos := h.reach_pos; unfold showDepth; omega⟩

def showWhole (sv : Services) (plus : Bool) (v : Value) : Exec String := do
  sv.showUpTo plus (showDepth (← heap)) true v

-- The text of a value where no form is asked for.
def show' (sv : Services) (v : Value) : Exec String := sv.showWhole false v

-- The texts of operands one after the other.
def showAll (sv : Services) (vs : List Value) : Exec String := do
  return String.join (← vs.mapM sv.show')

-- The texts of operands with blanks between them.
def showSpaced (sv : Services) (vs : List Value) : Exec String := do
  return spaced (← vs.mapM sv.show')

-- The texts of operands with a blank between two of which neither is a string.
def sprint (sv : Services) : List Value → Exec String
  | [] => return ""
  | [v] => sv.show' v
  | v :: w :: rest => do
      let text ← sv.show' v
      let gap := if v.str?.isSome || w.str?.isSome then "" else " "
      return text ++ gap ++ (← sv.sprint (w :: rest))

def sprintln (sv : Services) (vs : List Value) : Exec String := do
  return (← sv.showSpaced vs) ++ "\n"

def truncate (s : String) : Option Nat → String
  | some n => String.ofList (s.toList.take n)
  | none => s

-- An integer in a base that is a power of two.
def radix (d : Directive) (base : Nat) (upper : Bool) (n : Int) : String :=
  let digits := String.ofList (Nat.toDigits base n.natAbs)
  let lead :=
    if !d.sharp then ""
    else if base = 2 then "0b"
    else if base = 8 then "0"
    else if upper then "0X"
    else "0x"
  d.signed ((if n < 0 then "-" else "") ++ lead ++ (if upper then digits.toUpper else digits))

def hexBytes (upper : Bool) (s : String) : String :=
  let text := String.ofList ((Utf8.bytes s).flatMap fun b => Text.hexPadded 2 b.toNat)
  if upper then text.toUpper else text

def badVerb (sv : Services) (verb : Char) (v : Value) : Exec String := do
  let text ← sv.show' v
  return "%!" ++ verb.toString ++ "(" ++ (← heap).typeName v ++ "=" ++ text ++ ")"

def isFloatVerb (c : Char) : Bool := ['e', 'E', 'f', 'F', 'g', 'G'].contains c

-- A verb for a value that is no number, bool or string.
def showOther (sv : Services) (d : Directive) (v : Value) : Exec String := do
  match d.verb, v.unwrap with
  | 's', _ => return truncate (← sv.show' v) d.precision
  | 'p', .pointer (some a) => return Fatal.hexText a
  | 'p', .func (some _) | 'p', .method .. | 'p', .chan (some _) | 'p', .map _ | 'p', .slice _ =>
      sv.show' v
  | verb, _ => sv.badVerb verb v

def showInt (sv : Services) (d : Directive) (v : Value) (n : IntValue) : Exec String :=
  match d.verb with
  | 'q' => return Text.quoteRune (Utf8.charOfInt n.val)
  | 'c' => return String.singleton (Utf8.charOfInt n.val)
  | 'd' => return d.signed n.text
  | 'b' => return radix d 2 false n.val
  | 'o' => return radix d 8 false n.val
  | 'x' => return radix d 16 false n.val
  | 'X' => return radix d 16 true n.val
  | verb => sv.badVerb verb v

def showFloat (sv : Services) (d : Directive) (v : Value) (x : Float) (single : Bool) :
    Exec String :=
  if isFloatVerb d.verb then return d.signed (Text.floatVerb x d.verb d.precision single)
  else sv.badVerb d.verb v

-- A value in the form that a directive asks for, before it is padded.
def showVerb (sv : Services) (d : Directive) (v : Value) : Exec String := do
  if d.verb = 'v' ∨ d.verb = 'w' then sv.showWhole d.plus v
  else if d.verb = 'T' then return (← heap).typeName v
  else match v.unwrap with
    | .str s =>
        match d.verb with
        | 's' => return truncate s d.precision
        | 'q' => return Text.quoteString s
        | 'x' => return hexBytes false s
        | 'X' => return hexBytes true s
        | verb => sv.badVerb verb v
    | .int n => sv.showInt d v n
    | .float32 x => sv.showFloat d v x.toFloat true
    | .float64 x => sv.showFloat d v x false
    | .bool b => if d.verb = 't' then return toString b else sv.badVerb d.verb v
    | _ => sv.showOther d v

def showPieces (sv : Services) : List Format.Piece → List Value → Exec (String × List Value)
  | [], args => return ("", args)
  | .literal s :: rest, args => do
      let (text, left) ← sv.showPieces rest args
      return (s ++ text, left)
  | .verb d :: rest, [] => do
      let (text, left) ← sv.showPieces rest []
      return ("%!" ++ d.verb.toString ++ "(MISSING)" ++ text, left)
  | .verb d :: rest, v :: args => do
      let item ← sv.showVerb d v
      let (text, left) ← sv.showPieces rest args
      return (d.pad item ++ text, left)

-- Operands in the forms that a format string asks for. Operands without a directive are
-- listed at the end with their types.
def sprintf (sv : Services) (format : String) (args : List Value) : Exec String := do
  let (text, left) ← sv.showPieces (Format.pieces format) args
  if left.isEmpty then return text
  else
    let items ← left.mapM fun v => do
      let item ← sv.show' v
      return (← heap).typeName v ++ "=" ++ item
    return text ++ "%!(EXTRA " ++ ", ".intercalate items ++ ")"

end StepGraph.Services

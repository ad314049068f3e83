import StepGraph.Heap.Slice
import StepGraph.Host.Package
import StepGraph.Machine.Show
import StepGraph.Text.Case
import StepGraph.Text.Search

namespace StepGraph.Host

open Exec

-- Error values.
def errors : HostPackage where
  name := "errors"
  members := [
    ("New", .func fun _ args => do
      expectArgs "errors.New" args 1
      let message ← strArg "errors.New" args 0
      return [← Heap.newError message false])]

-- The text of a format string and its operands.
def formatted (func : String) (sv : Services) (args : List Value) : Exec String := do
  sv.sprintf (← strArg func args 0) (args.drop 1)

-- Printing and formatting.
def fmt : HostPackage where
  name := "fmt"
  members := [
    ("Print", .func fun sv args => do
      print (← sv.sprint args)
      return []),
    ("Println", .func fun sv args => do
      printLine (← sv.showSpaced args)
      return []),
    ("Printf", .func fun sv args => do
      print (← formatted "fmt.Printf" sv args)
      return []),
    ("Sprint", .func fun sv args => return [.str (← sv.sprint args)]),
    ("Sprintln", .func fun sv args => return [.str (← sv.sprintln args)]),
    ("Sprintf", .func fun sv args => return [.str (← formatted "fmt.Sprintf" sv args)]),
    ("Errorf", .func fun sv args => do
      let message ← formatted "fmt.Errorf" sv args
      return [← Heap.newError message false])]

def nan : Float := 0 / 0

def infinity : Float := 1 / 0

-- The larger number. Nothing is larger than a value that is no number.
def largest (x y : Float) : Float :=
  if x.isNaN || y.isNaN then nan else if x < y then y else x

def smallest (x y : Float) : Float :=
  if x.isNaN || y.isNaN then nan else if y < x then y else x

def unaryMath (name : String) (f : Float → Float) : String × HostMember :=
  let func := "math." ++ name
  (name, .func fun _ args => do
    expectArgs func args 1
    return [.float64 (f (← floatArg func args 0))])

def binaryMath (name : String) (f : Float → Float → Float) : String × HostMember :=
  let func := "math." ++ name
  (name, .func fun _ args => do
    expectArgs func args 2
    let x ← floatArg func args 0
    return [.float64 (f x (← floatArg func args 1))])

-- Numbers in double precision. The sign of an infinity comes from an integer, and any
-- other argument counts as zero.
def math : HostPackage where
  name := "math"
  members := [
    ("Pi", .const (.float64 3.141592653589793)),
    ("E", .const (.float64 2.718281828459045)),
    ("MaxInt64", .const (.plainInt (pow2 63 - 1))),
    ("MinInt64", .const (.plainInt (-pow2 63))),
    unaryMath "Sqrt" Float.sqrt,
    unaryMath "Abs" Float.abs,
    unaryMath "Floor" Float.floor,
    unaryMath "Ceil" Float.ceil,
    binaryMath "Pow" Float.pow,
    binaryMath "Max" largest,
    binaryMath "Min" smallest,
    ("Inf", .func fun _ args => do
      expectArgs "math.Inf" args 1
      let sign := ((args.head?.bind Value.int?).map IntValue.toInt64).getD 0
      return [.float64 (if 0 ≤ sign then infinity else -infinity)]),
    ("IsNaN", .func fun _ args => do
      expectArgs "math.IsNaN" args 1
      return [.bool (← floatArg "math.IsNaN" args 0).isNaN])]

-- A function of so many arguments. The body is told the full name of the function.
def stringFunc (name : String) (count : Nat) (body : String → List Value → Exec Value) :
    String × HostMember :=
  let func := "strings." ++ name
  (name, .func fun _ args => do
    expectArgs func args count
    return [← body func args])

-- A function of one string.
def ofString (name : String) (f : String → String) : String × HostMember :=
  stringFunc name 1 fun func args => return .str (f (← strArg func args 0))

-- A function of two strings.
def ofStrings (name : String) (f : String → String → Value) : String × HostMember :=
  stringFunc name 2 fun func args => do
    let s ← strArg func args 0
    return f s (← strArg func args 1)

-- The members of a slice that has to hold strings.
def join (func : String) (args : List Value) : Exec Value := do
  let sep ← strArg func args 1
  let parts ← match (← arg func args 0).unwrap with
    | .slice w => pure ((← heap).sliceElems w)
    | .nil => pure []
    | v => notDefined func v.kindName
  let texts ← parts.mapM fun v =>
    match v.str? with
    | some s => pure s
    | none => notDefined func v.kindName
  return .str (sep.intercalate texts)

def repeated (func : String) (args : List Value) : Exec Value := do
  let s ← strArg func args 0
  let count ← intArg func args 1
  if count < 0 then throw (.panic (.str "strings: negative Repeat count"))
  else if s.isEmpty then return .str ""
  else return .str (String.join (List.replicate count.toNat s))

def replaced (func : String) (args : List Value) : Exec Value := do
  let s ← strArg func args 0
  let old ← strArg func args 1
  let new ← strArg func args 2
  let count ← intArg func args 3
  return .str (Text.replace old new s (if count < 0 then none else some count.toNat))

def replacedAll (func : String) (args : List Value) : Exec Value := do
  let s ← strArg func args 0
  let old ← strArg func args 1
  return .str (Text.replace old (← strArg func args 2) s none)

def byteIndex (s part : String) : Value :=
  match Text.byteIndex? part s with
  | some i => .plainInt i
  | none => .plainInt (-1)

def hasStart (s start : String) : Value := .bool (start.toList.isPrefixOf s.toList)

def hasEnd (s stop : String) : Value := .bool (stop.toList.isSuffixOf s.toList)

-- A slice of strings.
def stringSlice (texts : List String) : Exec Value := Heap.newSlice (texts.map .str)

-- Functions on texts.
def strings : HostPackage where
  name := "strings"
  members := [
    ofStrings "Contains" fun s part => .bool (Text.occursIn part s),
    ofStrings "HasPrefix" hasStart,
    ofStrings "HasSuffix" hasEnd,
    ofStrings "Index" byteIndex,
    stringFunc "Join" 2 join,
    stringFunc "Repeat" 2 repeated,
    stringFunc "Split" 2 fun func args => do
      let s ← strArg func args 0
      stringSlice (Text.split (← strArg func args 1) s),
    ofString "ToLower" Text.lower,
    ofString "ToUpper" Text.upper,
    ofString "TrimSpace" Text.trim,
    stringFunc "Fields" 1 fun func args => do stringSlice (Text.words (← strArg func args 0)),
    stringFunc "Replace" 4 replaced,
    stringFunc "ReplaceAll" 3 replacedAll]

end StepGraph.Host

namespace StepGraph.HostRegistry

-- The packages that a program can always import.
def default : HostRegistry :=
  [("fmt", Host.fmt), ("strings", Host.strings), ("math", Host.math), ("errors", Host.errors)]

end StepGraph.HostRegistry

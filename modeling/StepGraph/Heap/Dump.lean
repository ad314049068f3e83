import StepGraph.Error.Fault
import StepGraph.Heap.Basic
import StepGraph.Text.Quoted
import StepGraph.Text.Number

namespace StepGraph.Heap

def listText (items : List String) : String := "[" ++ ", ".intercalate items ++ "]"

-- One level of the text of a value: `inner` gives the texts of what it holds.
def dumpWith (inner : Value → String) (h : Heap) : Value → String
  | .nil => "nil"
  | .bool b => toString b
  | .int n => n.text ++ ":" ++ n.kind.name
  | .float32 x => Text.plain x.toFloat true ++ ":float32"
  | .float64 x => Text.plain x false ++ ":float64"
  | .complex64 z | .complex128 z =>
      "(" ++ Text.plain z.re false ++ "+" ++ Text.plain z.im false ++ "i)"
  | .str s => Text.dumpString s
  | .slice none => "[]nil"
  | .slice (some w) => listText ((h.windowElems w).map inner)
  | .array b => listText ((h.block b).toList.map inner)
  | .map none => "map[]nil"
  | .map (some m) =>
      let item (e : Entry) := inner e.keyValue ++ ": " ++ inner e.value
      "\x7b" ++ ", ".intercalate ((h.entries (some m)).map item) ++ "\x7d"
  | .pointer none => "ptr(nil)"
  | .pointer (some a) => "ptr(" ++ Fatal.hexText a ++ ")"
  | .struct s =>
      let item (n : String) (v : Value) := n ++ ": " ++ inner v
      match List.zipWith item s.layout.names (h.block s.block).toList with
      | [] => "Struct"
      | items => "Struct \x7b " ++ ", ".intercalate items ++ " \x7d"
  | .named t v => t ++ "(" ++ dumpWith inner h v ++ ")"
  | .func none => "func(nil)"
  | .func (some (.closure code _)) => "func " ++ code.name
  | .func (some (.host f)) => "host func " ++ f.name
  | .func (some (.errorText _)) => "host func Error"
  | .method code _ _ => "func " ++ code.name
  | .chan none => "chan(nil)"
  | .chan (some c) =>
      match h.chans[c]? with
      | some ch =>
          "chan(len " ++ toString ch.queue.length ++ ", cap " ++ toString ch.capacity ++ ")"
      | none => "chan(len 0, cap 0)"
  | .package p => "package " ++ p.name
  | .error e => "error(" ++ Text.dumpString e.message ++ ")"
  | .cursor _ => "<cursor>"

def dumpUpTo (h : Heap) : Nat → Value → String
  | 0, _ => "..."
  | n + 1, v => dumpWith (dumpUpTo h n) h v

-- The text of a value with its types, as it stands in the dump of a failed run.
def dump (h : Heap) (v : Value) : String := dumpUpTo h (h.reach + h.maps.size) v

end StepGraph.Heap

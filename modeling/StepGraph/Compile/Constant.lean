import StepGraph.Compile.Builder
import StepGraph.Types.Convert

namespace StepGraph

namespace Constant

-- A value that refers to nothing, as a constant.
def ofScalar : Value → Constant
  | .bool b => .bool b
  | .int n => .int n
  | .float32 x => .float32 x
  | .float64 x => .float64 x
  | .complex64 z => .complex64 z
  | .complex128 z => .complex128 z
  | .str s => .str s
  | .named t v => .named t (ofScalar v)
  | _ => .nil

end Constant

namespace Literal

-- The value that the literal has by itself.
def value : Literal → Value
  | int n => .plainInt n
  | float x => .float64 x
  | imag x => .complex128 ⟨0, x⟩
  | rune c => .rune c
  | str s => .str s

-- The value behind a minus sign, for numbers.
def negated? : Literal → Option Value
  | int n => some (.plainInt (-n))
  | float x => some (.float64 (-x))
  | imag x => some (.complex128 ⟨0, -x⟩)
  | rune _ | str _ => none

end Literal

namespace Names

-- An untyped constant in a context that expects a type.
def constant (n : Names) (v : Value) (hint : Option Ty) : Constant :=
  match hint with
  | none | some .untypedNil => .ofScalar v
  | some ty => if v.isBareNil then n.types.zero ty else .ofScalar (n.types.settle v ty)

end Names

namespace Build

def emitConstant (v : Value) (hint : Option Ty) (span : Span) : Build Unit := do
  emit' (.const ((← names).constant v hint)) span

-- The value of a predeclared name.
def predeclared? (iota : Option Nat) : String → Option Value
  | "true" => some (.bool true)
  | "false" => some (.bool false)
  | "nil" => some .nil
  | "iota" => iota.map fun i => .plainInt i
  | _ => none

-- Pushes what a name stands for.
def emitName (name : String) (hint : Option Ty) (span : Span) : Build Unit := do
  let b ← get
  if b.names.isShadowed name then emit' (.load name) span
  else match predeclared? b.iota name with
    | some v => emitConstant v hint span
    | none => emit' (.load name) span

end Build

end StepGraph

import StepGraph.Heap.Copy

namespace StepGraph

-- A location that holds one value.
inductive Place where
  | cell (address : Address)
  | element (block : BlockId) (index : Nat)
  | variable (scope : ScopeId) (name : String)

namespace Heap

-- Addresses start at one.
def cell? (h : Heap) (a : Address) : Option Cell := if a = 0 then none else h.cells[a - 1]?

def newCell (c : Cell) : HeapM Address :=
  modifyGet fun h => (h.cells.size + 1, { h with cells := h.cells.push c })

-- A new variable that has no name.
def box (v : Value) : HeapM Address := newCell (.boxed v)

def binding? (h : Heap) (s : ScopeId) (name : String) : Option Binding := do
  (← h.scopes[s]?).bindings.lookup name

-- The binding of a name, in the place of an earlier one if there is one.
def setBinding (name : String) (b : Binding) : List (String × Binding) → List (String × Binding)
  | [] => [(name, b)]
  | (n, c) :: rest => if n = name then (n, b) :: rest else (n, c) :: setBinding name b rest

def modifyScope (s : ScopeId) (f : Scope → Scope) : HeapM Unit :=
  modify fun h => { h with scopes := h.scopes.modify s f }

def bind (s : ScopeId) (name : String) (b : Binding) : HeapM Unit :=
  modifyScope s fun sc => { sc with bindings := setBinding name b sc.bindings }

-- The value in a location that holds its value itself.
def read? (h : Heap) : Place → Option Value
  | .cell a =>
      match h.cell? a with
      | some (.boxed v) => some v
      | _ => none
  | .element b i => h.element? b i
  | .variable s x =>
      match h.binding? s x with
      | some (.plain v) => some v
      | _ => none

def write (v : Value) : Place → HeapM Unit
  | .cell a => modify fun h => { h with cells := h.cells.set! (a - 1) (.boxed v) }
  | .element b i => setElement b i v
  | .variable s x => bind s x (.plain v)

-- The block that a store of `new` over `old` fills instead of replacing the value.
def filledBlock? (h : Heap) : Option Value → Value → Option (BlockId × BlockId)
  | some (.struct old), .struct new =>
      if old.block ≠ new.block ∧ old.layout.length = new.layout.length then
        some (old.block, new.block)
      else none
  | some (.array old), .array new =>
      if old ≠ new ∧ (h.block old).size = (h.block new).size then some (old, new) else none
  | _, _ => none

def storeUpTo : Nat → Place → Value → HeapM Unit
  | 0, p, v => write v p
  | n + 1, p, v => do
      let h ← get
      match h.filledBlock? (h.read? p) v with
      | some (old, new) =>
          (((h.block new).toList.take (h.block old).size).zipIdx).forM fun (item, i) =>
            storeUpTo n (.element old i) item
      | none => write v p

-- A store. A struct over a struct of as many fields, and an array over an array of the same
-- length, go into the old block element by element, so that every alias of it sees them.
def store (p : Place) (v : Value) : HeapM Unit := do storeUpTo (← get).depth p v

end Heap

end StepGraph

import StepGraph.Heap.Place

namespace StepGraph.Heap

-- A new scope inside `parent`.
def newScope (parent : Option ScopeId) : HeapM ScopeId :=
  modifyGet fun h => (h.scopes.size, { h with scopes := h.scopes.push ⟨[], parent, false⟩ })

def parent? (h : Heap) (s : ScopeId) : Option ScopeId := h.scopes[s]?.bind (·.parent)

def binds (h : Heap) (s : ScopeId) (name : String) : Bool := (h.binding? s name).isSome

-- The value of a binding. The cell of a variable always holds the value itself.
def bindingValue? (h : Heap) : Binding → Option Value
  | .plain v => some v
  | .shared a => h.read? (.cell a)

-- The value that a name has in this scope alone.
def local? (h : Heap) (s : ScopeId) (name : String) : Option Value :=
  (h.binding? s name).bind h.bindingValue?

def ownerUpTo (h : Heap) (name : String) : Nat → ScopeId → Option ScopeId
  | 0, _ => none
  | n + 1, s =>
      if h.binds s name then some s
      else match h.parent? s with
        | some p => ownerUpTo h name n p
        | none => none

-- The nearest scope, from `s` outwards, that binds the name. A scope is younger than
-- the scope around it, so there are at most `s` of those.
def owner? (h : Heap) (s : ScopeId) (name : String) : Option ScopeId :=
  h.ownerUpTo name (s + 1) s

-- The value that a name has where scope `s` is the innermost.
def lookup (h : Heap) (s : ScopeId) (name : String) : Option Value :=
  (h.owner? s name).bind fun o => h.local? o name

-- The location of a binding of this scope.
def location? (h : Heap) (s : ScopeId) (name : String) : Option Place :=
  (h.binding? s name).map fun
    | .plain _ => .variable s name
    | .shared a => .cell a

-- A store into a variable of this scope. The result tells whether there is one.
def setLocal (s : ScopeId) (name : String) (v : Value) : HeapM Bool := do
  match (← get).location? s name with
  | some place =>
      store place v
      return true
  | none => return false

-- A declaration. Where the name is bound in this very scope and its address was taken,
-- it goes on naming the same variable.
def declare (s : ScopeId) (name : String) (v : Value) : HeapM Unit := do
  match (← get).binding? s name with
  | some (.shared a) => store (.cell a) v
  | _ => bind s name (.plain v)

-- A store into the nearest variable of the name.
def assign (s : ScopeId) (name : String) (v : Value) : HeapM Bool := do
  match (← get).owner? s name with
  | some o => setLocal o name v
  | none => return false

-- The address of a variable of this scope. Its first use moves the variable into a cell.
def variableAddress (s : ScopeId) (name : String) : HeapM (Option Address) := do
  match (← get).binding? s name with
  | some (.shared a) => return some a
  | some (.plain v) =>
      let a ← box v
      bind s name (.shared a)
      return some a
  | none => return none

def isShared (h : Heap) (s : ScopeId) (name : String) : Bool :=
  match h.binding? s name with
  | some (.shared _) => true
  | _ => false

def isEscaped (h : Heap) (s : ScopeId) : Bool := (h.scopes[s]?.map (·.escaped)).getD false

def markEscapedUpTo : Nat → ScopeId → HeapM Unit
  | 0, _ => pure ()
  | n + 1, s => do
      if (← get).isEscaped s then return
      modifyScope s fun sc => { sc with escaped := true }
      match (← get).parent? s with
      | some p => markEscapedUpTo n p
      | none => pure ()

-- Marks the scope and those around it as reachable from a function value.
def markEscaped (s : ScopeId) : HeapM Unit := markEscapedUpTo (s + 1) s

-- The names that this scope binds.
def names (h : Heap) (s : ScopeId) : List String :=
  (h.scopes[s]?.map fun sc => sc.bindings.map (·.1)).getD []

end StepGraph.Heap

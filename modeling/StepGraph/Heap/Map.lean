import StepGraph.Heap.Pointer

namespace StepGraph.Heap

-- A number with a sign of zero that does not count.
def unsignedZero (x : Float) : Float := if x == 0 then 0 else x

-- One level of the key that a value is in a map.
def keyWith (inBlock : Value → Except Failure MapKey) (h : Heap) :
    Value → Except Failure MapKey
  | .nil => .ok .nil
  | .bool b => .ok (.bool b)
  | .int n => .ok (.int n)
  | .float32 x => .ok (.float32 (if x == 0 then 0 else x.toBits))
  | .float64 x => .ok (.float64 (unsignedZero x).toBits)
  | .complex64 z | .complex128 z =>
      .ok (.complex (unsignedZero z.re).toBits (unsignedZero z.im).toBits)
  | .str s => .ok (.str s)
  | .pointer a => .ok (.pointer a)
  | .chan c => .ok (.chan c)
  | .error e => .ok (.error e.id)
  | .struct s => return .struct s.typeName (← (h.block s.block).toList.mapM inBlock)
  | .array b => return .array (← (h.block b).toList.mapM inBlock)
  | .named t v => return .named t (← keyWith inBlock h v)
  | v => fault (.unhashable v.kindName)

def keyUpTo (h : Heap) : Nat → Value → Except Failure MapKey
  | 0, v => fault (.unhashable v.kindName)
  | n + 1, v => keyWith (keyUpTo h n) h v

-- The key that a value is in a map. Slices, maps and functions are none.
def keyOf (h : Heap) (v : Value) : Except Failure MapKey := keyUpTo h h.depth v

-- A new map without entries.
def newMap : HeapM MapId :=
  modifyGet fun h => (h.maps.size, { h with maps := h.maps.push [] })

-- An entry in the place of the one with its key, or after all others.
def putEntry (e : Entry) : List Entry → List Entry
  | [] => [e]
  | d :: rest => if d.key = e.key then e :: rest else d :: putEntry e rest

def findKey? (h : Heap) (m : Option MapId) (key : MapKey) : Option Entry :=
  (h.entries m).find? (·.key = key)

def modifyMap (m : MapId) (f : List Entry → List Entry) : HeapM Unit :=
  modify fun h => { h with maps := h.maps.modify m f }

def insert (m : Option MapId) (e : Entry) : Attempt Unit :=
  match m with
  | some m => monadLift (modifyMap m (putEntry e))
  | none => throw (.fault .nilMapAssignment)

-- Without an entry for the key, and for the nil map, there is nothing to remove.
def remove (m : Option MapId) (key : MapKey) : HeapM Unit :=
  match m with
  | some m => modifyMap m (·.filter (·.key ≠ key))
  | none => pure ()

def clear (m : Option MapId) : HeapM Unit :=
  match m with
  | some m => modifyMap m fun _ => []
  | none => pure ()

def keys (h : Heap) (m : Option MapId) : List MapKey := (h.entries m).map (·.key)

end StepGraph.Heap

import StepGraph.Heap.Copy
import StepGraph.Heap.Pointer
import StepGraph.Types.Table

namespace StepGraph

-- A field of a struct value.
structure FieldRef where
  owner : StructRef
  index : Nat

namespace Heap

def fieldValue (h : Heap) (f : FieldRef) : Value :=
  (h.element? f.owner.block f.index).getD .nil

-- The first of the values in which the search finds something.
def firstFound {α : Type} (search : Value → Except Failure (Option α)) :
    List Value → Except Failure (Option α)
  | [] => .ok none
  | v :: vs => do
      match ← search v with
      | some a => return some a
      | none => firstFound search vs

def embeddedValues (h : Heap) (s : StructRef) : List Value :=
  s.layout.embedded.filterMap fun i => h.element? s.block i

def isNilPointer : Value → Bool
  | .pointer none => true
  | _ => false

def locateUpTo (h : Heap) (name : String) : Nat → Value → Except Failure (Option FieldRef)
  | 0, _ => fatal .aborted
  | n + 1, v =>
      match v with
      | .struct s =>
          match s.layout.index? name with
          | some i => .ok (some ⟨s, i⟩)
          | none =>
              firstFound (locateUpTo h name n)
                ((h.embeddedValues s).filter fun v => !isNilPointer v)
      | .pointer (some a) => do locateUpTo h name n (← h.load a)
      | .pointer none => fault .nilDereference
      | _ => .ok none

-- The field that a name selects in a value: one of its own, one behind a pointer, or one that
-- an embedded field passes on. Embedded fields are searched one after the other, each to its
-- full depth. A search that comes back to where it was uses up the stack.
def locate (h : Heap) (v : Value) (name : String) : Except Failure (Option FieldRef) :=
  h.locateUpTo name h.reach v

-- The name of the type that a value has at run time.
def typeNameUpTo (h : Heap) : Nat → Value → String
  | 0, v => v.kindName
  | n + 1, v =>
      match v with
      | .struct s => s.typeName.getD "struct"
      | .named t _ => t
      | .pointer (some a) =>
          match h.load a with
          | .ok target => "*" ++ typeNameUpTo h n target
          | .error _ => "pointer"
      | v => v.kindName

def typeName (h : Heap) (v : Value) : String := h.typeNameUpTo h.reach v

end Heap

namespace TypeTable

def declaredMethod? (t : TypeTable) (v : Value) (name : String) : Option Method :=
  v.declaredName?.bind fun n => t.method? n name

def firstMatch (search : Value → Except Failure Bool) : List Value → Except Failure Bool
  | [] => .ok false
  | v :: vs => do if ← search v then return true else firstMatch search vs

def methodSetUpTo (t : TypeTable) (h : Heap) (name : String) :
    Nat → Bool → Value → Except Failure Bool
  | 0, _, _ => Heap.fatal .aborted
  | n + 1, pointer, v =>
      match t.declaredMethod? v name with
      | some m => .ok (pointer || !m.pointer)
      | none =>
          match v with
          | .struct s =>
              Heap.firstFound
                (fun v => do
                  let found ← match v with
                    | .pointer (some a) => do t.methodSetUpTo h name n true (← h.load a)
                    | v => t.methodSetUpTo h name n pointer v
                  return if found then some () else none)
                (h.embeddedValues s) |>.map Option.isSome
          | _ => .ok false

-- Whether a method can be called on a value, or on a pointer to it, in an interface.
-- A pointer has the methods of both kinds of receiver.
def hasMethod (t : TypeTable) (h : Heap) (v : Value) (name : String) : Except Failure Bool :=
  match v with
  | .error _ => .ok (name == errorMethod)
  | .pointer (some a) => do t.methodSetUpTo h name h.reach true (← h.load a)
  | v => t.methodSetUpTo h name h.reach false v

def hasMethods (t : TypeTable) (h : Heap) (v : Value) : List String → Except Failure Bool
  | [] => .ok true
  | m :: ms => do if ← t.hasMethod h v m then t.hasMethods h v ms else return false

-- A type literal, or the name of a declared type, against a value.
def literalMatches (h : Heap) : Ty → Value → Bool
  | .bool, .bool _ | .float32, .float32 _ | .float64, .float64 _ | .complex64, .complex64 _
  | .complex128, .complex128 _ | .string, .str _ | .slice _, .slice _ | .map _ _, .map _
  | .chan _, .chan _ | .func _ _ _, .func _ | .func _ _ _, .method _ _ _ => true
  | .int k, .int n => n.kind == k
  | .array n _, .array b => (h.block b).size == n
  | .struct _, .struct s => s.typeName.isNone
  | .named n, v => v.declaredName? == some n
  | _, _ => false

-- Whether the type that a value has at run time is `ty`, or implements it where it is an
-- interface. Nil matches no interface, and a nil pointer matches every pointer type.
def holdsType (t : TypeTable) (h : Heap) (v : Value) (ty : Ty) : Except Failure Bool :=
  match ty with
  | .untypedNil => .ok v.isBareNil
  | .pointer elem =>
      match v with
      | .pointer (some a) => do t.holdsType h (← h.load a) elem
      | .pointer none => .ok true
      | _ => .ok false
  | ty =>
      match t.resolve ty with
      | .interface methods => if v.isBareNil then .ok false else t.hasMethods h v methods
      | _ => .ok (literalMatches h ty v)

-- The method of a value with its receiver bound. `pointer` is a pointer to the value, where
-- there is one. A method with a pointer receiver gets that pointer or a pointer to a copy.
def methodUpTo (t : TypeTable) (name : String) :
    Nat → Value → Option Value → Attempt (Option Value)
  | 0, _, _ => throw (.fatal .aborted)
  | n + 1, v, pointer => do
      match t.declaredMethod? v name with
      | some m => do
          let receiver ← match m.pointer, pointer with
            | true, some p => pure p
            | true, none => do pure (.pointer (some (← (monadLift (Heap.box v) : Attempt Address))))
            | false, _ => (monadLift (Heap.copy v) : Attempt Value)
          return some (.method m.code m.env receiver)
      | none =>
          match v with
          | .struct s => promoted n s s.layout.embedded
          | _ => return none
where
  promoted (n : Nat) (s : StructRef) : List Nat → Attempt (Option Value)
    | [] => pure none
    | i :: rest => do
        let h ← getThe Heap
        let found ← match h.element? s.block i with
          | none | some (.pointer none) => pure none
          | some (.pointer (some a)) => do
              match h.load a with
              | .ok target => t.methodUpTo name n target (some (.pointer (some a)))
              | .error e => throw e
          | some field => do
              let a ← (monadLift (Heap.slotAddress s.block i) : Attempt Address)
              t.methodUpTo name n field (some (.pointer (some a)))
        match found with
        | some m => return some m
        | none => promoted n s rest

def method (t : TypeTable) (v : Value) (pointer : Option Value) (name : String) :
    Attempt (Option Value) := do
  t.methodUpTo name (← getThe Heap).reach v pointer

end TypeTable

end StepGraph

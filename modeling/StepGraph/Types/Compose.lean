import StepGraph.Graph.Shape
import StepGraph.Heap.Chan
import StepGraph.Heap.Map
import StepGraph.Types.Convert

namespace StepGraph.TypeTable

def raise {α : Type} (f : Failure) : Attempt α := throw f

-- A value as an element of a new composite.
def elementOf (t : TypeTable) (v : Value) (ty : Ty) : HeapM Value := do t.coerce (← Heap.copy v) ty

-- Fills the fields of a new struct, each value in the type of its field.
-- Values without a field are dropped.
def fillField (t : TypeTable) (layout : Layout) (b : BlockId) (i : Nat) (v : Value) :
    HeapM Unit := do
  let v ← match layout.fieldType? i with
    | some ty => t.elementOf v ty
    | none => Heap.copy v
  if ((← get).element? b i).isSome then Heap.store (.element b i) v

def notComposite (ty : Ty) : Failure := .notDefined "composite literal" ty.text

def fillNamed (t : TypeTable) (ty : Ty) (layout : Layout) (b : BlockId) :
    List (String × Value) → Attempt Unit
  | [] => pure ()
  | (name, v) :: rest =>
      match layout.index? name with
      | some i => do
          monadLift (t.fillField layout b i v)
          t.fillNamed ty layout b rest
      | none => raise (.notDefined ("unknown field " ++ name) ty.text)

def composeStruct (t : TypeTable) (ty : Ty) (shape : Shape) (values : List Value) :
    Attempt Value := do
  match t.structOf? ty, ← (monadLift (t.zeroValue ty) : Attempt Value) with
  | some (layout, name), .struct zero => do
      match shape with
      | .fields names => t.fillNamed ty layout zero.block (names.zip values)
      | _ => values.zipIdx.forM fun (v, i) => monadLift (t.fillField layout zero.block i v)
      return .struct { zero with typeName := name }
  | _, _ => raise (notComposite ty)

-- The values of a sequence with their places. A value without an index stands behind the
-- one before it.
def placeElems (t : TypeTable) (elem : Ty) (next : Nat) :
    List Bool → List Value → Attempt (List (Nat × Value))
  | true :: keyed, key :: values =>
      match key.int?.map (·.val) with
      | some (Int.ofNat i) => place i keyed values
      | _ => raise (.notDefined "composite literal index" elem.text)
  | true :: _, [] => raise (.notDefined "composite literal index" elem.text)
  | false :: keyed, values => place next keyed values
  | [], _ => pure []
where
  place (i : Nat) (keyed : List Bool) : List Value → Attempt (List (Nat × Value))
    | [] => pure []
    | v :: values => do
        let v ← monadLift (t.elementOf v elem)
        return (i, v) :: (← t.placeElems elem (i + 1) keyed values)

def sequenceLength (placed : List (Nat × Value)) : Nat :=
  placed.foldl (fun n (i, _) => max n (i + 1)) 0

-- The elements of a sequence of the given length, zero where no value was placed.
def elements (t : TypeTable) (elem : Ty) (length : Nat) (placed : List (Nat × Value)) :
    Attempt (List Value) := do
  let zeros ← (List.replicate length ()).mapM fun _ => monadLift (t.zeroValue elem)
  match placed.find? fun (i, _) => length ≤ i with
  | some (i, _) => raise (.fault (.indexOutOfRange i length))
  | none => return placed.foldl (fun vs (i, v) => vs.set i v) zeros

def fillMap (t : TypeTable) (m : MapId) (key value : Ty) : List Value → Attempt Unit
  | k :: v :: rest => do
      let k ← monadLift (t.coerce k key)
      let mapKey ← match (← getThe Heap).keyOf k with
        | .ok mapKey => pure mapKey
        | .error e => raise e
      let v ← monadLift (t.elementOf v value)
      Heap.insert (some m) ⟨mapKey, k, v⟩
      t.fillMap m key value rest
  | _ => pure ()

-- A value of the type, if it is a declared one.
def dressed (ty : Ty) (v : Value) : Value :=
  match ty with
  | .named n => .named n v
  | _ => v

-- The composite literal of a type from the values of its elements.
def compose (t : TypeTable) (ty : Ty) (shape : Shape) (values : List Value) : Attempt Value := do
  match t.resolve ty, shape with
  | .struct _, .positional _ | .struct _, .fields _ => t.composeStruct ty shape values
  | .slice elem, .sequence keyed => do
      let placed ← t.placeElems elem 0 keyed values
      let items ← t.elements elem (sequenceLength placed) placed
      return dressed ty (← monadLift (Heap.newSlice items))
  | .array n elem, .sequence keyed => do
      let placed ← t.placeElems elem 0 keyed values
      let items ← t.elements elem n placed
      return dressed ty (← monadLift (Heap.newArray items))
  | .map key value, .map _ => do
      let m ← monadLift Heap.newMap
      t.fillMap m key value values
      return dressed ty (.map (some m))
  | other, _ => raise (notComposite other)

-- A length, capacity or buffer size.
def size? (what : String) : List Value → Attempt (Option Nat)
  | [] => pure none
  | v :: _ =>
      match v.unwrap with
      | .int n => natural n.val
      | .float64 x =>
          if Binary.isWhole x then natural (Binary.integerPart x)
          else raise (.notDefined what v.kindName)
      | _ => raise (.notDefined what v.kindName)
where
  natural (n : Int) : Attempt (Option Nat) :=
    if 0 ≤ n ∧ n < pow2 64 then pure (some n.toNat) else raise (.fault (.sizeOutOfRange what))

-- What `make` gives for a slice, map or channel type and sizes.
def make (t : TypeTable) (ty : Ty) (args : List Value) : Attempt Value := do
  match t.resolve ty with
  | .slice elem => do
      let length := (← size? "len" args).getD 0
      let capacity := (← size? "cap" (args.drop 1)).getD length
      if capacity < length then raise (.fault (.sizeOutOfRange "cap"))
      else do
        let zeros ← (List.replicate capacity ()).mapM fun _ => monadLift (t.zeroValue elem)
        let b ← monadLift (Heap.newBlock zeros.toArray)
        return dressed ty (.slice (some ⟨b, 0, length, capacity⟩))
  | .map _ _ => return dressed ty (.map (some (← monadLift Heap.newMap)))
  | .chan elem => do
      let capacity := (← size? "buffer" args).getD 0
      let zero ← monadLift (t.zeroValue elem)
      return dressed ty (.chan (some (← monadLift (Heap.newChan capacity zero))))
  | other => raise (.notDefined "make" other.text)

end StepGraph.TypeTable

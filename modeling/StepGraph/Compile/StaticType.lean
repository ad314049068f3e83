import StepGraph.Compile.Names

namespace StepGraph

namespace Literal

-- The type of a constant that no context gives another one.
def ty : Literal → Ty
  | int _ => .plainInt
  | float _ => .float64
  | imag _ => .complex128
  | rune _ => .int .int32
  | str _ => .string

end Literal

namespace Names

-- The type of an element of a value of the type, through a pointer to an array as well.
def indexedType? (n : Names) (base : Ty) : Option Ty :=
  match n.resolve base with
  | .string => some (.int .uint8)
  | .pointer inner => n.elem? inner
  | ty => ty.elem?

-- The type of a slice of a value of the type. Any type but an array keeps itself.
def slicedType? (n : Names) (base : Ty) : Option Ty :=
  match n.resolve base with
  | .array _ e => some (.slice e)
  | .pointer inner =>
      match n.resolve inner with
      | .array _ e => some (.slice e)
      | _ => none
  | _ => some base

-- The type of a field, through a pointer as well.
def fieldType? (n : Names) (base : Ty) (field : String) : Option Ty := do
  let owner := match n.resolve base with
    | .pointer inner => inner
    | _ => base
  let (layout, _) ← n.types.structOf? owner
  layout.fieldType? (← layout.index? field)

-- The method of a declared type, or of a pointer to one.
def methodType? (n : Names) (base : Ty) (name : String) : Option FuncTy :=
  match base with
  | .named t | .pointer (.named t) => n.package.methods.lookup (t, name)
  | _ => none

mutual

-- The static type of an expression, as far as the tree and the declarations in front tell.
-- An untyped constant has none.
def staticType (n : Names) : Expr → Option Ty
  | .lit note _ | .typeExpr note _ => note.ty
  | .ident note x => note.ty <|> n.variableType x
  | .binary note op l r =>
      note.ty <|>
        if op.isComparison || op.isLogical then some .bool
        else if op.isShift then staticType n l
        else staticType n l <|> staticType n r
  | .unary note op x =>
      note.ty <|>
        match op with
        | .addrOf => (staticType n x).map .pointer
        | .deref | .recv => (staticType n x).bind n.elem?
        | .not => some .bool
        | _ => staticType n x
  | .call note f args _ =>
      note.ty <|>
        match n.callShape f with
        | .conversion ty => some ty
        | .builtin b =>
            match b with
            | .len | .cap | .copy => some .plainInt
            | .append =>
                match args with
                | a :: _ => staticType n a
                | [] => none
            | .make => args.head?.bind n.typeArgument?
            | .new => (args.head?.bind n.typeArgument?).map .pointer
            | _ => none
        | .call => (calleeType n f).bind fun t => t.results.head?
  | .index note b _ => note.ty <|> (staticType n b).bind n.indexedType?
  | .slice note b _ _ _ => note.ty <|> (staticType n b).bind n.slicedType?
  | .select note b field => note.ty <|> (staticType n b).bind (n.fieldType? · field)
  | .composite note ty _ => note.ty <|> ty
  | .funcLit note sig _ => note.ty <|> some (FuncTy.ofSignature sig).toTy
  | .assert note _ ty | .convert note ty _ => note.ty <|> some ty

-- The signature of what is called, where the declarations show it.
def calleeType (n : Names) : Expr → Option FuncTy
  | .ident _ x =>
      match n.local? x with
      | some ty => ty.bind FuncTy.ofTy?
      | none => n.package.funcs.lookup x
  | .select _ b field => (staticType n b).bind (n.methodType? · field)
  | .funcLit _ sig _ => some (.ofSignature sig)
  | .lit note _ | .binary note _ _ _ | .unary note _ _ | .call note _ _ _ | .index note _ _
  | .slice note _ _ _ _ | .composite note _ _ | .assert note _ _ | .convert note _ _
  | .typeExpr note _ => note.ty.bind FuncTy.ofTy?

end

-- The static type, or the type that a constant has by itself.
def inferType (n : Names) (e : Expr) : Option Ty :=
  n.staticType e <|> match e with
    | .lit _ v => some v.ty
    | _ => none

-- The type of the values of a map expression.
def mapValueType? (n : Names) (base : Expr) : Option Ty := do
  match n.resolve (← n.staticType base) with
  | .map _ v => some v
  | _ => none

-- The type that an index has beside the base: the key type of a map, else `int`.
def keyHint (n : Names) (base : Expr) : Option Ty :=
  (n.staticType base).map fun ty =>
    match n.resolve ty with
    | .map k _ => k
    | _ => .plainInt

-- The types of the values that one expression gives to several names.
def multiTypes (n : Names) (e : Expr) : List (Option Ty) :=
  match e with
  | .index .. | .assert .. | .unary _ .recv _ => [n.staticType e, some .bool]
  | .call _ f _ _ =>
      match n.callShape f with
      | .call => ((n.calleeType f).map fun t => t.results.map some).getD []
      | _ => []
  | _ => []

-- The types of the values for `want` names.
def valueTypes (n : Names) (values : List Expr) (want : Nat) : List (Option Ty) :=
  match values with
  | [single] =>
      if 1 < want then
        let types := n.multiTypes single
        (types ++ List.replicate (want - types.length) none).take want
      else [n.inferType single]
  | values => values.map n.inferType

-- Declares names with types, as long as there are both.
def declareAll (n : Names) (names : List String) (types : List (Option Ty)) : Names :=
  (names.zip types).foldl (fun n (x, ty) => n.declare x ty) n

-- The parameter types of a callee for so many arguments.
def paramHints (n : Names) (callee : Expr) (count : Nat) : List (Option Ty) :=
  match n.calleeType callee with
  | some t =>
      let hints := t.params.map some
      match t.variadic, hints.getLast? with
      | true, some last => hints ++ List.replicate (count - hints.length) last
      | _, _ => hints
  | none => []

def isAddressable (n : Names) (e : Expr) : Bool :=
  match e with
  | .ident _ x => (n.local? x).isSome || n.package.isGlobal x
  | .select _ b _ => !n.isImport b
  | .index _ b _ =>
      match (n.staticType b).map n.resolve with
      | some (.slice _) | some (.array _ _) => true
      | _ => false
  | .unary _ .deref _ => true
  | _ => false

-- Whether a selection starts from the address of its base, so that a method with a pointer
-- receiver gets the variable itself.
def wantsAddress (n : Names) (base : Expr) (field : String) : Bool :=
  n.isAddressable base &&
    match n.staticType base with
    | some (.pointer _) => false
    | some (.named t) =>
        n.package.pointerMethods.contains (t, field) ||
          ((n.package.methods.lookup (t, field)).isNone && n.package.hasPointerMethod field)
    | _ => n.package.hasPointerMethod field

-- What a range loop runs over, and the types of its two variables.
def rangeShape (n : Names) (ty : Option Ty) : RangeKind × Option Ty × Option Ty :=
  match ty with
  | none => (.dynamic, none, none)
  | some ty =>
      let resolved := match n.resolve ty with
        | .pointer inner => n.resolve inner
        | t => t
      match resolved with
      | .slice e | .array _ e => (.indexed, some .plainInt, some e)
      | .string => (.str, some .plainInt, some (.int .int32))
      | .map k v => (.map, some k, some v)
      | .int _ => (.int, some ty, none)
      | .chan e => (.chan, some e, none)
      | _ => (.dynamic, none, none)

end Names

-- The static type of what a package variable starts with, from the tree alone.
def initializerType (e : Expr) : Option Ty :=
  e.ty <|> match e with
    | .lit _ v => some v.ty
    | .composite _ ty _ => ty
    | .convert _ ty _ | .assert _ _ ty => some ty
    | _ => none

end StepGraph

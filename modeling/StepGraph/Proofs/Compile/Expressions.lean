import StepGraph.Proofs.Compile.Rules

namespace StepGraph

-- What an expression leaves on the stack where it is wanted so.
def Want.layout : Want → Arity → List Item
  | .discard, _ => []
  | .value _, _ | .address _, _ => [.one]
  | .values, arity => arity.items

namespace Build

variable {α : Type} {types : TypeTable} {items : List Item}

-- An expression leaves what is wanted of it on top of the operands, and takes none of them.
def Compiles (e : Expr) : Prop :=
  ∀ want types items, Operates types items (compile e want) fun a => want.layout a ++ items

theorem Compiles.value {e : Expr} (h : Compiles e) (hint : Option Ty) :
    Operates types items (discard (compile e (.value hint))) fun _ => .one :: items :=
  .discard (h (.value hint) types items)

theorem Compiles.address {e : Expr} (h : Compiles e) (span : Span) :
    Operates types items (discard (compile e (.address span))) fun _ => .one :: items :=
  .discard (h (.address span) types items)

theorem replicate_append_one (n : Nat) (items : List Item) :
    List.replicate n Item.one ++ .one :: items = List.replicate (n + 1) .one ++ items := by
  rw [List.replicate_succ', List.append_assoc]
  rfl

theorem operates_settle (want : Want) (span : Span) :
    Operates types (.one :: items) (settle want span) fun a => want.layout a ++ items := by
  cases want with
  | value _ | values => exact .pure _ rfl
  | discard | address _ => exact .bind (.emit' items (fun _ => rfl) rfl rfl) fun _ => .pure _ rfl

theorem operates_settleCall (want : Want) :
    Operates types (want.results.items ++ items) (settleCall want) fun a =>
      want.layout a ++ items := by
  cases want with
  | value _ | values | discard => exact .pure _ rfl
  | address _ => exact .bind (.emit' items (fun _ => rfl) rfl rfl) fun _ => .pure _ rfl

theorem operates_countOperands (count : Nat) (span : Span) :
    Operates types (List.replicate count .one ++ items) (countOperands count span) fun a =>
      a.items ++ items := by
  unfold countOperands
  split
  · exact .pure _ rfl
  · exact .unsupported _ _

theorem operates_names : Operates types items names fun _ => items :=
  .get fun _ => .pure _ rfl

theorem operates_builtinType (b : Builtin) (args : List Expr) (span : Span) :
    Operates types items (builtinType b args span) fun _ => items := by
  refine .bind operates_names fun n => ?_
  split
  · split
    · exact .unsupported _ _
    · split
      · exact .pure _ rfl
      · exact .unsupported _ _
  · split <;> exact .pure _ rfl

theorem operates_emitConstant (v : Value) (hint : Option Ty) (span : Span) :
    Operates types items (emitConstant v hint span) fun _ => .one :: items := by
  refine .bind operates_names fun _ => ?_
  exact .emit' items (fun _ => rfl) rfl rfl

theorem operates_emitName (name : String) (hint : Option Ty) (span : Span) :
    Operates types items (emitName name hint span) fun _ => .one :: items := by
  refine .get fun b => ?_
  have hload : Operates types items (emit' (.load name) span) fun _ => .one :: items :=
    .emit' items (fun _ => rfl) rfl rfl
  split
  · exact hload
  · split
    · exact operates_emitConstant _ hint span
    · exact hload

section lists

variable {es : List Expr} (hes : ∀ e ∈ es, Compiles e)

include hes

theorem operates_compileEach (hints : List (Option Ty)) :
    Operates types items (compileEach es hints) fun _ => List.replicate es.length .one ++ items := by
  induction es generalizing items hints with
  | nil =>
      unfold compileEach
      exact .pure _ rfl
  | cons e rest ih =>
      unfold compileEach
      refine .bind ((hes e List.mem_cons_self).value _) fun _ => ?_
      rw [List.length_cons, ← replicate_append_one]
      exact ih (fun e he => hes e (List.mem_cons_of_mem _ he)) hints.tail

theorem operates_operands {e : Expr} (he : Compiles e) (hint : Option Ty)
    (hints : List (Option Ty)) :
    Operates types items (do
      discard (compile e (.value hint))
      compileEach es hints
      countOperands (es.length + 1) e.span) fun a => a.items ++ items := by
  refine .bind (he.value hint) fun _ => .bind (operates_compileEach hes hints) fun _ => ?_
  rw [replicate_append_one]
  exact operates_countOperands _ _

theorem operates_compileArgs (hints : List (Option Ty)) (spread : Bool) :
    Operates types items (compileArgs es hints spread) fun a => a.items ++ items := by
  cases es with
  | nil =>
      unfold compileArgs
      exact .pure _ rfl
  | cons e rest =>
      unfold compileArgs
      split
      · exact hes e List.mem_cons_self .values types items
      · exact operates_operands (fun e he => hes e (List.mem_cons_of_mem _ he))
          (hes e List.mem_cons_self) _ _

theorem operates_compileRest (hints : List (Option Ty)) (spread : Bool) :
    Operates types items (compileRest es hints spread) fun a => a.items ++ items := by
  cases es with
  | nil =>
      unfold compileRest
      exact .pure _ rfl
  | cons e rest =>
      unfold compileRest
      exact operates_compileArgs (fun e he => hes e (List.mem_cons_of_mem _ he)) hints spread

theorem operates_compileValues (want : Nat) (hints : List (Option Ty)) :
    Operates types items (compileValues es want hints) fun a => a.items ++ items := by
  cases es with
  | nil =>
      unfold compileValues
      exact .pure _ rfl
  | cons e rest =>
      unfold compileValues
      split
      · exact hes e List.mem_cons_self .values types items
      · exact operates_operands (fun e he => hes e (List.mem_cons_of_mem _ he))
          (hes e List.mem_cons_self) _ _

end lists

theorem operates_compileBound {e : Option Expr} (h : ∀ x ∈ e, Compiles x) :
    Operates types items (compileBound e) fun _ =>
      List.replicate e.isSome.toNat .one ++ items := by
  unfold compileBound
  cases e with
  | some e => exact (h e rfl).value _
  | none => exact .pure _ rfl

section elements

-- The expressions that an element is made of.
def CompilesElement : Element → Prop
  | .plain v | .field _ v => Compiles v
  | .keyed k v => Compiles k ∧ Compiles v

variable {elems : List Element} (helems : ∀ x ∈ elems, CompilesElement x)

include helems

theorem operates_compileFields (fields : List Field) :
    Operates types items (compileFields fields elems) fun _ =>
      List.replicate (elems.filterMap Element.fieldName?).length .one ++ items := by
  induction elems generalizing items with
  | nil =>
      unfold compileFields
      exact .pure _ rfl
  | cons x rest ih =>
      have ih := fun {items} => @ih items fun x hx => helems x (List.mem_cons_of_mem _ hx)
      have hx := helems x List.mem_cons_self
      cases x with
      | plain v | keyed k v =>
          unfold compileFields
          exact ih
      | field name v =>
          unfold compileFields
          refine .bind (hx.value _) fun _ => ?_
          change Operates _ _ _ fun _ => List.replicate (_ + 1) _ ++ _
          rw [← replicate_append_one]
          exact ih

-- Only as many values are built as the type has fields.
theorem operates_compilePositional (fields : List Field) :
    Operates types items (compilePositional fields elems) fun _ =>
      List.replicate (min fields.length elems.length) .one ++ items := by
  induction elems generalizing items fields with
  | nil =>
      unfold compilePositional
      rw [List.length_nil, Nat.min_zero]
      cases fields <;> exact .pure _ rfl
  | cons x rest ih =>
      have hx := helems x List.mem_cons_self
      cases fields with
      | nil =>
          unfold compilePositional
          rw [List.length_nil, Nat.zero_min]
          exact .pure _ rfl
      | cons f fields =>
          have hrest : ∀ {v : Expr}, Compiles v → Operates types items (do
              discard (compile v (.value (some f.ty)))
              compilePositional fields rest) fun _ =>
                List.replicate (min (f :: fields).length (x :: rest).length) .one ++ items := by
            intro v hv
            rw [List.length_cons, List.length_cons, Nat.add_min_add_right, ← replicate_append_one]
            exact .bind (hv.value _) fun _ => ih (fun x hx => helems x (List.mem_cons_of_mem _ hx)) fields
          cases x with
          | plain v | field name v =>
              unfold compilePositional
              exact hrest hx
          | keyed k v =>
              unfold compilePositional
              exact hrest hx.2

theorem operates_compileSequence (elem : Ty) (span : Span) :
    Operates types items (compileSequence elem span elems) fun _ =>
      List.replicate (Shape.sequence (elems.map isKeyed)).operands .one ++ items := by
  induction elems generalizing items with
  | nil =>
      unfold compileSequence
      exact .pure _ rfl
  | cons x rest ih =>
      have ih := fun {items} => @ih items fun x hx => helems x (List.mem_cons_of_mem _ hx)
      have hx := helems x List.mem_cons_self
      cases x with
      | plain v =>
          have hcount : (Shape.sequence ((Element.plain v :: rest).map isKeyed)).operands =
              (Shape.sequence (rest.map isKeyed)).operands + 1 := by
            simp only [Shape.operands, List.map_cons, isKeyed, List.length_cons, List.count_cons]
            simp only [List.length_map, beq_iff_eq, Bool.false_eq_true, if_false]
            omega
          unfold compileSequence
          refine .bind (hx.value _) fun _ => ?_
          rw [hcount, ← replicate_append_one]
          exact ih
      | keyed k v =>
          have hcount : (Shape.sequence ((Element.keyed k v :: rest).map isKeyed)).operands =
              (Shape.sequence (rest.map isKeyed)).operands + 1 + 1 := by
            simp only [Shape.operands, List.map_cons, isKeyed, List.length_cons, List.count_cons]
            simp only [List.length_map, beq_self_eq_true, if_true]
            omega
          unfold compileSequence
          refine .bind (hx.1.value _) fun _ => .bind (hx.2.value _) fun _ => ?_
          rw [hcount, ← replicate_append_one, ← replicate_append_one]
          exact ih
      | field name v =>
          unfold compileSequence
          exact .unsupported _ _

theorem operates_compileEntries (key value : Ty) (span : Span) :
    Operates types items (compileEntries key value span elems) fun _ =>
      List.replicate (Shape.map elems.length).operands .one ++ items := by
  induction elems generalizing items with
  | nil =>
      unfold compileEntries
      exact .pure _ rfl
  | cons x rest ih =>
      have hrest : Operates types (.one :: .one :: items) (compileEntries key value span rest)
          fun _ => List.replicate (Shape.map (x :: rest).length).operands .one ++ items := by
        have hcount : (Shape.map (x :: rest).length).operands =
            (Shape.map rest.length).operands + 1 + 1 := Nat.mul_add_one 2 rest.length
        rw [hcount, ← replicate_append_one, ← replicate_append_one]
        exact ih fun x hx => helems x (List.mem_cons_of_mem _ hx)
      have hx := helems x List.mem_cons_self
      cases x with
      | plain v =>
          unfold compileEntries
          exact .unsupported _ _
      | keyed k v =>
          unfold compileEntries
          exact .bind (hx.1.value _) fun _ => .bind (hx.2.value _) fun _ => hrest
      | field name v =>
          unfold compileEntries
          exact .bind (operates_emitName _ _ _) fun _ => .bind (hx.value _) fun _ => hrest

end elements

theorem compiles_lit (note : Note) (v : Literal) : Compiles (.lit note v) := by
  intro want types items
  unfold compile
  exact .bind (operates_emitConstant _ _ _) fun _ => operates_settle want _

theorem compiles_ident (note : Note) (x : String) : Compiles (.ident note x) := by
  intro want types items
  unfold compile
  cases want with
  | address s => exact .bind (.emit' items (fun _ => rfl) rfl rfl) fun _ => .pure _ rfl
  | value _ | values | discard =>
      exact .bind (operates_emitName _ _ _) fun _ => operates_settle _ _

theorem compiles_binary {l r : Expr} (hl : Compiles l) (hr : Compiles r) (note : Note)
    (op : BinaryOp) : Compiles (.binary note op l r) := by
  intro want types items
  unfold compile
  split
  · refine .bind (hl.value none) fun _ => ?_
    exact operates_shortCircuit (f := fun _ => settle want note.span) _ _ (hr.value none)
      (operates_settle want _)
  · refine .bind operates_names fun n => .bind (hl.value _) fun _ => .bind (hr.value _) fun _ => ?_
    exact .bind (.emit' items (fun _ => rfl) rfl rfl) fun _ => operates_settle want _

theorem compiles_unary {x : Expr} (hx : Compiles x) (note : Note) (op : UnaryOp) :
    Compiles (.unary note op x) := by
  intro want types items
  have hplain : ∀ op : UnaryOp, Operates types items (do
      discard (compile x (.value want.hint))
      emit' (.unary op) note.span
      settle want note.span) fun a => want.layout a ++ items := fun op =>
    .bind (hx.value _) fun _ =>
      .bind (.emit' items (fun _ => rfl) rfl rfl) fun _ => operates_settle want _
  unfold compile
  split
  · exact .bind (hx.address _) fun _ => operates_settle want _
  · refine .bind (hx.value none) fun _ => ?_
    cases want with
    | address s => exact .pure _ rfl
    | value _ | values | discard =>
        exact .bind (.emit' items (fun _ => rfl) rfl rfl) fun _ => operates_settle _ _
  · refine .bind (hx.value none) fun _ => ?_
    cases want with
    | values => exact .bind (.emit' items (fun _ => rfl) rfl rfl) fun _ => .pure _ rfl
    | value _ | address _ | discard =>
        exact .bind (.emit' items (fun _ => rfl) rfl rfl) fun _ => operates_settle _ _
  · split
    · split
      · exact .bind (operates_emitConstant _ _ _) fun _ => operates_settle want _
      · exact hplain _
    · exact hplain _

theorem compiles_call {f : Expr} {args : List Expr} (hf : Compiles f)
    (hargs : ∀ e ∈ args, Compiles e) (note : Note) (spread : Bool) :
    Compiles (.call note f args spread) := by
  intro want types items
  unfold compile
  refine .bind operates_names fun n => ?_
  dsimp only
  split
  · next b _ =>
      have hcall : ∀ ty arity, Operates types (arity.items ++ items) (do
          emit' (.callBuiltin b ty arity spread want.results) note.span
          settleCall want) fun a => want.layout a ++ items := fun ty arity =>
        .bind (.emit' items (fun _ => rfl) rfl rfl) fun _ => operates_settleCall want
      refine .bind (operates_builtinType _ _ _) fun ty => ?_
      split
      · exact .bind (operates_compileRest hargs _ _) fun arity => hcall ty arity
      · exact .bind (operates_compileArgs hargs _ _) fun arity => hcall ty arity
  · split
    · next arg =>
        refine .bind ((hargs arg List.mem_cons_self).value _) fun _ => ?_
        exact .bind (.emit' items (fun _ => rfl) rfl rfl) fun _ => operates_settle want _
    · exact .unsupported _ _
  · refine .bind (operates_compileArgs hargs _ _) fun arity => .bind (hf.value none) fun _ => ?_
    exact .bind (.emit' items (fun _ => rfl) rfl rfl) fun _ => operates_settleCall want

theorem compiles_index {e k : Expr} (he : Compiles e) (hk : Compiles k) (note : Note) :
    Compiles (.index note e k) := by
  intro want types items
  have hplain : ∀ want : Want, ∀ elem, Operates types items (do
      discard (compile e (.value none))
      let n ← names
      discard (compile k (.value (n.keyHint e)))
      emit' (.index false elem) note.span
      settle want note.span) fun a => want.layout a ++ items := fun want elem =>
    .bind (he.value none) fun _ => .bind operates_names fun n => .bind (hk.value _) fun _ =>
      .bind (.emit' items (fun _ => rfl) rfl rfl) fun _ => operates_settle want _
  unfold compile
  cases want with
  | address s =>
      refine .bind (he.value none) fun _ => .bind (hk.value _) fun _ => ?_
      exact .bind (.emit' items (fun _ => rfl) rfl rfl) fun _ => .pure _ rfl
  | values =>
      refine .bind operates_names fun _ => .bind (he.value none) fun _ => ?_
      refine .bind operates_names fun _ => .bind (hk.value _) fun _ => ?_
      exact .bind (.emit' items (fun _ => rfl) rfl rfl) fun _ => .pure _ rfl
  | value _ | discard => exact .bind operates_names fun n => hplain _ _

theorem compiles_slice {e : Expr} {low high max : Option Expr} (he : Compiles e)
    (hlow : ∀ x ∈ low, Compiles x) (hhigh : ∀ x ∈ high, Compiles x) (hmax : ∀ x ∈ max, Compiles x)
    (note : Note) : Compiles (.slice note e low high max) := by
  intro want types items
  unfold compile
  refine .bind (he.value none) fun _ => .bind (operates_compileBound hlow) fun _ => ?_
  refine .bind (operates_compileBound hhigh) fun _ => .bind (operates_compileBound hmax) fun _ => ?_
  refine .bind (.emit' items (fun _ => ?_) rfl rfl) fun _ => operates_settle want _
  simp only [StepOp.needs, ← List.replicate_append_replicate, List.append_assoc]
  rfl

theorem compiles_select {e : Expr} (he : Compiles e) (note : Note) (field : String) :
    Compiles (.select note e field) := by
  intro want types items
  have hrest : Operates types (.one :: items) (do
      emit' (.select field) note.span
      settle want note.span) fun a => want.layout a ++ items :=
    .bind (.emit' items (fun _ => rfl) rfl rfl) fun _ => operates_settle want _
  unfold compile
  refine .bind operates_names fun n => ?_
  dsimp only
  split
  · refine .bind (he.value none) fun _ => ?_
    exact .bind (.emit' items (fun _ => rfl) rfl rfl) fun _ => .pure _ rfl
  · split
    · exact .bind (he.address _) fun _ => hrest
    · exact .bind (he.value none) fun _ => hrest

theorem compiles_composite {elems : List Element} (helems : ∀ x ∈ elems, CompilesElement x)
    (note : Note) (ty : Option Ty) : Compiles (.composite note ty elems) := by
  intro want types items
  unfold compile
  split
  · exact .unsupported _ _
  · refine .names fun n _ => ?_
    have hrest : ∀ (ty : Ty) (pointers : Nat) (shape : Shape) (items' : List Item),
        ((StepOp.compose ty shape).LiteralFits n.types →
          items' = List.replicate shape.operands .one ++ items) →
        Operates n.types items' (do
          emit' (.compose ty shape) note.span
          (List.replicate pointers ()).forM fun _ => emit' (.addressOf .value) note.span
          settle want note.span) fun a => want.layout a ++ items := by
      intro ty pointers shape items' hneeds
      refine .bind (.emit' items hneeds rfl rfl) fun _ => .bind ?_ fun _ => operates_settle want _
      exact .forM fun _ => .emit' items (fun _ => rfl) rfl rfl
    dsimp only
    split
    · next fields hty =>
        split
        · exact .bind (operates_compileFields helems _) fun _ => hrest _ _ _ _ fun _ => rfl
        · refine .bind (operates_compilePositional helems _) fun _ => hrest _ _ _ _ fun hfits => ?_
          rw [Nat.min_eq_right (hfits _ _ _ rfl hty)]
          rfl
    · exact .bind (operates_compileSequence helems _ _) fun _ => hrest _ _ _ _ fun _ => rfl
    · exact .bind (operates_compileSequence helems _ _) fun _ => hrest _ _ _ _ fun _ => rfl
    · exact .bind (operates_compileEntries helems _ _ _) fun _ => hrest _ _ _ _ fun _ => rfl
    · exact .unsupported _ _

theorem compiles_funcLit {sig : Signature} {body : List Stmt} (h : Performs .start
    (compileStmts body) (fun _ => .start) (marksOf body 0) (startsOfAll body)) (note : Note) :
    Compiles (.funcLit note sig body) := by
  intro want types items
  unfold compile
  refine .bind (operates_nested sig h) fun code => ?_
  exact .bind (.emit' items (fun _ => rfl) rfl rfl) fun _ => operates_settle want _

theorem compiles_assert {e : Expr} (he : Compiles e) (note : Note) (ty : Ty) :
    Compiles (.assert note e ty) := by
  intro want types items
  unfold compile
  refine .bind (he.value none) fun _ => ?_
  cases want with
  | values => exact .bind (.emit' items (fun _ => rfl) rfl rfl) fun _ => .pure _ rfl
  | value _ | address _ | discard =>
      exact .bind (.emit' items (fun _ => rfl) rfl rfl) fun _ => operates_settle _ _

theorem compiles_convert {e : Expr} (he : Compiles e) (note : Note) (ty : Ty) :
    Compiles (.convert note ty e) := by
  intro want types items
  unfold compile
  refine .bind (he.value _) fun _ => ?_
  exact .bind (.emit' items (fun _ => rfl) rfl rfl) fun _ => operates_settle want _

theorem compiles_typeExpr (note : Note) (ty : Ty) : Compiles (.typeExpr note ty) := by
  intro want types items
  rw [compile_typeExpr]
  exact .unsupported _ _

end Build

end StepGraph

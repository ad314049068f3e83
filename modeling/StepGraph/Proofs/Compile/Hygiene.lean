import StepGraph.Proofs.Compile.Temporaries


open EStateM (bind_eq_ok discard_eq_ok)

namespace StepGraph

open Names (isTemp)

def Signature.isVisible (sig : Signature) : Bool :=
  (sig.params ++ sig.results).all fun p => p.name.all (!isTemp ·)

mutual

-- Whether a program has a name of its own for everything that an expression names.
def Expr.isVisible : Expr → Bool
  | .lit .. | .typeExpr .. => true
  | .ident _ x => !isTemp x
  | .binary _ _ l r => l.isVisible && r.isVisible
  | .unary _ _ x => x.isVisible
  | .call _ f args _ => f.isVisible && exprsVisible args
  | .index _ b k => b.isVisible && k.isVisible
  | .slice _ b low high max =>
      b.isVisible && (optionVisible low && (optionVisible high && optionVisible max))
  | .select _ b field => b.isVisible && !isTemp field
  | .composite _ _ elems => elementsVisible elems
  | .funcLit _ sig body => sig.isVisible && stmtsVisible body
  | .assert _ b _ => b.isVisible
  | .convert _ _ x => x.isVisible

def Element.isVisible : Element → Bool
  | .plain v => v.isVisible
  | .field x v => !isTemp x && v.isVisible
  | .keyed k v => k.isVisible && v.isVisible

def Stmt.isVisible : Stmt → Bool
  | .expr _ e | .defer _ e | .go _ e => e.isVisible
  | .define _ names values => names.all (!isTemp ·) && exprsVisible values
  | .var _ ⟨names, _, values⟩ => names.all (!isTemp ·) && exprsVisible values
  | .const _ specs => specsVisible specs
  | .typeDecl _ x _ => !isTemp x
  | .assign _ targets values => exprsVisible targets && exprsVisible values
  | .opAssign _ _ target value => target.isVisible && value.isVisible
  | .incDec _ target _ => target.isVisible
  | .send _ chan value => chan.isVisible && value.isVisible
  | .block _ body => stmtsVisible body
  | .cond _ init test yes no =>
      stmtVisible init && (test.isVisible && (stmtsVisible yes && stmtVisible no))
  | .loop _ init test post body =>
      stmtVisible init && (optionVisible test && (stmtVisible post && stmtsVisible body))
  | .range _ key value _ subject body =>
      optionVisible key && (optionVisible value && (subject.isVisible && stmtsVisible body))
  | .switch _ init tag clauses => stmtVisible init && (optionVisible tag && clausesVisible clauses)
  | .typeSwitch _ init binding subject clauses =>
      stmtVisible init && (binding.all (!isTemp ·) &&
        (subject.isVisible && typeClausesVisible clauses))
  | .labeled _ _ body => body.isVisible
  | .ret _ values => exprsVisible values
  | .empty _ | .brk .. | .cont .. | .goto .. | .fallthrough _ => true

def exprsVisible : List Expr → Bool
  | [] => true
  | e :: rest => e.isVisible && exprsVisible rest

def optionVisible : Option Expr → Bool
  | some e => e.isVisible
  | none => true

def elementsVisible : List Element → Bool
  | [] => true
  | x :: rest => x.isVisible && elementsVisible rest

def stmtsVisible : List Stmt → Bool
  | [] => true
  | s :: rest => s.isVisible && stmtsVisible rest

def stmtVisible : Option Stmt → Bool
  | some s => s.isVisible
  | none => true

def specsVisible : List ConstSpec → Bool
  | [] => true
  | ⟨names, _, values⟩ :: rest =>
      names.all (!isTemp ·) && exprsVisible values && specsVisible rest

def clausesVisible : List Clause → Bool
  | [] => true
  | ⟨values, _, body⟩ :: rest => exprsVisible values && stmtsVisible body && clausesVisible rest

def typeClausesVisible : List TypeClause → Bool
  | [] => true
  | ⟨_, _, body⟩ :: rest => stmtsVisible body && typeClausesVisible rest

end

-- No name in a declaration is one that a builder might make up.
def Origin.isVisible : Origin → Bool
  | func d => d.recv.all (fun recv => recv.name.all (!isTemp ·)) && d.sig.isVisible &&
      stmtsVisible d.body
  | literal sig body => sig.isVisible && stmtsVisible body
  | var spec => spec.names.all (!isTemp ·) && exprsVisible spec.values
  | const line _ => line.names.all (!isTemp ·) && exprsVisible line.values

namespace Build

variable {calm : Prop} {around : List String}

-- What an expression is compiled to may stand among the steps of a deferred call.
def ExprKeepsScope (e : Expr) : Prop :=
  ∀ (calm : Prop) (around : List String) (want : Want), KeepsScope calm around (compile e want)

theorem ExprKeepsScope.value {e : Expr} (h : ExprKeepsScope e) (hint : Option Ty) :
    KeepsScope calm around (discard (compile e (.value hint))) := (h calm around _).discard

theorem ExprKeepsScope.address {e : Expr} (h : ExprKeepsScope e) (span : Span) :
    KeepsScope calm around (discard (compile e (.address span))) := (h calm around _).discard

theorem keepsScope_settle (want : Want) (span : Span) :
    KeepsScope calm around (settle want span) := by
  cases want with
  | value _ | values => exact .pure _
  | discard | address _ => exact .bind (.operation rfl rfl rfl _) fun _ => .pure _

theorem keepsScope_settleCall (want : Want) : KeepsScope calm around (settleCall want) := by
  cases want with
  | value _ | values | discard => exact .pure _
  | address _ => exact .bind (.operation rfl rfl rfl _) fun _ => .pure _

theorem keepsScope_countOperands (count : Nat) (span : Span) :
    KeepsScope calm around (countOperands count span) := by
  unfold countOperands
  split
  · exact .pure _
  · exact .unsupported _ _

theorem keepsScope_builtinType (b : Builtin) (args : List Expr) (span : Span) :
    KeepsScope calm around (builtinType b args span) := by
  refine .names fun n => ?_
  split
  · split
    · exact .unsupported _ _
    · split
      · exact .pure _
      · exact .unsupported _ _
  · split <;> exact .pure _

theorem keepsScope_emitConstant (v : Value) (hint : Option Ty) (span : Span) :
    KeepsScope calm around (emitConstant v hint span) := .names fun _ => .operation rfl rfl rfl _

theorem isCalm_load {x : String} (hx : isTemp x = false) : (StepOp.load x).isCalm = true := by
  simp [StepOp.isCalm, StepOp.isVisible, StepOp.isDiscreet, StepOp.bindings, StepOp.reads,
    StepOp.isOperation, hx]

theorem keepsScope_load {x : String} (hx : isTemp x = false) (span : Span) :
    KeepsScope calm around (emit' (.load x) span) := .operation (isCalm_load hx) rfl rfl _

theorem keepsScope_emitName {x : String} (hx : isTemp x = false) (hint : Option Ty) (span : Span) :
    KeepsScope calm around (emitName x hint span) := by
  refine .get fun b _ => ?_
  split
  · exact keepsScope_load hx span
  · split
    · exact keepsScope_emitConstant _ hint span
    · exact keepsScope_load hx span

section lists

variable {es : List Expr} (hes : ∀ e ∈ es, ExprKeepsScope e)

include hes

theorem keepsScope_compileEach (hints : List (Option Ty)) :
    KeepsScope calm around (compileEach es hints) := by
  induction es generalizing hints with
  | nil =>
      unfold compileEach
      exact .pure _
  | cons e rest ih =>
      obtain ⟨he, hrest⟩ := List.forall_mem_cons.mp hes
      unfold compileEach
      exact .bind (he.value _) fun _ => ih hrest _

theorem keepsScope_operands {e : Expr} (he : ExprKeepsScope e) (hint : Option Ty)
    (hints : List (Option Ty)) :
    KeepsScope calm around (do
      discard (compile e (.value hint))
      compileEach es hints
      countOperands (es.length + 1) e.span) :=
  .bind (he.value hint) fun _ => .bind (keepsScope_compileEach hes hints) fun _ =>
    keepsScope_countOperands _ _

theorem keepsScope_compileArgs (hints : List (Option Ty)) (spread : Bool) :
    KeepsScope calm around (compileArgs es hints spread) := by
  cases es with
  | nil =>
      unfold compileArgs
      exact .pure _
  | cons e rest =>
      obtain ⟨he, hrest⟩ := List.forall_mem_cons.mp hes
      unfold compileArgs
      split
      · exact he calm around .values
      · exact keepsScope_operands hrest he _ _

theorem keepsScope_compileRest (hints : List (Option Ty)) (spread : Bool) :
    KeepsScope calm around (compileRest es hints spread) := by
  cases es with
  | nil =>
      unfold compileRest
      exact .pure _
  | cons e rest =>
      unfold compileRest
      exact keepsScope_compileArgs (List.forall_mem_cons.mp hes).2 hints spread

theorem keepsScope_compileValues (want : Nat) (hints : List (Option Ty)) :
    KeepsScope calm around (compileValues es want hints) := by
  cases es with
  | nil =>
      unfold compileValues
      exact .pure _
  | cons e rest =>
      obtain ⟨he, hrest⟩ := List.forall_mem_cons.mp hes
      unfold compileValues
      split
      · exact he calm around .values
      · exact keepsScope_operands hrest he _ _

end lists

theorem keepsScope_compileBound {e : Option Expr} (h : ∀ x ∈ e, ExprKeepsScope x) :
    KeepsScope calm around (compileBound e) := by
  unfold compileBound
  cases e with
  | some e => exact (h e rfl).value _
  | none => exact .pure _

section elements

-- The expressions that an element is made of, and its name where it stands for one.
def ElementKeepsScope : Element → Prop
  | .plain v => ExprKeepsScope v
  | .field x v => isTemp x = false ∧ ExprKeepsScope v
  | .keyed k v => ExprKeepsScope k ∧ ExprKeepsScope v

theorem ElementKeepsScope.value {x : Element} (h : ElementKeepsScope x) :
    ExprKeepsScope x.value := by
  cases x with
  | plain v => exact h
  | field name v | keyed k v => exact h.2

variable {elems : List Element} (helems : ∀ x ∈ elems, ElementKeepsScope x)

include helems

theorem keepsScope_compileFields (fields : List Field) :
    KeepsScope calm around (compileFields fields elems) := by
  induction elems with
  | nil =>
      unfold compileFields
      exact .pure _
  | cons x rest ih =>
      obtain ⟨hx, hrest⟩ := List.forall_mem_cons.mp helems
      cases x with
      | plain v | keyed k v =>
          unfold compileFields
          exact ih hrest
      | field name v =>
          unfold compileFields
          exact .bind (hx.2.value _) fun _ => ih hrest

theorem keepsScope_compilePositional (fields : List Field) :
    KeepsScope calm around (compilePositional fields elems) := by
  induction elems generalizing fields with
  | nil =>
      unfold compilePositional
      cases fields <;> exact .pure _
  | cons x rest ih =>
      obtain ⟨hx, hrest⟩ := List.forall_mem_cons.mp helems
      have hvalue := hx.value
      cases fields with
      | nil =>
          unfold compilePositional
          exact .pure _
      | cons f fields =>
          cases x <;>
            · unfold compilePositional
              exact .bind (hvalue.value _) fun _ => ih hrest fields

theorem keepsScope_compileSequence (elem : Ty) (span : Span) :
    KeepsScope calm around (compileSequence elem span elems) := by
  induction elems with
  | nil =>
      unfold compileSequence
      exact .pure _
  | cons x rest ih =>
      obtain ⟨hx, hrest⟩ := List.forall_mem_cons.mp helems
      cases x with
      | plain v =>
          unfold compileSequence
          exact .bind (ExprKeepsScope.value hx _) fun _ => ih hrest
      | keyed k v =>
          unfold compileSequence
          exact .bind (hx.1.value _) fun _ => .bind (hx.2.value _) fun _ => ih hrest
      | field name v =>
          unfold compileSequence
          exact .unsupported _ _

theorem keepsScope_compileEntries (key value : Ty) (span : Span) :
    KeepsScope calm around (compileEntries key value span elems) := by
  induction elems with
  | nil =>
      unfold compileEntries
      exact .pure _
  | cons x rest ih =>
      obtain ⟨hx, hrest⟩ := List.forall_mem_cons.mp helems
      cases x with
      | plain v =>
          unfold compileEntries
          exact .unsupported _ _
      | keyed k v =>
          unfold compileEntries
          exact .bind (hx.1.value _) fun _ => .bind (hx.2.value _) fun _ => ih hrest
      | field name v =>
          unfold compileEntries
          exact .bind (keepsScope_emitName hx.1 _ _) fun _ => .bind (hx.2.value _) fun _ => ih hrest

end elements

-- A function literal is built apart.
theorem keepsScope_nested (sig : Signature) (body : Build Unit) :
    KeepsScope calm around (nested sig body) := by
  intro b ref b' hb h
  obtain ⟨_, b₁, h₁, h⟩ := bind_eq_ok.mp h
  cases h₁
  obtain ⟨_, b₂, h₂, h⟩ := bind_eq_ok.mp h
  cases h₂
  obtain ⟨_, b₃, -, h⟩ := bind_eq_ok.mp h
  obtain ⟨_, b₄, -, h⟩ := bind_eq_ok.mp h
  cases h
  exact .moved hb rfl rfl hb.pending rfl rfl rfl (Nat.le_refl _) rfl

section expressions

theorem exprKeepsScope_lit (note : Note) (v : Literal) : ExprKeepsScope (.lit note v) := by
  intro calm around want
  unfold compile
  exact .bind (keepsScope_emitConstant _ _ _) fun _ => keepsScope_settle want _

theorem exprKeepsScope_ident {x : String} (hx : isTemp x = false) (note : Note) :
    ExprKeepsScope (.ident note x) := by
  have hcalm : (StepOp.addressOf (.var x)).isCalm = true := by
    simp [StepOp.isCalm, StepOp.isVisible, StepOp.isDiscreet, StepOp.bindings, StepOp.reads,
      StepOp.isOperation, hx]
  intro calm around want
  unfold compile
  cases want with
  | address s => exact .bind (.operation hcalm rfl rfl _) fun _ => .pure _
  | value _ | values | discard =>
      exact .bind (keepsScope_emitName hx _ _) fun _ => keepsScope_settle _ _

theorem exprKeepsScope_unary {x : Expr} (hx : ExprKeepsScope x) (note : Note) (op : UnaryOp) :
    ExprKeepsScope (.unary note op x) := by
  intro calm around want
  have hplain : ∀ op : UnaryOp, KeepsScope calm around (do
      discard (compile x (.value want.hint))
      emit' (.unary op) note.span
      settle want note.span) := fun op =>
    .bind (hx.value _) fun _ => .bind (.operation rfl rfl rfl _) fun _ => keepsScope_settle want _
  unfold compile
  split
  · exact .bind (hx.address _) fun _ => keepsScope_settle want _
  · refine .bind (hx.value none) fun _ => ?_
    cases want with
    | address s => exact .pure _
    | value _ | values | discard =>
        exact .bind (.operation rfl rfl rfl _) fun _ => keepsScope_settle _ _
  · refine .bind (hx.value none) fun _ => ?_
    cases want with
    | values => exact .bind (.operation rfl rfl rfl _) fun _ => .pure _
    | value _ | address _ | discard =>
        exact .bind (.operation rfl rfl rfl _) fun _ => keepsScope_settle _ _
  · split
    · split
      · exact .bind (keepsScope_emitConstant _ _ _) fun _ => keepsScope_settle want _
      · exact hplain _
    · exact hplain _

theorem exprKeepsScope_call {f : Expr} {args : List Expr} (hf : ExprKeepsScope f)
    (hargs : ∀ e ∈ args, ExprKeepsScope e) (note : Note) (spread : Bool) :
    ExprKeepsScope (.call note f args spread) := by
  intro calm around want
  unfold compile
  refine .names fun n => ?_
  dsimp only
  split
  · next b _ =>
      have hcall : ∀ ty arity, KeepsScope calm around (do
          emit' (.callBuiltin b ty arity spread want.results) note.span
          settleCall want) := fun ty arity =>
        .bind (.operation rfl rfl rfl _) fun _ => keepsScope_settleCall want
      refine .bind (keepsScope_builtinType _ _ _) fun ty => ?_
      split
      · exact .bind (keepsScope_compileRest hargs _ _) fun arity => hcall ty arity
      · exact .bind (keepsScope_compileArgs hargs _ _) fun arity => hcall ty arity
  · split
    · next arg =>
        refine .bind ((hargs arg List.mem_cons_self).value _) fun _ => ?_
        exact .bind (.operation rfl rfl rfl _) fun _ => keepsScope_settle want _
    · exact .unsupported _ _
  · refine .bind (keepsScope_compileArgs hargs _ _) fun arity => .bind (hf.value none) fun _ => ?_
    exact .bind (.operation rfl rfl rfl _) fun _ => keepsScope_settleCall want

theorem exprKeepsScope_index {e k : Expr} (he : ExprKeepsScope e) (hk : ExprKeepsScope k)
    (note : Note) :
    ExprKeepsScope (.index note e k) := by
  intro calm around want
  have hplain : ∀ want : Want, ∀ elem, KeepsScope calm around (do
      discard (compile e (.value none))
      let n ← names
      discard (compile k (.value (n.keyHint e)))
      emit' (.index false elem) note.span
      settle want note.span) := fun want elem =>
    .bind (he.value none) fun _ => .names fun n => .bind (hk.value _) fun _ =>
      .bind (.operation rfl rfl rfl _) fun _ => keepsScope_settle want _
  unfold compile
  cases want with
  | address s =>
      refine .bind (he.value none) fun _ => .bind (hk.value _) fun _ => ?_
      exact .bind (.operation rfl rfl rfl _) fun _ => .pure _
  | values =>
      refine .names fun _ => .bind (he.value none) fun _ => ?_
      refine .names fun _ => .bind (hk.value _) fun _ => ?_
      exact .bind (.operation rfl rfl rfl _) fun _ => .pure _
  | value _ | discard => exact .names fun n => hplain _ _

theorem exprKeepsScope_slice {e : Expr} {low high max : Option Expr} (he : ExprKeepsScope e)
    (hlow : ∀ x ∈ low, ExprKeepsScope x) (hhigh : ∀ x ∈ high, ExprKeepsScope x)
    (hmax : ∀ x ∈ max, ExprKeepsScope x)
    (note : Note) : ExprKeepsScope (.slice note e low high max) := by
  intro calm around want
  unfold compile
  refine .bind (he.value none) fun _ => .bind (keepsScope_compileBound hlow) fun _ => ?_
  refine .bind (keepsScope_compileBound hhigh) fun _ =>
    .bind (keepsScope_compileBound hmax) fun _ => ?_
  exact .bind (.operation rfl rfl rfl _) fun _ => keepsScope_settle want _

theorem exprKeepsScope_select {e : Expr} (he : ExprKeepsScope e) (note : Note) (field : String) :
    ExprKeepsScope (.select note e field) := by
  intro calm around want
  have hrest : KeepsScope calm around (do
      emit' (.select field) note.span
      settle want note.span) := .bind (.operation rfl rfl rfl _) fun _ => keepsScope_settle want _
  unfold compile
  refine .names fun n => ?_
  dsimp only
  split
  · exact .bind (he.value none) fun _ => .bind (.operation rfl rfl rfl _) fun _ => .pure _
  · split
    · exact .bind (he.address _) fun _ => hrest
    · exact .bind (he.value none) fun _ => hrest

theorem exprKeepsScope_composite {elems : List Element} (helems : ∀ x ∈ elems, ElementKeepsScope x)
    (note : Note) (ty : Option Ty) : ExprKeepsScope (.composite note ty elems) := by
  intro calm around want
  unfold compile
  split
  · exact .unsupported _ _
  · refine .names fun n => ?_
    have hrest : ∀ (ty : Ty) (pointers : Nat) (shape : Shape), KeepsScope calm around (do
        emit' (.compose ty shape) note.span
        (List.replicate pointers ()).forM fun _ => emit' (.addressOf .value) note.span
        settle want note.span) := by
      intro ty pointers shape
      refine .bind (.operation rfl rfl rfl _) fun _ => .bind ?_ fun _ => keepsScope_settle want _
      exact .forM fun _ _ => .operation rfl rfl rfl _
    dsimp only
    split
    · split
      · exact .bind (keepsScope_compileFields helems _) fun _ => hrest _ _ _
      · exact .bind (keepsScope_compilePositional helems _) fun _ => hrest _ _ _
    · exact .bind (keepsScope_compileSequence helems _ _) fun _ => hrest _ _ _
    · exact .bind (keepsScope_compileSequence helems _ _) fun _ => hrest _ _ _
    · exact .bind (keepsScope_compileEntries helems _ _ _) fun _ => hrest _ _ _
    · exact .unsupported _ _

theorem exprKeepsScope_funcLit (note : Note) (sig : Signature) (body : List Stmt) :
    ExprKeepsScope (.funcLit note sig body) := by
  intro calm around want
  unfold compile
  refine .bind (keepsScope_nested sig _) fun code => ?_
  exact .bind (.operation rfl rfl rfl _) fun _ => keepsScope_settle want _

theorem exprKeepsScope_assert {e : Expr} (he : ExprKeepsScope e) (note : Note) (ty : Ty) :
    ExprKeepsScope (.assert note e ty) := by
  intro calm around want
  unfold compile
  refine .bind (he.value none) fun _ => ?_
  cases want with
  | values => exact .bind (.operation rfl rfl rfl _) fun _ => .pure _
  | value _ | address _ | discard =>
      exact .bind (.operation rfl rfl rfl _) fun _ => keepsScope_settle _ _

theorem exprKeepsScope_convert {e : Expr} (he : ExprKeepsScope e) (note : Note) (ty : Ty) :
    ExprKeepsScope (.convert note ty e) := by
  intro calm around want
  unfold compile
  exact .bind (he.value _) fun _ => .bind (.operation rfl rfl rfl _) fun _ =>
    keepsScope_settle want _

theorem exprKeepsScope_typeExpr (note : Note) (ty : Ty) : ExprKeepsScope (.typeExpr note ty) := by
  intro calm around want
  rw [compile_typeExpr]
  exact .unsupported _ _

-- The other way of a short circuit leads behind the second operand.
theorem keepsScope_shortCircuit {x : Build Unit} (hx : KeepsScope calm around x) (stop : Bool)
    (span : Span) :
    KeepsScope calm around (do
      let short ← emitFork (.shortCircuit stop none) span
      x
      addPending [short]) := by
  intro b u b' hb h
  obtain ⟨short, b₁, h₁, hrest⟩ := bind_eq_ok.mp h
  obtain ⟨_, b₂, h₂, h₃⟩ := bind_eq_ok.mp hrest
  obtain ⟨id, he, rfl⟩ := emitFork_ok h₁
  have hfork : b.ComesBack calm around b₁ :=
    .emitted hb he rfl rfl (fun _ => rfl) nofun fun _ => rfl
  have hoperand := hx b₁ _ b₂ hfork.grows.tidy h₂
  have hshort : FreshSlot b₁.steps b₁.depth ⟨id, .other⟩ := by
    have hnext := hfork.grows.tidy.pending ⟨id, .next⟩ (he.pending ▸ List.mem_singleton_self _)
    exact ⟨hnext.lt, hnext.floor⟩
  cases h₃
  refine (hfork.trans hoperand).trans (.moved hoperand.grows.tidy rfl rfl (fun slot hslot => ?_) rfl
    rfl rfl (Nat.le_refl _) rfl)
  rcases List.mem_append.mp hslot with hslot | hslot
  · exact hoperand.grows.tidy.pending slot hslot
  · exact List.mem_singleton.mp hslot ▸ hoperand.fresh hshort

theorem exprKeepsScope_binary {l r : Expr} (hl : ExprKeepsScope l) (hr : ExprKeepsScope r)
    (note : Note) (op : BinaryOp) : ExprKeepsScope (.binary note op l r) := by
  intro calm around want
  unfold compile
  split
  · refine .bind (hl.value none) fun _ => ?_
    have hvalue : KeepsScope calm around (discard (compile r (.value none))) := hr.value none
    have hshort := keepsScope_shortCircuit hvalue (op = .logicalOr) note.span
    have hall : KeepsScope calm around ((do
        let short ← emitFork (.shortCircuit (op = .logicalOr) none) note.span
        discard (compile r (.value none))
        addPending [short]) >>= fun _ => settle want note.span) :=
      .bind hshort fun _ => keepsScope_settle want _
    simpa only [bind_assoc] using hall
  · refine .names fun n => .bind (hl.value _) fun _ => .bind (hr.value _) fun _ => ?_
    exact .bind (.operation rfl rfl rfl _) fun _ => keepsScope_settle want _

end expressions

section targets

-- The parts of an expression that is a destination. What it stands for has a name of its own.
def TargetKeepsScope (e : Expr) : Prop :=
  ∀ (calm : Prop) (around : List String), KeepsScope calm around (compileTarget e) ∧
    ∀ b target b', compileTarget e b = .ok target b' → target.isVisible = true

theorem targetKeepsScope_of {e : Expr} {x : Build Unit} (target : Target)
    (he : compileTarget e = x >>= fun _ => pure target)
    (hx : ∀ calm around, KeepsScope calm around x)
    (htarget : target.isVisible = true) : TargetKeepsScope e := by
  intro calm around
  rw [he]
  refine ⟨.bind (hx calm around) fun _ => .pure _, fun b t b' h => ?_⟩
  obtain ⟨_, b₁, -, h₂⟩ := bind_eq_ok.mp h
  cases h₂
  exact htarget

theorem targetKeepsScope_ident {x : String} (hx : isTemp x = false) (note : Note) :
    TargetKeepsScope (.ident note x) := by
  refine targetKeepsScope_of (x := pure ()) (if x = Names.blank then .discard else .var x) ?_
    (fun _ _ => .pure _) ?_
  · unfold compileTarget
    rfl
  · split
    · rfl
    · simp [Target.isVisible, hx]

theorem targetKeepsScope_index {e k : Expr} (he : ExprKeepsScope e) (hk : ExprKeepsScope k)
    (note : Note) :
    TargetKeepsScope (.index note e k) := by
  refine targetKeepsScope_of (x := do
    let hint := (← names).keyHint e
    discard (compile e (.value none))
    discard (compile k (.value hint))) .index ?_ (fun _ _ => ?_) rfl
  · unfold compileTarget
    simp only [bind_assoc]
  · exact .names fun n => .bind (he.value none) fun _ => hk.value _

theorem targetKeepsScope_select {e : Expr} (he : ExprKeepsScope e) (note : Note) {field : String}
    (hfield : isTemp field = false) : TargetKeepsScope (.select note e field) := by
  refine targetKeepsScope_of (x := discard (compile e (.value none))) (.field field) ?_
    (fun _ _ => he.value none) (by simp [Target.isVisible, hfield])
  unfold compileTarget
  rfl

theorem targetKeepsScope_other {e : Expr}
    (he : compileTarget e = fail (.invalidAssignTarget e.span)) :
    TargetKeepsScope e := by
  intro calm around
  rw [he]
  exact ⟨.fail _, nofun⟩

theorem targetKeepsScope_unary {e : Expr} (he : ExprKeepsScope e) (note : Note) (op : UnaryOp) :
    TargetKeepsScope (.unary note op e) := by
  cases op with
  | deref =>
      refine targetKeepsScope_of (x := discard (compile e (.value none))) .deref ?_
        (fun _ _ => he.value none) rfl
      unfold compileTarget
      rfl
  | _ => exact targetKeepsScope_other (by unfold compileTarget; rfl)

theorem keepsScope_compileTargets (calm : Prop) (around : List String) {es : List Expr}
    (hes : ∀ e ∈ es, TargetKeepsScope e) :
    KeepsScope calm around (compileTargets es) ∧
    ∀ b targets b', compileTargets es b = .ok targets b' →
      ∀ t ∈ targets, t.1.isVisible = true := by
  induction es with
  | nil =>
      unfold compileTargets
      refine ⟨.pure _, fun b targets b' h => ?_⟩
      cases h
      exact fun t ht => absurd ht List.not_mem_nil
  | cons e rest ih =>
      obtain ⟨he, hrest⟩ := List.forall_mem_cons.mp hes
      obtain ⟨hcloses, hvisible⟩ := ih hrest
      unfold compileTargets
      refine ⟨.bind (he calm around).1 fun _ => .names fun n => .bind hcloses fun _ => .pure _,
        fun b targets b' h => ?_⟩
      obtain ⟨target, b₁, h₁, h⟩ := bind_eq_ok.mp h
      obtain ⟨_, b₂, h₂, h⟩ := bind_eq_ok.mp h
      cases h₂
      obtain ⟨others, b₃, h₃, h⟩ := bind_eq_ok.mp h
      cases h
      exact List.forall_mem_cons.mpr ⟨(he calm around).2 b target b₁ h₁, hvisible _ others _ h₃⟩

theorem keepsScope_compileRangeTarget (calm : Prop) (around : List String) {e : Option Expr}
    (he : ∀ x ∈ e, TargetKeepsScope x) :
    KeepsScope calm around (compileRangeTarget e) ∧
      ∀ b target b', compileRangeTarget e b = .ok target b' → target.isVisible = true := by
  unfold compileRangeTarget
  cases e with
  | some e => exact he e rfl calm around
  | none =>
      refine ⟨.pure _, fun b target b' h => ?_⟩
      cases h
      rfl

end targets

section simple

variable {values : List Expr} {names : List String} {span : Span}

theorem isVisible_declare (ty : Option Ty) (arity : Arity)
    (hnames : ∀ x ∈ names, isTemp x = false) :
    (StepOp.declare names ty arity).isVisible = true := by
  simpa [StepOp.isVisible, StepOp.isDiscreet, StepOp.bindings, StepOp.reads] using hnames

theorem keepsScope_declare {ty : Option Ty} {arity : Arity}
    (hnames : ∀ x ∈ names, isTemp x = false) :
    KeepsScope False around (emit' (.declare names ty arity) span) :=
  .emit' (isVisible_declare ty arity hnames) rfl rfl nofun span

theorem keepsScope_define (hvalues : ∀ e ∈ values, ExprKeepsScope e)
    (hnames : ∀ x ∈ names, isTemp x = false) (label : Option String) :
    KeepsScope False around (compileStmt (.define span names values) label) := by
  unfold compileStmt
  refine .bind (keepsScope_compileValues hvalues _ _) fun arity => ?_
  exact .bind (keepsScope_declare hnames) fun _ => .modifyNames _

theorem keepsScope_var (hvalues : ∀ e ∈ values, ExprKeepsScope e)
    (hnames : ∀ x ∈ names, isTemp x = false) (ty : Option Ty) (label : Option String) :
    KeepsScope False around (compileStmt (.var span ⟨names, ty, values⟩) label) := by
  unfold compileStmt
  split
  · split
    · exact .unsupported _ _
    · next ty =>
        refine .bind (.emit' ?_ rfl rfl False.elim _) fun _ => .modifyNames _
        simpa [StepOp.isVisible, StepOp.isDiscreet, StepOp.bindings, StepOp.reads] using hnames
  · refine .bind (keepsScope_compileValues hvalues _ _) fun arity => ?_
    exact .bind (keepsScope_declare hnames) fun _ => .modifyNames _

-- What pushes the values of a line of constants.
def LineKeepsScope (line : ConstLine) : Prop :=
  ∀ calm around want hints, KeepsScope calm around (line.push want hints)

theorem keepsScope_setIota (i : Option Nat) :
    KeepsScope calm around (modify fun b => { b with iota := i }) := by
  intro b u b' hb h
  cases h
  exact .moved hb rfl rfl hb.pending rfl rfl rfl (Nat.le_refl _) rfl

theorem keepsScope_compileConsts {specs : List ConstSpec} {previous : Option ConstLine}
    (hspecs : ∀ spec ∈ specs, (∀ x ∈ spec.names, isTemp x = false) ∧
      ∀ e ∈ spec.values, ExprKeepsScope e)
    (hprevious : ∀ l ∈ previous, LineKeepsScope l) (iota : Nat) :
    KeepsScope False around (compileConsts specs iota previous) := by
  induction specs generalizing iota previous with
  | nil =>
      unfold compileConsts
      exact keepsScope_setIota none
  | cons spec rest ih =>
      obtain ⟨xs, ty, values⟩ := spec
      obtain ⟨⟨hnames, hvalues⟩, hrest⟩ := List.forall_mem_cons.mp hspecs
      unfold compileConsts
      dsimp only
      have hline : LineKeepsScope (if values.isEmpty then
          previous.getD ⟨ty, [], fun _ _ => pure (.fixed 0)⟩
          else ⟨ty, values, fun want hints => compileValues values want hints⟩) := by
        split
        · cases previous with
          | some line => exact hprevious line rfl
          | none => exact fun _ _ _ _ => .pure _
        · exact fun calm around want hints => keepsScope_compileValues hvalues want hints
      generalize (if values.isEmpty then previous.getD ⟨ty, [], fun _ _ => pure (.fixed 0)⟩
          else ⟨ty, values, fun want hints => compileValues values want hints⟩ : ConstLine) = line
        at hline ⊢
      refine .bind (keepsScope_setIota _) fun _ => .bind (hline _ _ _ _) fun arity => ?_
      refine .bind (keepsScope_declare hnames) fun _ => .bind (.modifyNames _) fun _ => ?_
      exact ih hrest (fun l hl => Option.mem_some.mp hl ▸ hline) (iota + 1)

theorem keepsScope_typeDecl (span : Span) (x : String) (ty : Ty) (label : Option String) :
    KeepsScope calm around (compileStmt (.typeDecl span x ty) label) := by
  unfold compileStmt declareType
  refine .names fun n => ?_
  split
  · exact .modifyNames _
  · exact .fail _

theorem keepsScope_assignTo {targets : List Target} (htargets : ∀ t ∈ targets, t.isVisible = true)
    (arity : Arity) (span : Span) :
    KeepsScope False around (emit' (.assign targets arity) span) := by
  refine .emit' ?_ rfl rfl nofun span
  simpa [StepOp.isVisible, StepOp.isDiscreet, StepOp.bindings, StepOp.reads] using htargets

theorem keepsScope_assign {targets : List Expr} (htargets : ∀ e ∈ targets, TargetKeepsScope e)
    (hvalues : ∀ e ∈ values, ExprKeepsScope e) (label : Option String) :
    KeepsScope False around (compileStmt (.assign span targets values) label) := by
  obtain ⟨hcloses, hvisible⟩ := keepsScope_compileTargets False around htargets
  unfold compileStmt
  refine .bindOf hcloses fun b compiled b' h => ?_
  refine .bind (keepsScope_compileValues hvalues _ _) fun arity => keepsScope_assignTo ?_ _ _
  simpa using fun t ty ht => hvisible b compiled b' h (t, ty) ht

theorem isVisible_loadTarget {target : Target} (h : target.isVisible = true) (ty : Option Ty) :
    (StepOp.loadTarget target ty).isVisible = true := by
  cases target <;>
    simp_all [StepOp.isVisible, StepOp.isDiscreet, StepOp.bindings, StepOp.reads, Target.isVisible]

theorem keepsScope_emitUpdate {target : Target} (h : target.isVisible = true) (op : BinaryOp)
    (ty : Option Ty) (span : Span) : KeepsScope False around (emitUpdate op target ty span) := by
  unfold emitUpdate
  exact .bind (.operation rfl rfl rfl _) fun _ => keepsScope_assignTo (by simpa using h) _ _

theorem keepsScope_opAssign {target value : Expr} (htarget : TargetKeepsScope target)
    (hvalue : ExprKeepsScope value) (op : BinaryOp) (label : Option String) :
    KeepsScope False around (compileStmt (.opAssign span op target value) label) := by
  unfold compileStmt
  refine .names fun n => .bindOf (htarget False around).1 fun b compiled b' h => ?_
  have hvisible := (htarget False around).2 b compiled b' h
  refine .bind (.emit' (isVisible_loadTarget hvisible _) rfl rfl nofun _) fun _ => ?_
  exact .bind (hvalue.value _) fun _ => keepsScope_emitUpdate hvisible _ _ _

theorem keepsScope_incDec {target : Expr} (htarget : TargetKeepsScope target) (increment : Bool)
    (label : Option String) :
    KeepsScope False around (compileStmt (.incDec span target increment) label) := by
  unfold compileStmt
  refine .names fun n => .bindOf (htarget False around).1 fun b compiled b' h => ?_
  have hvisible := (htarget False around).2 b compiled b' h
  refine .bind (.emit' (isVisible_loadTarget hvisible _) rfl rfl nofun _) fun _ => ?_
  exact .bind (keepsScope_emitConstant _ _ _) fun _ => keepsScope_emitUpdate hvisible _ _ _

theorem keepsScope_send {chan value : Expr} (hchan : ExprKeepsScope chan)
    (hvalue : ExprKeepsScope value) (label : Option String) :
    KeepsScope False around (compileStmt (.send span chan value) label) := by
  unfold compileStmt
  refine .names fun n => .bind (hchan.value _) fun _ => .bind (hvalue.value _) fun _ => ?_
  exact .emit' rfl rfl rfl nofun _

-- Nothing leads to the step behind a return.
theorem keepsScope_endPath : KeepsScope calm around (setPending []) := by
  intro b u b' hb h
  cases h
  exact .moved hb rfl rfl nofun rfl rfl rfl (Nat.le_refl _) rfl

theorem keepsScope_ret (hvalues : ∀ e ∈ values, ExprKeepsScope e) (label : Option String) :
    KeepsScope False around (compileStmt (.ret span values) label) := by
  have hleave : ∀ arity, KeepsScope False around (do
      emit' (.ret arity) span
      setPending []) := fun arity =>
    .bind (.step rfl rfl rfl (fun _ => rfl) nofun _) fun _ => keepsScope_endPath
  unfold compileStmt
  refine .get fun b hb => ?_
  dsimp only
  split
  · split
    · exact hleave _
    · refine .bind (keepsScope_compileValues hvalues _ _) fun arity => ?_
      exact .bind (keepsScope_assignTo hb.results _ _) fun _ => hleave _
  · exact .bind (keepsScope_compileValues hvalues _ _) fun arity => hleave arity

end simple

section defers

variable {f : Expr} {args : List Expr} {span : Span} {spread : Bool}

theorem keepsScope_deferredCall (hf : ExprKeepsScope f) (hargs : ∀ e ∈ args, ExprKeepsScope e) :
    KeepsScope calm around (deferredCall span f args spread) := by
  unfold deferredCall
  refine .names fun n => ?_
  split
  · refine .bind (keepsScope_builtinType _ _ _) fun ty => ?_
    split
    · exact .bind (keepsScope_compileRest hargs _ _) fun arity => .pure _
    · exact .bind (keepsScope_compileArgs hargs _ _) fun arity => .pure _
  · exact .unsupported _ _
  · refine .bind (keepsScope_compileArgs hargs _ _) fun arity => .bind (hf.value none) fun _ => ?_
    exact .pure _

theorem keepsScope_padded {α : Type} {x : Build α} (hx : KeepsScope calm around x) (span : Span) :
    KeepsScope calm around (padded span x) := by
  unfold padded
  refine .get fun b _ => .bind hx fun a => .get fun b' _ => ?_
  dsimp only
  split
  · exact .bind (.step rfl rfl rfl (fun _ => rfl) (fun _ => rfl) span) fun _ => .pure _
  · exact .pure _

-- All steps since the first one of the deferred call are calm.
theorem keepsScope_chain {call : Build (Arity × Option (Builtin × Option Ty))}
    (hcall : KeepsScope True around call) (span : Span) (spread : Bool) :
    KeepsScope False around (chain span spread call) := by
  intro b u b' hb h
  obtain ⟨_, b₁, h₁, htaken⟩ := bind_eq_ok.mp h
  cases h₁
  obtain ⟨_, b₁, h₁, hgot⟩ := bind_eq_ok.mp htaken
  cases h₁
  obtain ⟨⟨arity, builtin⟩, b₁, h₁, hput⟩ := bind_eq_ok.mp hgot
  obtain ⟨_, b₂, h₂, hlast⟩ := bind_eq_ok.mp hput
  cases h₂
  obtain ⟨id, hid⟩ := discard_eq_ok.mp hlast
  have htake : b.ComesBack False around { b with pending := [] } :=
    .moved hb rfl rfl nofun rfl rfl rfl (Nat.le_refl _) rfl
  have hoperands := keepsScope_padded hcall span _ _ b₁ htake.grows.tidy h₁
  have hset : b₁.ComesBack False around { b₁ with pending := b.pending } :=
    .moved hoperands.grows.tidy rfl rfl
      (fun slot hslot => hoperands.fresh (hb.pending slot hslot)) rfl
      rfl rfl (Nat.le_refl _) rfl
  have hdefer : Builder.ComesBack False around { b₁ with pending := b.pending } b' := by
    refine .emitted hset.grows.tidy (emit_ok hid) rfl rfl (fun _ => rfl) ?_ nofun
    intro e he k s hk hs
    cases he
    exact hoperands.calm trivial k s hk hs
  exact ((htake.trans (hoperands.mono False.elim (List.Subset.refl _))).trans hset).trans hdefer

theorem keepsScope_defer (hf : ExprKeepsScope f) (hargs : ∀ e ∈ args, ExprKeepsScope e)
    (note : Note) (label : Option String) :
    KeepsScope False around (compileStmt (.defer span (.call note f args spread)) label) := by
  have hchain : KeepsScope False around (chain span spread (deferredCall span f args spread)) :=
    keepsScope_chain (keepsScope_deferredCall hf hargs) span spread
  have hflag : KeepsScope False around (modify fun b => { b with hasDefer := true }) := by
    intro b u b' hb h
    cases h
    exact .moved hb rfl rfl hb.pending rfl rfl rfl (Nat.le_refl _) rfl
  rw [compileStmt_defer]
  refine .bind hflag fun _ => .get fun b _ => ?_
  dsimp only
  split
  · exact .bind (.step rfl rfl rfl (fun _ => rfl) nofun span) fun _ => hchain
  · exact hchain

end defers

mutual

theorem exprKeepsScope : ∀ e : Expr, e.isVisible = true → ExprKeepsScope e
  | .lit note v, _ => exprKeepsScope_lit note v
  | .ident note x, h => exprKeepsScope_ident (by simpa [Expr.isVisible] using h) note
  | .binary note op l r, h => by
      simp only [Expr.isVisible, Bool.and_eq_true] at h
      exact exprKeepsScope_binary (exprKeepsScope l h.1) (exprKeepsScope r h.2) note op
  | .unary note op x, h => exprKeepsScope_unary (exprKeepsScope x h) note op
  | .call note f args spread, h => by
      simp only [Expr.isVisible, Bool.and_eq_true] at h
      exact exprKeepsScope_call (exprKeepsScope f h.1) (exprKeepsScope_list args h.2) note spread
  | .index note e k, h => by
      simp only [Expr.isVisible, Bool.and_eq_true] at h
      exact exprKeepsScope_index (exprKeepsScope e h.1) (exprKeepsScope k h.2) note
  | .slice note e low high max, h => by
      simp only [Expr.isVisible, Bool.and_eq_true] at h
      exact exprKeepsScope_slice (exprKeepsScope e h.1) (exprKeepsScope_option low h.2.1)
        (exprKeepsScope_option high h.2.2.1)
        (exprKeepsScope_option max h.2.2.2) note
  | .select note e field, h => by
      simp only [Expr.isVisible, Bool.and_eq_true] at h
      exact exprKeepsScope_select (exprKeepsScope e h.1) note field
  | .composite note ty elems, h => exprKeepsScope_composite (elementKeepsScopes elems h) note ty
  | .funcLit note sig body, _ => exprKeepsScope_funcLit note sig body
  | .assert note e ty, h => exprKeepsScope_assert (exprKeepsScope e h) note ty
  | .convert note ty e, h => exprKeepsScope_convert (exprKeepsScope e h) note ty
  | .typeExpr note ty, _ => exprKeepsScope_typeExpr note ty

theorem exprKeepsScope_list : ∀ es : List Expr, exprsVisible es = true → ∀ e ∈ es, ExprKeepsScope e
  | [], _ => nofun
  | e :: rest, h => by
      simp only [exprsVisible, Bool.and_eq_true] at h
      exact List.forall_mem_cons.mpr ⟨exprKeepsScope e h.1, exprKeepsScope_list rest h.2⟩

theorem exprKeepsScope_option : ∀ e : Option Expr, optionVisible e = true →
    ∀ x ∈ e, ExprKeepsScope x
  | none, _ => nofun
  | some e, h => fun _ hx => Option.mem_some.mp hx ▸ exprKeepsScope e h

theorem elementKeepsScope : ∀ x : Element, x.isVisible = true → ElementKeepsScope x
  | .plain v, h => exprKeepsScope v h
  | .field x v, h => by
      simp only [Element.isVisible, Bool.and_eq_true, Bool.not_eq_true'] at h
      exact ⟨h.1, exprKeepsScope v h.2⟩
  | .keyed k v, h => by
      simp only [Element.isVisible, Bool.and_eq_true] at h
      exact ⟨exprKeepsScope k h.1, exprKeepsScope v h.2⟩

theorem elementKeepsScopes : ∀ elems : List Element, elementsVisible elems = true →
    ∀ x ∈ elems, ElementKeepsScope x
  | [], _ => nofun
  | x :: rest, h => by
      simp only [elementsVisible, Bool.and_eq_true] at h
      exact List.forall_mem_cons.mpr ⟨elementKeepsScope x h.1, elementKeepsScopes rest h.2⟩

end

theorem targetKeepsScope : ∀ e : Expr, e.isVisible = true → TargetKeepsScope e
  | .ident note x, h => targetKeepsScope_ident (by simpa [Expr.isVisible] using h) note
  | .index note e k, h => by
      simp only [Expr.isVisible, Bool.and_eq_true] at h
      exact targetKeepsScope_index (exprKeepsScope e h.1) (exprKeepsScope k h.2) note
  | .select note e field, h => by
      simp only [Expr.isVisible, Bool.and_eq_true, Bool.not_eq_true'] at h
      exact targetKeepsScope_select (exprKeepsScope e h.1) note h.2
  | .unary note op x, h => targetKeepsScope_unary (exprKeepsScope x h) note op
  | .lit .., _ | .binary .., _ | .call .., _ | .slice .., _ | .composite .., _ | .funcLit .., _
  | .assert .., _ | .convert .., _ | .typeExpr .., _ =>
      targetKeepsScope_other (by unfold compileTarget; rfl)

theorem targetKeepsScope_list {es : List Expr} (h : exprsVisible es = true) :
    ∀ e ∈ es, TargetKeepsScope e := by
  induction es with
  | nil => exact nofun
  | cons e rest ih =>
      simp only [exprsVisible, Bool.and_eq_true] at h
      exact List.forall_mem_cons.mpr ⟨targetKeepsScope e h.1, ih h.2⟩

theorem targetKeepsScope_option {e : Option Expr} (h : optionVisible e = true) :
    ∀ x ∈ e, TargetKeepsScope x :=
  fun x hx => targetKeepsScope x (by rwa [Option.mem_def.mp hx] at h)

theorem exprKeepsScope_specs {specs : List ConstSpec} (h : specsVisible specs = true) :
    ∀ spec ∈ specs, (∀ x ∈ spec.names, isTemp x = false) ∧ ∀ e ∈ spec.values, ExprKeepsScope e := by
  induction specs with
  | nil => exact nofun
  | cons spec rest ih =>
      obtain ⟨names, ty, values⟩ := spec
      simp only [specsVisible, Bool.and_eq_true, List.all_eq_true, Bool.not_eq_true'] at h
      exact List.forall_mem_cons.mpr ⟨⟨h.1.1, exprKeepsScope_list values h.1.2⟩, ih h.2⟩

theorem keepsScope_deferOf (span : Span) (label : Option String) :
    ∀ call : Expr, call.isVisible = true →
    KeepsScope False around (compileStmt (.defer span call) label)
  | .call note f args spread, h => by
      simp only [Expr.isVisible, Bool.and_eq_true] at h
      exact keepsScope_defer (exprKeepsScope f h.1) (exprKeepsScope_list args h.2) note label
  | .lit .., _ | .ident .., _ | .binary .., _ | .unary .., _ | .index .., _ | .slice .., _
  | .select .., _ | .composite .., _ | .funcLit .., _ | .assert .., _ | .convert .., _
  | .typeExpr .., _ => by
      unfold compileStmt
      exact .unsupported _ _

theorem keepsScope_head {o : Origin} (h : o.isVisible = true) : KeepsScope False around o.head := by
  cases o with
  | func d =>
      unfold Origin.head
      dsimp only
      split
      · exact .modifyNames _
      · exact .pure _
  | literal => exact .pure _
  | var spec =>
      simp only [Origin.isVisible, Bool.and_eq_true, List.all_eq_true, Bool.not_eq_true'] at h
      unfold Origin.head
      dsimp only
      split
      · split
        · refine .emit' ?_ rfl rfl False.elim _
          simpa [StepOp.isVisible, StepOp.isDiscreet, StepOp.bindings, StepOp.reads] using h.1
        · exact .unsupported _ _
      · exact .bind (keepsScope_compileValues (exprKeepsScope_list spec.values h.2) _ _) fun _ =>
          keepsScope_declare h.1
  | const line iota =>
      simp only [Origin.isVisible, Bool.and_eq_true, List.all_eq_true, Bool.not_eq_true'] at h
      have hrest : KeepsScope False around (do
          modify fun b => { b with iota := some iota }
          let arity ← compileValues line.values line.names.length
            (List.replicate line.names.length line.ty)
          emit' (.declare line.names line.ty arity) Span.none) :=
        .bind (keepsScope_setIota _) fun _ =>
          .bind (keepsScope_compileValues (exprKeepsScope_list line.values h.2) _ _) fun arity =>
            keepsScope_declare h.1
      unfold Origin.head
      dsimp only
      split
      · exact .fail _
      · exact hrest

theorem stmtsVisible_body {o : Origin} (h : o.isVisible = true) : stmtsVisible o.body = true := by
  cases o with
  | func | literal =>
      simp only [Origin.isVisible, Bool.and_eq_true] at h
      exact h.2
  | var | const => rfl

end Build

section start

open Build

variable {o : Origin} {names : Names} {code : Array Function}

theorem Signature.isVisible_resultTargets {sig : Signature} (h : sig.isVisible = true) :
    ∀ t ∈ resultTargets sig, t.isVisible = true := by
  intro t ht
  obtain ⟨p, hp, rfl⟩ := List.mem_map.mp ht
  have hname := List.all_eq_true.mp h p (List.mem_append_right _ hp)
  cases hx : p.name with
  | none => rfl
  | some x =>
      rw [hx] at hname
      dsimp only
      split
      · rfl
      · simpa [Target.isVisible] using hname

theorem Origin.isVisible_sig (h : o.isVisible = true) : o.sig.isVisible = true := by
  cases o with
  | func | literal =>
      simp only [isVisible, Bool.and_eq_true] at h
      first | exact h.1.2 | exact h.1
  | var | const => rfl

-- The names of the program are no temporaries, so there is none in the beginning.
theorem Origin.tidy_start (h : o.isVisible = true) : (Builder.start names code o.sig).Tidy where
  counts := rfl
  edges slot j hj := absurd hj.lt_size (Nat.not_lt_zero _)
  pending := nofun
  contexts := nofun
  reads i x _ hread := by
    obtain ⟨s, hs, -⟩ := hread
    cases hs
  numbered k x _ hbind := absurd hbind.lt_size (Nat.not_lt_zero _)
  unique k k' x _ hbind := absurd hbind.lt_size (Nat.not_lt_zero _)
  discreet i s hs := by cases hs
  chains e i hdefers := absurd hdefers.lt_size (Nat.not_lt_zero _)
  labels := nofun
  gotos := nofun
  results := Signature.isVisible_resultTargets (isVisible_sig h)

end start

end StepGraph

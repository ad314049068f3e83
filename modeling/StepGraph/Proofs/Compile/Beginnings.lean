import StepGraph.Proofs.Compile.Linear
import StepGraph.Proofs.Compile.Pieces

open EStateM (bind_eq_ok discard_eq_ok)

namespace StepGraph.Build

variable {α β : Type}

-- All that was pending leads to the first step that a builder adds. Without one it is pending still.
structure Begins (b b' : Builder) : Prop where
  extend : StepsExtend b.steps b'.steps
  first : b'.steps.size = b.steps.size ∧ b'.pending = b.pending ∨
    b.steps.size < b'.steps.size ∧ AllLead b'.steps b.pending (some b.steps.size)

theorem Begins.refl (b : Builder) : Begins b b := ⟨.refl _, .inl ⟨rfl, rfl⟩⟩

theorem Begins.trans {b b₁ b' : Builder} (h : Begins b b₁) (h' : Begins b₁ b') : Begins b b' := by
  refine ⟨h.extend.trans h'.extend, ?_⟩
  rcases h.first with ⟨hsize, hpending⟩ | ⟨hlt, hleads⟩
  · rw [← hsize, ← hpending]
    exact h'.first
  · exact .inr ⟨Nat.lt_of_lt_of_le hlt h'.extend.size_le,
      fun slot hslot => (hleads slot hslot).extend h'.extend⟩

theorem Emitted.begins {op : StepOp} {id : StepId} {b b' : Builder} (he : Emitted op b id b') :
    Begins b b' :=
  ⟨he.extend, .inr ⟨he.size_lt, he.id_eq ▸ he.leads (.refl _)⟩⟩

-- What is emitted behind is the first step then.
theorem Begins.leads {op : StepOp} {id : StepId} {b b₁ b' : Builder} (h : Begins b b₁)
    (he : Emitted op b₁ id b') : AllLead b'.steps b.pending (some b.steps.size) := by
  rcases (h.trans he.begins).first with ⟨hsize, -⟩ | ⟨-, hleads⟩
  · exact absurd hsize (Nat.ne_of_gt (Nat.lt_of_le_of_lt h.extend.size_le he.size_lt))
  · exact hleads

-- An action that begins so, and one that keeps what stands.
def Leading (x : Build α) : Prop := ∀ b a b', x b = .ok a b' → Begins b b'

def Extending (x : Build α) : Prop := ∀ b a b', x b = .ok a b' → StepsExtend b.steps b'.steps

namespace Leading

theorem pure (a : α) : Leading (Pure.pure a : Build α) := by
  intro b a b' h
  cases h
  exact .refl b

theorem fail (e : CompileError) : Leading (Build.fail e : Build α) :=
  fun _ _ _ h => absurd h (fail_ne_ok e _)

theorem unsupported (what : String) (span : Span) : Leading (Build.unsupported what span : Build α) :=
  fail _

theorem bind {x : Build α} {f : α → Build β} (hx : Leading x) (hf : ∀ a, Leading (f a)) :
    Leading (x >>= f) := by
  intro b c b' h
  obtain ⟨a, b₁, h₁, h₂⟩ := bind_eq_ok.mp h
  exact (hx b a b₁ h₁).trans (hf a b₁ c b' h₂)

theorem discard {x : Build α} (hx : Leading x) : Leading (Functor.discard x) := by
  intro b u b' h
  obtain ⟨a, h⟩ := discard_eq_ok.mp h
  exact hx b a b' h

theorem get {f : Builder → Build α} (hf : ∀ b, Leading (f b)) : Leading (MonadState.get >>= f) :=
  fun b a b' h => hf b b a b' h

theorem emit' (op : StepOp) (span : Span) : Leading (Build.emit' op span) := by
  intro b u b' h
  obtain ⟨id, h⟩ := discard_eq_ok.mp h
  exact (emit_ok h).begins

-- Behind the first step it only matters that everything stands.
theorem emitFork {op : StepOp} {span : Span} {f : Slot → Build α} (hf : ∀ slot, Extending (f slot)) :
    Leading (Build.emitFork op span >>= f) := by
  intro b a b' h
  obtain ⟨slot, b₁, h₁, h₂⟩ := bind_eq_ok.mp h
  obtain ⟨id, he, -⟩ := emitFork_ok h₁
  have hbegins := he.begins
  have hextend := hf slot b₁ a b' h₂
  refine ⟨hbegins.extend.trans hextend, .inr ⟨Nat.lt_of_lt_of_le he.size_lt hextend.size_le, ?_⟩⟩
  exact fun slot hslot => (he.id_eq ▸ he.leads (.refl _) slot hslot).extend hextend

theorem extending {x : Build α} (hx : Leading x) : Extending x :=
  fun b a b' h => (hx b a b' h).extend

theorem forM {l : List α} {f : α → Build PUnit} (hf : ∀ a, Leading (f a)) : Leading (l.forM f) :=
  Compositional.forM ⟨pure, bind⟩ hf

-- A function literal is built apart.
theorem nested (sig : Signature) (body : Build Unit) : Leading (Build.nested sig body) := by
  intro b code b' h
  obtain ⟨_, b₁, h₁, h⟩ := bind_eq_ok.mp h
  cases h₁
  obtain ⟨_, b₂, -, h⟩ := bind_eq_ok.mp h
  obtain ⟨_, b₃, -, h⟩ := bind_eq_ok.mp h
  obtain ⟨_, b₄, -, h⟩ := bind_eq_ok.mp h
  cases h
  exact ⟨.refl _, .inl ⟨rfl, rfl⟩⟩

end Leading

theorem Extending.bind {x : Build α} {f : α → Build β} (hx : Extending x)
    (hf : ∀ a, Extending (f a)) : Extending (x >>= f) := by
  intro b c b' h
  obtain ⟨a, b₁, h₁, h₂⟩ := bind_eq_ok.mp h
  exact (hx b a b₁ h₁).trans (hf a b₁ c b' h₂)

theorem extending_addPending (slots : List Slot) : Extending (addPending slots) := by
  intro b u b' h
  cases h
  exact .refl _

theorem leading_names : Leading names := .get fun _ => .pure _

theorem leading_settle (want : Want) (span : Span) : Leading (settle want span) := by
  cases want with
  | value _ | values => exact .pure _
  | discard | address _ => exact .bind (.emit' _ _) fun _ => .pure _

theorem leading_settleCall (want : Want) : Leading (settleCall want) := by
  cases want with
  | value _ | values | discard => exact .pure _
  | address _ => exact .bind (.emit' _ _) fun _ => .pure _

theorem leading_countOperands (count : Nat) (span : Span) : Leading (countOperands count span) := by
  unfold countOperands
  split
  · exact .pure _
  · exact .unsupported _ _

theorem leading_builtinType (b : Builtin) (args : List Expr) (span : Span) :
    Leading (builtinType b args span) := by
  refine .bind leading_names fun n => ?_
  split
  · split
    · exact .unsupported _ _
    · split
      · exact .pure _
      · exact .unsupported _ _
  · split <;> exact .pure _

theorem leading_emitConstant (v : Value) (hint : Option Ty) (span : Span) :
    Leading (emitConstant v hint span) := .bind leading_names fun _ => .emit' _ _

theorem leading_emitName (name : String) (hint : Option Ty) (span : Span) :
    Leading (emitName name hint span) := by
  refine .get fun b => ?_
  split
  · exact .emit' _ _
  · split
    · exact leading_emitConstant _ _ _
    · exact .emit' _ _

-- A step and then what is wanted of its value.
theorem leading_settled (op : StepOp) (want : Want) (span : Span) : Leading (do
    emit' op span
    settle want span) := .bind (.emit' _ _) fun _ => leading_settle want span

-- Every way in which an expression may be wanted.
def LeadsOff (e : Expr) : Prop := ∀ want, Leading (compile e want)

theorem LeadsOff.value {e : Expr} (h : LeadsOff e) (hint : Option Ty) :
    Leading (discard (compile e (.value hint))) := (h _).discard

section lists

variable {es : List Expr} (hes : ∀ e ∈ es, LeadsOff e)

include hes

theorem leading_compileEach (hints : List (Option Ty)) : Leading (compileEach es hints) := by
  induction es generalizing hints with
  | nil =>
      unfold compileEach
      exact .pure _
  | cons e rest ih =>
      unfold compileEach
      exact .bind ((hes e List.mem_cons_self).value _) fun _ =>
        ih (fun e he => hes e (List.mem_cons_of_mem _ he)) _

theorem leading_compileArgs (hints : List (Option Ty)) (spread : Bool) :
    Leading (compileArgs es hints spread) := by
  cases es with
  | nil =>
      unfold compileArgs
      exact .pure _
  | cons e rest =>
      have he := hes e List.mem_cons_self
      unfold compileArgs
      split
      · exact he _
      · refine .bind (he.value _) fun _ => .bind ?_ fun _ => leading_countOperands _ _
        exact leading_compileEach (fun e he => hes e (List.mem_cons_of_mem _ he)) _

theorem leading_compileRest (hints : List (Option Ty)) (spread : Bool) :
    Leading (compileRest es hints spread) := by
  cases es with
  | nil =>
      unfold compileRest
      exact .pure _
  | cons e rest =>
      unfold compileRest
      exact leading_compileArgs (fun e he => hes e (List.mem_cons_of_mem _ he)) hints spread

end lists

theorem leading_compileBound {e : Option Expr} (h : ∀ x ∈ e, LeadsOff x) :
    Leading (compileBound e) := by
  unfold compileBound
  cases e with
  | some e => exact (h e rfl).value _
  | none => exact .pure _

section elements

-- The expressions that an element is made of.
def LeadsOffElement : Element → Prop
  | .plain v | .field _ v => LeadsOff v
  | .keyed k v => LeadsOff k ∧ LeadsOff v

variable {elems : List Element} (helems : ∀ x ∈ elems, LeadsOffElement x)

include helems

theorem leading_compileFields (fields : List Field) : Leading (compileFields fields elems) := by
  induction elems with
  | nil =>
      unfold compileFields
      exact .pure _
  | cons x rest ih =>
      have ih := ih fun x hx => helems x (List.mem_cons_of_mem _ hx)
      have hx := helems x List.mem_cons_self
      cases x with
      | plain v | keyed k v =>
          unfold compileFields
          exact ih
      | field name v =>
          unfold compileFields
          exact .bind (hx.value _) fun _ => ih

theorem leading_compilePositional (fields : List Field) :
    Leading (compilePositional fields elems) := by
  induction elems generalizing fields with
  | nil =>
      unfold compilePositional
      cases fields <;> exact .pure _
  | cons x rest ih =>
      have ih := ih fun x hx => helems x (List.mem_cons_of_mem _ hx)
      have hx := helems x List.mem_cons_self
      cases fields with
      | nil =>
          unfold compilePositional
          exact .pure _
      | cons f fields =>
          cases x with
          | plain v | field name v =>
              unfold compilePositional
              exact .bind (hx.value _) fun _ => ih fields
          | keyed k v =>
              unfold compilePositional
              exact .bind (hx.2.value _) fun _ => ih fields

theorem leading_compileSequence (elem : Ty) (span : Span) :
    Leading (compileSequence elem span elems) := by
  induction elems with
  | nil =>
      unfold compileSequence
      exact .pure _
  | cons x rest ih =>
      have ih := ih fun x hx => helems x (List.mem_cons_of_mem _ hx)
      have hx := helems x List.mem_cons_self
      cases x with
      | plain v =>
          unfold compileSequence
          exact .bind (hx.value _) fun _ => ih
      | keyed k v =>
          unfold compileSequence
          exact .bind (hx.1.value _) fun _ => .bind (hx.2.value _) fun _ => ih
      | field name v =>
          unfold compileSequence
          exact .unsupported _ _

theorem leading_compileEntries (key value : Ty) (span : Span) :
    Leading (compileEntries key value span elems) := by
  induction elems with
  | nil =>
      unfold compileEntries
      exact .pure _
  | cons x rest ih =>
      have ih := ih fun x hx => helems x (List.mem_cons_of_mem _ hx)
      have hx := helems x List.mem_cons_self
      cases x with
      | plain v =>
          unfold compileEntries
          exact .unsupported _ _
      | keyed k v =>
          unfold compileEntries
          exact .bind (hx.1.value _) fun _ => .bind (hx.2.value _) fun _ => ih
      | field name v =>
          unfold compileEntries
          exact .bind (leading_emitName _ _ _) fun _ => .bind (hx.value _) fun _ => ih

end elements

section expressions

variable {e : Expr} (note : Note)

theorem leadsOff_lit (v : Literal) : LeadsOff (.lit note v) := by
  intro want
  unfold compile
  exact .bind (leading_emitConstant _ _ _) fun _ => leading_settle want _

theorem leadsOff_ident (x : String) : LeadsOff (.ident note x) := by
  intro want
  unfold compile
  cases want with
  | address s => exact .bind (.emit' _ _) fun _ => .pure _
  | value _ | values | discard => exact .bind (leading_emitName _ _ _) fun _ => leading_settle _ _

theorem leadsOff_binary {l r : Expr} (hl : LeadsOff l) (hr : LeadsOff r) (op : BinaryOp) :
    LeadsOff (.binary note op l r) := by
  intro want
  unfold compile
  split
  · refine .bind (hl.value _) fun _ => .emitFork fun short => (hr.value _).extending.bind fun _ => ?_
    exact (extending_addPending _).bind fun _ => (leading_settle want _).extending
  · exact .bind leading_names fun n => .bind (hl.value _) fun _ => .bind (hr.value _) fun _ =>
      leading_settled _ want _

theorem leadsOff_unary (he : LeadsOff e) (op : UnaryOp) : LeadsOff (.unary note op e) := by
  intro want
  have hplain : ∀ op : UnaryOp, Leading (do
      discard (compile e (.value want.hint))
      emit' (.unary op) note.span
      settle want note.span) := fun op => .bind (he.value _) fun _ => leading_settled _ want _
  unfold compile
  split
  · exact .bind (he _).discard fun _ => leading_settle want _
  · refine .bind (he.value _) fun _ => ?_
    cases want with
    | address s => exact .pure _
    | value _ | values | discard => exact leading_settled _ _ _
  · refine .bind (he.value _) fun _ => ?_
    cases want with
    | values => exact .bind (.emit' _ _) fun _ => .pure _
    | value _ | address _ | discard => exact leading_settled _ _ _
  · split
    · split
      · exact .bind (leading_emitConstant _ _ _) fun _ => leading_settle want _
      · exact hplain _
    · exact hplain _

theorem leadsOff_call {args : List Expr} (he : LeadsOff e) (hargs : ∀ x ∈ args, LeadsOff x)
    (spread : Bool) : LeadsOff (.call note e args spread) := by
  intro want
  unfold compile
  refine .bind leading_names fun n => ?_
  dsimp only
  split
  · refine .bind (leading_builtinType _ _ _) fun ty => ?_
    split
    · exact .bind (leading_compileRest hargs _ _) fun _ => .bind (.emit' _ _) fun _ =>
        leading_settleCall want
    · exact .bind (leading_compileArgs hargs _ _) fun _ => .bind (.emit' _ _) fun _ =>
        leading_settleCall want
  · split
    · next arg =>
        exact .bind ((hargs arg List.mem_cons_self).value _) fun _ => leading_settled _ want _
    · exact .unsupported _ _
  · exact .bind (leading_compileArgs hargs _ _) fun _ => .bind (he.value _) fun _ =>
      .bind (.emit' _ _) fun _ => leading_settleCall want

theorem leadsOff_index {k : Expr} (he : LeadsOff e) (hk : LeadsOff k) : LeadsOff (.index note e k) := by
  intro want
  unfold compile
  cases want with
  | address s =>
      exact .bind (he.value _) fun _ => .bind (hk.value _) fun _ => .bind (.emit' _ _) fun _ =>
        .pure _
  | values =>
      exact .bind leading_names fun _ => .bind (he.value _) fun _ => .bind leading_names fun _ =>
        .bind (hk.value _) fun _ => .bind (.emit' _ _) fun _ => .pure _
  | value _ | discard =>
      exact .bind leading_names fun _ => .bind (he.value _) fun _ => .bind leading_names fun _ =>
        .bind (hk.value _) fun _ => leading_settled _ _ _

theorem leadsOff_slice {low high max : Option Expr} (he : LeadsOff e) (hlow : ∀ x ∈ low, LeadsOff x)
    (hhigh : ∀ x ∈ high, LeadsOff x) (hmax : ∀ x ∈ max, LeadsOff x) :
    LeadsOff (.slice note e low high max) := by
  intro want
  unfold compile
  exact .bind (he.value _) fun _ => .bind (leading_compileBound hlow) fun _ =>
    .bind (leading_compileBound hhigh) fun _ => .bind (leading_compileBound hmax) fun _ =>
      leading_settled _ want _

theorem leadsOff_select (he : LeadsOff e) (field : String) : LeadsOff (.select note e field) := by
  intro want
  unfold compile
  refine .bind leading_names fun n => ?_
  dsimp only
  split
  · exact .bind (he.value _) fun _ => .bind (.emit' _ _) fun _ => .pure _
  · split <;> exact .bind (he _).discard fun _ => leading_settled _ _ _

theorem leadsOff_composite {elems : List Element} (helems : ∀ x ∈ elems, LeadsOffElement x)
    (ty : Option Ty) : LeadsOff (.composite note ty elems) := by
  intro want
  have hrest : ∀ (ty : Ty) (pointers : Nat) (shape : Shape), Leading (do
      emit' (.compose ty shape) note.span
      (List.replicate pointers ()).forM fun _ => emit' (.addressOf .value) note.span
      settle want note.span) := fun ty pointers shape =>
    .bind (.emit' _ _) fun _ => .bind (.forM fun _ => .emit' _ _) fun _ => leading_settle want _
  unfold compile
  split
  · exact .unsupported _ _
  · refine .bind leading_names fun n => ?_
    dsimp only
    split
    · split
      · exact .bind (leading_compileFields helems _) fun _ => hrest _ _ _
      · exact .bind (leading_compilePositional helems _) fun _ => hrest _ _ _
    · exact .bind (leading_compileSequence helems _ _) fun _ => hrest _ _ _
    · exact .bind (leading_compileSequence helems _ _) fun _ => hrest _ _ _
    · exact .bind (leading_compileEntries helems _ _ _) fun _ => hrest _ _ _
    · exact .unsupported _ _

theorem leadsOff_funcLit (sig : Signature) (body : List Stmt) : LeadsOff (.funcLit note sig body) := by
  intro want
  unfold compile
  exact .bind (.nested _ _) fun code => leading_settled _ want _

theorem leadsOff_assert (he : LeadsOff e) (ty : Ty) : LeadsOff (.assert note e ty) := by
  intro want
  unfold compile
  refine .bind (he.value _) fun _ => ?_
  cases want with
  | values => exact .bind (.emit' _ _) fun _ => .pure _
  | value _ | address _ | discard => exact leading_settled _ _ _

theorem leadsOff_convert (he : LeadsOff e) (ty : Ty) : LeadsOff (.convert note ty e) := by
  intro want
  unfold compile
  exact .bind (he.value _) fun _ => leading_settled _ want _

theorem leadsOff_typeExpr (ty : Ty) : LeadsOff (.typeExpr note ty) := by
  intro want
  rw [compile_typeExpr]
  exact .unsupported _ _

end expressions

mutual

theorem leadsOff : ∀ e : Expr, LeadsOff e
  | .lit note v => leadsOff_lit note v
  | .ident note x => leadsOff_ident note x
  | .binary note op l r => leadsOff_binary note (leadsOff l) (leadsOff r) op
  | .unary note op x => leadsOff_unary note (leadsOff x) op
  | .call note f args spread => leadsOff_call note (leadsOff f) (leadsOff_list args) spread
  | .index note e k => leadsOff_index note (leadsOff e) (leadsOff k)
  | .slice note e low high max =>
      leadsOff_slice note (leadsOff e) (leadsOff_option low) (leadsOff_option high) (leadsOff_option max)
  | .select note e field => leadsOff_select note (leadsOff e) field
  | .composite note ty elems => leadsOff_composite note (leadsOff_elements elems) ty
  | .funcLit note sig body => leadsOff_funcLit note sig body
  | .assert note e ty => leadsOff_assert note (leadsOff e) ty
  | .convert note ty e => leadsOff_convert note (leadsOff e) ty
  | .typeExpr note ty => leadsOff_typeExpr note ty

theorem leadsOff_list : ∀ es : List Expr, ∀ e ∈ es, LeadsOff e
  | [] => nofun
  | e :: rest => List.forall_mem_cons.mpr ⟨leadsOff e, leadsOff_list rest⟩

theorem leadsOff_option : ∀ e : Option Expr, ∀ x ∈ e, LeadsOff x
  | none => nofun
  | some e => fun _ hx => Option.mem_some.mp hx ▸ leadsOff e

theorem leadsOff_element : ∀ x : Element, LeadsOffElement x
  | .plain v => leadsOff v
  | .field _ v => leadsOff v
  | .keyed k v => ⟨leadsOff k, leadsOff v⟩

theorem leadsOff_elements : ∀ elems : List Element, ∀ x ∈ elems, LeadsOffElement x
  | [] => nofun
  | x :: rest => List.forall_mem_cons.mpr ⟨leadsOff_element x, leadsOff_elements rest⟩

end

end StepGraph.Build

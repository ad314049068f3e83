import StepGraph.Proofs.Stack.Rows

open EStateM (bind_eq_ok discard_eq_ok)

namespace StepGraph

open Build

-- The way in which an expression is wanted, whatever its type.
inductive Mode where
  | value | values | discard | address
  deriving DecidableEq

namespace Want

def mode : Want → Mode
  | value _ => .value
  | values => .values
  | discard => .discard
  | address _ => .address

-- The steps that turn the one value of an expression into what is wanted of it.
def settling : Want → List StepOp
  | value _ | values => []
  | discard => [.pop]
  | address _ => [.addressOf .value]

-- The same behind a call.
def settlingCall : Want → List StepOp
  | value _ | values | discard => []
  | address _ => [.addressOf .value]

end Want

namespace Element

-- A field name in the place of a key is a variable.
def key? (span : Span) : Element → Option Expr
  | plain _ => none
  | field x _ => some (.ident ⟨none, span⟩ x)
  | keyed k _ => some k

-- The expressions of an element in their order.
def parts (span : Span) (x : Element) : List Expr := (x.key? span).toList ++ [x.value]

end Element

-- A negated number is a constant of its own.
def UnaryOp.isFolded : UnaryOp → Expr → Bool
  | neg, .lit _ v => v.negated?.isSome
  | _, _ => false

-- A part of an expression that is evaluated for the whole of it.
abbrev Operand := Expr × Mode

namespace Operand

def valuesOf (es : List Expr) : List Operand := es.map fun e => (e, .value)

-- A call that is the only argument passes on all of its results.
def argumentsOf : List Expr → Bool → List Operand
  | [], _ => []
  | e :: rest, spread =>
      if rest.isEmpty && !spread && e.isCall then [(e, .values)] else valuesOf (e :: rest)

-- The operands of a literal of this type. A struct takes no more values than it has fields.
def elementsOf (elems : List Element) (span : Span) : Ty → List Operand
  | .struct fields =>
      if isFieldLiteral elems then valuesOf (elems.map Element.value)
      else valuesOf ((elems.map Element.value).take fields.length)
  | .slice _ | .array _ _ | .map _ _ => valuesOf (elems.flatMap (Element.parts span))
  | _ => []

-- A method with a pointer receiver is taken of the address of its base.
def baseOf (n : Names) (b : Expr) (field : String) (want : Want) : Operand :=
  match want, n.isImport b with
  | .address _, false => (b, .value)
  | _, _ => (b, if n.wantsAddress b field then .address else .value)

-- The operands of an expression in the order of the source. Those of a function literal are
-- evaluated in a function of its own.
def of (n : Names) : Expr → Want → List Operand
  | .lit .., _ | .ident .., _ | .funcLit .., _ | .typeExpr .., _ => []
  | .binary _ _ l r, _ => valuesOf [l, r]
  | .unary _ op x, _ =>
      if op.isFolded x then [] else [(x, if op = .addrOf then .address else .value)]
  | .call _ f args spread, _ =>
      match n.callShape f with
      | .builtin b => argumentsOf (if b.takesType then args.tail else args) spread
      | .conversion _ => valuesOf args
      | .call => argumentsOf args spread ++ valuesOf [f]
  | .index _ b k, _ => valuesOf [b, k]
  | .slice _ b low high max, _ => valuesOf (b :: (low.toList ++ (high.toList ++ max.toList)))
  | .select _ b field, want => [baseOf n b field want]
  | .composite note ty elems, want =>
      match ty.or want.hint with
      | some ty => elementsOf elems note.span (n.resolve (composedType n 64 ty).1)
      | none => []
  | .assert _ b _, _ | .convert _ _ b, _ => valuesOf [b]

-- The operands of a destination.
def ofTarget : Expr → List Operand
  | .index _ b k => valuesOf [b, k]
  | .select _ b _ => valuesOf [b]
  | .unary _ .deref x => valuesOf [x]
  | _ => []

-- The operands of a deferred call.
def ofDeferred (n : Names) (f : Expr) (args : List Expr) (spread : Bool) : List Operand :=
  match n.callShape f with
  | .builtin b => argumentsOf (if b.takesType then args.tail else args) spread
  | .conversion _ => []
  | .call => argumentsOf args spread ++ valuesOf [f]

end Operand

-- The steps of an expression itself, which stand behind those of its operands.
inductive OwnSteps (n : Names) : Expr → Want → List StepOp → Prop
  | lit {note : Note} {v : Literal} {want : Want} (c : Constant) :
      OwnSteps n (.lit note v) want (.const c :: want.settling)
  | variableAddress {note : Note} {x : String} {s : Span} :
      OwnSteps n (.ident note x) (.address s) [.addressOf (.var x)]
  | variable {note : Note} {x : String} {want : Want} (h : want.mode ≠ .address) :
      OwnSteps n (.ident note x) want (.load x :: want.settling)
  | predeclared {note : Note} {x : String} {want : Want} (c : Constant) (h : want.mode ≠ .address) :
      OwnSteps n (.ident note x) want (.const c :: want.settling)
  | binary {note : Note} {op : BinaryOp} {l r : Expr} {want : Want} (resolved : Option Family)
      (h : op.isLogical = false) :
      OwnSteps n (.binary note op l r) want (.binary op resolved :: want.settling)
  | addrOf {note : Note} {x : Expr} {want : Want} :
      OwnSteps n (.unary note .addrOf x) want want.settling
  | derefAddress {note : Note} {x : Expr} {s : Span} :
      OwnSteps n (.unary note .deref x) (.address s) []
  | deref {note : Note} {x : Expr} {want : Want} (h : want.mode ≠ .address) :
      OwnSteps n (.unary note .deref x) want (.deref :: want.settling)
  | recvBoth {note : Note} {x : Expr} : OwnSteps n (.unary note .recv x) .values [.recv true]
  | recv {note : Note} {x : Expr} {want : Want} (h : want.mode ≠ .values) :
      OwnSteps n (.unary note .recv x) want (.recv false :: want.settling)
  | folded {note : Note} {op : UnaryOp} {x : Expr} {want : Want} (c : Constant)
      (h : op.isFolded x = true) : OwnSteps n (.unary note op x) want (.const c :: want.settling)
  | unary {note : Note} {op : UnaryOp} {x : Expr} {want : Want}
      (hop : op ≠ .addrOf ∧ op ≠ .deref ∧ op ≠ .recv) (h : op.isFolded x = false) :
      OwnSteps n (.unary note op x) want (.unary op :: want.settling)
  | builtin {note : Note} {f : Expr} {args : List Expr} {spread : Bool} {want : Want} {b : Builtin}
      (ty : Option Ty) (arity : Arity) (h : n.callShape f = .builtin b) :
      OwnSteps n (.call note f args spread) want
        (.callBuiltin b ty arity spread want.results :: want.settlingCall)
  | conversion {note : Note} {f : Expr} {args : List Expr} {spread : Bool} {want : Want} {ty : Ty}
      (h : n.callShape f = .conversion ty) :
      OwnSteps n (.call note f args spread) want (.convert ty :: want.settling)
  | call {note : Note} {f : Expr} {args : List Expr} {spread : Bool} {want : Want} (arity : Arity)
      (h : n.callShape f = .call) :
      OwnSteps n (.call note f args spread) want
        (.call arity spread want.results :: want.settlingCall)
  | elementAddress {note : Note} {b k : Expr} {s : Span} :
      OwnSteps n (.index note b k) (.address s) [.addressOf .index]
  | indexBoth {note : Note} {b k : Expr} (elem : Option Ty) :
      OwnSteps n (.index note b k) .values [.index true elem]
  | index {note : Note} {b k : Expr} {want : Want} (elem : Option Ty)
      (h : want.mode ≠ .address ∧ want.mode ≠ .values) :
      OwnSteps n (.index note b k) want (.index false elem :: want.settling)
  | slice {note : Note} {b : Expr} {low high max : Option Expr} {want : Want} :
      OwnSteps n (.slice note b low high max) want
        (.slice low.isSome high.isSome max.isSome :: want.settling)
  | fieldAddress {note : Note} {b : Expr} {field : String} {s : Span} (h : n.isImport b = false) :
      OwnSteps n (.select note b field) (.address s) [.addressOf (.field field)]
  | select {note : Note} {b : Expr} {field : String} {want : Want}
      (h : want.mode = .address → n.isImport b = true) :
      OwnSteps n (.select note b field) want (.select field :: want.settling)
  | composite {note : Note} {ty : Option Ty} {elems : List Element} {want : Want} {t : Ty}
      (shape : Shape) (h : ty.or want.hint = some t) :
      OwnSteps n (.composite note ty elems) want (.compose (composedType n 64 t).1 shape ::
        (List.replicate (composedType n 64 t).2 (.addressOf .value) ++ want.settling))
  | funcLit {note : Note} {sig : Signature} {body : List Stmt} {want : Want} (code : CodeRef) :
      OwnSteps n (.funcLit note sig body) want (.closure code :: want.settling)
  | assertBoth {note : Note} {b : Expr} {ty : Ty} :
      OwnSteps n (.assert note b ty) .values [.typeAssert ty true]
  | assert {note : Note} {b : Expr} {ty : Ty} {want : Want} (h : want.mode ≠ .values) :
      OwnSteps n (.assert note b ty) want (.typeAssert ty false :: want.settling)
  | convert {note : Note} {ty : Ty} {x : Expr} {want : Want} :
      OwnSteps n (.convert note ty x) want (.convert ty :: want.settling)

mutual

-- The steps of an expression stand in postorder: those of its operands in the order of the source,
-- and its own behind them. A logical operation has the step between its operands that may go on
-- behind the second one.
inductive Lowered (steps : Array Step) : Option StepId → Expr → Want → Builder → Builder → Prop
  | straight {k : Option StepId} {e : Expr} {want : Want} {a : Arity} {b b₁ b' : Builder}
      {own : List StepOp} (hbuild : compile e want b = .ok a b')
      (hoperands : InSourceOrder steps (heading b'.steps.size k b₁.steps.size)
        (Operand.of b.names e want) b b₁)
      (hown : OwnSteps b.names e want own)
      (hline : InLine steps k own b₁.steps.size b'.steps.size) : Lowered steps k e want b b'
  | logical {k : Option StepId} {note : Note} {op : BinaryOp} {l r : Expr} {want : Want} {a : Arity}
      {b b₁ b₂ b₃ b' : Builder} {s : Step} (hop : op.isLogical = true)
      (hbuild : compile (.binary note op l r) want b = .ok a b')
      (hleft : Lowered steps (some b₁.steps.size) l (.value none) b b₁)
      (hs : steps[b₁.steps.size]? = some s) (hsize : b₂.steps.size = b₁.steps.size + 1)
      (hshort : s.op = .shortCircuit (op = .logicalOr) (heading b'.steps.size k b₃.steps.size))
      (hnext : s.next = heading b'.steps.size k b₂.steps.size)
      (hright : Lowered steps (heading b'.steps.size k b₃.steps.size) r (.value none) b₂ b₃)
      (hline : InLine steps k want.settling b₃.steps.size b'.steps.size) :
      Lowered steps k (.binary note op l r) want b b'

-- Every operand is built once, one behind the other. What is done between them adds no steps.
inductive InSourceOrder (steps : Array Step) : Option StepId → List Operand → Builder → Builder → Prop
  | nil {k : Option StepId} {b b' : Builder} (hsteps : b'.steps = b.steps)
      (hpending : b'.pending = b.pending) : InSourceOrder steps k [] b b'
  | cons {k : Option StepId} {e : Expr} {want : Want} {rest : List Operand} {b b₀ b₁ b' : Builder}
      (hsteps : b₀.steps = b.steps) (hpending : b₀.pending = b.pending)
      (hfirst : Lowered steps (heading b'.steps.size k b₁.steps.size) e want b₀ b₁)
      (hrest : InSourceOrder steps k rest b₁ b') : InSourceOrder steps k ((e, want.mode) :: rest) b b'

end

theorem Want.serial_settling (want : Want) : ∀ op ∈ want.settling, op.isSerial = true := by
  cases want <;> simp [settling, StepOp.isSerial, StepOp.isPlain, StepOp.other?]

theorem Want.serial_settlingCall (want : Want) : ∀ op ∈ want.settlingCall, op.isSerial = true := by
  cases want <;> simp [settlingCall, StepOp.isSerial, StepOp.isPlain, StepOp.other?]

-- The own steps of an expression all go on to the next one.
theorem OwnSteps.serial {n : Names} {e : Expr} {want : Want} {own : List StepOp}
    (h : OwnSteps n e want own) : ∀ op ∈ own, op.isSerial = true := by
  have hsettling := want.serial_settling
  cases h with
  | builtin | call => exact List.forall_mem_cons.mpr ⟨rfl, want.serial_settlingCall⟩
  | variableAddress | recvBoth | elementAddress | indexBoth | fieldAddress | assertBoth =>
      exact List.forall_mem_singleton.mpr rfl
  | addrOf => exact hsettling
  | derefAddress => exact List.forall_mem_nil _
  | composite =>
      refine List.forall_mem_cons.mpr ⟨rfl, fun op hop => ?_⟩
      rcases List.mem_append.mp hop with hop | hop
      · rw [List.eq_of_mem_replicate hop]
        rfl
      · exact hsettling op hop
  | _ => exact List.forall_mem_cons.mpr ⟨rfl, hsettling⟩

theorem Lowered.extend {steps : Array Step} {k : Option StepId} {e : Expr} {want : Want}
    {b b' : Builder} (h : Lowered steps k e want b b') : StepsExtend b.steps b'.steps := by
  cases h with
  | straight hbuild | logical _ hbuild => exact (leadsOff _ _).extending _ _ _ hbuild

namespace InSourceOrder

variable {steps : Array Step} {k : Option StepId} {ops ops' : List Operand} {b b₁ b' : Builder}

theorem size_le (h : InSourceOrder steps k ops b b') : b.steps.size ≤ b'.steps.size := by
  induction ops generalizing b with
  | nil =>
      cases h with
      | nil hsteps => exact Nat.le_of_eq (congrArg _ hsteps.symm)
  | cons x rest ih =>
      cases h with
      | cons hsteps _ hfirst hrest =>
          exact hsteps ▸ Nat.le_trans hfirst.extend.size_le (ih hrest)

-- What adds no steps may be done in front.
theorem quiet_left (hsteps : b₁.steps = b.steps) (hpending : b₁.pending = b.pending)
    (h : InSourceOrder steps k ops b₁ b') : InSourceOrder steps k ops b b' := by
  cases h with
  | nil hsteps' hpending' => exact .nil (hsteps'.trans hsteps) (hpending'.trans hpending)
  | cons hsteps' hpending' hfirst hrest =>
      exact .cons (hsteps'.trans hsteps) (hpending'.trans hpending) hfirst hrest

theorem append (h : InSourceOrder steps (heading b'.steps.size k b₁.steps.size) ops b b₁)
    (h' : InSourceOrder steps k ops' b₁ b') : InSourceOrder steps k (ops ++ ops') b b' := by
  induction ops generalizing b with
  | nil =>
      cases h with
      | nil hsteps hpending => exact h'.quiet_left hsteps hpending
  | cons x rest ih =>
      cases h with
      | cons hsteps hpending hfirst hrest =>
          rw [heading_heading k hrest.size_le h'.size_le] at hfirst
          exact .cons hsteps hpending hfirst (ih hrest)

end InSourceOrder

mutual

-- The steps of an expression go straight on. Only a logical operation may be cut short.
theorem Lowered.straight_line {steps : Array Step} {k : Option StepId} {e : Expr} {want : Want}
    {b b' : Builder} : Lowered steps k e want b b' → Straight steps k b.steps.size b'.steps.size
  | .straight _ hoperands hown hline =>
      hoperands.straight_line.append hline.le (hline.straight hown.serial)
  | .logical _ _ hleft hs hsize hshort hnext hright hline => by
      have hbehind := hright.straight_line.append hline.le
        (hline.straight (Want.serial_settling _))
      have hright_le := hright.extend.size_le
      rw [hsize] at hbehind hright_le hnext
      have hrest := Straight.cons hs (by rw [hshort]; rfl) hnext
        (fun _ => ⟨_, _, hshort, hright_le, hline.le⟩) hbehind
      have hlt := Nat.lt_of_lt_of_le hright_le hline.le
      exact .append (Nat.le_of_lt hlt) (heading_of_lt _ hlt ▸ hleft.straight_line) hrest

theorem InSourceOrder.straight_line {steps : Array Step} {k : Option StepId} {ops : List Operand}
    {b b' : Builder} : InSourceOrder steps k ops b b' → Straight steps k b.steps.size b'.steps.size
  | .nil hsteps _ => by
      rw [hsteps]
      exact .nil _ _ _
  | .cons hsteps _ hfirst hrest => by
      have hfirst' := hfirst.straight_line
      rw [hsteps] at hfirst'
      exact hfirst'.append hrest.size_le hrest.straight_line

end

namespace Build

open Operand

variable {α β : Type} {b b' : Builder} {n : Names} {e : Expr} {want : Want} {ops ops' : List Operand}

-- An action that adds no steps and leaves what is pending.
def AddsNoSteps (x : Build α) : Prop :=
  ∀ b a b', x b = .ok a b' → b'.steps = b.steps ∧ b'.pending = b.pending

namespace AddsNoSteps

theorem pure (a : α) : AddsNoSteps (Pure.pure a : Build α) := by
  intro b a b' h
  cases h
  exact ⟨rfl, rfl⟩

theorem fail (e : CompileError) : AddsNoSteps (Build.fail e : Build α) :=
  fun _ _ _ h => absurd h (fail_ne_ok e _)

theorem get {f : Builder → Build α} (hf : ∀ b, AddsNoSteps (f b)) :
    AddsNoSteps (MonadState.get >>= f) :=
  fun b a b' h => hf b b a b' h

theorem names : AddsNoSteps Build.names := get fun _ => pure _

theorem leading {x : Build α} (hx : AddsNoSteps x) : Leading x := by
  intro b a b' h
  obtain ⟨hsteps, hpending⟩ := hx b a b' h
  exact ⟨hsteps ▸ .refl _, .inl ⟨by rw [hsteps], hpending⟩⟩

theorem countOperands (count : Nat) (span : Span) : AddsNoSteps (countOperands count span) := by
  unfold Build.countOperands
  split
  · exact pure _
  · exact fail _

theorem builtinType (b : Builtin) (args : List Expr) (span : Span) :
    AddsNoSteps (builtinType b args span) := by
  unfold Build.builtinType
  refine get fun _ => ?_
  split
  · split
    · exact fail _
    · split
      · exact pure _
      · exact fail _
  · split <;> exact pure _

-- A function literal is built apart.
theorem nested (sig : Signature) (body : Build Unit) : AddsNoSteps (Build.nested sig body) := by
  intro b code b' h
  obtain ⟨_, b₁, h₁, h⟩ := bind_eq_ok.mp h
  cases h₁
  obtain ⟨_, b₂, -, h⟩ := bind_eq_ok.mp h
  obtain ⟨_, b₃, -, h⟩ := bind_eq_ok.mp h
  obtain ⟨_, b₄, -, h⟩ := bind_eq_ok.mp h
  cases h
  exact ⟨rfl, rfl⟩

end AddsNoSteps

theorem lays_settle {span : Span} {a : Arity} (h : settle want span b = .ok a b') :
    Lays b want.settling b' := by
  cases want with
  | value | values =>
      cases h
      exact .nil b
  | discard | address =>
      obtain ⟨_, b₁, hemit, h⟩ := bind_eq_ok.mp h
      cases h
      exact lays_emit' hemit

theorem lays_settleCall {a : Arity} (h : settleCall want b = .ok a b') :
    Lays b want.settlingCall b' := by
  cases want with
  | value | values | discard =>
      cases h
      exact .nil b
  | address =>
      obtain ⟨_, b₁, hemit, h⟩ := bind_eq_ok.mp h
      cases h
      exact lays_emit' hemit

theorem lays_emitConstant {v : Value} {hint : Option Ty} {span : Span} {u : Unit}
    (h : emitConstant v hint span b = .ok u b') : ∃ c, Lays b [.const c] b' :=
  ⟨_, lays_emit' h⟩

theorem lays_emitName {x : String} {hint : Option Ty} {span : Span} {u : Unit}
    (h : emitName x hint span b = .ok u b') :
    ∃ op, (op = .load x ∨ ∃ c, op = .const c) ∧ Lays b [op] b' := by
  obtain ⟨_, _, hget, h⟩ := bind_eq_ok.mp h
  cases hget
  by_cases hshadowed : b.names.isShadowed x = true
  · rw [if_pos hshadowed] at h
    exact ⟨_, .inl rfl, lays_emit' h⟩
  · rw [if_neg hshadowed] at h
    cases hvalue : predeclared? b.iota x with
    | none =>
        rw [hvalue] at h
        exact ⟨_, .inl rfl, lays_emit' h⟩
    | some v =>
        rw [hvalue] at h
        obtain ⟨c, hc⟩ := lays_emitConstant h
        exact ⟨_, .inr ⟨c, rfl⟩, hc⟩

theorem emitName_eq (x : String) (hint : Option Ty) (span : Span) :
    emitName x hint span = discard (compile (.ident ⟨none, span⟩ x) (.value hint)) := by
  funext b
  unfold compile
  change _ = EStateM.map (Function.const Arity PUnit.unit)
    (EStateM.bind (emitName x hint span) fun _ => EStateM.pure (.fixed 1)) b
  unfold EStateM.map EStateM.bind
  cases emitName x hint span b <;> rfl

theorem lays_addressOf {span : Span} {count : Nat} {u : PUnit}
    (h : ((List.replicate count ()).forM fun _ => emit' (.addressOf .value) span) b = .ok u b') :
    Lays b (List.replicate count (.addressOf .value)) b' := by
  induction count generalizing b with
  | zero =>
      cases h
      exact .nil _
  | succ count ih =>
      obtain ⟨_, b₁, hemit, h⟩ := bind_eq_ok.mp h
      exact (lays_emit' hemit).append (ih h)

-- An action that builds these operands in their order.
structure BringsOperands (x : Build α) (ops : List Operand) : Prop where
  leading : Leading x
  inOrder : ∀ {b a b' steps k}, x b = .ok a b' → StepsKept b'.steps steps →
    AllLead steps b'.pending k → InSourceOrder steps k ops b b'

namespace BringsOperands

theorem quiet {x : Build α} (hx : AddsNoSteps x) : BringsOperands x [] where
  leading := hx.leading
  inOrder h _ _ := .nil (hx _ _ _ h).1 (hx _ _ _ h).2

theorem pure (a : α) : BringsOperands (Pure.pure a : Build α) [] := quiet (.pure a)

theorem fail (e : CompileError) : BringsOperands (Build.fail e : Build α) ops where
  leading := .fail e
  inOrder h := absurd h (fail_ne_ok e _)

theorem bind {x : Build α} {f : α → Build β} (hx : BringsOperands x ops)
    (hf : ∀ a, BringsOperands (f a) ops') :
    BringsOperands (x >>= f) (ops ++ ops') where
  leading := hx.leading.bind fun a => (hf a).leading
  inOrder h hkept hleads := by
    obtain ⟨a, b₁, h₁, h₂⟩ := bind_eq_ok.mp h
    have hbegins := (hf a).leading _ _ _ h₂
    exact .append (hx.inOrder h₁ (hkept.of_extends hbegins.extend) (hbegins.heading hkept hleads))
      ((hf a).inOrder h₂ hkept hleads)

theorem last {x : Build α} {f : α → Build β} (hx : BringsOperands x ops)
    (hf : ∀ a, BringsOperands (f a) []) :
    BringsOperands (x >>= f) ops := List.append_nil ops ▸ bind hx hf

theorem discard {x : Build α} (hx : BringsOperands x ops) :
    BringsOperands (Functor.discard x) ops where
  leading := hx.leading.discard
  inOrder h := by
    obtain ⟨a, h⟩ := discard_eq_ok.mp h
    exact hx.inOrder h

end BringsOperands

-- An expression is built in postorder, in whatever way it is wanted.
def Lowers (e : Expr) : Prop := ∀ want b a b' steps k, compile e want b = .ok a b' →
  StepsKept b'.steps steps → AllLead steps b'.pending k → Lowered steps k e want b b'

theorem Lowers.brings (h : Lowers e) (want : Want) : BringsOperands (compile e want)
    [(e, want.mode)] where
  leading := leadsOff e want
  inOrder hbuild hkept hleads := by
    refine .cons rfl rfl ?_ (.nil rfl rfl)
    rw [heading_last]
    exact h _ _ _ _ _ _ hbuild hkept hleads

theorem Lowers.value (h : Lowers e) (hint : Option Ty) :
    BringsOperands (discard (compile e (.value hint))) [(e, .value)] :=
  (h.brings (.value hint)).discard

-- An action that builds these operands of an expression and then its own steps.
structure Completes (n : Names) (e : Expr) (want : Want) (x : Build Arity) (ops : List Operand) :
    Prop where
  leading : Leading x
  lowered : ∀ {b a b' steps k}, x b = .ok a b' → StepsKept b'.steps steps →
    AllLead steps b'.pending k →
    ∃ b₁ own, InSourceOrder steps (heading b'.steps.size k b₁.steps.size) ops b b₁ ∧
      OwnSteps n e want own ∧ InLine steps k own b₁.steps.size b'.steps.size

namespace Completes

theorem fail (err : CompileError) : Completes n e want (Build.fail err) ops where
  leading := .fail err
  lowered h := absurd h (fail_ne_ok err _)

theorem bind {x : Build α} {f : α → Build Arity} (hx : BringsOperands x ops)
    (hf : ∀ a, Completes n e want (f a) ops') : Completes n e want (x >>= f) (ops ++ ops') where
  leading := hx.leading.bind fun a => (hf a).leading
  lowered h hkept hleads := by
    obtain ⟨a, b₁, h₁, h₂⟩ := bind_eq_ok.mp h
    have hbegins := (hf a).leading _ _ _ h₂
    obtain ⟨b₂, own, hinOrder, hown, hline⟩ := (hf a).lowered h₂ hkept hleads
    have hfirst := hx.inOrder h₁ (hkept.of_extends hbegins.extend) (hbegins.heading hkept hleads)
    rw [← heading_heading _ hinOrder.size_le hline.le] at hfirst
    exact ⟨b₂, own, hfirst.append hinOrder, hown, hline⟩

theorem own {x : Build Arity}
    (hx : ∀ b a b', x b = .ok a b' → ∃ own, OwnSteps n e want own ∧ Lays b own b') :
    Completes n e want x [] where
  leading b a b' h := by
    obtain ⟨own, -, hlays⟩ := hx b a b' h
    exact hlays.begins
  lowered h hkept hleads := by
    obtain ⟨own, hown, hlays⟩ := hx _ _ _ h
    exact ⟨_, own, .nil rfl rfl, hown, hlays.inLine hkept hleads hown.serial⟩

-- The last operands.
theorem last {x : Build α} {f : α → Build Arity} (hx : BringsOperands x ops)
    (hf : ∀ a, Completes n e want (f a) []) : Completes n e want (x >>= f) ops :=
  List.append_nil ops ▸ bind hx hf

theorem settle (hown : OwnSteps n e want want.settling) (span : Span) :
    Completes n e want (Build.settle want span) [] :=
  own fun _ _ _ h => ⟨_, hown, lays_settle h⟩

theorem settled {op : StepOp} (hown : OwnSteps n e want (op :: want.settling)) (span : Span) :
    Completes n e want (do emit' op span; Build.settle want span) [] :=
  own fun b a b' h => by
    obtain ⟨_, b₁, hemit, h⟩ := bind_eq_ok.mp h
    exact ⟨_, hown, (lays_emit' hemit).append (lays_settle h)⟩

theorem settledCall {op : StepOp} (hown : OwnSteps n e want (op :: want.settlingCall)) (span : Span) :
    Completes n e want (do emit' op span; Build.settleCall want) [] :=
  own fun b a b' h => by
    obtain ⟨_, b₁, hemit, h⟩ := bind_eq_ok.mp h
    exact ⟨_, hown, (lays_emit' hemit).append (lays_settleCall h)⟩

theorem emitted {op : StepOp} (hown : OwnSteps n e want [op]) (span : Span) (a : Arity) :
    Completes n e want (do emit' op span; return a) [] :=
  own fun b a b' h => by
    obtain ⟨_, b₁, hemit, h⟩ := bind_eq_ok.mp h
    cases h
    exact ⟨_, hown, lays_emit' hemit⟩

end Completes

theorem Completes.lowers (h : ∀ want (b : Builder), ∃ x : Build Arity,
    compile e want b = x b ∧ Completes b.names e want x (Operand.of b.names e want)) : Lowers e := by
  intro want b a b' steps k hbuild hkept hleads
  obtain ⟨x, hx, hcompletes⟩ := h want b
  obtain ⟨b₁, own, hinOrder, hown, hline⟩ := hcompletes.lowered (hx ▸ hbuild) hkept hleads
  exact .straight hbuild hinOrder hown hline

section lists

variable {es : List Expr} (hes : ∀ e ∈ es, Lowers e)

include hes

theorem brings_compileEach (hints : List (Option Ty)) :
    BringsOperands (compileEach es hints) (valuesOf es) := by
  induction es generalizing hints with
  | nil =>
      unfold compileEach
      exact .pure _
  | cons e rest ih =>
      unfold compileEach
      exact .bind ((hes e List.mem_cons_self).value _) fun _ =>
        ih (fun e he => hes e (List.mem_cons_of_mem _ he)) _

theorem brings_compileArgs (hints : List (Option Ty)) (spread : Bool) :
    BringsOperands (compileArgs es hints spread) (argumentsOf es spread) := by
  cases es with
  | nil =>
      unfold compileArgs
      exact .pure _
  | cons e rest =>
      have he := hes e List.mem_cons_self
      have hrest : ∀ hints count span, BringsOperands (do
          compileEach rest hints
          countOperands count span) (valuesOf rest) := fun hints count span =>
        .last (brings_compileEach (fun e he => hes e (List.mem_cons_of_mem _ he)) _) fun _ =>
          .quiet (.countOperands _ _)
      rw [compileArgs, argumentsOf]
      split
      · exact he.brings _
      · exact .bind (he.value _) fun _ => hrest _ _ _

theorem brings_compileRest (hints : List (Option Ty)) (spread : Bool) :
    BringsOperands (compileRest es hints spread) (argumentsOf es.tail spread) := by
  cases es with
  | nil =>
      unfold compileRest
      exact .pure _
  | cons e rest =>
      unfold compileRest
      exact brings_compileArgs (fun e he => hes e (List.mem_cons_of_mem _ he)) hints spread

end lists

theorem brings_compileBound {e : Option Expr} (h : ∀ x ∈ e, Lowers x) :
    BringsOperands (compileBound e) (valuesOf e.toList) := by
  unfold compileBound
  cases e with
  | some e => exact (h e rfl).value _
  | none => exact .pure _

section elements

-- The expressions that an element is made of.
def LowersElement : Element → Prop
  | .plain v | .field _ v => Lowers v
  | .keyed k v => Lowers k ∧ Lowers v

theorem LowersElement.value : ∀ {x : Element}, LowersElement x → Lowers x.value
  | .plain _, h => h
  | .field _ _, h => h
  | .keyed _ _, h => h.2

variable {elems : List Element} (helems : ∀ x ∈ elems, LowersElement x)

include helems

theorem brings_compileFields (fields : List Field) (hnames : ∀ x ∈ elems, x.fieldName?.isSome) :
    BringsOperands (compileFields fields elems) (valuesOf (elems.map Element.value)) := by
  induction elems with
  | nil =>
      unfold compileFields
      exact .pure _
  | cons x rest ih =>
      have ih := ih (fun x hx => helems x (List.mem_cons_of_mem _ hx)) fun x hx =>
        hnames x (List.mem_cons_of_mem _ hx)
      have hx := helems x List.mem_cons_self
      have hname := hnames x List.mem_cons_self
      cases x with
      | plain v | keyed k v => cases hname
      | field name v =>
          unfold compileFields
          exact .bind (hx.value.value _) fun _ => ih

theorem brings_compilePositional (fields : List Field) :
    BringsOperands (compilePositional fields elems)
      (valuesOf ((elems.map Element.value).take fields.length)) := by
  induction elems generalizing fields with
  | nil =>
      unfold compilePositional
      cases fields <;> exact .pure _
  | cons x rest ih =>
      have ih := ih fun x hx => helems x (List.mem_cons_of_mem _ hx)
      have hx := (helems x List.mem_cons_self).value
      cases fields with
      | nil =>
          unfold compilePositional
          exact .pure _
      | cons f fields =>
          cases x with
          | plain v | field name v | keyed k v =>
              unfold compilePositional
              exact .bind (hx.value _) fun _ => ih fields

theorem brings_compileSequence (elem : Ty) (span : Span) :
    BringsOperands (compileSequence elem span elems)
    (valuesOf (elems.flatMap (Element.parts span))) := by
  induction elems with
  | nil =>
      unfold compileSequence
      exact .pure _
  | cons x rest ih =>
      have ih := ih fun x hx => helems x (List.mem_cons_of_mem _ hx)
      have hx := helems x List.mem_cons_self
      cases x with
      | plain v =>
          unfold compileSequence
          exact .bind (hx.value.value _) fun _ => ih
      | keyed k v =>
          unfold compileSequence
          exact .bind (hx.1.value _) fun _ => .bind (hx.2.value _) fun _ => ih
      | field name v =>
          unfold compileSequence
          exact .fail _

theorem brings_compileEntries (key value : Ty) (span : Span)
    (hident : ∀ note x, Lowers (.ident note x)) :
    BringsOperands (compileEntries key value span elems)
      (valuesOf (elems.flatMap (Element.parts span))) := by
  induction elems with
  | nil =>
      unfold compileEntries
      exact .pure _
  | cons x rest ih =>
      have ih := ih fun x hx => helems x (List.mem_cons_of_mem _ hx)
      have hx := helems x List.mem_cons_self
      cases x with
      | plain v =>
          unfold compileEntries
          exact .fail _
      | keyed k v =>
          unfold compileEntries
          exact .bind (hx.1.value _) fun _ => .bind (hx.2.value _) fun _ => ih
      | field name v =>
          rw [compileEntries, emitName_eq]
          exact .bind ((hident ⟨none, span⟩ name).value _) fun _ =>
            .bind (hx.value.value _) fun _ => ih

end elements

theorem UnaryOp.of_isFolded : ∀ {op : UnaryOp} {x : Expr}, op.isFolded x = true →
    ∃ v c, op = .neg ∧ (∃ m, x = .lit m v) ∧ v.negated? = some c
  | .neg, .lit m v, h => by
      obtain ⟨c, hc⟩ := Option.isSome_iff_exists.mp h
      exact ⟨v, c, rfl, ⟨m, rfl⟩, hc⟩

section expressions

variable (note : Note)

theorem lowers_lit (v : Literal) : Lowers (.lit note v) := by
  refine Completes.lowers fun want b => ⟨_, rfl, .own fun b a b' h => ?_⟩
  unfold compile at h
  obtain ⟨_, b₁, hconst, h⟩ := bind_eq_ok.mp h
  obtain ⟨c, hc⟩ := lays_emitConstant hconst
  exact ⟨_, .lit c, hc.append (lays_settle h)⟩

theorem lowers_ident (x : String) : Lowers (.ident note x) := by
  refine Completes.lowers fun want b => ⟨_, rfl, ?_⟩
  unfold compile
  have hname : want.mode ≠ .address → Completes b.names (.ident note x) want (do
      emitName x want.hint note.span
      settle want note.span) [] := fun hmode => .own fun b a b' h => by
    obtain ⟨_, b₁, hemit, h⟩ := bind_eq_ok.mp h
    obtain ⟨op, rfl | ⟨c, rfl⟩, hop⟩ := lays_emitName hemit
    · exact ⟨_, .variable hmode, hop.append (lays_settle h)⟩
    · exact ⟨_, .predeclared c hmode, hop.append (lays_settle h)⟩
  cases want with
  | address s => exact .emitted .variableAddress _ _
  | value _ | values | discard => exact hname (by simp [Want.mode])

theorem lowers_binary {l r : Expr} (hl : Lowers l) (hr : Lowers r) (op : BinaryOp) :
    Lowers (.binary note op l r) := by
  cases hop : op.isLogical with
  | false =>
      refine Completes.lowers fun want b => ⟨_, rfl, ?_⟩
      unfold compile
      rw [hop]
      exact .bind (.quiet .names) fun n => .bind (hl.value _) fun _ => .bind (hr.value _) fun _ =>
        .settled (.binary _ hop) _
  | true =>
      intro want b a b' steps k hbuild hkept hleads
      have h := hbuild
      unfold compile at h
      rw [if_pos hop] at h
      obtain ⟨_, b₁, hleft, h⟩ := bind_eq_ok.mp h
      obtain ⟨short, b₂, hfork, h⟩ := bind_eq_ok.mp h
      obtain ⟨_, b₃, hright, h⟩ := bind_eq_ok.mp h
      obtain ⟨_, _, hadd, hsettle⟩ := bind_eq_ok.mp h
      cases hadd
      obtain ⟨id, he, rfl⟩ := emitFork_ok hfork
      obtain ⟨_, hleft⟩ := discard_eq_ok.mp hleft
      obtain ⟨_, hright⟩ := discard_eq_ok.mp hright
      have hlays := lays_settle hsettle
      have hbegins := leadsOff r _ _ _ _ hright
      have hkept₃ : StepsKept b₃.steps steps := hkept.of_extends hlays.extend
      have hkept₂ := hkept₃.of_extends hbegins.extend
      -- Both the second operand and the step in front of it lead to the steps behind.
      have hbehind := hlays.begins.heading hkept hleads
      have hright_leads : AllLead steps b₃.pending (heading b'.steps.size k b₃.steps.size) :=
        fun slot hslot => hbehind slot (List.mem_append_left _ hslot)
      have hnext := hbegins.heading hkept₃ hright_leads
      rw [heading_heading k hbegins.extend.size_le hlays.extend.size_le, he.pending] at hnext
      obtain ⟨s, hs, hsop⟩ := he.kept hkept₂ rfl
      obtain ⟨s₁, hs₁, hother⟩ :=
        hbehind ⟨id, .other⟩ (List.mem_append_right _ (List.mem_singleton_self _))
      obtain ⟨s₂, hs₂, hsnext⟩ := hnext _ (List.mem_singleton_self _)
      obtain rfl := Option.some.inj (hs.symm.trans hs₁)
      obtain rfl := Option.some.inj (hs.symm.trans hs₂)
      have hshort : s.op =
          .shortCircuit (op = .logicalOr) (heading b'.steps.size k b₃.steps.size) := by
        rw [hsop, show s.op.other? = _ from hother]
        rfl
      have hleft_lowered := hl _ _ _ _ _ _ hleft (hkept₂.of_extends he.extend)
        ((Begins.refl b₁).allLead he hkept₂)
      have hright_lowered := hr _ _ _ _ _ _ hright hkept₃ hright_leads
      exact .logical hop hbuild hleft_lowered (he.id_eq ▸ hs) he.size_eq hshort hsnext hright_lowered
        (hlays.inLine hkept hleads want.serial_settling)

theorem lowers_folded {op : UnaryOp} {x : Expr} (hfolded : op.isFolded x = true) :
    Lowers (.unary note op x) := by
  obtain ⟨v, c, rfl, ⟨m, rfl⟩, hc⟩ := UnaryOp.of_isFolded hfolded
  refine Completes.lowers fun want b => ⟨_, rfl, ?_⟩
  rw [Operand.of, if_pos hfolded]
  refine .own fun b a b' h => ?_
  unfold compile at h
  simp only [hc] at h
  obtain ⟨_, b₁, hconst, h⟩ := bind_eq_ok.mp h
  obtain ⟨c, hlays⟩ := lays_emitConstant hconst
  exact ⟨_, .folded c hfolded, hlays.append (lays_settle h)⟩

theorem lowers_unary {x : Expr} (hx : Lowers x) {op : UnaryOp} (hfolded : op.isFolded x = false) :
    Lowers (.unary note op x) := by
  refine Completes.lowers fun want b => ⟨_, rfl, ?_⟩
  have hplain : (op ≠ .addrOf ∧ op ≠ .deref ∧ op ≠ .recv) → Completes b.names (.unary note op x) want
      (do
        discard (compile x (.value want.hint))
        emit' (.unary op) note.span
        settle want note.span) [(x, .value)] := fun hop =>
    .bind (hx.value _) fun _ => .settled (.unary hop hfolded) _
  rw [Operand.of, if_neg (Bool.eq_false_iff.mp hfolded)]
  cases op with
  | addrOf =>
      unfold compile
      exact .bind (hx.brings _).discard fun _ => .settle .addrOf _
  | deref =>
      unfold compile
      refine .bind (hx.value _) fun _ => ?_
      cases want with
      | address s =>
          refine .own fun b a b' h => ?_
          cases h
          exact ⟨_, .derefAddress, .nil _⟩
      | value _ | values | discard => exact .settled (.deref (by simp [Want.mode])) _
  | recv =>
      unfold compile
      refine .bind (hx.value _) fun _ => ?_
      cases want with
      | values => exact .emitted .recvBoth _ _
      | value _ | address _ | discard => exact .settled (.recv (by simp [Want.mode])) _
  | plus | not | bitNot =>
      unfold compile
      exact hplain (by decide)
  | neg =>
      unfold compile
      cases x with
      | lit m v =>
          have hnone : v.negated? = none :=
            Option.isNone_iff_eq_none.mp (Option.isSome_eq_false_iff.mp hfolded)
          simp only [hnone]
          exact hplain (by decide)
      | _ => exact hplain (by decide)

theorem lowers_index {e k : Expr} (he : Lowers e) (hk : Lowers k) : Lowers (.index note e k) := by
  refine Completes.lowers fun want b => ⟨_, rfl, ?_⟩
  unfold compile
  cases want with
  | address s =>
      exact .bind (he.value _) fun _ => .bind (hk.value _) fun _ => .emitted .elementAddress _ _
  | values =>
      exact .bind (.quiet .names) fun _ => .bind (he.value _) fun _ => .bind (.quiet .names) fun _ =>
        .bind (hk.value _) fun _ => .emitted (.indexBoth _) _ _
  | value _ | discard =>
      exact .bind (.quiet .names) fun _ => .bind (he.value _) fun _ => .bind (.quiet .names) fun _ =>
        .bind (hk.value _) fun _ => .settled (.index _ (by simp [Want.mode])) _

theorem lowers_slice {e : Expr} {low high max : Option Expr} (he : Lowers e)
    (hlow : ∀ x ∈ low, Lowers x) (hhigh : ∀ x ∈ high, Lowers x) (hmax : ∀ x ∈ max, Lowers x) :
    Lowers (.slice note e low high max) := by
  refine Completes.lowers fun want b => ⟨_, rfl, ?_⟩
  have hbounds : valuesOf (low.toList ++ (high.toList ++ max.toList)) =
      valuesOf low.toList ++ (valuesOf high.toList ++ valuesOf max.toList) := by
    simp only [valuesOf, List.map_append]
  change Completes _ _ _ _ ([(e, .value)] ++ valuesOf (low.toList ++ (high.toList ++ max.toList)))
  rw [hbounds]
  unfold compile
  exact .bind (he.value _) fun _ => .bind (brings_compileBound hlow) fun _ =>
    .bind (brings_compileBound hhigh) fun _ => .last (brings_compileBound hmax) fun _ =>
      .settled .slice _

theorem lowers_assert {e : Expr} (he : Lowers e) (ty : Ty) : Lowers (.assert note e ty) := by
  refine Completes.lowers fun want b => ⟨_, rfl, ?_⟩
  unfold compile
  refine .bind (he.value _) fun _ => ?_
  cases want with
  | values => exact .emitted .assertBoth _ _
  | value _ | address _ | discard => exact .settled (.assert (by simp [Want.mode])) _

theorem lowers_convert {e : Expr} (he : Lowers e) (ty : Ty) : Lowers (.convert note ty e) := by
  refine Completes.lowers fun want b => ⟨_, rfl, ?_⟩
  unfold compile
  exact .bind (he.value _) fun _ => .settled .convert _

theorem lowers_funcLit (sig : Signature) (body : List Stmt) : Lowers (.funcLit note sig body) := by
  refine Completes.lowers fun want b => ⟨_, rfl, ?_⟩
  unfold compile
  exact .bind (.quiet (.nested _ _)) fun code => .settled (.funcLit code) _

theorem lowers_typeExpr (ty : Ty) : Lowers (.typeExpr note ty) := by
  intro want b a b' steps k h
  rw [compile_typeExpr] at h
  exact absurd h (unsupported_ne_ok _ _ _)

theorem lowers_call {f : Expr} {args : List Expr} (hf : Lowers f) (hargs : ∀ x ∈ args, Lowers x)
    (spread : Bool) : Lowers (.call note f args spread) := by
  refine Completes.lowers fun want b => ?_
  unfold compile
  refine ⟨_, names_bind _ _, ?_⟩
  cases hshape : b.names.callShape f with
  | builtin builtin =>
      rw [Operand.of]
      simp only [hshape]
      refine .bind (.quiet (.builtinType _ _ _)) fun ty => ?_
      split
      · exact .last (brings_compileRest hargs _ _) fun arity =>
          .settledCall (.builtin ty arity hshape) _
      · exact .last (brings_compileArgs hargs _ _) fun arity =>
          .settledCall (.builtin ty arity hshape) _
  | conversion ty =>
      rw [Operand.of]
      simp only [hshape]
      split
      · next arg =>
          exact .bind ((hargs arg List.mem_cons_self).value _) fun _ =>
            .settled (.conversion hshape) _
      · exact .fail _
  | call =>
      rw [Operand.of]
      simp only [hshape]
      exact .bind (brings_compileArgs hargs _ _) fun arity => .bind (hf.value _) fun _ =>
        .settledCall (.call arity hshape) _

theorem lowers_select {e : Expr} (he : Lowers e) (field : String) : Lowers (.select note e field) := by
  refine Completes.lowers fun want b => ?_
  unfold compile
  refine ⟨_, names_bind _ _, ?_⟩
  dsimp only
  have hselect : (want.mode = .address → b.names.isImport e = true) →
      Completes b.names (.select note e field) want (if b.names.wantsAddress e field then do
        discard (compile e (.address note.span))
        emit' (.select field) note.span
        settle want note.span
      else do
        discard (compile e (.value none))
        emit' (.select field) note.span
        settle want note.span)
      [(e, if b.names.wantsAddress e field then .address else .value)] := fun himport => by
    split
    · exact .bind (he.brings (.address _)).discard fun _ => .settled (.select himport) _
    · exact .bind (he.value _) fun _ => .settled (.select himport) _
  change Completes _ _ _ _ [baseOf b.names e field want]
  unfold baseOf
  cases want with
  | address s =>
      cases himport : b.names.isImport e with
      | false => exact .bind (he.value _) fun _ => .emitted (.fieldAddress himport) _ _
      | true => exact hselect fun _ => himport
  | value | values | discard => exact hselect (fun h => by cases h)

theorem lowers_composite {elems : List Element} (helems : ∀ x ∈ elems, LowersElement x)
    (ty : Option Ty) : Lowers (.composite note ty elems) := by
  refine Completes.lowers fun want b => ?_
  unfold compile
  cases hty : ty.or want.hint with
  | none => exact ⟨_, rfl, .fail _⟩
  | some t =>
      have hrest : ∀ shape : Shape, Completes b.names (.composite note ty elems) want (do
          emit' (.compose (composedType b.names 64 t).1 shape) note.span
          (List.replicate (composedType b.names 64 t).2 ()).forM fun _ =>
            emit' (.addressOf .value) note.span
          settle want note.span) [] := fun shape => .own fun b₁ a b' h => by
        obtain ⟨_, b₂, hemit, h⟩ := bind_eq_ok.mp h
        obtain ⟨_, b₃, haddr, h⟩ := bind_eq_ok.mp h
        exact ⟨_, .composite shape hty,
          (lays_emit' hemit).append ((lays_addressOf haddr).append (lays_settle h))⟩
      refine ⟨_, names_bind _ _, ?_⟩
      rw [Operand.of, hty]
      dsimp only
      cases hresolved : b.names.resolve (composedType b.names 64 t).1 with
      | struct fields =>
          unfold elementsOf
          dsimp only
          split
          · next hfields =>
              have hnames := List.all_eq_true.mp (Bool.and_eq_true_iff.mp hfields).2
              exact .last (brings_compileFields helems _ hnames) fun _ => hrest _
          · exact .last (brings_compilePositional helems _) fun _ => hrest _
      | slice elem => exact .last (brings_compileSequence helems _ _) fun _ => hrest _
      | array size elem => exact .last (brings_compileSequence helems _ _) fun _ => hrest _
      | map key value => exact .last (brings_compileEntries helems _ _ _ lowers_ident) fun _ => hrest _
      | _ => exact .fail _

end expressions

mutual

theorem lowers : ∀ e : Expr, Lowers e
  | .lit note v => lowers_lit note v
  | .ident note x => lowers_ident note x
  | .binary note op l r => lowers_binary note (lowers l) (lowers r) op
  | .unary note op x => by
      cases hfolded : op.isFolded x with
      | true => exact lowers_folded note hfolded
      | false => exact lowers_unary note (lowers x) hfolded
  | .call note f args spread => lowers_call note (lowers f) (lowers_list args) spread
  | .index note e k => lowers_index note (lowers e) (lowers k)
  | .slice note e low high max =>
      lowers_slice note (lowers e) (lowers_option low) (lowers_option high) (lowers_option max)
  | .select note e field => lowers_select note (lowers e) field
  | .composite note ty elems => lowers_composite note (lowers_elements elems) ty
  | .funcLit note sig body => lowers_funcLit note sig body
  | .assert note e ty => lowers_assert note (lowers e) ty
  | .convert note ty e => lowers_convert note (lowers e) ty
  | .typeExpr note ty => lowers_typeExpr note ty

theorem lowers_list : ∀ es : List Expr, ∀ e ∈ es, Lowers e
  | [] => nofun
  | e :: rest => List.forall_mem_cons.mpr ⟨lowers e, lowers_list rest⟩

theorem lowers_option : ∀ e : Option Expr, ∀ x ∈ e, Lowers x
  | none => nofun
  | some e => fun _ hx => Option.mem_some.mp hx ▸ lowers e

theorem lowers_element : ∀ x : Element, LowersElement x
  | .plain v => lowers v
  | .field _ v => lowers v
  | .keyed k v => ⟨lowers k, lowers v⟩

theorem lowers_elements : ∀ elems : List Element, ∀ x ∈ elems, LowersElement x
  | [] => nofun
  | x :: rest => List.forall_mem_cons.mpr ⟨lowers_element x, lowers_elements rest⟩

end

theorem brings_compileTarget (e : Expr) : BringsOperands (compileTarget e) (ofTarget e) := by
  have hlast : ∀ (hint : Option Ty) (x : Expr) (target : Target), BringsOperands (do
      discard (compile x (.value hint))
      return target) [(x, .value)] := fun hint x target =>
    .last ((lowers x).value hint) fun _ => .pure target
  have hother : ∀ err, BringsOperands (Build.fail err : Build Target) [] := fun err => .fail err
  cases e with
  | ident note x =>
      unfold compileTarget
      exact .pure _
  | index note b k =>
      unfold compileTarget
      exact .bind (.quiet .names) fun _ => .bind ((lowers b).value _) fun _ => hlast _ _ _
  | select note b field =>
      unfold compileTarget
      exact hlast _ _ _
  | unary note op x =>
      cases op with
      | deref =>
          unfold compileTarget
          exact hlast _ _ _
      | _ =>
          unfold compileTarget
          exact hother _
  | _ =>
      unfold compileTarget
      exact hother _

theorem brings_deferredCall {span : Span} {f : Expr} {args : List Expr} {spread : Bool}
    (b : Builder) : ∃ x : Build (Arity × Option (Builtin × Option Ty)),
      deferredCall span f args spread b = x b ∧
        BringsOperands x (ofDeferred b.names f args spread) := by
  have hargs := lowers_list args
  unfold deferredCall
  refine ⟨_, names_bind _ _, ?_⟩
  rw [ofDeferred]
  cases hshape : b.names.callShape f with
  | builtin builtin =>
      refine .bind (.quiet (.builtinType _ _ _)) fun ty => ?_
      dsimp only
      split
      · exact .last (brings_compileRest hargs _ _) fun _ => .pure _
      · exact .last (brings_compileArgs hargs _ _) fun _ => .pure _
  | conversion ty => exact .fail _
  | call =>
      exact .bind (brings_compileArgs hargs _ _) fun arity => .bind ((lowers f).value _) fun _ =>
        .pure _

-- Where the work on an expression starts.
inductive Task where
  | expression (e : Expr) (want : Want)
  | target (e : Expr)
  | deferred (span : Span) (f : Expr) (args : List Expr) (spread : Bool)

namespace Task

def build : Task → Build Unit
  | expression e want => discard (compile e want)
  | target e => discard (compileTarget e)
  | deferred span f args spread => discard (deferredCall span f args spread)

-- The steps of an expression, or those of the operands of a destination or a deferred call, stand in
-- postorder.
def InPostorder (steps : Array Step) (k : Option StepId) (b b' : Builder) : Task → Prop
  | expression e want => Lowered steps k e want b b'
  | target e => InSourceOrder steps k (ofTarget e) b b'
  | deferred _ f args spread => InSourceOrder steps k (ofDeferred b.names f args spread) b b'

theorem inPostorder (task : Task) {b b' : Builder} {steps : Array Step} {k : Option StepId}
    (hbuild : task.build b = .ok () b') (hkept : StepsKept b'.steps steps)
    (hleads : AllLead steps b'.pending k) : task.InPostorder steps k b b' := by
  cases task with
  | expression e want =>
      obtain ⟨a, hbuild⟩ := discard_eq_ok.mp hbuild
      exact lowers e _ _ _ _ _ _ hbuild hkept hleads
  | target e =>
      obtain ⟨a, hbuild⟩ := discard_eq_ok.mp hbuild
      exact (brings_compileTarget e).inOrder hbuild hkept hleads
  | deferred span f args spread =>
      obtain ⟨a, hbuild⟩ := discard_eq_ok.mp hbuild
      obtain ⟨x, hx, hbrings⟩ := brings_deferredCall b
      exact hbrings.inOrder (hx ▸ hbuild) hkept hleads

-- A run goes straight over the steps.
theorem InPostorder.straight_line {task : Task} {b b' : Builder} {steps : Array Step}
    {k : Option StepId} (h : task.InPostorder steps k b b') : b.steps.size ≤ b'.steps.size ∧
      Straight steps k b.steps.size b'.steps.size := by
  cases task with
  | expression e want => exact ⟨Lowered.extend h |>.size_le, Lowered.straight_line h⟩
  | target e | deferred span f args spread =>
      exact ⟨InSourceOrder.size_le h, InSourceOrder.straight_line h⟩

end Task

end Build

-- Expressions are lowered in postorder, and every run takes each of their steps once, in that order,
-- unless a logical operation is cut short in front of it or the run ends there.
theorem operands_run_in_source_order (task : Task) {b b' : Builder} {steps : Array Step}
    {k : Option StepId} (hbuild : task.build b = .ok () b') (hkept : StepsKept b'.steps steps)
    (hleads : AllLead steps b'.pending k) (hexit : ∀ j ∈ k, j = b'.steps.size) :
    task.InPostorder steps k b b' ∧ ∀ (p : Program) (n : Nat) (m : Machine),
      p.Sweeps steps k b.steps.size b'.steps.size n m := by
  have hpostorder := task.inPostorder hbuild hkept hleads
  obtain ⟨hle, hstraight⟩ := hpostorder.straight_line
  exact ⟨hpostorder, fun p n m => Program.sweeps_of_straight p hstraight hle hexit n m⟩

-- The call `g()` in `ok && g()`.
def guarded : Expr :=
  .binary Note.empty .logicalAnd (.ident Note.empty "ok")
    (.call Note.empty (.ident Note.empty "g") [] false)

-- A function with these two variables.
def okAndG : Builder := .start ⟨.empty, .initial, [[("ok", some .bool), ("g", none)]]⟩ #[] .empty

-- A machine where `ok` is false.
def notOk : Machine :=
  { Machine.start .silent with
    heap := { Heap.empty with scopes := #[⟨[("ok", .plain (.bool false))], none, true⟩] } }

-- Whether its four steps are built, of which the first two are taken.
def guardedIsSkipped : Bool :=
  match (Task.expression guarded (.value none)).build okAndG with
  | .ok _ b =>
      (Program.bare .initial).visits b.steps b.steps.size 9 0 notOk = [0, 1] ∧ b.steps.size = 4
  | .error _ _ => false

theorem guarded_call_is_skipped : ∃ b,
    (Task.expression guarded (.value none)).build okAndG = .ok () b ∧
    (Task.expression guarded (.value none)).InPostorder b.steps none okAndG b ∧
    (Program.bare .initial).Sweeps b.steps none 0 4 9 notOk ∧
    (Program.bare .initial).visits b.steps 4 9 0 notOk = [0, 1] := by
  have hbuilt : guardedIsSkipped = true := by decide +kernel
  unfold guardedIsSkipped at hbuilt
  split at hbuilt
  · next b hb =>
      obtain ⟨hvisits, hsize⟩ := of_decide_eq_true hbuilt
      have hat : AtSite .start okAndG := .start _ _ _
      have hopen := (hat.performs (performs_value (compiles guarded) none) hb).site.linear.isOpen
      have hleads : AllLead b.steps b.pending none := fun slot hslot =>
        (hopen slot).2 (List.count_pos_iff.mpr (List.mem_append_left _ hslot))
      obtain ⟨hpostorder, hsweeps⟩ := operands_run_in_source_order
        (Task.expression guarded (.value none)) hb (.refl b.steps) hleads nofun
      rw [hsize] at hvisits hsweeps
      exact ⟨b, hb, hpostorder, hsweeps _ 9 notOk, hvisits⟩
  · cases hbuilt

-- A literal of a struct type with the field `x`, whose one element is `g(): 1`.
def keyedStruct : Expr :=
  .composite Note.empty (some (.struct [⟨"x", .plainInt, false⟩]))
    [.keyed (.call Note.empty (.ident Note.empty "g") [] false) (.lit Note.empty (.int 1))]

-- Whether it is built without a call.
def keyIsDropped : Bool :=
  match (Task.expression keyedStruct (.value none)).build okAndG with
  | .ok _ b => b.steps.all fun s => !s.op.isCall
  | .error _ _ => false

-- The key of an element of a struct literal is not evaluated.
theorem struct_literal_drops_key : ∃ b,
    (Task.expression keyedStruct (.value none)).build okAndG = .ok () b ∧
    ∀ s ∈ b.steps, s.op.isCall = false := by
  have hbuilt : keyIsDropped = true := by decide +kernel
  unfold keyIsDropped at hbuilt
  split at hbuilt
  · next b hb =>
      have hcalls := Array.all_eq_true'.mp hbuilt
      exact ⟨b, hb, fun s hs => by simpa using hcalls s hs⟩
  · cases hbuilt

end StepGraph

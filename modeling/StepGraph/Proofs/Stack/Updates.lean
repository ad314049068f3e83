import StepGraph.Proofs.Stack.Parts

open EStateM (bind_of_ok bind_eq_ok discard_eq_ok)

namespace StepGraph

open Build

-- The step that reads a destination as an expression: a variable, an element, a field, or what a
-- pointer points to.
inductive Build.ReadsBy (b : Builder) : Expr → StepOp → Prop
  | ident (note : Note) (x : String)
      (h : b.names.isShadowed x = true ∨ predeclared? b.iota x = none) :
      ReadsBy b (.ident note x) (.load x)
  | index (note : Note) (base key : Expr) :
      ReadsBy b (.index note base key) (.index false (b.names.mapValueType? base))
  | select (note : Note) (base : Expr) (x : String) (h : b.names.wantsAddress base x = false) :
      ReadsBy b (.select note base x) (.select x)
  | deref (note : Note) (e : Expr) : ReadsBy b (.unary note .deref e) .deref

-- The name of a variable is built to one step.
theorem loads_of_compile {b b' : Builder} {note : Note} {x : String} {hint : Option Ty}
    (h : b.names.isShadowed x = true ∨ predeclared? b.iota x = none)
    (hbuild : discard (compile (.ident note x) (.value hint)) b = .ok () b') :
    emit' (.load x) note.span b = .ok () b' := by
  have hname : emitName x hint note.span b = emit' (.load x) note.span b := by
    unfold emitName
    rw [bind_of_ok (rfl : (get : Build Builder) b = .ok b b)]
    rcases h with h | h
    · rw [if_pos h]
    · rw [h]
      split <;> rfl
  obtain ⟨a, hbuild⟩ := discard_eq_ok.mp hbuild
  unfold compile at hbuild
  obtain ⟨_, b₁, hemit, hbuild⟩ := bind_eq_ok.mp hbuild
  cases hbuild
  exact hname ▸ hemit

-- What builds a destination as an expression builds its operands first.
theorem Build.ReadsBy.built {b b' : Builder} {t : Expr} {op : StepOp} {hint : Option Ty}
    (h : ReadsBy b t op) (hbuild : discard (compile t (.value hint)) b = .ok () b') :
    ∃ (x : Build Unit) (left : List Item) (span : Span) (b₁ : Builder),
      (∀ types items, Operates types items x fun _ => left ++ items) ∧ x b = .ok () b₁ ∧
        emit' op span b₁ = .ok () b' := by
  obtain ⟨a, hbuild⟩ := discard_eq_ok.mp hbuild
  cases h with
  | ident note x h =>
      exact ⟨pure (), [], note.span, b, fun _ _ => .pure _ rfl, rfl,
        loads_of_compile h (discard_eq_ok.mpr ⟨a, hbuild⟩)⟩
  | index note base key =>
      unfold compile at hbuild
      obtain ⟨n, _, hn, hbuild⟩ := bind_eq_ok.mp hbuild
      cases hn
      obtain ⟨_, b₁, hbase, hbuild⟩ := bind_eq_ok.mp hbuild
      obtain ⟨n, _, hn, hbuild⟩ := bind_eq_ok.mp hbuild
      cases hn
      obtain ⟨_, b₂, hkey, hbuild⟩ := bind_eq_ok.mp hbuild
      obtain ⟨_, b₃, hemit, hbuild⟩ := bind_eq_ok.mp hbuild
      cases hbuild
      exact ⟨_, [.one, .one], note.span, b₂,
        fun _ _ => .bind ((compiles base).value none) fun _ => (compiles key).value _,
        (bind_of_ok hbase).trans hkey, hemit⟩
  | select note base x h =>
      unfold compile at hbuild
      obtain ⟨n, _, hn, hbuild⟩ := bind_eq_ok.mp hbuild
      cases hn
      simp only [h, Bool.false_eq_true, if_false] at hbuild
      obtain ⟨_, b₁, hbase, hbuild⟩ := bind_eq_ok.mp hbuild
      obtain ⟨_, b₂, hemit, hbuild⟩ := bind_eq_ok.mp hbuild
      cases hbuild
      exact ⟨_, [.one], note.span, b₁, fun _ _ => (compiles base).value none, hbase, hemit⟩
  | deref note e =>
      unfold compile at hbuild
      obtain ⟨_, b₁, hx, hbuild⟩ := bind_eq_ok.mp hbuild
      obtain ⟨_, b₂, hemit, hbuild⟩ := bind_eq_ok.mp hbuild
      cases hbuild
      exact ⟨_, [.one], note.span, b₁, fun _ _ => (compiles e).value none, hx, hemit⟩

namespace Program

variable {p : Program} {steps : Array Step} {s : Site} {b b' : Builder} {span : Span}
  {op : BinaryOp} {t v : Expr} {label : Option String}

-- `target op= v`, from the first step of the operands of the target on: these, what the target
-- holds, the value, the operator, and the store.
def update (p : Program) (steps : Array Step) (target : Target) (ty : Option Ty) (op : BinaryOp)
    (resolved : Option Family) (first load apply : StepId) (k : Option StepId) :
    Stretch (Option StepId) := do
  p.across steps first load
  p.does steps load (.loadTarget target ty)
  p.across steps (load + 1) apply
  applies steps apply op resolved
  p.does steps (apply + 1) (.assign [target] (.fixed 1))
  return k

-- The operator and the store behind it, with both operands on the stack.
theorem follows_store {target : Target} {resolved : Option Family} {b₁ : Builder}
    (hbinary : Emitted (.binary op resolved) b b.steps.size b₁)
    (hassign : Emitted (.assign [target] (.fixed 1)) b₁ b₁.steps.size b')
    (hkept : StepsKept b'.steps steps) : ∃ k, p.Follows steps (some b.steps.size) do
      applies steps b.steps.size op resolved
      p.does steps (b.steps.size + 1) (.assign [target] (.fixed 1))
      return k := by
  obtain ⟨s, hs, hop⟩ := hassign.kept hkept rfl
  refine ⟨s.next, .applies hbinary (hkept.of_extends hassign.extend)
    ((Begins.refl b₁).allLead hassign hkept) ?_⟩
  rw [← hbinary.size_eq]
  exact .does hs hop rfl (.done s.next)

theorem follows_update (hp : p.HasSteps steps) (hat : AtSite s b)
    (hbuild : compileStmt (.opAssign span op t v) label b = .ok () b')
    (hkept : StepsKept b'.steps steps) (htypes : b'.names.types.KeepsStructs p.types) :
    ∃ (target : Target) (b₁ : Builder) (names : Names) (load apply : StepId) (k : Option StepId),
      compileTarget t b = .ok target b₁ ∧
      p.Evaluates steps (compileTarget t) target b.names (List.replicate target.operands .one)
        b.steps.size load ∧
      p.Evaluates steps (discard (compile v (.value (if op.isShift then none else
        b.names.staticType t)))) () names [.one] (load + 1) apply ∧
      p.Follows steps (some b.steps.size) (p.update steps target (b.names.staticType t) op
        (if op.isShift then none else resolved? op (b.names.staticType t) (b.names.staticType t))
        b.steps.size load apply k) := by
  unfold compileStmt at hbuild
  obtain ⟨n, _, hn, h⟩ := bind_eq_ok.mp hbuild
  cases hn
  obtain ⟨target, b₁, htarget, h⟩ := bind_eq_ok.mp h
  obtain ⟨_, b₂, hload, h⟩ := bind_eq_ok.mp h
  obtain ⟨_, b₃, hvalue, h⟩ := bind_eq_ok.mp h
  obtain ⟨_, b₄, hbinary, hassign⟩ := bind_eq_ok.mp h
  have c₁ := hat.performs (performs_operands (targets t)) htarget
  obtain ⟨e₂, c₂⟩ := c₁.site.emits s.items rfl rfl hload
  have c₃ := c₂.site.performs (performs_value (compiles v) _) hvalue
  obtain ⟨e₄, c₄⟩ := c₃.site.emits (List.replicate target.operands .one ++ s.items) rfl rfl hbinary
  obtain ⟨e₅, c₅⟩ := c₄.site.emits s.items (by simp [StepOp.needs, Site.withItems, StepOp.gives])
    rfl hassign
  have k₄ := hkept.of_extends c₅.extend
  have k₃ := k₄.of_extends c₄.extend
  have k₂ := k₃.of_extends c₃.extend
  have hstart := ((leadsOff v).value _ _ _ _ hvalue).allLead e₄ k₄
  have htypes₃ := c₄.types.trans (c₅.types.trans htypes)
  have htypes₁ := c₂.types.trans (c₃.types.trans htypes₃)
  have hfirst := hp.evaluates (targets t) hat htarget (k₂.of_extends c₂.extend)
    ((Begins.refl b₁).allLead e₂ k₂) htypes₁
  have hsecond := hp.evaluates_value c₂.site hvalue k₃ ((Begins.refl b₃).allLead e₄ k₄) htypes₃
  obtain ⟨k, hstore⟩ := follows_store (p := p) e₄ e₅ hkept
  rw [e₂.size_eq] at hsecond hstart
  refine ⟨target, b₁, b₂.names, b₁.steps.size, b₃.steps.size, k, htarget, hfirst, hsecond, ?_⟩
  refine .across hfirst.part hfirst.le (.emitted e₂ k₂ rfl (fun _ => rfl) rfl hstart ?_)
  exact .across hsecond.part hsecond.le hstore

-- What `t = t op v` builds in turn.
theorem reassign_ok {note : Note} (hop : op.isLogical = false)
    (h : compileStmt (.assign span [t] [.binary note op t v]) label b = .ok () b') :
    ∃ target b₁ b₂ b₃ b₄, compileTarget t b = .ok target b₁ ∧
      discard (compile t (.value (operandHints b₁.names op t v (b₁.names.staticType t)).1)) b₁ = .ok () b₂ ∧
      discard (compile v (.value (operandHints b₁.names op t v (b₁.names.staticType t)).2)) b₂ = .ok () b₃ ∧
      emit' (.binary op (resolved? op
        (operandType b₁.names t (operandHints b₁.names op t v (b₁.names.staticType t)).1)
        (operandType b₁.names v (operandHints b₁.names op t v (b₁.names.staticType t)).2)))
        note.span b₃ = .ok () b₄ ∧
      emit' (.assign [target] (.fixed 1)) span b₄ = .ok () b' := by
  unfold compileStmt compileTargets compileTargets compileValues compileEach at h
  obtain ⟨targets, b₁, htargets, h⟩ := bind_eq_ok.mp h
  obtain ⟨target, b₀, htarget, htargets⟩ := bind_eq_ok.mp htargets
  obtain ⟨n, _, hn, htargets⟩ := bind_eq_ok.mp htargets
  cases hn
  cases htargets
  obtain ⟨arity, b₃, hvalues, hassign⟩ := bind_eq_ok.mp h
  obtain ⟨_, b₂, hvalue, hvalues⟩ := bind_eq_ok.mp hvalues
  cases hvalues
  obtain ⟨_, hvalue⟩ := discard_eq_ok.mp hvalue
  rw [compile] at hvalue
  simp only [hop, Bool.false_eq_true, if_false] at hvalue
  obtain ⟨n, _, hn, hvalue⟩ := bind_eq_ok.mp hvalue
  cases hn
  obtain ⟨_, b₄, hl, hvalue⟩ := bind_eq_ok.mp hvalue
  obtain ⟨_, b₅, hr, hvalue⟩ := bind_eq_ok.mp hvalue
  obtain ⟨_, b₆, hbinary, hvalue⟩ := bind_eq_ok.mp hvalue
  cases hvalue
  exact ⟨target, b₁, b₄, b₅, _, htarget, hl, hr, hbinary, hassign⟩

-- The row ends with a step that reads what the steps in front of it have pushed.
structure Rereads (p : Program) (steps : Array Step) (first read : StepId) (op : StepOp) : Prop where
  part : ForwardPart steps first read
  le : first ≤ read
  works : p.step op = do p.work op; return .next
  step : ∃ s, steps[read]? = some s ∧ s.op = op ∧ s.next = some (read + 1)

theorem HasSteps.rereads {op : StepOp} {hint : Option Ty} (hp : p.HasSteps steps) (hat : AtSite s b)
    (hreads : ReadsBy b t op) (hbuild : discard (compile t (.value hint)) b = .ok () b')
    (hkept : StepsKept b'.steps steps) (hleads : AllLead steps b'.pending (some b'.steps.size))
    (htypes : b'.names.types.KeepsStructs p.types) :
    ∃ read, b'.steps.size = read + 1 ∧ p.Rereads steps b.steps.size read op := by
  obtain ⟨x, left, span, b₁, hoperates, hx, hemit⟩ := hreads.built hbuild
  have c₁ := hat.performs (performs_operands hoperates) hx
  obtain ⟨id, hemit⟩ := discard_eq_ok.mp hemit
  have he := emit_ok hemit
  have hnames : b'.names = b₁.names := congrArg (·.names) he.state
  have hoperands := hp.evaluates hoperates hat hx (hkept.of_extends he.extend)
    ((Begins.refl b₁).allLead he hkept) (hnames ▸ htypes)
  obtain ⟨hplain, hother, hworks⟩ : op.bare.isPlain = true ∧ (∀ k, op.bare.toOther k = op) ∧
      p.step op = do p.work op; return .next := by cases hreads <;> exact ⟨rfl, fun _ => rfl, rfl⟩
  obtain rfl := he.id_eq
  obtain ⟨u, hu, hop⟩ := he.kept hkept hplain
  obtain ⟨u', hu', hnext⟩ := hleads ⟨_, .next⟩ (he.pending ▸ List.mem_singleton_self _)
  obtain rfl := Option.some.inj (hu.symm.trans hu')
  exact ⟨_, he.size_eq, hoperands.part, hoperands.le, hworks, u, hu, hop.trans (hother _),
    he.size_eq ▸ hnext⟩

-- `target = l op r`, from the first step of the operands of the target on.
def reassign (p : Program) (steps : Array Step) (target : Target) (op : BinaryOp)
    (resolved : Option Family) (first left right apply : StepId) (k : Option StepId) :
    Stretch (Option StepId) := do
  p.across steps first left
  p.across steps left right
  p.across steps right apply
  applies steps apply op resolved
  p.does steps (apply + 1) (.assign [target] (.fixed 1))
  return k

theorem follows_reassign {note : Note} (hp : p.HasSteps steps) (hat : AtSite s b)
    (hop : op.isLogical = false)
    (hbuild : compileStmt (.assign span [t] [.binary note op t v]) label b = .ok () b')
    (hkept : StepsKept b'.steps steps) (htypes : b'.names.types.KeepsStructs p.types) :
    ∃ (target : Target) (b₁ : Builder) (names : Names) (hints : Option Ty × Option Ty)
      (left right apply : StepId) (k : Option StepId),
      compileTarget t b = .ok target b₁ ∧
      hints = operandHints b₁.names op t v (b₁.names.staticType t) ∧
      p.Evaluates steps (compileTarget t) target b.names (List.replicate target.operands .one)
        b.steps.size left ∧
      p.Evaluates steps (discard (compile t (.value hints.1))) () b₁.names [.one] left right ∧
      p.Evaluates steps (discard (compile v (.value hints.2))) () names [.one] right apply ∧
      p.Follows steps (some b.steps.size) (p.reassign steps target op
        (resolved? op (operandType b₁.names t hints.1) (operandType b₁.names v hints.2)) b.steps.size
        left right apply k) ∧
      ∀ op', ReadsBy b₁ t op' → ∃ read, right = read + 1 ∧ p.Rereads steps left read op' := by
  obtain ⟨target, b₁, b₂, b₃, b₄, htarget, hl, hr, hbinary, hassign⟩ := reassign_ok hop hbuild
  have c₁ := hat.performs (performs_operands (targets t)) htarget
  have c₂ := c₁.site.performs (performs_value (compiles t) _) hl
  have c₃ := c₂.site.performs (performs_value (compiles v) _) hr
  obtain ⟨e₄, c₄⟩ := c₃.site.emits (List.replicate target.operands .one ++ s.items) rfl rfl hbinary
  obtain ⟨e₅, c₅⟩ := c₄.site.emits s.items (by simp [StepOp.needs, Site.withItems, StepOp.gives])
    rfl hassign
  have k₄ := hkept.of_extends c₅.extend
  have k₃ := k₄.of_extends c₄.extend
  have k₂ := k₃.of_extends c₃.extend
  have hbegins₂ := (leadsOff v).value _ _ _ _ hr
  have hbegins₁ := (leadsOff t).value _ _ _ _ hl
  have htypes₃ := c₄.types.trans (c₅.types.trans htypes)
  have htypes₂ := c₃.types.trans htypes₃
  have hfirst := hp.evaluates (targets t) hat htarget (k₂.of_extends c₂.extend)
    ((hbegins₁.trans hbegins₂).allLead e₄ k₄) (c₂.types.trans htypes₂)
  have hleft := hp.evaluates_value c₁.site hl k₂ (hbegins₂.allLead e₄ k₄) htypes₂
  have hright := hp.evaluates_value c₂.site hr k₃ ((Begins.refl b₃).allLead e₄ k₄) htypes₃
  obtain ⟨k, hstore⟩ := follows_store (p := p) e₄ e₅ hkept
  refine ⟨target, b₁, b₂.names, _, b₁.steps.size, b₂.steps.size, b₃.steps.size, k, htarget, rfl,
    hfirst, hleft, hright, ?_, fun op' hreads =>
      hp.rereads c₁.site hreads hl k₂ (hbegins₂.allLead e₄ k₄) htypes₂⟩
  exact .across hfirst.part hfirst.le (.across hleft.part hleft.le
    (.across hright.part hright.le hstore))

end Program

theorem compileStmt_incDec (span : Span) (t : Expr) (increment : Bool) (label : Option String) :
    compileStmt (.incDec span t increment) label =
      compileStmt (.opAssign span (if increment then .add else .sub) t (.lit ⟨none, span⟩ (.int 1)))
        label := by
  have hlit : ∀ hint, discard (compile (.lit ⟨none, span⟩ (.int 1)) (.value hint)) =
      emitConstant (.plainInt 1) hint span := by
    intro hint
    unfold compile
    change discard (emitConstant (.plainInt 1) (hint.or none) span >>= fun _ => pure (Arity.fixed 1)) = _
    rw [Option.or_none]
    change (fun _ => ()) <$> (emitConstant (.plainInt 1) hint span >>= fun _ => pure (Arity.fixed 1)) = _
    rw [map_bind]
    simp only [map_pure, bind_pure_unit]
  have hshift : (if increment then BinaryOp.add else .sub).isShift = false := by
    cases increment <;> rfl
  unfold compileStmt
  simp only [hlit, hshift, Bool.false_eq_true, if_false]

-- No literal is a destination.
theorem operandType_of_target {n : Names} {t : Expr} {hint : Option Ty} {target : Target}
    {b b' : Builder} (h : compileTarget t b = .ok target b') :
    operandType n t hint = n.staticType t := by
  cases t with
  | lit note v =>
      unfold compileTarget at h
      exact absurd h (fail_ne_ok _ _)
  | _ => exact Option.or_none

-- `t op= v` does once what the operands of its destination do, reads it, does once what `v` does,
-- and stores what the operator gives. `t = t op v` reads `t` as an expression in between, and `t++` is
-- `t += 1`. On operands of the type of `t` both ways to resolve the operator come to the same.
theorem compound_assignment_stores_operator_result {p : Program} (hhosts : p.hosts.Behaves)
    (hb : p.Bounded) (hp : p.Compiled) {steps : Array Step}
    (hfits : ∀ s ∈ steps, s.op.LiteralFits p.types) {s : Site} {b b' : Builder} (hat : AtSite s b)
    (hkept : StepsKept b'.steps steps) (htypes : b'.names.types.KeepsStructs p.types) (span : Span)
    (op : BinaryOp) (t v : Expr) (label : Option String) :
    (compileStmt (.opAssign span op t v) label b = .ok () b' →
      ∃ (target : Target) (names : Names) (resolved : Option Family) (load apply : StepId)
        (k : Option StepId),
        p.Evaluates steps (compileTarget t) target b.names (List.replicate target.operands .one)
          b.steps.size load ∧
        p.Evaluates steps (discard (compile v (.value (if op.isShift then none else
          b.names.staticType t)))) () names [.one] (load + 1) apply ∧
        p.Follows steps (some b.steps.size) (p.update steps target (b.names.staticType t) op resolved
          b.steps.size load apply k) ∧
        ∀ h l r, op.OperandsMeetType (b.names.staticType t) l r →
          applied h op resolved l r = evaluateBinary h op l r) ∧
    (∀ note, op.isLogical = false →
      compileStmt (.assign span [t] [.binary note op t v]) label b = .ok () b' →
      ∃ (target : Target) (b₁ : Builder) (names : Names) (hints : Option Ty × Option Ty)
        (resolved : Option Family) (left right apply : StepId) (k : Option StepId),
        compileTarget t b = .ok target b₁ ∧
        hints = operandHints b₁.names op t v (b₁.names.staticType t) ∧
        p.Evaluates steps (compileTarget t) target b.names (List.replicate target.operands .one)
          b.steps.size left ∧
        p.Evaluates steps (discard (compile t (.value hints.1))) () b₁.names [.one] left right ∧
        p.Evaluates steps (discard (compile v (.value hints.2))) () names [.one] right apply ∧
        p.Follows steps (some b.steps.size) (p.reassign steps target op resolved b.steps.size left
          right apply k) ∧
        ∀ h l r, op.OperandsMeetType (b₁.names.staticType t) l r →
          applied h op resolved l r = evaluateBinary h op l r) ∧
    ∀ increment, compileStmt (.incDec span t increment) label =
      compileStmt (.opAssign span (if increment then .add else .sub) t (.lit ⟨none, span⟩ (.int 1)))
        label := by
  have hruns : p.HasSteps steps := ⟨hb, Program.calls_of_verified hhosts hb hp.verified, hfits⟩
  refine ⟨fun hbuild => ?_, fun note hop hbuild => ?_, fun increment =>
    compileStmt_incDec span t increment label⟩
  · obtain ⟨target, -, names, load, apply, k, -, hfirst, hsecond, hfollows⟩ :=
      Program.follows_update hruns hat hbuild hkept htypes
    refine ⟨target, names, _, load, apply, k, hfirst, hsecond, hfollows, fun h l r hmeets => ?_⟩
    split
    · rfl
    · exact applied_eq_dispatched h _ hmeets
  · obtain ⟨target, b₁, names, hints, left, right, apply, k, htarget, hhints, hfirst, hleft, hright,
      hfollows, -⟩ := Program.follows_reassign hruns hat hop hbuild hkept htypes
    refine ⟨target, b₁, names, hints, _, left, right, apply, k, htarget, hhints, hfirst, hleft, hright,
      hfollows, fun h l r hmeets => ?_⟩
    rw [operandType_of_target htarget]
    exact applied_eq_dispatched h _ hmeets

def withInt : Builder := .start ⟨.empty, .initial, [[("x", some .plainInt)]]⟩ #[] .empty

-- `x += 2` and `x = x + 2`.
def addTwo : Stmt := .opAssign Span.none .add (.ident Note.empty "x") (.lit Note.empty (.int 2))

def assignSum : Stmt :=
  .assign Span.none [.ident Note.empty "x"]
    [.binary Note.empty .add (.ident Note.empty "x") (.lit Note.empty (.int 2))]

-- Whether a statement is built, with operands that all have a place.
def isBuiltWithInt (stmt : Stmt) : Bool :=
  match compileStmt stmt none withInt with
  | .ok _ b => b.steps.all (·.op.hasPlaces b.names.types)
  | .error _ _ => false

theorem exists_built {stmt : Stmt} (h : isBuiltWithInt stmt = true) : ∃ b,
    compileStmt stmt none withInt = .ok () b ∧ ∀ s ∈ b.steps, s.op.LiteralFits b.names.types := by
  unfold isBuiltWithInt at h
  split at h
  · next b hb => exact ⟨b, hb, fun s hs =>
      StepOp.literalFits_of_hasPlaces (Array.all_eq_true'.mp h s hs)⟩
  · cases h

theorem two_is_added_once : (∃ (p : Program) (b : Builder) (target : Target)
      (resolved : Option Family) (load apply : StepId) (k : Option StepId),
      compileStmt addTwo none withInt = .ok () b ∧ p.Follows b.steps (some 0)
        (p.update b.steps target (some .plainInt) .add resolved 0 load apply k) ∧
      applied .empty .add resolved (.plainInt 1) (.plainInt 2) = .ok (.plainInt 3)) ∧
    ∃ (p : Program) (b : Builder) (target : Target) (resolved : Option Family)
      (left right apply : StepId) (k : Option StepId),
      compileStmt assignSum none withInt = .ok () b ∧ p.Follows b.steps (some 0)
        (p.reassign b.steps target .add resolved 0 left right apply k) ∧
      applied .empty .add resolved (.plainInt 1) (.plainInt 2) = .ok (.plainInt 3) := by
  have hat : AtSite .start withInt := .start _ _ _
  have hmeets : BinaryOp.add.OperandsMeetType (withInt.names.staticType (.ident Note.empty "x"))
    (.plainInt 1)
      (.plainInt 2) := by
    rw [show withInt.names.staticType (.ident Note.empty "x") = some .plainInt from rfl]
    exact ⟨fun ty hty _ => by cases hty; exact .int _ rfl,
      fun _ ty hty _ => by cases hty; exact .int _ rfl⟩
  constructor
  · have hbuilt : isBuiltWithInt addTwo = true := by decide +kernel
    obtain ⟨b, hb, hfits⟩ := exists_built hbuilt
    let types := b.names.types
    obtain ⟨target, names, resolved, load, apply, k, -, -, hfollows, hoperator⟩ :=
      (compound_assignment_stores_operator_result (Program.behaves_bare types)
        (Program.bounded_bare types) (Program.compiled_bare types) hfits hat (.refl b.steps)
        (.refl _) Span.none .add (.ident Note.empty "x") (.lit Note.empty (.int 2)) none).1 hb
    exact ⟨.bare types, b, target, resolved, load, apply, k, hb, hfollows,
      (hoperator .empty _ _ hmeets).trans rfl⟩
  · have hbuilt : isBuiltWithInt assignSum = true := by decide +kernel
    obtain ⟨b, hb, hfits⟩ := exists_built hbuilt
    let types := b.names.types
    obtain ⟨target, b₁, names, hints, resolved, left, right, apply, k, htarget, -, -, -, -, hfollows,
      hoperator⟩ := (compound_assignment_stores_operator_result (Program.behaves_bare types)
        (Program.bounded_bare types) (Program.compiled_bare types) hfits hat (.refl b.steps)
        (.refl _) Span.none .add (.ident Note.empty "x") (.lit Note.empty (.int 2)) none).2.1
          Note.empty rfl hb
    unfold compileTarget at htarget
    cases htarget
    exact ⟨.bare types, b, _, resolved, left, right, apply, k, hb, hfollows,
      (hoperator .empty _ _ hmeets).trans rfl⟩

-- In a function with a variable of type `complex128` and a constant of type `int`.
def complexAndInt : Names :=
  ⟨.empty, .initial, [[("z", some .complex128), ("c", some .plainInt)]]⟩

-- `z += c` takes the operator of two complex numbers, which is not defined on an integer. `z = z + c`
-- takes the one that looks at its operands.
theorem complex_update_takes_no_int : ∃ f,
    resolved? .add (complexAndInt.staticType (.ident .empty "z"))
      (complexAndInt.staticType (.ident .empty "z")) = some f ∧
    resolved? .add (operandType complexAndInt (.ident .empty "z") none)
      (operandType complexAndInt (.ident .empty "c") none) = none ∧
    (∀ h z n, ∃ e, applied h .add (some f) (.complex128 z) (.plainInt n) = .error e) ∧
    ∀ h z n, ∃ v, applied h .add none (.complex128 z) (.plainInt n) = .ok v := by
  refine ⟨.complex, by decide, by decide, fun h z n => ⟨_, rfl⟩, fun h z n => ⟨_, rfl⟩⟩

end StepGraph

import StepGraph.Proofs.Structured.Expressions
import StepGraph.Proofs.Structured.Jumps

open EStateM (bind_eq_ok discard_eq_ok)

namespace StepGraph.Structured

variable {w : World} {exits : List Exit} {shapes : List Shape} {vars : Vars} {t : Base}
  {x : String} {k k' k₁ : Option StepId} {id id₁ : StepId} {z : Env → Eval Value}

-- Statements that come to their end wherever they stand.

theorem runs_declare {ty : Option Ty} (hz : Yields w shapes vars t k (some id) z)
    (hstep : w.Op id (.declare [x] ty (.fixed 1)) k') (htop : Top shapes) (hty : t.Hints ty) :
    RunsStmt w exits shapes vars (Finishes (vars.declare x t)) k k' (fun env => do
      let v ← z env
      return (env.declare x v, .done)) := by
  intro env m he hat
  refine (hz env [] m he hat).bind fun v k₂ m₁ hgood => ?_
  obtain ⟨rfl, hv, hat₁⟩ := hgood
  exact .performs hstep (hat₁.declare htop x hv hty) fun m₂ hat₂ =>
    .pure ⟨⟨rfl, he.declare x hv⟩, rfl, hat₂⟩

theorem runs_assign (hx : vars.type? x = some t) (hz : Yields w shapes vars t k (some id) z)
    (hstep : w.Op id (.assign [.var x] (.fixed 1)) k') :
    RunsStmt w exits shapes vars (Finishes vars) k k' (fun env => do
      let v ← z env
      return (env.assign x v, .done)) := by
  intro env m he hat
  refine (hz env [] m he hat).bind fun v k₂ m₁ hgood => ?_
  obtain ⟨rfl, hv, hat₁⟩ := hgood
  obtain ⟨old, hold, -⟩ := he.value_of_type hx
  exact .performs hstep (hat₁.assign hold hv) fun m₂ hat₂ =>
    .pure ⟨⟨rfl, he.assign hx hv⟩, rfl, hat₂⟩

theorem yields_loadTarget (hx : vars.type? x = some t) {ty : Option Ty}
    (hstep : w.Op id (.loadTarget (.var x) ty) k') :
    Yields w shapes vars t (some id) k' fun env => ofOption (env.value? x) := by
  intro env ops m he hat
  obtain ⟨v, hvalue, hv⟩ := he.value_of_type hx
  simp only [hvalue]
  exact .performs hstep (hat.loadTarget hvalue ty) fun _ hat' => .pure ⟨rfl, hv, hat'⟩

theorem runs_update {op : BinaryOp} {ty : Option Ty} {resolved : Option Family} {id₂ : StepId}
    (hop : t.result? op = some t) (hresolved : resolved = none ∨ resolved = some t.family)
    (hx : vars.type? x = some t) (hload : w.Op id (.loadTarget (.var x) ty) k)
    (hz : Yields w shapes vars t k (some id₁) z)
    (hstep : w.Op id₁ (.binary op resolved) (some id₂))
    (hassign : w.Op id₂ (.assign [.var x] (.fixed 1)) k') :
    RunsStmt w exits shapes vars (Finishes vars) (some id) k' (fun env => do
      let old ← ofOption (env.value? x)
      let v ← z env
      let new ← ofExcept (operate op old v)
      return (env.assign x new, .done)) := by
  have hnew := yields_binary hop hresolved (yields_loadTarget hx hload) hz hstep
  have hruns : RunsStmt w exits shapes vars (Finishes vars) _ k' _ := runs_assign hx hnew hassign
  intro env m he hat
  have h := hruns env m he hat
  simp only [bind_assoc] at h
  exact h

theorem runs_call (hw : w.WellFormed) {f : String} {sig : FuncType}
    (hf : w.funcs.lookup f = some sig)
    (hlocal : vars.type? f = none) {arity : Arity} {xs : Env → Eval (List Value)}
    (hargs : YieldsAll w shapes vars sig.params arity k (some id₁) xs)
    (hload : w.Op id₁ (.load f) (some id)) (hstep : w.Op id (.call arity false .discard) k') :
    RunsStmt w exits shapes vars (Finishes vars) k k' (fun env => do
      let vs ← xs env
      match w.calls f with
      | some call => discard (call vs)
      | none => print f vs
      return (env, .done)) := by
  intro env m he hat
  obtain ⟨call, hcall, -⟩ := hw.answers f sig hf
  have hinvoke := sim_invocation hw hf hlocal hargs hload hstep he hat hcall
  have hassoc : (do
      let vs ← xs env
      discard (call vs)
      return (env, Signal.done) : Eval (Env × Signal)) =
      ((xs env >>= call) >>= fun _ => pure (env, .done)) := by
    simp [discard, map_const]
  simp only [hcall]
  rw [hassoc]
  refine hinvoke.bind fun r k₂ m₁ hgood => ?_
  obtain ⟨rfl, -, hat₁⟩ := hgood
  exact .pure ⟨⟨rfl, he⟩, rfl, hat₁⟩

theorem runs_print (hw : w.WellFormed) {f : String} {b : Builtin} (hf : w.funcs.lookup f = none)
    (hb : b = .print ∧ f = "print" ∨ b = .println ∧ f = "println") {ts : List Base} {arity : Arity}
    {xs : Env → Eval (List Value)} (hargs : YieldsAll w shapes vars ts arity k (some id) xs)
    {ty : Option Ty} (hstep : w.Op id (.callBuiltin b ty arity false .discard) k') :
    RunsStmt w exits shapes vars (Finishes vars) k k' (fun env => do
      let vs ← xs env
      match w.calls f with
      | some call => discard (call vs)
      | none => print f vs
      return (env, .done)) := by
  intro env m he hat
  simp only [hw.others f hf]
  refine (hargs env [] m he hat).bind fun vs k₂ m₁ hgood => ?_
  obtain ⟨rfl, hvs, stack, hstack, hat₁⟩ := hgood
  refine (sim_print hb hvs hstack hat₁ hstep).bind fun _ k₃ m₂ hgood => ?_
  obtain ⟨rfl, hat₂⟩ := hgood
  exact .pure ⟨⟨rfl, he⟩, rfl, hat₂⟩

end StepGraph.Structured

namespace StepGraph

open Build

-- What a statement leaves alone in the builder.
def Builder.setting (b : Builder) :
    Array Function × Signature × List PendingGoto × Bool × PackageNames × TypeTable :=
  (b.code, b.sig, b.gotos, b.hasDefer, b.names.package, b.names.types)

-- Jumps out of a loop or switch were added.
structure JumpContext.GainsJumps (c c' : JumpContext) : Prop where
  kind : c'.kind = c.kind
  label : c'.label = c.label
  breakDepth : c'.breakDepth = c.breakDepth
  continueDepth : c'.continueDepth = c.continueDepth
  breaks : c.breaks ⊆ c'.breaks
  continues : c.continues ⊆ c'.continues

theorem JumpContext.GainsJumps.refl (c : JumpContext) : c.GainsJumps c :=
  ⟨rfl, rfl, rfl, rfl, fun _ h => h, fun _ h => h⟩

theorem JumpContext.GainsJumps.trans {c c' c'' : JumpContext} (h₁ : c.GainsJumps c')
    (h₂ : c'.GainsJumps c'') :
    c.GainsJumps c'' where
  kind := h₂.kind.trans h₁.kind
  label := h₂.label.trans h₁.label
  breakDepth := h₂.breakDepth.trans h₁.breakDepth
  continueDepth := h₂.continueDepth.trans h₁.continueDepth
  breaks _ h := h₂.breaks (h₁.breaks h)
  continues _ h := h₂.continues (h₁.continues h)

abbrev ContextsGrow : List JumpContext → List JumpContext → Prop :=
  List.Forall₂ JumpContext.GainsJumps

theorem ContextsGrow.refl (contexts : List JumpContext) : ContextsGrow contexts contexts :=
  List.forall₂_same.mpr fun c _ => .refl c

theorem ContextsGrow.trans {c c' c'' : List JumpContext} (h₁ : ContextsGrow c c')
    (h₂ : ContextsGrow c' c'') : ContextsGrow c c'' := by
  induction h₁ generalizing c'' with
  | nil => exact h₂
  | cons h₁ _ ih =>
      cases h₂ with
      | cons h₂ hrest => exact .cons (h₁.trans h₂) (ih hrest)

namespace Structured

-- Where a loop or switch in the making stands and where its jumps lead.
structure ContextMeets (steps : Array Step) (c : JumpContext) (e : Exit) : Prop where
  kind : c.kind = e.kind
  label : c.label = e.label
  breakDepth : c.breakDepth = depth (.scope :: e.shapes)
  continueDepth : c.kind = .loop → c.continueDepth = depth (.round :: e.shapes)
  breaks : AllLead steps c.breaks e.brk
  continues : c.kind = .loop → AllLead steps c.continues e.cont

theorem ContextMeets.grow {steps : Array Step} {c c' : JumpContext} {e : Exit}
    (h : ContextMeets steps c' e) (hg : c.GainsJumps c') : ContextMeets steps c e where
  kind := hg.kind.symm.trans h.kind
  label := hg.label.symm.trans h.label
  breakDepth := hg.breakDepth.symm.trans h.breakDepth
  continueDepth hl := hg.continueDepth.symm.trans (h.continueDepth (hg.kind.trans hl))
  breaks slot hs := h.breaks slot (hg.breaks hs)
  continues hl slot hs := h.continues (hg.kind.trans hl) slot (hg.continues hs)

abbrev AllMeet (steps : Array Step) : List JumpContext → List Exit → Prop :=
  List.Forall₂ (ContextMeets steps)

theorem AllMeet.grow {steps : Array Step} {c c' : List JumpContext} {exits : List Exit}
    (h : AllMeet steps c' exits) (hg : ContextsGrow c c') : AllMeet steps c exits := by
  induction hg generalizing exits with
  | nil => exact h
  | cons hg _ ih =>
      cases h with
      | cons h hrest => exact .cons (h.grow hg) (ih hrest)

-- The builder knows the variables and functions around a statement and the type of the result.
structure BuilderSuits (funcs : Funcs) (result : Option Base) (vars : Vars) (b : Builder) :
    Prop where
  fits : NamesFit b.names funcs vars
  unnamed : b.sig.hasNamedResults = false
  results : b.sig.results.map (·.ty) = (result.map Base.ty).toList

-- The world has the steps of the builder, and all that is open in it leads somewhere.
structure WorldHasBuilder (funcs : Funcs) (result : Option Base) (w : World) (exits : List Exit)
    (b : Builder) (k : Option StepId) : Prop extends WorldLeads funcs w b k where
  result : w.result = result
  meets : AllMeet w.steps b.contexts exits

-- The blocks around a statement lie like this, and a declaration finds a scope.
structure BlocksLie (exits : List Exit) (shapes : List Shape) (declares : Bool) (b : Builder) : Prop where
  depth : b.depth = depth shapes
  inside : ExitsInside exits shapes
  top : declares = true → Top shapes

-- Statements were appended.
structure Grown (b b' : Builder) : Prop where
  setting : b'.setting = b.setting
  depth : b'.depth = b.depth
  tail : b'.names.blocks.tail = b.names.blocks.tail
  contexts : ContextsGrow b.contexts b'.contexts
  extend : StepsExtend b.steps b'.steps
  opened : ∀ held, b.Open held → b'.Open held

-- Steps were appended that do what the evaluation of a statement does.
structure Compiled (funcs : Funcs) (result : Option Base) (vars vars' : Vars) (declares : Bool)
    (typed : Env × Signal → Prop) (b b' : Builder) (x : World → Env → Eval (Env × Signal)) :
    Prop where
  grown : Grown b b'
  suits : BuilderSuits funcs result vars' b'
  still : declares = false → b'.names = b.names
  code : ∀ w exits shapes k, BlocksLie exits shapes declares b →
    WorldHasBuilder funcs result w exits b' k →
    WorldHasBuilder funcs result w exits b (b.entry b' k) ∧
      RunsStmt w exits shapes vars typed (b.entry b' k) k (x w)

section

variable {funcs : Funcs} {result : Option Base} {vars vars' vars'' inner : Vars} {w : World}
  {exits : List Exit} {shapes : List Shape} {b b' b₁ b₂ : Builder} {k k' : Option StepId}
  {declares : Bool} {typed typed' : Env × Signal → Prop} {x y : World → Env → Eval (Env × Signal)}
  {good : World → Option StepId → Option StepId → Prop} {t : Base} {e : Expr} {span : Span}

theorem Grown.refl (b : Builder) : Grown b b := ⟨rfl, rfl, rfl, .refl _, .refl _, fun _ h => h⟩

theorem Grown.trans (h₁ : Grown b b₁) (h₂ : Grown b₁ b₂) : Grown b b₂ where
  setting := h₂.setting.trans h₁.setting
  depth := h₂.depth.trans h₁.depth
  tail := h₂.tail.trans h₁.tail
  contexts := h₁.contexts.trans h₂.contexts
  extend := h₁.extend.trans h₂.extend
  opened held ho := h₂.opened held (h₁.opened held ho)

theorem OnlyBuilds.grown (h : OnlyBuilds b b') : Grown b b' := by
  have hstate := h.state
  refine ⟨?_, ?_, ?_, ?_, h.extend, h.opened⟩
  all_goals rw [hstate]
  · rfl
  · exact .refl _

theorem BuilderSuits.of_grown (hs : BuilderSuits funcs result vars b) (hg : Grown b b')
    (hf : NamesFit b'.names funcs vars') : BuilderSuits funcs result vars' b' := by
  have hsig : b'.sig = b.sig := congrArg (fun s => s.2.1) hg.setting
  exact ⟨hf, hsig ▸ hs.unnamed, hsig ▸ hs.results⟩

theorem BuilderSuits.of_names (hs : BuilderSuits funcs result vars b) (hg : Grown b b')
    (hn : b'.names = b.names) : BuilderSuits funcs result vars b' := hs.of_grown hg (hn ▸ hs.fits)

theorem BlocksLie.of_grown (hl : BlocksLie exits shapes declares b) (hg : Grown b b') :
    BlocksLie exits shapes declares b' := ⟨hg.depth.trans hl.depth, hl.inside, hl.top⟩

theorem BlocksLie.mono (hl : BlocksLie exits shapes declares b) {declares' : Bool}
    (hd : declares' = true → declares = true) : BlocksLie exits shapes declares' b :=
  ⟨hl.depth, hl.inside, fun h => hl.top (hd h)⟩

-- An expression in front of something.
theorem WorldHasBuilder.coded (hs : WorldHasBuilder funcs result w exits b' k)
    (hc : Coded funcs b b' good) :
    WorldHasBuilder funcs result w exits b (b.entry b' k) ∧ good w (b.entry b' k) k := by
  obtain ⟨hl, hgood⟩ := hc.code w k hs.toWorldLeads
  refine ⟨⟨hl, hs.result, ?_⟩, hgood⟩
  have hmeets := hs.meets
  rwa [hc.built.state] at hmeets

theorem Compiled.imp (h : Compiled funcs result vars vars' declares typed b b' x)
    (himp : ∀ r, typed r → typed' r) : Compiled funcs result vars vars' declares typed' b b' x :=
  ⟨h.grown, h.suits, h.still, fun w exits shapes k hl hs =>
    ⟨(h.code w exits shapes k hl hs).1, (h.code w exits shapes k hl hs).2.imp himp⟩⟩

-- A statement that takes no part in jumps.
theorem Compiled.of_coded (hs : BuilderSuits funcs result vars b)
    (hc : Coded funcs b b' fun w k k' => ∀ exits shapes, (declares = true → Top shapes) →
      RunsStmt w exits shapes vars typed k k' (x w)) :
    Compiled funcs result vars vars declares typed b b' x :=
  ⟨hc.built.grown, hs.of_names hc.built.grown hc.built.names_eq, fun _ => hc.built.names_eq,
    fun _ exits shapes _ hl hstands =>
      ⟨(hstands.coded hc).1, (hstands.coded hc).2 exits shapes hl.top⟩⟩

-- The same where the names change in the end.
theorem Compiled.declaring {x' : String} {ty : Option Ty} (hs : BuilderSuits funcs result vars b)
    (hc : Coded funcs b b₁ fun w k k' => ∀ exits shapes, Top shapes →
      RunsStmt w exits shapes vars typed k k' (x w)) (hty : t.Hints ty)
    (hb : b' = { b₁ with names := b₁.names.declare x' ty }) :
    Compiled funcs result vars (vars.declare x' t) true typed b b' x := by
  have hgrown : Grown b₁ b' := by
    subst hb
    refine ⟨?_, rfl, ?_, .refl _, .refl _, fun _ h => h⟩
    · unfold Builder.setting Names.declare
      split
      · rfl
      · split <;> rfl
    · unfold Names.declare
      split
      · rfl
      · split
        · next h => simp [h]
        · rfl
  have hfits : NamesFit b'.names funcs (vars.declare x' t) := by
    subst hb
    exact (hc.built.names_eq ▸ hs.fits).declare x' hty
  refine ⟨hc.built.grown.trans hgrown, hs.of_grown (hc.built.grown.trans hgrown) hfits, nofun,
    fun w exits shapes k hl hstands => ?_⟩
  have hstands₁ : WorldHasBuilder funcs result w exits b₁ k := by
    subst hb
    exact ⟨⟨hstands.sound, hstands.funcs, hstands.extend, hstands.leads⟩, hstands.result,
      hstands.meets⟩
  obtain ⟨hstands₀, hruns⟩ := hstands₁.coded hc
  have hentry : b.entry b' k = b.entry b₁ k := by
    subst hb
    rfl
  rw [hentry]
  exact ⟨hstands₀, hruns exits shapes (hl.top rfl)⟩

variable {note : Note} {f x₀ : String} {es : List Expr} {ts : List Base} {arity : Arity}
  {label : Option String} {s : Stmt} {u : Unit}

-- The parts of a call of a builtin that prints.
theorem print_ok (hf : NamesFit b.names funcs vars) (hfree : FreeName funcs vars f) {p : Builtin}
    (hp : p = .print ∧ f = "print" ∨ p = .println ∧ f = "println") {callee : Note}
    (h : compile (.call note (.ident callee f) es false) .discard b = .ok arity b') :
    ∃ a b₁, compileArgs es [] false b = .ok a b₁ ∧
      emit' (.callBuiltin p none a false .discard) note.span b₁ = .ok () b' := by
  have hname : Builtin.ofName? f = some p := by
    rcases hp with ⟨rfl, rfl⟩ | ⟨rfl, rfl⟩ <;> decide
  have hshape := hf.callShape_print callee hfree hname
  unfold compile at h
  obtain ⟨n, b₀, h₀, h⟩ := bind_eq_ok.mp h
  cases h₀
  rw [hshape] at h
  rcases hp with ⟨rfl, rfl⟩ | ⟨rfl, rfl⟩
  all_goals
    obtain ⟨ty, b₁, hty, h⟩ := bind_eq_ok.mp h
    cases hty
    obtain ⟨a, b₁, hargs, h⟩ := bind_eq_ok.mp h
    obtain ⟨_, b₂, hemit, h⟩ := bind_eq_ok.mp h
    cases h
    exact ⟨a, b₁, hargs, hemit⟩

theorem compiled_print (hs : BuilderSuits funcs result vars b) (hfree : FreeName funcs vars f) 
    (hf : f = "print" ∨ f = "println") (hes : HaveTypes funcs vars es ts) {callee : Note}
    (h : compile (.call note (.ident callee f) es false) .discard b = .ok arity b') :
    Compiled funcs result vars vars false (Finishes vars) b b' fun w env => do
      let vs ← exprs w.calls env es
      match w.calls f with
      | some call => discard (call vs)
      | none => print f vs
      return (env, .done) := by
  obtain ⟨p, hp⟩ : ∃ p, p = Builtin.print ∧ f = "print" ∨ p = Builtin.println ∧ f = "println" := by
    rcases hf with rfl | rfl
    · exact ⟨.print, .inl ⟨rfl, rfl⟩⟩
    · exact ⟨.println, .inr ⟨rfl, rfl⟩⟩
  obtain ⟨a, b₁, hargs, hemit⟩ := print_ok hs.fits hfree hp h
  have hall := compile_args hs.fits hes (hintAll_nil ts) hargs
  refine .of_coded hs (hall.seq (coded_emit' hemit fun _ => rfl) ?_)
  rintro w k k₁ k' hw hfuncs hpushes ⟨id, rfl, hop⟩ exits shapes -
  subst hfuncs
  exact runs_print hw hfree.funcs hp (hpushes shapes) hop

theorem compiled_call (hs : BuilderSuits funcs result vars b) {sig : FuncType}
    (hfn : funcs.lookup f = some sig) (hlocal : vars.type? f = none) (hblank : f ≠ Names.blank)
    (hes : HaveTypes funcs vars es sig.params) {callee : Note}
    (h : compile (.call note (.ident callee f) es false) .discard b = .ok arity b') :
    Compiled funcs result vars vars false (Finishes vars) b b' fun w env => do
      let vs ← exprs w.calls env es
      match w.calls f with
      | some call => discard (call vs)
      | none => print f vs
      return (env, .done) := by
  obtain ⟨a, b₁, b₂, b₃, hargs, hload, hcall, hsettle⟩ := call_ok hs.fits hfn hlocal hblank h
  cases hsettle
  have hall := compile_args hs.fits hes (hintAll_types _) hargs
  refine .of_coded hs ((coded_call hs.fits hfn hall hload hcall).imp ?_)
  rintro w k k' hw hfuncs ⟨arity, id₁, id, hpushes, hload, hop⟩ exits shapes -
  subst hfuncs
  exact runs_call hw hfn hlocal (hpushes shapes) hload hop

-- One value for one place.
theorem compileValues_ok {hints : List (Option Ty)}
    (h : compileValues [e] 1 hints b = .ok arity b') :
    arity = .fixed 1 ∧ ∃ a, compile e (.value hints.head?.join) b = .ok a b' := by
  unfold compileValues at h
  rw [if_neg (by simp)] at h
  obtain ⟨_, b₁, h₁, h⟩ := bind_eq_ok.mp h
  obtain ⟨_, b₂, h₂, h⟩ := bind_eq_ok.mp h
  obtain ⟨a, h₁⟩ := discard_eq_ok.mp h₁
  cases h₂
  obtain ⟨rfl, rfl⟩ := countOperands_ok h
  exact ⟨rfl, a, h₁⟩

theorem compiled_declare (hs : BuilderSuits funcs result vars b) (he : HasType funcs vars e t)
    {hints : List (Option Ty)} (hvalues : compileValues [e] 1 hints b = .ok arity b₁)
    (hhint : t.Hints hints.head?.join) {ty : Option Ty} (hty : t.Hints ty)
    (hemit : emit' (.declare [x₀] ty arity) span b₁ = .ok u b₂) (ty' : Names → Option Ty)
    (hty' : ∀ n, NamesFit n funcs vars → t.Hints (ty' n))
    (hb : b' = { b₂ with names := b₂.names.declare x₀ (ty' b₂.names) }) :
    Compiled funcs result vars (vars.declare x₀ t) true (Finishes (vars.declare x₀ t)) b b'
      fun w env => do
        let v ← expr w.calls env e
        return (env.declare x₀ v, .done) := by
  obtain ⟨rfl, a, he'⟩ := compileValues_ok hvalues
  have hvalue := compile_expr hs.fits he hhint he'
  have hnames := (onlyBuilds_emit' hemit fun _ => rfl).names_eq.trans hvalue.built.names_eq
  refine .declaring hs (hvalue.seq (coded_emit' hemit fun _ => rfl) ?_)
    (hty' _ (hnames ▸ hs.fits)) hb
  rintro w k k₁ k' - - hyields ⟨id, rfl, hop⟩ exits shapes htop
  exact runs_declare (hyields shapes) hop htop hty

theorem compileTarget_ok {x : String} (hblank : x ≠ Names.blank) {target : Target}
    (h : compileTarget (.ident note x) b = .ok target b') : target = .var x ∧ b' = b := by
  unfold compileTarget at h
  rw [if_neg hblank] at h
  cases h
  exact ⟨rfl, rfl⟩

theorem compiled_assign (hs : BuilderSuits funcs result vars b) (hnote : Marks note t)
    (hx : vars.type? x₀ = some t) (hblank : x₀ ≠ Names.blank) (he : HasType funcs vars e t)
    (h : compileStmt (.assign span [.ident note x₀] [e]) label b = .ok u b') :
    Compiled funcs result vars vars false (Finishes vars) b b' fun w env => do
      let v ← expr w.calls env e
      return (env.assign x₀ v, .done) := by
  obtain ⟨targets, b₁, htargets, h⟩ := bind_eq_ok.mp h
  unfold compileTargets at htargets
  obtain ⟨target, b₂, htarget, hrest⟩ := bind_eq_ok.mp htargets
  obtain ⟨rfl, rfl⟩ := compileTarget_ok hblank htarget
  cases hrest
  obtain ⟨arity, b₃, hvalues, hemit⟩ := bind_eq_ok.mp h
  obtain ⟨rfl, a, he'⟩ := compileValues_ok hvalues
  have hstatic := (HasType.var note x₀ t hnote hx hblank).staticType hs.fits
  have hvalue := compile_expr hs.fits he hstatic he'
  refine .of_coded hs (hvalue.seq (coded_emit' hemit fun _ => rfl) ?_)
  rintro w k k₁ k' - - hyields ⟨id, rfl, hop⟩ exits shapes -
  exact runs_assign hx (hyields shapes) hop

-- The steps of an assignment with an operator.
theorem coded_update {op : BinaryOp} (hx : vars.type? x₀ = some t) (hop : t.result? op = some t)
    {ty : Option Ty} (hty : t.Hints ty) {z : World → Env → Eval Value}
    (hload : emit' (.loadTarget (.var x₀) ty) span b = .ok u b₁)
    (hz : Coded funcs b₁ b₂ fun w k k' => ∀ shapes, Yields w shapes vars t k k' (z w))
    (hupdate : emitUpdate op (.var x₀) ty span b₂ = .ok u b') :
    Coded funcs b b' fun w k k' => ∀ exits shapes,
      RunsStmt w exits shapes vars (Finishes vars) k k' (fun env => do
        let old ← ofOption (env.value? x₀)
        let v ← z w env
        let new ← ofExcept (operate op old v)
        return (env.assign x₀ new, .done)) := by
  obtain ⟨_, b₃, hbinary, hassign⟩ := bind_eq_ok.mp hupdate
  have hresolved : (if op.isShift then none else resolved? op ty ty) = none ∨
      (if op.isShift then none else resolved? op ty ty) = some t.family := by
    split
    · exact .inl rfl
    · exact Base.resolved?_eq hop hty hty
  have hfirst : Coded funcs b b₂ fun w k k' => ∃ id k₁, k = some id ∧
      w.Op id (.loadTarget (.var x₀) ty) k₁ ∧
      ∀ shapes, Yields w shapes vars t k₁ k' (z w) := by
    refine (coded_emit' hload fun _ => rfl).seq hz ?_
    rintro w k k₁ k' - - ⟨id, rfl, hop⟩ hyields
    exact ⟨id, k₁, rfl, hop, hyields⟩
  have hlast : Coded funcs b₂ b' fun w k k' => ∃ id₁ id₂, k = some id₁ ∧
      w.Op id₁ (.binary op (if op.isShift then none else resolved? op ty ty)) (some id₂) ∧
      w.Op id₂ (.assign [.var x₀] (.fixed 1)) k' := by
    refine (coded_emit' hbinary fun _ => rfl).seq (coded_emit' hassign fun _ => rfl) ?_
    rintro w k k₁ k' - - ⟨id₁, rfl, hop₁⟩ ⟨id₂, rfl, hop₂⟩
    exact ⟨id₁, id₂, rfl, hop₁, hop₂⟩
  refine hfirst.seq hlast ?_
  rintro w k k₁ k' - - ⟨id, k₂, rfl, hload, hyields⟩ ⟨id₁, id₂, rfl, hbinary, hassign⟩ exits shapes
  exact runs_update hop hresolved hx hload (hyields shapes) hbinary hassign

-- A statement without a statement inside is compiled to steps that do the same.
theorem compile_simple (hs : BuilderSuits funcs result vars b) (hst : Simple funcs vars s vars')
    (hok : compileStmt s label b = .ok u b') :
    Compiled funcs result vars vars' s.declares (Finishes vars') b b' fun w env =>
      stmt w.calls w.rounds s label env := by
  cases hst with
  | empty =>
      cases hok
      exact .of_coded hs (.nil fun _ _ _ _ _ => runs_done)
  | print span note callee f args ts hf hfree hargs =>
      obtain ⟨_, h⟩ := discard_eq_ok.mp hok
      exact compiled_print hs hfree hf hargs h
  | call span note callee f args sig hf hlocal hblank hargs =>
      obtain ⟨_, h⟩ := discard_eq_ok.mp hok
      exact compiled_call hs hf hlocal hblank hargs h
  | define span x e t he =>
      obtain ⟨arity, b₁, hvalues, h⟩ := bind_eq_ok.mp hok
      obtain ⟨_, b₂, hemit, h⟩ := bind_eq_ok.mp h
      cases h
      exact compiled_declare hs he hvalues t.hints_none t.hints_none hemit
        (fun n => n.inferType e) (fun _ hf => he.inferType hf) rfl
  | var span x e t he =>
      obtain ⟨arity, b₁, hvalues, h⟩ := bind_eq_ok.mp hok
      obtain ⟨_, b₂, hemit, h⟩ := bind_eq_ok.mp h
      cases h
      exact compiled_declare hs he hvalues t.hints_ty t.hints_ty hemit
        (fun _ => some t.ty) (fun _ _ => t.hints_ty) rfl
  | assign span note x e t hnote hx hblank he => exact compiled_assign hs hnote hx hblank he hok
  | update span op note x e t hnote hx hblank hop he =>
      obtain ⟨n, b₁, hnames, h⟩ := bind_eq_ok.mp hok
      cases hnames
      obtain ⟨target, b₁, htarget, h⟩ := bind_eq_ok.mp h
      obtain ⟨rfl, rfl⟩ := compileTarget_ok hblank htarget
      obtain ⟨_, b₂, hload, h⟩ := bind_eq_ok.mp h
      obtain ⟨_, b₃, hvalue, hupdate⟩ := bind_eq_ok.mp h
      obtain ⟨_, hvalue⟩ := discard_eq_ok.mp hvalue
      have hstatic := (HasType.var note x t hnote hx hblank).staticType hs.fits
      have hhint : t.Hints (if op.isShift then none else b₁.names.staticType (.ident note x)) := by
        split
        · exact t.hints_none
        · exact hstatic
      have hnames := (onlyBuilds_emit' hload fun _ => rfl).names_eq
      have he' := compile_expr (hnames ▸ hs.fits) he hhint hvalue
      exact .of_coded hs ((coded_update hx hop hstatic hload he' hupdate).imp
        fun _ _ _ _ _ hruns exits shapes _ => hruns exits shapes)
  | step span note x up hnote hx hblank =>
      obtain ⟨n, b₁, hnames, h⟩ := bind_eq_ok.mp hok
      cases hnames
      obtain ⟨target, b₁, htarget, h⟩ := bind_eq_ok.mp h
      obtain ⟨rfl, rfl⟩ := compileTarget_ok hblank htarget
      obtain ⟨_, b₂, hload, h⟩ := bind_eq_ok.mp h
      obtain ⟨_, b₃, hone, hupdate⟩ := bind_eq_ok.mp h
      obtain ⟨n, b₄, hnames, hone⟩ := bind_eq_ok.mp hone
      cases hnames
      have hstatic := (HasType.var note x .int hnote hx hblank).staticType hs.fits
      have hop : Base.int.result? (if up then .add else .sub) = some .int := by cases up <;> rfl
      have hvalue : Coded funcs b₂ b₃ fun w k k' =>
          ∀ shapes, Yields w shapes vars .int k k' fun _ => pure (.plainInt 1) := by
        refine (coded_emit' hone fun _ => rfl).imp ?_
        rintro w k k' - - ⟨id, rfl, hconst⟩ shapes
        exact yields_const (.int _ rfl) hstatic hconst
      exact .of_coded hs ((coded_update hx hop hstatic hload hvalue hupdate).imp
        fun _ _ _ _ _ hruns exits shapes _ => hruns exits shapes)

end

end Structured

end StepGraph

import StepGraph.Compile.Lower
import StepGraph.Proofs.Compile.Emit
import StepGraph.Proofs.Structured.NamesFit
import StepGraph.Proofs.Structured.World

open EStateM (bind_eq_ok discard_eq_ok)

namespace StepGraph

open Build

-- Where the steps that lead from one builder to another are entered, if `k` comes behind them.
def Builder.entry (b b' : Builder) (k : Option StepId) : Option StepId :=
  if b.steps.size < b'.steps.size then some b.steps.size else k

theorem Builder.entry_self (b : Builder) (k : Option StepId) : b.entry b k = k :=
  if_neg (Nat.lt_irrefl _)

namespace Structured

-- The world has the steps of the builder, whose open successors lead to `k`.
structure WorldLeads (funcs : Funcs) (w : World) (b : Builder) (k : Option StepId) : Prop where
  sound : w.WellFormed
  funcs : w.funcs = funcs
  extend : StepsExtend b.steps w.steps
  leads : AllLead w.steps b.pending k

-- Steps were appended, and nothing else has happened to the builder.
structure OnlyBuilds (b b' : Builder) : Prop where
  state : b' = { b with steps := b'.steps, pending := b'.pending }
  extend : StepsExtend b.steps b'.steps
  opened : ∀ held, b.Open held → b'.Open held

-- Steps were appended of which this holds wherever they are entered and lead to.
structure Coded (funcs : Funcs) (b b' : Builder)
    (good : World → Option StepId → Option StepId → Prop) : Prop where
  built : OnlyBuilds b b'
  code : ∀ w k, WorldLeads funcs w b' k → WorldLeads funcs w b (b.entry b' k) ∧
    good w (b.entry b' k) k

variable {funcs : Funcs} {vars : Vars} {w : World} {b b' b₁ b₂ : Builder} {k k' : Option StepId}
  {id : StepId} {op : StepOp} {good good₁ good₂ : World → Option StepId → Option StepId → Prop}

theorem entry_trans (h₁ : StepsExtend b.steps b₁.steps) (h₂ : StepsExtend b₁.steps b₂.steps) :
    b.entry b₁ (b₁.entry b₂ k) = b.entry b₂ k := by
  have hle₁ := h₁.size_le
  have hle₂ := h₂.size_le
  unfold Builder.entry
  by_cases h : b.steps.size < b₁.steps.size
  · rw [if_pos h, if_pos (Nat.lt_of_lt_of_le h hle₂)]
  · rw [if_neg h, Nat.le_antisymm hle₁ (Nat.not_lt.mp h)]

theorem OnlyBuilds.refl (b : Builder) : OnlyBuilds b b := ⟨rfl, .refl _, fun _ h => h⟩

theorem OnlyBuilds.trans (h₁ : OnlyBuilds b b₁) (h₂ : OnlyBuilds b₁ b₂) : OnlyBuilds b b₂ where
  state := by rw [h₂.state, h₁.state]
  extend := h₁.extend.trans h₂.extend
  opened held ho := h₂.opened held (h₁.opened held ho)

theorem OnlyBuilds.names_eq (h : OnlyBuilds b b') : b'.names = b.names := by rw [h.state]

theorem Coded.nil (h : ∀ w k, good w k k) : Coded funcs b b good :=
  ⟨.refl b, fun w k hl => by rw [b.entry_self]; exact ⟨hl, h w k⟩⟩

theorem Coded.imp (h₁ : Coded funcs b b' good₁)
    (h : ∀ w k k', w.WellFormed → w.funcs = funcs → good₁ w k k' → good w k k') :
    Coded funcs b b' good :=
  ⟨h₁.built, fun w k hl => ⟨(h₁.code w k hl).1, h w _ k hl.sound hl.funcs (h₁.code w k hl).2⟩⟩

theorem Coded.seq (h₁ : Coded funcs b b₁ good₁) (h₂ : Coded funcs b₁ b₂ good₂)
    (h : ∀ w k k₁ k', w.WellFormed → w.funcs = funcs → good₁ w k k₁ → good₂ w k₁ k' → good w k k') :
    Coded funcs b b₂ good := by
  refine ⟨h₁.built.trans h₂.built, fun w k hl => ?_⟩
  obtain ⟨hl₁, hgood₂⟩ := h₂.code w k hl
  obtain ⟨hl₀, hgood₁⟩ := h₁.code w _ hl₁
  rw [entry_trans h₁.built.extend h₂.built.extend] at hl₀ hgood₁
  exact ⟨hl₀, h w _ _ k hl.sound hl.funcs hgood₁ hgood₂⟩

-- A step without another successor.

theorem onlyBuilds_emitted (he : Emitted op b id b') (hother : op.other? = none) :
    OnlyBuilds b b' := by
  obtain rfl := he.id_eq
  exact ⟨he.state.trans (by rw [he.state]), he.extend, fun held ho => he.opened hother ho⟩

theorem entry_emitted (he : Emitted op b id b') : b.entry b' k = some id := by
  unfold Builder.entry
  rw [if_pos he.size_lt, he.id_eq]

-- Nothing that follows on a step matters for where the steps in front of it are entered.
theorem entry_before (h₁ : StepsExtend b.steps b₁.steps) (he : Emitted op b₁ id b₂)
    (h₂ : StepsExtend b₂.steps b'.steps) : b.entry b₁ (some id) = b.entry b' k := by
  have hle := h₁.size_le
  have hlt := Nat.lt_of_lt_of_le he.size_lt h₂.size_le
  unfold Builder.entry
  rw [he.id_eq, if_pos (Nat.lt_of_le_of_lt hle hlt)]
  by_cases h : b.steps.size < b₁.steps.size
  · rw [if_pos h]
  · rw [if_neg h, Nat.le_antisymm hle (Nat.not_lt.mp h)]

-- A step with its successors in the world.
theorem WorldLeads.emitted (hl : WorldLeads funcs w b' k) (he : Emitted op b id b') :
    WorldLeads funcs w b (some id) ∧ ∃ s, w.steps[id]? = some s ∧ s.next = k ∧
      s.op = op.bare.toOther s.op.other? := by
  refine ⟨⟨hl.sound, hl.funcs, he.extend.trans hl.extend, he.leads hl.extend⟩, ?_⟩
  refine he.follow hl.extend (hl.leads _ ?_)
  rw [he.state]
  exact List.mem_singleton_self _

-- What a single step is in the world.
def IsStep (op : StepOp) (w : World) (k k' : Option StepId) : Prop :=
  ∃ id, k = some id ∧ w.Op id op k'

theorem coded_emitted (he : Emitted op b id b') (hplain : ∀ o, op.bare.toOther o = op) :
    Coded funcs b b' fun w k k' => k = some id ∧ w.Op id op k' := by
  have hother : op.other? = none := by
    rw [← hplain none]
    cases op <;> rfl
  refine ⟨onlyBuilds_emitted he hother, fun w k hl => ?_⟩
  obtain ⟨hl₀, s, hs, hnext, hop⟩ := hl.emitted he
  rw [entry_emitted he]
  exact ⟨hl₀, rfl, s, hs, hop.trans (hplain _), hnext⟩

theorem coded_emit' {span : Span} {u : Unit} (h : emit' op span b = .ok u b')
    (hplain : ∀ o, op.bare.toOther o = op) : Coded funcs b b' (IsStep op) := by
  obtain ⟨id, h⟩ := discard_eq_ok.mp h
  exact (coded_emitted (emit_ok h) hplain).imp fun _ _ _ _ _ h => ⟨id, h⟩

theorem onlyBuilds_emit' {span : Span} {u : Unit} (h : emit' op span b = .ok u b')
    (hplain : ∀ o, op.bare.toOther o = op) : OnlyBuilds b b' :=
  have hcoded : Coded [] b b' (IsStep op) := coded_emit' h hplain
  hcoded.built

-- Steps that push the value of an expression, and steps that push those of several.

def Computes (funcs : Funcs) (vars : Vars) (t : Base) (e : Expr) (b b' : Builder) : Prop :=
  Coded funcs b b' fun w k k' =>
    ∀ shapes, Yields w shapes vars t k k' fun env => expr w.calls env e

def ComputesAll (funcs : Funcs) (vars : Vars) (ts : List Base) (arity : Arity) (es : List Expr)
    (b b' : Builder) : Prop :=
  Coded funcs b b' fun w k k' =>
    ∀ shapes, YieldsAll w shapes vars ts arity k k' fun env => exprs w.calls env es

variable {s t : Base} {ts : List Base} {e l r : Expr} {es : List Expr} {hint : Option Ty}
  {note : Note} {x f : String} {arity : Arity} {span : Span}

theorem settle_value {a : Arity} (h : settle (.value hint) span b = .ok a b') : b' = b := by
  cases h
  rfl

theorem computes_const {v : Value} (hv : t.Has v) (hh : t.Hints hint) {u : Unit}
    (h : emitConstant v hint span b = .ok u b')
    (heval : ∀ calls env, EnvHas vars env → expr calls env e = pure v) :
    Computes funcs vars t e b b' := by
  obtain ⟨n, b₁, h₁, h⟩ := bind_eq_ok.mp h
  cases h₁
  refine (coded_emit' h fun _ => rfl).imp fun w k k' _ _ hstep shapes env ops m he hat => ?_
  obtain ⟨id, rfl, hop⟩ := hstep
  simp only [heval _ env he]
  exact yields_const hv hh hop env ops m he hat

theorem computes_bool {v : Bool} (hf : NamesFit b.names funcs vars) (hx : x = toString v)
    (hfree : FreeName funcs vars x) (hh : Base.bool.Hints hint) {u : Unit}
    (h : emitName x hint span b = .ok u b') :
    Computes funcs vars .bool (.ident note x) b b' := by
  obtain ⟨b₁, _, h₁, h⟩ := bind_eq_ok.mp h
  cases h₁
  rw [hf.isShadowed_of_free hfree] at h
  have hvalue : predeclared? b.iota x = some (.bool v) := by
    rw [hx]
    cases v <;> rfl
  simp only [Bool.false_eq_true, if_false, hvalue] at h
  refine computes_const (.bool v) hh h fun calls env he => ?_
  simp only [expr, he.value_of_none hfree.vars]
  rw [hx]
  cases v <;> rfl

theorem computes_var (hf : NamesFit b.names funcs vars) (hx : vars.type? x = some t) {u : Unit}
    (h : emitName x hint span b = .ok u b') : Computes funcs vars t (.ident note x) b b' := by
  obtain ⟨b₁, _, h₁, h⟩ := bind_eq_ok.mp h
  cases h₁
  rw [hf.isShadowed_of_type hx] at h
  refine (coded_emit' h fun _ => rfl).imp fun w k k' _ _ hstep shapes env ops m he hat => ?_
  obtain ⟨id, rfl, hop⟩ := hstep
  obtain ⟨v, hvalue, hv⟩ := he.value_of_type hx
  have hyields : w.Sim _ (some id) m _ := yields_load hx hop env ops m he hat
  simp only [expr_ident hvalue]
  simp only [hvalue, ofOption] at hyields
  exact hyields

theorem computes_binary {op : BinaryOp} {resolved : Option Family} (hop : s.result? op = some t)
    (hresolved : resolved = none ∨ resolved = some s.family) (hl : Computes funcs vars s l b b₁)
    (hr : Computes funcs vars s r b₁ b₂) {u : Unit}
    (h : emit' (.binary op resolved) span b₂ = .ok u b') :
    Computes funcs vars t (.binary note op l r) b b' := by
  have hlogical := Base.isLogical_of_result? hop
  have hboth : Coded funcs b b₂ fun w k k' => ∃ k₁,
      (∀ shapes, Yields w shapes vars s k k₁ fun env => expr w.calls env l) ∧
        ∀ shapes, Yields w shapes vars s k₁ k' fun env => expr w.calls env r :=
    hl.seq hr fun _ _ k₁ _ _ _ hl hr => ⟨k₁, hl, hr⟩
  refine hboth.seq (coded_emit' h fun _ => rfl) fun w k k₂ k' _ _ hboth hstep shapes => ?_
  obtain ⟨k₁, hl, hr⟩ := hboth
  obtain ⟨id, rfl, hstep⟩ := hstep
  have hyields := yields_binary hop hresolved (hl shapes) (hr shapes) hstep
  simpa only [expr, hlogical, Bool.false_eq_true, if_false] using hyields

theorem computes_unary {op : UnaryOp} (hop : t.allows op) (he : Computes funcs vars t e b b₁)
    {u : Unit} (h : emit' (.unary op) span b₁ = .ok u b') :
    Computes funcs vars t (.unary note op e) b b' := by
  refine he.seq (coded_emit' h fun _ => rfl) fun w k k₁ k' _ _ he hstep shapes => ?_
  obtain ⟨id, rfl, hstep⟩ := hstep
  simpa only [expr] using yields_unary hop (he shapes) hstep

-- The operand on the right is left out where the one on the left decides.
theorem computes_logical {op : BinaryOp} (hop : op.isLogical) (hl : Computes funcs vars .bool l b b₁)
    {id : StepId} (hemit : Emitted (.shortCircuit (op = .logicalOr) none) b₁ id b₂) {b₃ : Builder}
    (hr : Computes funcs vars .bool r b₂ b₃)
    (h : b' = { b₃ with pending := b₃.pending ++ [⟨id, .other⟩] }) :
    Computes funcs vars .bool (.binary note op l r) b b' := by
  have hstart : OnlyBuilds b b₂ := hl.built.trans (onlyBuilds_emitted hemit rfl)
  subst h
  refine ⟨⟨?_, hstart.extend.trans hr.built.extend, fun held ho => ?_⟩, fun w k hleads => ?_⟩
  · rw [(hstart.trans hr.built).state]
  · refine (hr.built.opened _ (hemit.opened_fork rfl (hl.built.opened held ho))).mono fun y => ?_
    simp only [List.count_append, List.count_cons, List.count_nil]
    omega
  · have hleads₃ : WorldLeads funcs w b₃ k :=
      ⟨hleads.sound, hleads.funcs, hleads.extend,
        fun slot hslot => hleads.leads slot (List.mem_append_left _ hslot)⟩
    obtain ⟨s, hs, hother⟩ := hleads.leads ⟨id, .other⟩ (by simp)
    obtain ⟨hleads₂, hr'⟩ := hr.code w k hleads₃
    obtain ⟨hleads₁, s', hs', hnext, hstep⟩ := hleads₂.emitted hemit
    obtain rfl : s = s' := Option.some.inj (hs.symm.trans hs')
    obtain ⟨hleads₀, hl'⟩ := hl.code w _ hleads₁
    have hentry : b.entry b₁ (some id) = b.entry b₃ k := by
      rw [← entry_emitted (k := b₂.entry b₃ k) hemit, entry_trans hl.built.extend hemit.extend,
        entry_trans hstart.extend hr.built.extend]
    rw [hentry] at hleads₀ hl'
    change s.op.other? = k at hother
    rw [hother] at hstep
    refine ⟨hleads₀, fun shapes => ?_⟩
    have hyields := yields_logical (hl' shapes) (hr' shapes) ⟨s, hs, hstep, hnext⟩
    change Yields w shapes vars .bool (b.entry b₃ k) k _
    simpa only [expr, hop, if_true] using hyields

-- Hints for several values, as far as there are hints.
def HintAll : List Base → List (Option Ty) → Prop
  | [], _ => True
  | t :: ts, hints => t.Hints hints.head?.join ∧ HintAll ts hints.tail

theorem hintAll_nil (ts : List Base) : HintAll ts [] := by
  induction ts with
  | nil => trivial
  | cons t ts ih => exact ⟨t.hints_none, ih⟩

theorem hintAll_types (ts : List Base) : HintAll ts (ts.map fun t => some t.ty) := by
  induction ts with
  | nil => trivial
  | cons t ts ih => exact ⟨t.hints_ty, ih⟩

theorem computesAll_nil : ComputesAll funcs vars [] (.fixed 0) [] b b :=
  .nil fun _ _ _ => yieldsAll_nil

theorem computesAll_cons {n : Nat} (he : Computes funcs vars t e b b₁)
    (hes : ComputesAll funcs vars ts (.fixed n) es b₁ b') :
    ComputesAll funcs vars (t :: ts) (.fixed (n + 1)) (e :: es) b b' :=
  he.seq hes fun _ _ _ _ _ _ he hes shapes => yieldsAll_cons (he shapes) (hes shapes)

theorem countOperands_ok {n : Nat} (h : countOperands n span b = .ok arity b') :
    arity = .fixed n ∧ b' = b := by
  unfold countOperands at h
  split at h
  · cases h
    exact ⟨rfl, rfl⟩
  · cases h

-- The parts of a call of a declared function.
theorem call_ok (hf : NamesFit b.names funcs vars) {sig : FuncType}
    (hfn : funcs.lookup f = some sig)
    (hlocal : vars.type? f = none) (hblank : f ≠ Names.blank) {callee : Note} {want : Want}
    (h : compile (.call note (.ident callee f) es false) want b = .ok arity b') :
    ∃ a b₁ b₂ b₃, compileArgs es (sig.params.map fun t => some t.ty) false b = .ok a b₁ ∧
      emitName f none callee.span b₁ = .ok () b₂ ∧
      emit' (.call a false want.results) note.span b₂ = .ok () b₃ ∧
      settleCall want b₃ = .ok arity b' := by
  unfold compile at h
  obtain ⟨n, b₀, h₀, h⟩ := bind_eq_ok.mp h
  cases h₀
  rw [hf.callShape_func callee hfn] at h
  simp only [hf.paramHints_func callee hfn hlocal hblank] at h
  obtain ⟨a, b₁, hargs, h⟩ := bind_eq_ok.mp h
  obtain ⟨_, b₂, hload, h⟩ := bind_eq_ok.mp h
  obtain ⟨_, b₃, hcall, h⟩ := bind_eq_ok.mp h
  obtain ⟨a', hload⟩ := discard_eq_ok.mp hload
  unfold compile at hload
  obtain ⟨_, b₂', hload, hsettle⟩ := bind_eq_ok.mp hload
  obtain rfl := settle_value hsettle
  exact ⟨a, b₁, _, b₃, hargs, hload, hcall, h⟩

-- Steps that push the arguments of a function and call it.
def Invokes (vars : Vars) (f : String) (sig : FuncType) (es : List Expr) (results : CallResults)
    (w : World) (k k' : Option StepId) : Prop :=
  ∃ arity id₁ id,
    (∀ shapes, YieldsAll w shapes vars sig.params arity k (some id₁) fun env =>
      exprs w.calls env es) ∧
    w.Op id₁ (.load f) (some id) ∧ w.Op id (.call arity false results) k'

theorem coded_call (hf : NamesFit b.names funcs vars) {sig : FuncType}
    (hfn : funcs.lookup f = some sig) (hargs : ComputesAll funcs vars sig.params arity es b b₁)
    {u : Unit} (hload : emitName f none span b₁ = .ok u b₂) {results : CallResults} {span' : Span}
    (hcall : emit' (.call arity false results) span' b₂ = .ok u b') :
    Coded funcs b b' (Invokes vars f sig es results) := by
  obtain ⟨b₀, _, h₀, hload⟩ := bind_eq_ok.mp hload
  cases h₀
  rw [hargs.built.names_eq, hf.isShadowed_of_func hfn] at hload
  have hloaded : Coded funcs b b₂ fun w k k' => ∃ id₁,
      (∀ shapes, YieldsAll w shapes vars sig.params arity k (some id₁) fun env =>
        exprs w.calls env es) ∧ w.Op id₁ (.load f) k' := by
    refine hargs.seq (coded_emit' hload fun _ => rfl) ?_
    rintro w k k₁ k' - - hpushes ⟨id₁, rfl, hload⟩
    exact ⟨id₁, hpushes, hload⟩
  refine hloaded.seq (coded_emit' hcall fun _ => rfl) ?_
  rintro w k k₁ k' - - ⟨id₁, hpushes, hload⟩ ⟨id, rfl, hcall⟩
  exact ⟨arity, id₁, id, hpushes, hload, hcall⟩

-- The parts of an operator that takes both of its operands.
theorem binary_ok {op : BinaryOp} (hop : s.result? op = some t)
    (h : compile (.binary note op l r) (.value hint) b = .ok arity b') :
    ∃ a₁ a₂ b₁ b₂, compile l (.value (operandHints b.names op l r hint).1) b = .ok a₁ b₁ ∧
      compile r (.value (operandHints b.names op l r hint).2) b₁ = .ok a₂ b₂ ∧
      emit' (.binary op (resolved? op
        (operandType b.names l (operandHints b.names op l r hint).1)
        (operandType b.names r (operandHints b.names op l r hint).2))) note.span b₂ =
          .ok () b' := by
  unfold compile at h
  rw [if_neg (by simp [Base.isLogical_of_result? hop])] at h
  obtain ⟨n, b₀, h₀, h⟩ := bind_eq_ok.mp h
  cases h₀
  obtain ⟨_, b₁, hl, h⟩ := bind_eq_ok.mp h
  obtain ⟨_, b₂, hr, h⟩ := bind_eq_ok.mp h
  obtain ⟨_, b₃, hemit, h⟩ := bind_eq_ok.mp h
  obtain rfl := settle_value h
  obtain ⟨a₁, hl⟩ := discard_eq_ok.mp hl
  obtain ⟨a₂, hr⟩ := discard_eq_ok.mp hr
  exact ⟨a₁, a₂, b₁, b₂, hl, hr, hemit⟩

-- The parts of an operator in front of its operand. A literal behind a minus sign is a constant.
theorem unary_ok {op : UnaryOp} (hop : t.allows op)
    (h : compile (.unary note op e) (.value hint) b = .ok arity b') :
    (∃ n v neg, op = .neg ∧ e = .lit n v ∧ v.negated? = some neg ∧
      emitConstant neg hint note.span b = .ok () b') ∨
    ∃ a b₁, compile e (.value hint) b = .ok a b₁ ∧ emit' (.unary op) note.span b₁ = .ok () b' := by
  have hplain : (do
      discard (compile e (.value hint))
      emit' (.unary op) note.span
      settle (.value hint) note.span : Build Arity) b = .ok arity b' →
      ∃ a b₁, compile e (.value hint) b = .ok a b₁ ∧ emit' (.unary op) note.span b₁ = .ok () b' := by
    intro h
    obtain ⟨_, b₁, he, h⟩ := bind_eq_ok.mp h
    obtain ⟨_, b₂, hemit, h⟩ := bind_eq_ok.mp h
    obtain ⟨a, he⟩ := discard_eq_ok.mp he
    obtain rfl := settle_value h
    exact ⟨a, b₁, he, hemit⟩
  unfold compile at h
  cases op with
  | neg =>
      cases e with
      | lit n v =>
          simp only at h
          cases hneg : v.negated? with
          | none =>
              rw [hneg] at h
              exact .inr (hplain h)
          | some neg =>
              rw [hneg] at h
              obtain ⟨_, b₁, hconst, h⟩ := bind_eq_ok.mp h
              obtain rfl := settle_value h
              exact .inl ⟨n, v, neg, rfl, rfl, hneg, hconst⟩
      | _ => exact .inr (hplain h)
  | plus | bitNot | not => exact .inr (hplain h)
  | _ => cases t <;> cases hop

mutual

-- An expression is compiled to steps that push its value.
theorem compile_expr {funcs : Funcs} {vars : Vars} {b b' : Builder} {e : Expr} {t : Base}
    {hint : Option Ty} {arity : Arity} (hf : NamesFit b.names funcs vars)
    (he : HasType funcs vars e t)
    (hh : t.Hints hint) (hok : compile e (.value hint) b = .ok arity b') :
    Computes funcs vars t e b b' := by
  cases he with
  | int note n hnote =>
      obtain ⟨_, b₁, h, hsettle⟩ := bind_eq_ok.mp hok
      obtain rfl := settle_value hsettle
      exact computes_const (.int _ rfl) (hh.or hnote.hints) h fun _ _ _ => by simp only [expr]; rfl
  | string note s hnote =>
      obtain ⟨_, b₁, h, hsettle⟩ := bind_eq_ok.mp hok
      obtain rfl := settle_value hsettle
      exact computes_const (.string _) (hh.or hnote.hints) h fun _ _ _ => by simp only [expr]
  | bool note x v hnote hx hfree =>
      obtain ⟨_, b₁, h, hsettle⟩ := bind_eq_ok.mp hok
      obtain rfl := settle_value hsettle
      exact computes_bool hf hx hfree hh h
  | var note x t hnote hx hblank =>
      obtain ⟨_, b₁, h, hsettle⟩ := bind_eq_ok.mp hok
      obtain rfl := settle_value hsettle
      exact computes_var hf hx h
  | logical note op l r hnote hop hl hr =>
      unfold compile at hok
      rw [if_pos hop] at hok
      obtain ⟨_, b₁, hl', hok⟩ := bind_eq_ok.mp hok
      obtain ⟨_, b₂, hfork, hok⟩ := bind_eq_ok.mp hok
      obtain ⟨_, b₃, hr', hok⟩ := bind_eq_ok.mp hok
      obtain ⟨_, b₄, hadd, hsettle⟩ := bind_eq_ok.mp hok
      obtain rfl := settle_value hsettle
      obtain ⟨_, hl'⟩ := discard_eq_ok.mp hl'
      obtain ⟨_, hr'⟩ := discard_eq_ok.mp hr'
      obtain ⟨id, hemit, rfl⟩ := emitFork_ok hfork
      have hleft := compile_expr hf hl Base.bool.hints_none hl'
      have hnames : b₂.names = b.names := by
        rw [(onlyBuilds_emitted hemit rfl).names_eq, hleft.built.names_eq]
      have hright := compile_expr (hnames ▸ hf) hr Base.bool.hints_none hr'
      cases hadd
      exact computes_logical hop hleft hemit hright rfl
  | binary note op l r s t hnote hop hl hr =>
      obtain ⟨a₁, a₂, b₁, b₂, hl', hr', hemit⟩ := binary_ok hop hok
      obtain ⟨hlh, hrh⟩ := hints_operands hf hop hl hr hh
      have hleft := compile_expr hf hl hlh hl'
      have hright := compile_expr (hleft.built.names_eq ▸ hf) hr hrh hr'
      have hresolved := Base.resolved?_eq hop (hl.operandType hf hlh) (hr.operandType hf hrh)
      exact computes_binary hop hresolved hleft hright hemit
  | unary note op e t hnote hop he =>
      obtain ⟨n, v, neg, rfl, rfl, hneg, h⟩ | ⟨a, b₁, he', hemit⟩ := unary_ok hop hok
      · cases he with
        | int note n hnote =>
            cases hneg
            refine computes_const (.int _ rfl) hh h fun _ _ _ => ?_
            simp only [expr, pure_bind]
            exact congrArg (fun v => (pure (.int v) : Eval Value)) (IntValue.plain_neg n).symm
        | string => cases hneg
      · exact computes_unary hop (compile_expr hf he hh he') hemit
  | call note callee f args sig t hnote hfn hlocal hblank hresult hargs =>
      obtain ⟨a, b₁, b₂, b₃, hargs', hload, hcall, hsettle⟩ := call_ok hf hfn hlocal hblank hok
      cases hsettle
      have hall := compile_args hf hargs (hintAll_types _) hargs'
      refine (coded_call hf hfn hall hload hcall).imp fun w k k' hw hfuncs hinvoke shapes => ?_
      obtain ⟨arity, id₁, id, hpushes, hload, hcall⟩ := hinvoke
      subst hfuncs
      simpa only [expr] using yields_call hw hfn hlocal hresult (hpushes shapes) hload hcall

theorem compile_each {funcs : Funcs} {vars : Vars} {b b' : Builder} {es : List Expr}
    {ts : List Base} {hints : List (Option Ty)} (hf : NamesFit b.names funcs vars)
    (hes : HaveTypes funcs vars es ts) (hh : HintAll ts hints) {u : Unit}
    (hok : compileEach es hints b = .ok u b') :
    ComputesAll funcs vars ts (.fixed es.length) es b b' := by
  cases hes with
  | nil =>
      cases hok
      exact computesAll_nil
  | cons e t es ts he hes =>
      obtain ⟨_, b₁, h₁, h₂⟩ := bind_eq_ok.mp hok
      obtain ⟨a, h₁⟩ := discard_eq_ok.mp h₁
      have hfirst := compile_expr hf he hh.1 h₁
      exact computesAll_cons hfirst (compile_each (hfirst.built.names_eq ▸ hf) hes hh.2 h₂)

-- The arguments of a call are compiled to steps that push them in turn.
theorem compile_args {funcs : Funcs} {vars : Vars} {b b' : Builder} {es : List Expr}
    {ts : List Base} {hints : List (Option Ty)} {arity : Arity} (hf : NamesFit b.names funcs vars)
    (hes : HaveTypes funcs vars es ts) (hh : HintAll ts hints)
    (hok : compileArgs es hints false b = .ok arity b') :
    ComputesAll funcs vars ts arity es b b' := by
  cases hes with
  | nil =>
      cases hok
      exact computesAll_nil
  | cons e t es ts he hes =>
      unfold compileArgs at hok
      split at hok
      · next hsole =>
          simp only [Bool.and_eq_true, List.isEmpty_iff] at hsole
          obtain ⟨⟨rfl, -⟩, hcall⟩ := hsole
          cases hes
          cases he with
          | call note callee f args sig t hnote hfn hlocal hblank hresult hargs =>
              obtain ⟨a, b₁, b₂, b₃, hargs', hload, hcall, hsettle⟩ := call_ok hf hfn hlocal hblank hok
              cases hsettle
              have hall := compile_args hf hargs (hintAll_types _) hargs'
              refine (coded_call hf hfn hall hload hcall).imp fun w k k' hw hfuncs hinvoke shapes => ?_
              obtain ⟨arity, id₁, id, hpushes, hload, hcall⟩ := hinvoke
              subst hfuncs
              simpa only [expr, exprs, pure_bind, bind_assoc] using
                yieldsAll_call hw hfn hlocal hresult (hpushes shapes) hload hcall
          | _ => cases hcall
      · obtain ⟨_, b₁, h₁, hok⟩ := bind_eq_ok.mp hok
        obtain ⟨_, b₂, h₂, hok⟩ := bind_eq_ok.mp hok
        obtain ⟨_, h₁⟩ := discard_eq_ok.mp h₁
        obtain ⟨rfl, rfl⟩ := countOperands_ok hok
        have hfirst := compile_expr hf he hh.1 h₁
        exact computesAll_cons hfirst (compile_each (hfirst.built.names_eq ▸ hf) hes hh.2 h₂)

end

end Structured

end StepGraph

import StepGraph.Proofs.Structured.Position

open EStateM (bind_of_ok)

namespace StepGraph.Structured

open Exec

namespace At

variable {p : Program} {a : Activation} {shapes : List Shape} {env : Env} {ops : List Value}
  {m : Machine}

-- What operators, branches and scopes do to a position.

theorem unary {op : UnaryOp} {t : Base} {v w : Value} (hat : At a shapes env (v :: ops) m)
    (hop : t.allows op) (hw : evaluateUnary op v = .ok w) :
    GetsResult m (p.step (.unary op) m) .next a shapes env (w :: ops) := by
  refine performs rfl (hat.pop.bind fun m₁ hat₁ => ?_)
  have hunary : Program.unary op v = Exec.ofExcept (evaluateUnary op v) := by
    cases t <;> cases op <;> first | rfl | cases hop
  change GetsResult m₁ ((Program.unary op v >>= Exec.push) m₁) () a shapes env (w :: ops)
  rw [hunary, hw]
  exact hat₁.push w

section

variable {op : BinaryOp} {s t : Base} {l r : Value} {resolved : Option Family}

theorem binary_eq (p : Program) (hat : At a shapes env (r :: l :: ops) m)
    (hop : s.result? op = some t) (hl : s.Has l) (hr : s.Has r)
    (hresolved : resolved = none ∨ resolved = some s.family) :
    ∃ m₁, m₁.printer = m.printer ∧ At a shapes env ops m₁ ∧
      p.work (.binary op resolved) m = (Exec.ofExcept (operate op l r) >>= Exec.push) m₁ := by
  obtain ⟨m₁, hr', hprinter, hat₁⟩ := hat.pop
  obtain ⟨m₂, hl', hprinter', hat₂⟩ := hat₁.pop
  refine ⟨m₂, hprinter'.trans hprinter, hat₂, ?_⟩
  change (Exec.pop >>= fun r => Exec.pop >>= fun l => _) m = _
  rw [bind_of_ok hr', bind_of_ok hl']
  rcases hresolved with rfl | rfl
  · change (heap >>= fun h => Exec.ofExcept (evaluateBinary h op l r) >>= Exec.push) m₂ = _
    rw [bind_of_ok (heap_apply m₂), Base.evaluateBinary_eq_operate hop hl hr]
  · change (Exec.ofExcept (s.family.apply op l r) >>= Exec.push) m₂ = _
    rw [Base.apply_eq_operate hop hl]

theorem binary (hat : At a shapes env (r :: l :: ops) m) (hop : s.result? op = some t)
    (hl : s.Has l) (hr : s.Has r) (hresolved : resolved = none ∨ resolved = some s.family)
    {v : Value} (hv : operate op l r = .ok v) :
    GetsResult m (p.step (.binary op resolved) m) .next a shapes env (v :: ops) := by
  obtain ⟨m₁, hprinter, hat₁, hwork⟩ := hat.binary_eq p hop hl hr hresolved
  obtain ⟨m₂, hpush, hprinter', hat₂⟩ := hat₁.push v
  refine performs rfl ⟨m₂, ?_, hprinter'.trans hprinter, hat₂⟩
  rw [hwork, hv]
  exact hpush

theorem binary_fault (hat : At a shapes env (r :: l :: ops) m) (hop : s.result? op = some t)
    (hl : s.Has l) (hr : s.Has r) (hresolved : resolved = none ∨ resolved = some s.family)
    {f : Fault} (hf : operate op l r = .error (.fault f)) :
    StopsAlike (.panic f) m.printer (p.step (.binary op resolved) m) := by
  obtain ⟨m₁, hprinter, hat₁, hwork⟩ := hat.binary_eq p hop hl hr hresolved
  have hstops : StopsAlike (.panic f) m.printer (p.work (.binary op resolved) m) := by
    rw [hwork, hf, ← hprinter]
    exact (stops_raise f m₁).bind _
  exact hstops.bind _

end

theorem branch {b : Bool} (hat : At a shapes env (.bool b :: ops) m) (other : Option StepId) :
    GetsResult m (p.step (.branch other) m)
    (if b then .next else .goto other) a shapes env ops := by
  refine hat.pop.bind fun m₁ hat₁ => ?_
  cases b <;> exact hat₁.pure _

theorem discarded {v : Value} (hat : At a shapes env (v :: ops) m) :
    GetsResult m ((discard Exec.pop : Exec Unit) m) () a shapes env ops :=
  hat.pop.bind fun _ hat₁ => hat₁.pure _

theorem shortCircuit {b : Bool} (hat : At a shapes env (.bool b :: ops) m) (stop : Bool)
    (other : Option StepId) :
    if b = stop then
      GetsResult m (p.step (.shortCircuit stop other) m) (.goto other) a shapes env (.bool b :: ops)
    else GetsResult m (p.step (.shortCircuit stop other) m) .next a shapes env ops := by
  have htop : top m = .ok (.bool b) m := by
    unfold top
    rw [bind_of_ok (frame_apply m), hat.operands]
    rfl
  have hstep : p.step (.shortCircuit stop other) m =
      (if b = stop then Pure.pure (.goto other)
        else discard Exec.pop >>= fun _ => Pure.pure .next : Exec Program.Next) m := by
    change (top >>= _) m = _
    rw [bind_of_ok htop]
    rfl
  rw [hstep]
  split
  · exact hat.pure _
  · exact hat.discarded.bind fun _ hat₁ => hat₁.pure _

theorem pushScope (hat : At a shapes env ops m) :
    GetsResult m (p.step .pushScope m) .next a (.scope :: shapes) ([] :: env) ops := by
  refine performs rfl ⟨_, rfl, rfl, hat.layout.push, ?_, hat.operands, hat.results, hat.calls,
    hat.later.trans ((Later.newScope m.heap _).mono ?_)⟩
  · change m.frame.depth + 1 = _
    rw [hat.depth]
    exact Nat.add_comm _ _
  · exact Nat.le_trans hat.layout.base_le (Nat.le_of_lt hat.layout.lt_size)

theorem unwindTo {pre : List Shape} (hat : At a (pre ++ shapes) env ops m) {d : Nat}
    (hd : d = Structured.depth shapes) :
    GetsResult m (Exec.unwindTo d m) () a shapes (env.drop pre.length) ops := by
  subst hd
  obtain ⟨s', hleave, hlayout⟩ := hat.layout.leave pre
  have hdepth := hat.depth
  rw [depth_append] at hdepth
  have hs := hleave 0
  unfold Exec.unwindTo
  rw [bind_of_ok (frame_apply m)]
  by_cases hlt : Structured.depth shapes < m.frame.depth
  · refine ⟨{ m with frame := { m.frame with scope := s', depth := Structured.depth shapes } }, ?_,
      rfl, hlayout, rfl, hat.operands, hat.results, hat.calls, hat.later⟩
    rw [if_pos hlt, bind_of_ok (heap_apply m)]
    have hdiff : m.frame.depth - Structured.depth shapes = Structured.depth pre + 0 := by omega
    rw [hdiff, hs]
    rfl
  · have hpre : Structured.depth pre = 0 := by omega
    rw [hpre] at hs
    rw [if_neg hlt]
    have hscope : m.frame.scope = s' := hs
    refine ⟨m, rfl, rfl, hscope ▸ hlayout, ?_, hat.operands, hat.results, hat.calls, hat.later⟩
    omega

theorem jump {pre : List Shape} (hat : At a (pre ++ shapes) env ops m) {d : Nat}
    (hd : d = Structured.depth shapes) :
    GetsResult m (p.step (.jump d) m) .next a shapes (env.drop pre.length) ops :=
  performs rfl (hat.unwindTo hd)

theorem enterBare (hat : At a shapes env ops m) : At a (.bare :: shapes) ([] :: env) ops m :=
  ⟨.bare _ _ _ hat.layout, by rw [hat.depth]; simp [Shape.scopes], hat.operands, hat.results,
    hat.calls, hat.later⟩

theorem leaveBare (hat : At a (.bare :: shapes) env ops m) : At a shapes env.tail ops m := by
  have hlayout := hat.layout
  cases hlayout with
  | bare _ _ _ hrest =>
      exact ⟨hrest, by rw [hat.depth]; simp [Shape.scopes], hat.operands, hat.results, hat.calls,
        hat.later⟩

theorem popScope (hat : At a (.scope :: shapes) env ops m) :
    GetsResult m (p.step .popScope m) .next a shapes env.tail ops := by
  refine performs rfl ?_
  change GetsResult m ((frame >>= fun f => Exec.unwindTo (f.depth - 1)) m) () a shapes env.tail ops
  rw [bind_of_ok (frame_apply m), ← List.drop_one]
  refine unwindTo (show At a ([.scope] ++ shapes) env ops m from hat) ?_
  rw [hat.depth]
  simp [Shape.scopes]

-- A round of a loop.

theorem toRound {b b' : List (String × Value)}
    (hat : At a (.scope :: .scope :: shapes) (b' :: b :: env) ops m)
    (he : ∀ x, b'.lookup x = b.lookup x) : At a (.round :: shapes) (b :: env) ops m :=
  ⟨hat.layout.toRound he, by rw [hat.depth]; simp [Shape.scopes]; omega, hat.operands, hat.results,
    hat.calls, hat.later⟩

theorem still {b : List (String × Value)} (hat : At a (.round :: shapes) (b :: env) ops m)
    (hnone : ∀ x, b.lookup x = none) : At a (.scope :: .scope :: shapes) (b :: b :: env) ops m :=
  ⟨hat.layout.still hnone, by rw [hat.depth]; simp [Shape.scopes]; omega, hat.operands, hat.results,
    hat.calls, hat.later⟩

theorem carryOut {b : List (String × Value)} (hat : At a (.round :: shapes) (b :: env) ops m)
    {x : String} {v : Value} (hx : b.lookup x = some v) (honly : ∀ y, y ≠ x → b.lookup y = none) :
    GetsResult m (p.step (.carryOut [x]) m) .next a (.scope :: .scope :: shapes)
    (b :: b :: env) ops := by
  obtain ⟨s₁, hparent, hlocal, hle, hdeclare, hlayout⟩ := hat.layout.carry hx honly
  refine performs rfl ⟨{ m with heap := (Heap.bind s₁ x (.plain v) m.heap).2 }, ?_, rfl, hlayout,
    by rw [hat.depth]; simp [Shape.scopes]; omega, hat.operands, hat.results, hat.calls,
    hat.later.trans (Later.bind hle x _ m.heap)⟩
  change (currentScope >>= _) m = _
  rw [bind_of_ok (currentScope_apply m), bind_of_ok (heap_apply m), hparent]
  change ((heap >>= _) >>= _) m = _
  rw [bind_assoc, bind_of_ok (heap_apply m), hlocal]
  simp only
  rw [bind_of_ok (monadLift_apply _ m), hdeclare]
  rfl

-- A jump from within a round to the scope of the loop finds stale values there.
theorem leaveRound {pre : List Shape} (hat : At a (pre ++ .round :: shapes) env ops m) {d : Nat}
    (hd : d = Structured.depth (.scope :: shapes)) :
    ∃ stale, GetsResult m (p.step (.jump d) m) .next a (.scope :: shapes)
      (stale :: env.drop (pre.length + 1)) ops := by
  subst hd
  obtain ⟨s', hleave, hlayout⟩ := hat.layout.leave pre
  obtain ⟨b, rest, hrest⟩ : ∃ b rest, env.drop pre.length = b :: rest := by
    cases hdrop : env.drop pre.length with
    | nil => simp [hdrop] at hlayout; nomatch hlayout.length_eq
    | cons b rest => exact ⟨b, rest, rfl⟩
  rw [hrest] at hlayout
  have htail : env.drop (pre.length + 1) = rest := by rw [← List.drop_drop, hrest]; rfl
  obtain ⟨s₁, stale, hparent, hlayout₁⟩ := hlayout.leaveRound
  have hdepth := hat.depth
  simp only [depth_append, depth_cons, Shape.scopes] at hdepth
  have hlt : Structured.depth (.scope :: shapes) < m.frame.depth := by
    simp only [depth_cons, Shape.scopes]
    omega
  have hdiff : m.frame.depth - Structured.depth (.scope :: shapes) = Structured.depth pre + 1 := by
    simp only [depth_cons, Shape.scopes]
    omega
  rw [htail]
  refine ⟨stale, performs rfl ⟨{ m with
    frame := { m.frame with scope := s₁, depth := Structured.depth (.scope :: shapes) } }, ?_, rfl,
    hlayout₁, rfl, hat.operands, hat.results, hat.calls, hat.later⟩⟩
  change Exec.unwindTo _ m = _
  unfold Exec.unwindTo
  rw [bind_of_ok (frame_apply m), if_pos hlt, bind_of_ok (heap_apply m), hdiff, hleave 1,
    Exec.leaveScopes, hparent]
  rfl

end At

end StepGraph.Structured

namespace StepGraph.Structured

open Exec

-- The scope of the package binds each function to its value.
structure Package (funcs : Funcs) (callee : String → Value) (pkg : ScopeId) (h : Heap) : Prop where
  lt : pkg < h.scopes.size
  binding : ∀ f sig, funcs.lookup f = some sig → h.binding? pkg f = some (.plain (callee f))

-- A call does what the evaluation of it does, and leaves the position of its caller alone. As for
-- `Sim`, a call of an evaluation with too few rounds is stopped by a bound as low as `bound`.
def AnswersCall (bound : Nat) (x : Eval (Option Value)) (result : Option Base)
    (run : Nat → Outcome (List Value)) (m : Machine) : Prop :=
  match x m.printer with
  | .ok v printer =>
      ∃ m', m'.printer = printer ∧ m'.frame = m.frame ∧ m'.calls = m.calls ∧
        Later m.heap.scopes.size m.heap m'.heap ∧ Option.Rel Base.Has result v ∧
        SettlesFrom run (· = .ok v.toList m')
  | .error .timeout _ => ∀ n ≤ bound, IsExhausted (run n)
  | .error stop printer => SettlesFrom run (StopsAlike stop printer)

-- What the body of a function runs in: the steps of the function and the type of its result, the
-- other functions with their evaluations, the number of rounds that a loop of an evaluation may
-- take, and the present call.
structure World where
  program : Program
  steps : Array Step
  result : Option Base
  rounds : Nat
  funcs : Funcs
  calls : Calls
  callee : String → Value
  act : Activation

structure World.WellFormed (w : World) : Prop where
  pkg_lt : w.act.pkg < w.act.base
  package : Package w.funcs w.callee w.act.pkg w.act.start
  answers : ∀ f sig, w.funcs.lookup f = some sig → ∃ call, w.calls f = some call ∧
    ∀ args, List.Forall₂ Base.Has sig.params args → ∀ span m, m.calls = w.act.calls →
      Package w.funcs w.callee w.act.pkg m.heap →
      AnswersCall w.rounds (call args) sig.result
        (fun n => w.program.call n (w.callee f) args false span m) m
  others : ∀ f, w.funcs.lookup f = none → w.calls f = none

section

variable (w : World) (shapes : List Shape) (vars : Vars)

-- Evaluations and what becomes of them, for a run in the world.
abbrev World.Sim {α : Type} (x : Eval α) (k : Option StepId) (m : Machine)
    (good : α → Option StepId → Machine → Prop) : Prop :=
  Structured.Sim w.program w.steps w.rounds x k m good

abbrev World.Op (id : StepId) (op : StepOp) (k : Option StepId) : Prop :=
  Structured.Op w.steps id op k

-- The steps from `k` to `k'` push the value that the evaluation gives.
def Yields (t : Base) (k k' : Option StepId) (x : Env → Eval Value) : Prop :=
  ∀ env ops m, EnvHas vars env → At w.act shapes env ops m →
    w.Sim (x env) k m fun v k₁ m₁ => k₁ = k' ∧ t.Has v ∧ At w.act shapes env (v :: ops) m₁

end

variable {w : World} {shapes : List Shape} {vars : Vars} {s t : Base} {id : StepId}
  {k k' k₁ : Option StepId} {x y : Env → Eval Value}

theorem yields_const {v : Value} {hint : Option Ty} {n : Names} (hv : t.Has v)
    (hhint : t.Hints hint) (hop : w.Op id (.const (n.constant v hint)) k') :
    Yields w shapes vars t (some id) k' fun _ => pure v :=
  fun _ _ m _ hat => .performs hop (hat.const (hv.constant n hhint m.heap)) fun _ hat' =>
    .pure ⟨rfl, hv, hat'⟩

theorem yields_load {z : String} (hz : vars.type? z = some t) (hop : w.Op id (.load z) k') :
    Yields w shapes vars t (some id) k' fun env => ofOption (env.value? z) := by
  intro env ops m he hat
  obtain ⟨v, hvalue, hv⟩ := he.value_of_type hz
  simp only [hvalue]
  exact .performs hop (hat.load (hat.lookup_eq hvalue)) fun _ hat' => .pure ⟨rfl, hv, hat'⟩

theorem yields_binary {op : BinaryOp} {resolved : Option Family} (hop : s.result? op = some t)
    (hresolved : resolved = none ∨ resolved = some s.family)
    (hx : Yields w shapes vars s k k₁ x) (hy : Yields w shapes vars s k₁ (some id) y)
    (hstep : w.Op id (.binary op resolved) k') :
    Yields w shapes vars t k k' (fun env => do
      let a ← x env
      let b ← y env
      ofExcept (operate op a b)) := by
  intro env ops m he hat
  refine (hx env ops m he hat).bind fun a k₂ m₁ hgood => ?_
  obtain ⟨rfl, ha, hat₁⟩ := hgood
  refine (hy env (a :: ops) m₁ he hat₁).bind fun b k₂ m₂ hgood => ?_
  obtain ⟨rfl, hb, hat₂⟩ := hgood
  obtain ⟨v, hv, htv⟩ | ⟨f, hf⟩ := Base.operate_gives hop ha hb
  · rw [hv]
    exact .performs hstep (hat₂.binary hop ha hb hresolved hv) fun _ hat' => .pure ⟨rfl, htv, hat'⟩
  · rw [hf]
    exact .stops hstep (by simp) (hat₂.binary_fault hop ha hb hresolved hf)

theorem yields_unary {op : UnaryOp} (hop : t.allows op) (hx : Yields w shapes vars t k (some id) x)
    (hstep : w.Op id (.unary op) k') :
    Yields w shapes vars t k k' (fun env => do
      let a ← x env
      ofExcept (evaluateUnary op a)) := by
  intro env ops m he hat
  refine (hx env ops m he hat).bind fun a k₂ m₁ hgood => ?_
  obtain ⟨rfl, ha, hat₁⟩ := hgood
  obtain ⟨v, hv, htv⟩ := Base.evaluateUnary_has hop ha
  rw [hv]
  exact .performs hstep (hat₁.unary hop hv) fun _ hat' => .pure ⟨rfl, htv, hat'⟩

-- The left operand decides alone, or it is taken off and the right one decides.
theorem yields_logical {op : BinaryOp} (hx : Yields w shapes vars .bool k (some id) x)
    (hy : Yields w shapes vars .bool k₁ k' y)
    (hstep : w.Op id (.shortCircuit (op = .logicalOr) k') k₁) :
    Yields w shapes vars .bool k k' (fun env => do
      let a ← x env
      if (← test a) = (op = .logicalOr : Bool) then return a else y env) := by
  intro env ops m he hat
  refine (hx env ops m he hat).bind fun a k₂ m₁ hgood => ?_
  obtain ⟨rfl, ha, hat₁⟩ := hgood
  cases ha with
  | bool b =>
      have hstop := hat₁.shortCircuit (p := w.program) (op = .logicalOr) k'
      change w.Sim (if b = decide (op = .logicalOr) then pure (.bool b) else y env) (some id) m₁ _
      split at hstop
      · next hb =>
          rw [if_pos hb]
          exact .jumps hstep hstop fun _ hat' => .pure ⟨rfl, .bool b, hat'⟩
      · next hb =>
          rw [if_neg hb]
          exact .performs hstep hstop fun m' hat' => hy env ops m' he hat'

-- The value lies under others on the stack, as its arity tells.
inductive ValuesStacked (ops : List Value) : Arity → List Value → List Value → Prop
  | fixed (vs : List Value) : ValuesStacked ops (.fixed vs.length) vs (vs.reverse ++ ops)
  | forwarded (v : Value) : ValuesStacked ops .forwarded [v] (.plainInt 1 :: v :: ops)

theorem At.take {a : Activation} {env : Env} {ops vs stack : List Value} {m : Machine}
    {arity : Arity} (hs : ValuesStacked ops arity vs stack) (hat : At a shapes env stack m) :
    GetsResult m (Exec.take arity m) vs a shapes env ops := by
  cases hs with
  | fixed => exact hat.takeN
  | forwarded v =>
      refine hat.pop.bind fun m₁ hat₁ => ?_
      exact hat₁.pop.bind fun m₂ hat₂ => hat₂.pure [v]

-- The same for several values.
def YieldsAll (w : World) (shapes : List Shape) (vars : Vars) (ts : List Base) (arity : Arity)
    (k k' : Option StepId) (x : Env → Eval (List Value)) : Prop :=
  ∀ env ops m, EnvHas vars env → At w.act shapes env ops m →
    w.Sim (x env) k m fun vs k₁ m₁ => k₁ = k' ∧ List.Forall₂ Base.Has ts vs ∧
      ∃ stack, ValuesStacked ops arity vs stack ∧ At w.act shapes env stack m₁

theorem Package.later {funcs : Funcs} {callee : String → Value} {pkg base : ScopeId} {h h' : Heap}
    (hp : Package funcs callee pkg h) (hl : Later base h h') (hlt : pkg < base) :
    Package funcs callee pkg h' where
  lt := Nat.lt_of_lt_of_le hp.lt hl.size
  binding f sig hf := by
    rw [← hp.binding f sig hf]
    unfold Heap.binding?
    rw [hl.same pkg hlt]

theorem At.package {env : Env} {ops : List Value} {m : Machine} (hw : w.WellFormed)
    (hat : At w.act shapes env ops m) : Package w.funcs w.callee w.act.pkg m.heap :=
  hw.package.later hat.later hw.pkg_lt

-- The name of a function leads to its value where no variable has that name.
theorem At.lookup_callee {env : Env} {ops : List Value} {m : Machine} (hw : w.WellFormed)
    (hat : At w.act shapes env ops m) {f : String} {sig : FuncType}
    (hf : w.funcs.lookup f = some sig) (hfree : env.value? f = none) :
    m.heap.lookup m.frame.scope f = some (w.callee f) := by
  have hbinding := (hat.package hw).binding f sig hf
  obtain ⟨n, hn, howner⟩ :=
    hat.layout.ownerUpTo_free hw.pkg_lt hfree (m.frame.scope + 1) (Nat.lt_succ_self _)
  obtain ⟨j, rfl, -⟩ := Layout.exists_succ hn
  have hpkg : m.heap.ownerUpTo f (j + 1) w.act.pkg = some w.act.pkg := by
    simp [Heap.ownerUpTo, Heap.binds, hbinding]
  unfold Heap.lookup Heap.owner?
  rw [howner, hpkg]
  simp [Heap.local?, hbinding, Heap.bindingValue?]

-- What a call leaves on the stack.
def left : CallResults → Option Value → List Value
  | .discard, _ => []
  | .one, r => [r.getD .nil]
  | .forward, some v => [.plainInt 1, v]
  | .forward, none => [.plainInt 0]

theorem pushResults_left {env : Env} {ops : List Value} {a : Activation} {m : Machine}
    (hat : At a shapes env ops m) (r : Option Value) (results : CallResults) :
    GetsResult m (pushResults r.toList results m) () a shapes env (left results r ++ ops) := by
  cases results with
  | discard => exact hat.pure ()
  | one =>
      cases r with
      | none => exact hat.push _
      | some v => exact hat.push v
  | forward =>
      refine (hat.pushAll r.toList.reverse).bind fun m₁ hat₁ => ?_
      rw [List.reverse_reverse] at hat₁
      cases r <;> exact hat₁.push _

-- A call simulates its evaluation.
theorem sim_call (hw : w.WellFormed) {f : String} {sig : FuncType}
    (hf : w.funcs.lookup f = some sig)
    {call : List Value → Eval (Option Value)} (hcall : w.calls f = some call) {vs : List Value}
    (hvs : List.Forall₂ Base.Has sig.params vs) {env : Env} {ops stack : List Value}
    {arity : Arity} (hstack : ValuesStacked ops arity vs stack) {m : Machine}
    (hat : At w.act shapes env (w.callee f :: stack) m) {results : CallResults}
    (hstep : w.Op id (.call arity false results) k') :
    w.Sim (call vs) (some id) m fun r k₁ m₁ =>
      k₁ = k' ∧ Option.Rel Base.Has sig.result r ∧ At w.act shapes env (left results r ++ ops) m₁ := by
  obtain ⟨st, hs, hop, hnext⟩ := hstep
  obtain ⟨call', hcall', hanswers⟩ := hw.answers f sig hf
  obtain rfl : call' = call := Option.some.inj (hcall'.symm.trans hcall)
  obtain ⟨m₂, hstep, hprinter, hat₂⟩ : GetsResult m (w.program.step st.op m)
      (.call (w.callee f) vs false results) w.act shapes env ops := by
    rw [hop]
    refine hat.pop.bind fun m₁ hat₁ => ?_
    exact (At.take hstack hat₁).bind fun m₂ hat₂ => hat₂.pure _
  have hanswer := hanswers vs hvs st.span m₂ hat₂.calls (hat₂.package hw)
  have hadvance := fun n => Program.advance_call w.program n hs hstep
  unfold AnswersCall at hanswer
  rw [hprinter] at hanswer
  unfold World.Sim Structured.Sim
  split
  · next v printer hv =>
      simp only [hv] at hanswer
      obtain ⟨m₃, hprinter₃, hframe, hcalls, hlater, hresult, hsettles⟩ := hanswer
      have hat₃ : At w.act shapes env ops m₃ := by
        refine ⟨?_, ?_, ?_, ?_, hcalls.trans hat₂.calls, ?_⟩
        · rw [hframe]
          exact hat₂.layout.later hlater
        · rw [hframe, hat₂.depth]
        · rw [hframe, hat₂.operands]
        · rw [hframe, hat₂.results]
        · exact hat₂.later.trans (hlater.mono
            (Nat.le_trans hat₂.layout.base_le (Nat.le_of_lt hat₂.layout.lt_size)))
      obtain ⟨m₄, hpush, hprinter₄, hat₄⟩ := pushResults_left hat₃ v results
      refine ⟨1, k', m₄, .of_settles ?_, hprinter₄.trans hprinter₃, rfl, hresult, hat₄⟩
      refine hsettles.imp (fun n hn => ?_) (fun n hn => ?_)
      · rw [hadvance]
        exact ((hn.bind _).annotated _).bind _
      · have hboth : (w.program.call n (w.callee f) vs false st.span >>= fun rs =>
            pushResults rs results) m₂ = .ok () m₄ := (bind_of_ok hn).trans hpush
        rw [hadvance, bind_of_ok (Program.annotated_ok st.span hboth), hnext]
        rfl
  · next printer hv =>
      simp only [hv] at hanswer
      refine exhausted_of_advance fun n hn => ?_
      rw [hadvance]
      exact (((hanswer n hn).bind _).annotated _).bind _
  · next stop printer hne hv =>
      simp only [hv] at hanswer
      refine .of_advance (hanswer.imp (fun n hn => ?_) (fun n hn => ?_))
      · rw [hadvance]
        exact ((hn.bind _).annotated _).bind _
      · rw [hadvance]
        exact ((hn.bind _).annotated _).bind _

theorem sim_invocation (hw : w.WellFormed) {f : String} {sig : FuncType}
    (hf : w.funcs.lookup f = some sig) (hlocal : vars.type? f = none) {arity : Arity}
    {xs : Env → Eval (List Value)} {id₁ : StepId}
    (hargs : YieldsAll w shapes vars sig.params arity k (some id₁) xs)
    (hload : w.Op id₁ (.load f) (some id)) {results : CallResults}
    (hstep : w.Op id (.call arity false results) k') {env : Env} {ops : List Value} {m : Machine}
    (he : EnvHas vars env) (hat : At w.act shapes env ops m) {call : List Value → Eval (Option Value)}
    (hcall : w.calls f = some call) :
    w.Sim (xs env >>= call) k m fun r k₁ m₁ =>
      k₁ = k' ∧ Option.Rel Base.Has sig.result r ∧ At w.act shapes env (left results r ++ ops) m₁ := by
  refine (hargs env ops m he hat).bind fun vs k₂ m₁ hgood => ?_
  obtain ⟨rfl, hvs, stack, hstack, hat₁⟩ := hgood
  exact .performs hload (hat₁.load (hat₁.lookup_callee hw hf (he.value_of_none hlocal))) fun m₂ hat₂ =>
    sim_call hw hf hcall hvs hstack hat₂ hstep

-- The values of expressions, one after the other.

theorem yieldsAll_nil {calls : Calls} :
    YieldsAll w shapes vars [] (.fixed 0) k k fun env => exprs calls env [] :=
  fun _ ops _ _ hat => .pure ⟨rfl, .nil, ops, .fixed [], hat⟩

theorem yieldsAll_cons {calls : Calls} {e : Expr} {es : List Expr} {ts : List Base} {n : Nat}
    (he : Yields w shapes vars t k k₁ fun env => expr calls env e)
    (hes : YieldsAll w shapes vars ts (.fixed n) k₁ k' fun env => exprs calls env es) :
    YieldsAll w shapes vars (t :: ts) (.fixed (n + 1)) k k' fun env =>
      exprs calls env (e :: es) := by
  intro env ops m henv hat
  simp only [exprs]
  refine (he env ops m henv hat).bind fun v k₂ m₁ hgood => ?_
  obtain ⟨rfl, hv, hat₁⟩ := hgood
  refine (hes env (v :: ops) m₁ henv hat₁).bind fun vs k₃ m₂ hgood => ?_
  obtain ⟨rfl, hvs, stack, hstack, hat₂⟩ := hgood
  refine .pure ⟨rfl, .cons hv hvs, stack, ?_, hat₂⟩
  cases hstack
  have hstacked : ValuesStacked ops (.fixed (v :: vs).length) (v :: vs) _ := .fixed _
  simpa using hstacked

-- A call in the place of a value, and a call that gives the only argument of another one.

theorem yields_call (hw : w.WellFormed) {f : String} {sig : FuncType}
    (hf : w.funcs.lookup f = some sig)
    (hlocal : vars.type? f = none) (hresult : sig.result = some t) {arity : Arity} {id₁ : StepId}
    {xs : Env → Eval (List Value)}
    (hargs : YieldsAll w shapes vars sig.params arity k (some id₁) xs)
    (hload : w.Op id₁ (.load f) (some id)) (hstep : w.Op id (.call arity false .one) k') :
    Yields w shapes vars t k k' (fun env => do
      let vs ← xs env
      let call ← ofOption (w.calls f)
      ofOption (← call vs)) := by
  intro env ops m he hat
  obtain ⟨call, hcall, -⟩ := hw.answers f sig hf
  have hinvoke := sim_invocation hw hf hlocal hargs hload hstep he hat hcall
  simp only [hcall, ofOption, pure_bind, ← bind_assoc]
  refine hinvoke.bind fun r k₂ m₁ hgood => ?_
  obtain ⟨rfl, hr, hat₁⟩ := hgood
  rw [hresult] at hr
  cases hr with
  | some hv => exact .pure ⟨rfl, hv, hat₁⟩

theorem yieldsAll_call (hw : w.WellFormed) {f : String} {sig : FuncType}
    (hf : w.funcs.lookup f = some sig)
    (hlocal : vars.type? f = none) (hresult : sig.result = some t) {arity : Arity} {id₁ : StepId}
    {xs : Env → Eval (List Value)}
    (hargs : YieldsAll w shapes vars sig.params arity k (some id₁) xs)
    (hload : w.Op id₁ (.load f) (some id)) (hstep : w.Op id (.call arity false .forward) k') :
    YieldsAll w shapes vars [t] .forwarded k k' (fun env => do
      let v ← do
        let vs ← xs env
        let call ← ofOption (w.calls f)
        ofOption (← call vs)
      return [v]) := by
  intro env ops m he hat
  obtain ⟨call, hcall, -⟩ := hw.answers f sig hf
  have hinvoke := sim_invocation hw hf hlocal hargs hload hstep he hat hcall
  simp only [hcall, ofOption, pure_bind, ← bind_assoc]
  rw [bind_assoc]
  refine hinvoke.bind fun r k₂ m₁ hgood => ?_
  obtain ⟨rfl, hr, hat₁⟩ := hgood
  rw [hresult] at hr
  cases hr with
  | some hv => exact .pure ⟨rfl, .cons hv .nil, _, .forwarded _, hat₁⟩

-- The builtins that print.
theorem callBuiltin_print {ts : List Base} {vs : List Value}
    (hvs : List.Forall₂ Base.Has ts vs) (sv : Services) {b : Builtin} {f : String}
    (hb : b = .print ∧ f = "print" ∨ b = .println ∧ f = "println") (ty : Option Ty) (m : Machine) :
    ∃ printer, w.program.callBuiltin sv b ty vs false m = .ok [] { m with printer } ∧
      print f vs m.printer = .ok () printer := by
  have hshow := Base.mapM_show hvs sv m
  rcases hb with ⟨rfl, rfl⟩ | ⟨rfl, rfl⟩
  · refine ⟨m.printer.write (String.join (vs.map text)), ?_, rfl⟩
    have hall : sv.showAll vs m = .ok (String.join (vs.map text)) m := by
      unfold Services.showAll
      rw [bind_of_ok hshow]
      rfl
    change (sv.showAll vs >>= _) m = _
    rw [bind_of_ok hall]
    rfl
  · refine ⟨m.printer.writeLine (" ".intercalate (vs.map text)), ?_, rfl⟩
    have hall : sv.showSpaced vs m = .ok (" ".intercalate (vs.map text)) m := by
      unfold Services.showSpaced
      rw [bind_of_ok hshow]
      rfl
    change (sv.showSpaced vs >>= _) m = _
    rw [bind_of_ok hall]
    rfl

theorem sim_print {b : Builtin} {f : String}
    (hb : b = .print ∧ f = "print" ∨ b = .println ∧ f = "println") {ts : List Base}
    {vs : List Value} (hvs : List.Forall₂ Base.Has ts vs) {env : Env} {ops stack : List Value}
    {arity : Arity} (hstack : ValuesStacked ops arity vs stack) {m : Machine}
    (hat : At w.act shapes env stack m) {ty : Option Ty}
    (hstep : w.Op id (.callBuiltin b ty arity false .discard) k') :
    w.Sim (print f vs) (some id) m fun _ k₁ m₁ => k₁ = k' ∧ At w.act shapes env ops m₁ := by
  obtain ⟨st, hs, hop, hnext⟩ := hstep
  obtain ⟨m₂, hstep, hprinter, hat₂⟩ : GetsResult m (w.program.step st.op m)
      (.builtin b ty vs false .discard) w.act shapes env ops := by
    rw [hop]
    exact (At.take hstack hat).bind fun m₂ hat₂ => hat₂.pure _
  obtain ⟨printer, -, hprint⟩ :=
    callBuiltin_print (w := w) hvs ⟨w.program.types, fun _ _ => pure []⟩ hb ty m₂
  rw [hprinter] at hprint
  unfold World.Sim Structured.Sim
  rw [hprint]
  refine ⟨1, k', { m₂ with printer }, .of_advance fun n => ?_, rfl, rfl, hat₂.setPrinter printer⟩
  obtain ⟨printer', hcall, hprint'⟩ := callBuiltin_print (w := w) hvs
    ⟨w.program.types, fun f xs => w.program.call n f xs false Span.none⟩ hb ty m₂
  obtain rfl : printer' = printer := by
    rw [hprinter, hprint] at hprint'
    cases hprint'
    rfl
  have hboth : (w.program.callBuiltin
      ⟨w.program.types, fun f xs => w.program.call n f xs false Span.none⟩ b ty vs false >>=
        fun rs => pushResults rs .discard) m₂ = .ok () { m₂ with printer := printer' } :=
    bind_of_ok hcall
  rw [Program.advance_builtin w.program n hs hstep,
    bind_of_ok (Program.annotated_ok st.span hboth), hnext]
  rfl

end StepGraph.Structured

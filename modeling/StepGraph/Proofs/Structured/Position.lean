import StepGraph.Proofs.Machine.Return
import StepGraph.Proofs.Structured.Layout
import StepGraph.Proofs.Structured.Operators
import StepGraph.Proofs.Structured.Simulation

open EStateM (bind_of_ok)

namespace StepGraph.Structured

open Exec

-- The variables of a block have values of their types, and there are no others.
def BlockHas (vb : List (String × Base)) (b : List (String × Value)) : Prop :=
  ∀ x, Option.Rel Base.Has (vb.lookup x) (b.lookup x)

def EnvHas (vars : Vars) (env : Env) : Prop := List.Forall₂ BlockHas vars env

namespace BlockHas

variable {vb : List (String × Base)} {b : List (String × Value)}

theorem nil : BlockHas [] [] := fun _ => .none

theorem cons (hb : BlockHas vb b) {t : Base} {v : Value} (hv : t.Has v) (x : String) :
    BlockHas ((x, t) :: vb) ((x, v) :: b) := by
  intro y
  rw [Lists.lookup_cons_eq, Lists.lookup_cons_eq]
  split
  · exact .some hv
  · exact hb y

theorem lookup_some (hb : BlockHas vb b) {x : String} {t : Base} (hx : vb.lookup x = some t) :
    ∃ v, b.lookup x = some v ∧ t.Has v := by
  have h := hb x
  rw [hx] at h
  cases hv : b.lookup x with
  | none => simp [hv] at h
  | some v =>
      rw [hv] at h
      cases h with
      | some h => exact ⟨v, rfl, h⟩

theorem lookup_none (hb : BlockHas vb b) {x : String} (hx : vb.lookup x = none) :
    b.lookup x = none := by
  have h := hb x
  rw [hx] at h
  cases hv : b.lookup x with
  | none => rfl
  | some v => simp [hv] at h

-- A value of the right type over an old one.
theorem update (hb : BlockHas vb b) {t : Base} {v : Value} {x : String}
    (hx : vb.lookup x = some t) (hv : t.Has v) : BlockHas vb ((x, v) :: b) := by
  intro y
  rw [Lists.lookup_cons_eq]
  split
  · next he =>
      rw [he, hx]
      exact .some hv
  · exact hb y

end BlockHas

namespace EnvHas

variable {vars : Vars} {env : Env} {x : String} {t : Base} {v : Value}

theorem push (he : EnvHas vars env) : EnvHas ([] :: vars) ([] :: env) := .cons BlockHas.nil he

theorem tail (he : EnvHas vars env) : EnvHas vars.tail env.tail := by
  cases he with
  | nil => exact .nil
  | cons _ he => exact he

theorem value (he : EnvHas vars env) (x : String) :
    Option.Rel Base.Has (vars.type? x) (env.value? x) := by
  induction he with
  | nil => exact .none
  | cons hb _ ih =>
      have hx := hb x
      unfold Vars.type? Env.value?
      simp only [List.findSome?_cons]
      split <;> split <;> simp_all [Vars.type?, Env.value?]

theorem value_of_type (he : EnvHas vars env) (hx : vars.type? x = some t) :
    ∃ v, env.value? x = some v ∧ t.Has v := by
  have h := he.value x
  rw [hx] at h
  cases hv : env.value? x with
  | none => simp [hv] at h
  | some v =>
      rw [hv] at h
      cases h with
      | some h => exact ⟨v, rfl, h⟩

theorem value_of_none (he : EnvHas vars env) (hx : vars.type? x = none) : env.value? x = none := by
  have h := he.value x
  rw [hx] at h
  cases hv : env.value? x with
  | none => rfl
  | some v => simp [hv] at h

theorem declare (he : EnvHas vars env) (x : String) (hv : t.Has v) :
    EnvHas (vars.declare x t) (env.declare x v) := by
  unfold Vars.declare Env.declare
  split
  · exact he
  · cases he with
    | nil => exact .nil
    | cons hb he => exact .cons (hb.cons hv x) he

theorem assign (he : EnvHas vars env) (hx : vars.type? x = some t) (hv : t.Has v) :
    EnvHas vars (env.assign x v) := by
  induction he with
  | nil => simp [Vars.type?] at hx
  | @cons vb b vars env hb he ih =>
      cases hvb : vb.lookup x with
      | some t' =>
          obtain rfl : t' = t := by simpa [Vars.type?, hvb] using hx
          obtain ⟨old, hold, -⟩ := hb.lookup_some hvb
          rw [Layout.assign_cons_some hold]
          exact .cons (hb.update hvb hv) he
      | none =>
          rw [Layout.assign_cons_none (hb.lookup_none hvb)]
          exact .cons hb (ih (by simpa [Vars.type?, hvb] using hx))

end EnvHas

-- What stays the same while the body of a function runs: the scope of the package, the scope of
-- the function, the heap in front of it and the active calls.
structure Activation where
  pkg : ScopeId
  base : ScopeId
  start : Heap
  calls : Array CallRecord

-- The machine is in the middle of the body of a function, which has not returned. The blocks of
-- the environment lie in its scopes, and these operands are on the stack.
structure At (a : Activation) (shapes : List Shape) (env : Env) (ops : List Value) (m : Machine) :
    Prop where
  layout : Layout m.heap a.pkg a.base shapes env m.frame.scope
  depth : m.frame.depth = depth shapes
  operands : m.frame.operands = ops
  results : m.frame.results = none
  calls : m.calls = a.calls
  later : Later a.base a.start m.heap

-- The outcome is this result in this position, and nothing was printed.
def GetsResult {α : Type} (m : Machine) (r : Outcome α) (b : α) (a : Activation)
    (shapes : List Shape) (env : Env) (ops : List Value) : Prop :=
  ∃ m', r = .ok b m' ∧ m'.printer = m.printer ∧ At a shapes env ops m'

-- A place for declarations: the scope of the function or that of a block.
def Top (shapes : List Shape) : Prop := shapes = [] ∨ ∃ rest, shapes = .scope :: rest

section

variable {p : Program} {steps : Array Step} {id : StepId} {op : StepOp} {k k' : Option StepId}
  {bound : Nat} {α β : Type} {x : Eval α} {good : α → Option StepId → Machine → Prop}
  {a : Activation} {shapes : List Shape} {env : Env} {ops : List Value} {m m₁ : Machine}

theorem Sim.performs (hop : Op steps id op k)
    (hp : GetsResult m (p.step op m) .next a shapes env ops)
    (hrest : ∀ m', At a shapes env ops m' → Sim p steps bound x k m' good) :
    Sim p steps bound x (some id) m good := by
  obtain ⟨m', hstep, hprinter, hat⟩ := hp
  exact .next hop hstep hprinter (hrest m' hat)

theorem Sim.jumps (hop : Op steps id op k)
    (hp : GetsResult m (p.step op m) (.goto k') a shapes env ops)
    (hrest : ∀ m', At a shapes env ops m' → Sim p steps bound x k' m' good) :
    Sim p steps bound x (some id) m good := by
  obtain ⟨m', hstep, hprinter, hat⟩ := hp
  exact .goto hop hstep hprinter (hrest m' hat)

theorem GetsResult.bind {x : Exec α} {f : α → Exec β} {shapes' : List Shape} {env' : Env}
    {ops' : List Value} {b : α} {c : β} (hx : GetsResult m (x m) b a shapes env ops)
    (hf : ∀ m₁, At a shapes env ops m₁ → GetsResult m₁ (f b m₁) c a shapes' env' ops') :
    GetsResult m ((x >>= f) m) c a shapes' env' ops' := by
  obtain ⟨m₁, hx, hprinter, hat⟩ := hx
  obtain ⟨m', hf, hprinter', hat'⟩ := hf m₁ hat
  exact ⟨m', by rw [bind_of_ok hx, hf], hprinter'.trans hprinter, hat'⟩

namespace At

theorem setPrinter (hat : At a shapes env ops m) (printer : Printer) :
    At a shapes env ops { m with printer } :=
  ⟨hat.layout, hat.depth, hat.operands, hat.results, hat.calls, hat.later⟩

-- What the operations on the operands do to a position.

theorem pure (hat : At a shapes env ops m) (b : α) :
    GetsResult m ((Pure.pure b : Exec α) m) b a shapes env ops := ⟨m, rfl, rfl, hat⟩

theorem push (hat : At a shapes env ops m) (v : Value) :
    GetsResult m (Exec.push v m) () a shapes env (v :: ops) := by
  refine ⟨_, push_apply v m, rfl, hat.layout, hat.depth, ?_, hat.results, hat.calls, hat.later⟩
  rw [hat.operands]

theorem pushAll (hat : At a shapes env ops m) (vs : List Value) :
    GetsResult m (Exec.pushAll vs m) () a shapes env (vs.reverse ++ ops) := by
  refine ⟨{ m with frame := { m.frame with operands := vs.reverse ++ m.frame.operands } }, rfl, rfl,
    hat.layout, hat.depth, ?_, hat.results, hat.calls, hat.later⟩
  rw [hat.operands]

theorem takeN {vs : List Value} (hat : At a shapes env (vs.reverse ++ ops) m) :
    GetsResult m (Exec.takeN vs.length m) vs a shapes env ops := by
  have hlen : ¬ (vs.reverse ++ ops).length < vs.length := by simp
  refine ⟨{ m with frame := { m.frame with operands := ops } }, ?_, rfl, hat.layout, hat.depth, rfl,
    hat.results, hat.calls, hat.later⟩
  unfold Exec.takeN
  rw [bind_of_ok (frame_apply m), hat.operands]
  simp only [hlen, if_false]
  change EStateM.Result.ok _ _ = _
  simp

theorem take_one {v : Value} (hat : At a shapes env (v :: ops) m) :
    GetsResult m (take (.fixed 1) m) [v] a shapes env ops := 
  takeN (show At a shapes env ([v].reverse ++ ops) m from hat)

theorem pop {v : Value} (hat : At a shapes env (v :: ops) m) :
    GetsResult m (Exec.pop m) v a shapes env ops := by
  refine ⟨{ m with frame := { m.frame with operands := ops } }, ?_, rfl, hat.layout, hat.depth, rfl,
    hat.results, hat.calls, hat.later⟩
  unfold Exec.pop
  rw [bind_of_ok (frame_apply m), hat.operands]
  rfl

-- A step that works on the operands leads to the next one.
theorem performs (hdef : p.step op = (do p.work op; return .next))
    (hwork : GetsResult m (p.work op m) () a shapes env ops) :
    GetsResult m (p.step op m) .next a shapes env ops := by
  rw [hdef]
  exact hwork.bind fun m₁ hat => hat.pure _

theorem nop (hat : At a shapes env ops m) :
    GetsResult m (p.step .nop m) .next a shapes env ops := performs rfl (hat.pure ())

theorem const (hat : At a shapes env ops m) {c : Constant} {v : Value}
    (hc : Heap.ofConstant c m.heap = (v, m.heap)) :
    GetsResult m (p.step (.const c) m) .next a shapes env (v :: ops) := by
  refine performs rfl ?_
  change GetsResult m ((liftM (Heap.ofConstant c) >>= Exec.push) m) () a shapes env (v :: ops)
  rw [bind_of_ok (monadLift_apply _ m), hc]
  exact hat.push v

theorem owner (hat : At a shapes env ops m) {y : String} {v : Value}
    (hv : env.value? y = some v) :
    ∃ o, m.heap.owner? m.frame.scope y = some o ∧ m.heap.binding? o y = some (.plain v) ∧
      a.base ≤ o ∧
      ∀ w, Layout (Heap.bind o y (.plain w) m.heap).2 a.pkg a.base shapes (env.assign y w)
        m.frame.scope := by
  obtain ⟨o, ho, hbinding, hle, -, hassign⟩ := hat.layout.owner hv
  exact ⟨o, ho _ (Nat.lt_succ_self _), hbinding, hle, hassign⟩

theorem lookup_eq (hat : At a shapes env ops m) {y : String} {v : Value}
    (hv : env.value? y = some v) : m.heap.lookup m.frame.scope y = some v := by
  obtain ⟨o, ho, hbinding, -⟩ := hat.owner hv
  simp [Heap.lookup, ho, Heap.local?, hbinding, Heap.bindingValue?]

theorem load (hat : At a shapes env ops m) {y : String} {v : Value}
    (hv : m.heap.lookup m.frame.scope y = some v) :
    GetsResult m (p.step (.load y) m) .next a shapes env (v :: ops) := by
  refine performs rfl ?_
  change GetsResult m ((heap >>= _) m) () a shapes env (v :: ops)
  rw [bind_of_ok (heap_apply m), bind_of_ok (currentScope_apply m), hv]
  exact hat.push v

theorem declareValue (hat : At a shapes env ops m) (htop : Top shapes) (y : String) {v : Value}
    {t : Base} (hv : t.Has v) {ty : Option Ty} (hty : t.Hints ty) :
    GetsResult m (p.declareValue ty y v m) () a shapes (env.declare y v) ops := by
  by_cases hy : y = Names.blank
  · unfold Program.declareValue Env.declare
    rw [if_pos hy, if_pos hy]
    exact hat.pure ()
  · obtain ⟨hdeclare, hlayout⟩ := hat.layout.declare htop hy v
    have hbind : (currentScope >>= fun s => (liftM (Heap.declare s y v) : Exec Unit)) m =
        .ok () { m with heap := (Heap.bind m.frame.scope y (.plain v) m.heap).2 } := by
      rw [bind_of_ok (currentScope_apply m), monadLift_apply, hdeclare]
    refine ⟨{ m with heap := (Heap.bind m.frame.scope y (.plain v) m.heap).2 }, ?_, rfl, hlayout,
      hat.depth, hat.operands, hat.results, hat.calls,
      hat.later.trans (Later.bind hat.layout.base_le y _ m.heap)⟩
    unfold Program.declareValue
    rw [if_neg hy, bind_of_ok (monadLift_apply _ m), hv.copy]
    rcases hty with rfl | rfl
    · exact hbind
    · exact (bind_of_ok (hv.coerce p m)).trans hbind

theorem declare {v : Value} (hat : At a shapes env (v :: ops) m) (htop : Top shapes) (y : String)
    {t : Base} (hv : t.Has v) {ty : Option Ty} (hty : t.Hints ty) :
    GetsResult m (p.step (.declare [y] ty (.fixed 1)) m) .next a shapes (env.declare y v) ops :=
  performs rfl (hat.take_one.bind fun _ hat₁ =>
    (hat₁.declareValue htop y hv hty).bind fun _ hat₂ => hat₂.pure ())

theorem store_eq {h : Heap} {o : ScopeId} {y : String} {t : Base} {v : Value} (hv : t.Has v) :
    Heap.store (.variable o y) v h = Heap.bind o y (.plain v) h := by
  have hfilled : h.filledBlock? (h.read? (.variable o y)) v = none := by
    cases h.read? (.variable o y) with
    | none => rfl
    | some old => cases hv <;> cases old <;> rfl
  change Heap.storeUpTo h.depth (.variable o y) v h = _
  unfold Heap.depth Heap.storeUpTo
  rw [Heap.get_bind, hfilled]
  rfl

theorem storeAll (hat : At a shapes env ops m) {y : String} {old v : Value}
    (hold : env.value? y = some old) {t : Base} (hv : t.Has v) :
    GetsResult m (p.storeAll [.var y] [[]] [v] m) () a shapes (env.assign y v) ops := by
  obtain ⟨o, ho, hbinding, hle, hassign⟩ := hat.owner hold
  have hplace : m.heap.location? o y = some (.variable o y) := by simp [Heap.location?, hbinding]
  have hstore := Program.storeTarget_var p ho hplace v
  rw [store_eq hv] at hstore
  refine ⟨{ m with heap := (Heap.bind o y (.plain v) m.heap).2 }, ?_, rfl, hassign v, hat.depth,
    hat.operands, hat.results, hat.calls, hat.later.trans (Later.bind hle y _ m.heap)⟩
  rw [Program.storeAll_cons p (.var y) [] [] v [] (by rw [hv.copy]; exact hstore)]
  rfl

theorem assign {v : Value} (hat : At a shapes env (v :: ops) m) {y : String} {old : Value}
    (hold : env.value? y = some old) {t : Base} (hv : t.Has v) :
    GetsResult m (p.step (.assign [.var y] (.fixed 1)) m) .next a shapes (env.assign y v) ops := by
  obtain ⟨m₁, htake, hprinter, hat₁⟩ := hat.take_one
  obtain ⟨m₂, hstore, hprinter', hat₂⟩ := hat₁.storeAll (p := p) hold hv
  have hops : Program.takeOperands [.var y] m₁ = .ok [[]] m₁ := rfl
  exact ⟨m₂, Program.step_assign p htake rfl hops hstore, hprinter'.trans hprinter, hat₂⟩

theorem loadTarget (hat : At a shapes env ops m) {y : String} {v : Value}
    (hv : env.value? y = some v) (ty : Option Ty) :
    GetsResult m (p.step (.loadTarget (.var y) ty) m) .next a shapes env (v :: ops) := by
  have hload : p.loadTarget (.var y) [] ty m = .ok v m := by
    change (heap >>= _) m = _
    rw [bind_of_ok (heap_apply m), bind_of_ok (currentScope_apply m), hat.lookup_eq hv]
    rfl
  refine performs rfl ?_
  change GetsResult m ((peekN 0 >>= fun vs => p.loadTarget (.var y) vs ty >>= Exec.push) m)
    () _ _ _ _
  rw [bind_of_ok (show peekN 0 m = .ok [] m from rfl), bind_of_ok hload]
  exact hat.push v

end At

end

end StepGraph.Structured

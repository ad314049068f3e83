import StepGraph.Proofs.Machine.Defers
import StepGraph.Proofs.Machine.Hosts

open EStateM (bind_apply map_apply)

namespace StepGraph

variable {α : Type} {m m' m₁ : Machine}

-- What the services are asked for: how `x` goes on from here depends on their answer to this call.
def Services.Asks (x : Services → Exec α) (sv : Services) (m : Machine) (callee : Value)
    (args : List Value) (m₁ : Machine) : Prop :=
  ∃ sv' : Services, sv'.types = sv.types ∧
    (∀ f xs m', ¬ (f = callee ∧ xs = args ∧ m' = m₁) → sv'.call f xs m' = sv.call f xs m') ∧
    x sv' m ≠ x sv m

-- Two operations that are the same wherever so many calls are active, and leave as many.
def Exec.sameAt (k : Nat) : Exec.Law where
  Holds x y := ∀ m, m.calls.size = k → x m = y m ∧
    match x m with
    | .ok _ m' => m'.calls.size = k
    | .error _ m' => m'.calls.size = k
  quiet {_ x} hx := by
    intro m hm
    have hstill := hx m
    refine ⟨rfl, ?_⟩
    cases hr : x m with
    | ok a m' =>
        rw [hr] at hstill
        exact (congrArg Array.size hstill.calls).trans hm
    | error u m' =>
        rw [hr] at hstill
        exact (congrArg Array.size hstill.1.calls).trans hm
  bind {_ _ x y f g} hx hf := by
    intro m hm
    obtain ⟨hsame, hsize⟩ := hx m hm
    rw [bind_apply, bind_apply, ← hsame]
    cases hr : x m with
    | ok a m' =>
        rw [hr] at hsize
        exact hf a m' hsize
    | error u m' =>
        rw [hr] at hsize
        exact ⟨rfl, hsize⟩

-- Whoever has no other hold on the machine than the services asks them with the active calls
-- that there are.
theorem Services.Asks.size_eq {x : Services → Exec α} {sv : Services} {callee : Value}
    {args : List Value} (h : Asks x sv m callee args m₁) (hsv : sv.Work False)
    (hx : ∀ (L : Exec.Law) (sv sv' : Services), sv.Related L sv' → L.Holds (x sv) (x sv')) :
    m₁.calls.size = m.calls.size := by
  obtain ⟨sv', htypes, hsame, hne⟩ := h
  by_contra hsize
  have hrelated : sv.Related (Exec.sameAt m.calls.size) sv' := by
    refine ⟨htypes, fun f xs m' hm' => ⟨?_, ?_⟩⟩
    · refine (hsame f xs m' fun hask => hsize ?_).symm
      rw [← hask.2.2, hm']
    · have hcalls := hsv f xs m'
      cases hr : sv.call f xs m' with
      | ok a m₂ =>
          rw [hr] at hcalls
          exact hcalls.calls.size.trans hm'
      | error u m₂ =>
          rw [hr] at hcalls
          exact hcalls.1.calls.size.trans hm'
  exact hne (hx _ _ _ hrelated m rfl).1.symm

-- What a machine is at work on: a call of a function value, the steps of a function from one of
-- them on, the calls that are left for the end of the call `record`, or something that works
-- through services. The numbers bound how many steps and calls may follow on each other.
inductive Activity where
  | call (n : Nat) (callee : Value) (args : List Value) (spread : Bool) (span : Span)
  | steps (n : Nat) (steps : Array Step) (id : StepId)
  | deferred (n : Nat) (record : Nat) (ds : List Deferred)
  | service (n : Nat) (run : Services → Exec (List Value))

namespace Program

-- The function that a function value stands for, where it is one of the program.
def code? (p : Program) (callee : Value) : Option (Function × ScopeId × Option Value) :=
  match callee.unwrap with
  | .func (some (.closure code env)) => p.code[code.id]?.map (·, env, none)
  | .method code env receiver => p.code[code.id]?.map (·, env, some receiver)
  | _ => none

-- A call has made room for itself, has bound its arguments, and is about to run its steps.
def Enters (p : Program) (callee : Value) (args : List Value) (spread : Bool) (span : Span)
    (m : Machine) (f : Function) (record : Nat) (m₁ : Machine) : Prop :=
  m.calls.size < p.maxDepth ∧ ∃ env receiver scope m₀, p.code? callee = some (f, env, receiver) ∧
    p.enter f env receiver args spread span m = .ok (scope, record) m₀ ∧
    m₁ = { m₀ with frame := .start scope }

-- The machine that goes on to the next deferred call, if any is going to run. A panic waits with
-- the call `record` then.
def atEnd {α : Type} (record : Nat) : EStateM.Result Unwind Machine α → Option Machine
  | .ok _ m => some m
  | .error (.panic v) m => some (park record v m)
  | .error _ _ => none

-- What begins in the course of an activity, and in which machine.
inductive Begins (p : Program) : Activity → Machine → Activity → Machine → Prop
  | body {n : Nat} {callee : Value} {args : List Value} {spread : Bool} {span : Span}
      {f : Function} {m m₁ : Machine} {record : Nat}
      (henters : p.Enters callee args spread span m f record m₁) :
      Begins p (.call (n + 1) callee args spread span) m (.steps n f.steps 0) m₁
  | defers {n : Nat} {callee : Value} {args : List Value} {spread : Bool} {span : Span}
      {f : Function} {m m₁ m₂ : Machine} {record : Nat}
      (henters : p.Enters callee args spread span m f record m₁) (hdefer : f.hasDefer = true)
      (hend : atEnd record (Program.body (p.run n) f.steps m₁) = some m₂) :
      Begins p (.call (n + 1) callee args spread span) m (.deferred n record m₂.frame.deferred) m₂
  | host {n : Nat} {callee : Value} {args args' : List Value} {spread : Bool} {span : Span}
      {ref : HostRef} {f : HostFunction} {m m₁ : Machine}
      (hcallee : callee.unwrap = .func (some (.host ref)))
      (hf : p.hosts.function? ref = some f)
      (hargs : (if spread then expandSpread args else pure args : Exec _) m = .ok args' m₁) :
      Begins p (.call (n + 1) callee args spread span) m (.service n fun sv => f sv args') m₁
  | asked {n : Nat} {run : Services → Exec (List Value)} {callee : Value} {args : List Value}
      {m m₁ : Machine} (hasks : Services.Asks run (p.services n) m callee args m₁) :
      Begins p (.service n run) m (.call n callee args false Span.none) m₁
  | next {n : Nat} {steps : Array Step} {id k : StepId} {m m₁ : Machine}
      (hstep : p.advance n steps id m = .ok (some (some k)) m₁) :
      Begins p (.steps (n + 1) steps id) m (.steps n steps k) m₁
  | called {n : Nat} {steps : Array Step} {id : StepId} {s : Step} {callee : Value}
      {args : List Value} {spread : Bool} {results : CallResults} {m m₁ : Machine}
      (hs : steps[id]? = some s)
      (hstep : p.step s.op m = .ok (.call callee args spread results) m₁) :
      Begins p (.steps (n + 1) steps id) m (.call n callee args spread s.span) m₁
  | builtin {n : Nat} {steps : Array Step} {id : StepId} {s : Step} {b : Builtin}
      {ty : Option Ty} {args : List Value} {spread : Bool} {results : CallResults}
      {m m₁ : Machine} (hs : steps[id]? = some s)
      (hstep : p.step s.op m = .ok (.builtin b ty args spread results) m₁) :
      Begins p (.steps (n + 1) steps id) m
        (.service n fun sv => p.callBuiltin sv b ty args spread) m₁
  | operands {n : Nat} {steps : Array Step} {id entry : StepId} {s : Step} {args : Arity}
      {spread : Bool} {builtin : Option (Builtin × Option Ty)} {m m₁ : Machine}
      (hs : steps[id]? = some s)
      (hstep : p.step s.op m = .ok (.defer entry args spread builtin) m₁) :
      Begins p (.steps (n + 1) steps id) m (.steps n steps entry) m₁
  | started {n record : Nat} {d : Deferred} {ds : List Deferred} {f : Value} {m : Machine}
      (htarget : d.target = .inl f) :
      Begins p (.deferred n record (d :: ds)) m (.call n f d.args d.spread d.span)
        { m with deferring := some record }
  | startedBuiltin {n record : Nat} {d : Deferred} {ds : List Deferred} {b : Builtin}
      {ty : Option Ty} {m : Machine} (htarget : d.target = .inr (b, ty)) :
      Begins p (.deferred n record (d :: ds)) m
        (.service n fun sv => p.callBuiltin sv b ty d.args d.spread)
        { m with deferring := some record }
  | rest {n record : Nat} {d : Deferred} {ds : List Deferred} {m m₁ : Machine}
      (hend : atEnd record (p.perform n d { m with deferring := some record }) = some m₁) :
      Begins p (.deferred n record (d :: ds)) m (.deferred n record ds)
        { m₁ with deferring := none }

-- Everything that begins from one activity on, at any depth.
inductive During (p : Program) : Activity → Machine → Activity → Machine → Prop
  | here (a : Activity) (m : Machine) : During p a m a m
  | later {a a₁ a' : Activity} {m m₁ m' : Machine} (hbegins : p.Begins a m a₁ m₁)
      (hrest : During p a₁ m₁ a' m') : During p a m a' m'

variable {p : Program} {a a' : Activity}

-- What is asked for leaves the active calls alone until then.
def AsksInPlace (run : Services → Exec (List Value)) : Prop :=
  ∀ (sv : Services) (m m₁ : Machine) (callee : Value) (args : List Value), sv.Work False →
    Services.Asks run sv m callee args m₁ → m₁.calls.size = m.calls.size

theorem asksInPlace_host (hhosts : p.hosts.Behaves) {ref : HostRef} {f : HostFunction}
    (hf : p.hosts.function? ref = some f) (args : List Value) :
    AsksInPlace fun sv => f sv args :=
  fun _ _ _ _ _ hsv hasks => hasks.size_eq hsv fun L sv sv' h => hhosts ref f hf L sv sv' h args

-- Of the builtins only those that print ask for anything: for the texts of their arguments.
theorem holds_callBuiltin_of_asks {b : Builtin} {ty : Option Ty} {args xs : List Value} {spread : Bool}
    {sv : Services} {callee : Value}
    (hasks : Services.Asks (fun sv => p.callBuiltin sv b ty args spread) sv m callee xs m₁)
    (L : Exec.Law) (sv₁ sv₂ : Services) (h : sv₁.Related L sv₂) :
    L.Holds (p.callBuiltin sv₁ b ty args spread) (p.callBuiltin sv₂ b ty args spread) := by
  cases b with
  | print =>
      unfold callBuiltin
      exact L.bind (h.akin.showAll args) fun s =>
        L.bind (L.quiet (Exec.Quiet.print s)) fun _ => L.pure _
  | println =>
      unfold callBuiltin
      exact L.bind (h.akin.showSpaced args) fun s =>
        L.bind (L.quiet (Exec.Quiet.printLine s)) fun _ => L.pure _
  | _ =>
      obtain ⟨sv', -, -, hne⟩ := hasks
      exact absurd rfl hne

theorem asksInPlace_builtin (p : Program) (b : Builtin) (ty : Option Ty) (args : List Value)
    (spread : Bool) : AsksInPlace fun sv => p.callBuiltin sv b ty args spread :=
  fun _ _ _ _ _ hsv hasks => hasks.size_eq hsv (holds_callBuiltin_of_asks hasks)

-- An activity that begins well: there is room for the active calls, and no call is just being
-- started as a deferred one, unless it is the one that begins.
structure Sane (p : Program) (a : Activity) (m : Machine) : Prop where
  room : m.calls.size ≤ p.maxDepth
  steps : ∀ n steps id, a = .steps n steps id → m.deferring = none
  service : ∀ n run, a = .service n run → AsksInPlace run

theorem size_atEnd {α : Type} {record : Nat} {r : EStateM.Result Unwind Machine α} {k : Nat}
    (hr : match r with
      | .ok _ m' => m'.calls.size = k
      | .error _ m' => m'.calls.size = k) (h : atEnd record r = some m') : m'.calls.size = k := by
  cases r with
  | ok a m₁ =>
      cases h
      exact hr
  | error u m₁ =>
      cases u with
      | panic v =>
          cases h
          simpa [park] using hr
      | _ => cases h

theorem Enters.entered {callee : Value} {args : List Value} {spread : Bool} {span : Span}
    {f : Function} {record : Nat} (h : p.Enters callee args spread span m f record m₁) :
    m₁.calls.size ≤ p.maxDepth ∧ m₁.deferring = none := by
  obtain ⟨hroom, env, receiver, scope, m₀, -, henter, rfl⟩ := h
  have hentered := entered_enter p f env receiver args spread span m
  rw [henter] at hentered
  refine ⟨?_, hentered.deferring⟩
  change m₀.calls.size ≤ p.maxDepth
  rw [hentered.calls, Array.size_push]
  exact hroom

theorem Sane.begins (hhosts : p.hosts.Behaves) (h : p.Sane a m) (hb : p.Begins a m a' m') :
    p.Sane a' m' := by
  have hcalls := fun n => (calls_and_runs hhosts n).1
  have hruns := fun n => (calls_and_runs hhosts n).2
  have hstep : ∀ {op : StepOp} {after : Next} {m m₁ : Machine}, p.step op m = .ok after m₁ →
      m₁.calls = m.calls ∧ m₁.deferring = m.deferring := by
    intro op after m m₁ hs
    have hcontinues := p.continues_step op m
    rw [hs] at hcontinues
    exact ⟨hcontinues.calls, hcontinues.deferring⟩
  cases hb with
  | body henters =>
      obtain ⟨hsize, hnone⟩ := henters.entered
      exact ⟨hsize, fun _ _ _ _ => hnone, nofun⟩
  | @defers n callee args spread span f _ m₁ _ record henters hdefer hend =>
      obtain ⟨hsize, hnone⟩ := henters.entered
      have hproceeds := (hruns n) f.steps (entry f.steps) m₁ hnone
      have hbody : Proceeded False m₁ (Program.body (p.run n) f.steps m₁) := by
        refine proceeded_body ?_
        cases hr : p.run n f.steps (entry f.steps) m₁ with
        | ok _ m₂ =>
            rw [hr] at hproceeds
            exact hproceeds
        | error u m₂ =>
            rw [hr] at hproceeds
            exact ⟨hproceeds, False.elim⟩
      refine ⟨le_of_eq_of_le (size_atEnd ?_ hend) hsize, nofun, nofun⟩
      cases hr : Program.body (p.run n) f.steps m₁ with
      | ok _ m₂ =>
          rw [hr] at hbody
          exact hbody.calls.size
      | error u m₂ =>
          rw [hr] at hbody
          exact hbody.1.calls.size
  | @host n callee args args' spread span ref f _ _ hcallee hf hargs =>
      have hquiet : Exec.Quiet (if spread then expandSpread args else pure args) := by
        split
        · exact holds_expandSpread Exec.Quiet.trait.toTrait args
        · exact Exec.Quiet.trait.pure args
      have hm := hquiet m
      rw [hargs] at hm
      refine ⟨?_, nofun, fun _ _ he => ?_⟩
      · rw [hm.calls]
        exact h.room
      · cases he
        exact asksInPlace_host hhosts hf args'
  | asked hasks =>
      refine ⟨le_of_eq_of_le ?_ h.room, nofun, nofun⟩
      exact h.service _ _ rfl _ _ _ _ _ (work_services fun _ _ => hcalls _ _ _ _ _) hasks
  | @next n steps id k _ _ hadvance =>
      have hproceeds := proceeds_advance (hcalls n) (hruns n) steps id m (h.steps _ _ _ rfl)
      rw [hadvance] at hproceeds
      exact ⟨le_of_eq_of_le hproceeds.calls.size h.room, fun _ _ _ _ => hproceeds.deferring,
        nofun⟩
  | called hs hop =>
      refine ⟨?_, nofun, nofun⟩
      rw [(hstep hop).1]
      exact h.room
  | builtin hs hop =>
      refine ⟨?_, nofun, fun _ _ he => ?_⟩
      · rw [(hstep hop).1]
        exact h.room
      · cases he
        exact asksInPlace_builtin p _ _ _ _
  | operands hs hop =>
      refine ⟨?_, fun _ _ _ _ => (hstep hop).2.trans (h.steps _ _ _ rfl), nofun⟩
      rw [(hstep hop).1]
      exact h.room
  | started => exact ⟨h.room, nofun, nofun⟩
  | startedBuiltin =>
      refine ⟨h.room, nofun, fun _ _ he => ?_⟩
      cases he
      exact asksInPlace_builtin p _ _ _ _
  | @rest n record d ds _ m₁ hend =>
      refine ⟨le_of_eq_of_le (show m₁.calls.size = m.calls.size from size_atEnd ?_ hend) h.room,
        nofun, nofun⟩
      have hwork := builtinReturns_perform (hcalls n) d { m with deferring := some record }
      cases hr : p.perform n d { m with deferring := some record } with
      | ok vs m₂ =>
          rw [hr] at hwork
          exact hwork.calls.size
      | error u m₂ =>
          rw [hr] at hwork
          exact hwork.1.calls.size

theorem Sane.during (hhosts : p.hosts.Behaves) (h : p.Sane a m) (hd : p.During a m a' m') :
    p.Sane a' m' := by
  induction hd with
  | here => exact h
  | later hbegins _ ih => exact ih (h.begins hhosts hbegins)

-- The machine that is left, however the work has ended.
def ended {α : Type} : EStateM.Result Unwind Machine α → Machine
  | .ok _ m => m
  | .error _ m => m

theorem returns_ended {x : Exec α} (hx : Exec.Calls False x) (m : Machine) :
    CallReturns m (ended (x m)) := by
  have hm := hx m
  cases hr : x m with
  | ok a m₁ =>
      rw [hr] at hm
      exact hm
  | error u m₁ =>
      rw [hr] at hm
      exact hm.1

theorem calls_evalError (hhosts : p.hosts.Behaves) (n : Nat) (u : Unwind) (m : Machine) :
    CallReturns m (ended (p.evalError n u m)) := by
  cases u with
  | panic v =>
      have hshow : Exec.Calls False ((p.services n).show' v) :=
        (work_services fun _ _ => (calls_and_runs hhosts n).1 _ _ _ _).related.akin.show' v
      have hm := hshow m
      change CallReturns m (ended (p.panicError n v m))
      unfold panicError
      cases hr : (p.services n).show' v m with
      | ok text m₁ =>
          rw [hr] at hm
          exact ⟨hm.frame, hm.calls, hm.deferring, hm.nests⟩
      | error u m₁ =>
          rw [hr] at hm
          dsimp only
          split <;> exact ⟨hm.1.frame, hm.1.calls, hm.1.deferring, hm.1.nests⟩
  | _ => exact .of_positionStays (.refl m)

theorem returns_callFunction (hhosts : p.hosts.Behaves) (n : Nat) (callee : Value)
    (args : List Value) (m : Machine) : CallReturns m (ended (p.callFunction n callee args m)) := by
  have hm := (calls_and_runs hhosts n).1 callee args false Span.none m
  unfold callFunction
  cases hr : p.call n callee args false Span.none m with
  | ok values m₁ =>
      rw [hr] at hm
      exact hm
  | error u m₁ =>
      rw [hr] at hm
      have herror := calls_evalError hhosts n u m₁
      refine hm.1.trans ?_
      dsimp only
      rw [map_apply]
      cases he : p.evalError n u m₁ with
      | ok e m₂ | error e m₂ =>
          rw [he] at herror
          exact herror

theorem proceeds_runUnit (hhosts : p.hosts.Behaves) (n : Nat) (f : Function) (scope : ScopeId)
    (hm : m.deferring = none) :
    KeepsCalls (m.handler = some ·) m.calls (ended (p.runUnit n f scope m)).calls ∧
      (ended (p.runUnit n f scope m)).deferring = none := by
  have hrun := (calls_and_runs hhosts n).2 f.steps (entry f.steps) { m with frame := .start scope } hm
  have hbody : Proceeded False { m with frame := .start scope }
      (Program.body (p.run n) f.steps { m with frame := .start scope }) := by
    refine proceeded_body ?_
    cases hr : p.run n f.steps (entry f.steps) { m with frame := .start scope } with
    | ok _ m₁ =>
        rw [hr] at hrun
        exact hrun
    | error u m₁ =>
        rw [hr] at hrun
        exact ⟨hrun, False.elim⟩
  unfold runUnit inFrame
  cases hr : Program.body (p.run n) f.steps { m with frame := .start scope } with
  | ok _ m₁ =>
      rw [hr] at hbody
      exact ⟨hbody.calls, hbody.deferring⟩
  | error u m₁ =>
      rw [hr] at hbody
      exact ⟨hbody.1.calls, hbody.1.deferring⟩

end Program

-- The machines that an embedder has in its hands: a new one, and what is left of one after some
-- work on its heap and its output, after a unit of a package, or after a call, however that ended.
inductive Machine.Session : Machine → Prop
  | start (printer : Printer) : Session (.start printer)
  | prepared {m : Machine} (h : Session m) (heap : Heap) (printer : Printer) :
      Session { m with heap, printer }
  | unit {m : Machine} (h : Session m) {p : Program} (hhosts : p.hosts.Behaves) (n : Nat)
      (f : Function) (scope : ScopeId) : Session (Program.ended (p.runUnit n f scope m))
  | call {m : Machine} (h : Session m) {p : Program} (hhosts : p.hosts.Behaves) (n : Nat)
      (callee : Value) (args : List Value) :
      Session (Program.ended (p.callFunction n callee args m))

theorem Machine.Session.idle (h : m.Session) : m.calls = #[] ∧ m.deferring = none := by
  induction h with
  | start | prepared _ _ _ ih => first | exact ⟨rfl, rfl⟩ | exact ih
  | @unit m _ p hhosts n f scope ih =>
      obtain ⟨hcalls, hnone⟩ := ih
      obtain ⟨hkeeps, hnone'⟩ := Program.proceeds_runUnit hhosts n f scope hnone
      refine ⟨?_, hnone'⟩
      rw [hkeeps.eq_of_none fun i hi => ?_, hcalls]
      unfold Machine.handler at hi
      rw [hcalls] at hi
      cases hi
  | @call m _ p hhosts n callee args ih =>
      obtain ⟨hcalls, hnone⟩ := ih
      have hreturns := Program.returns_callFunction hhosts n callee args m
      refine ⟨?_, hreturns.deferring.elim (fun h => h.trans hnone) id⟩
      rw [hreturns.calls.eq_of_none fun i hi => ?_, hcalls]
      rw [hnone] at hi
      cases hi

theorem KeepsCalls.cleared {may : Nat → Prop} {calls calls' : Array CallRecord}
    (h : KeepsCalls may calls calls') : calls'.map CallRecord.cleared = calls.map CallRecord.cleared := by
  refine Array.ext_getElem? fun i => ?_
  rw [Array.getElem?_map, Array.getElem?_map]
  rcases h.record i with h | ⟨-, h⟩
  · rw [h]
  · rw [h, Option.map_map]
    rfl

namespace Program

-- However a call ends, the active calls are those that there were before, but for panics that were
-- recovered from. While it goes on they never are more than the limit, if they were not at first.
-- After a call of the embedder none is active, and none is being started as a deferred one.
theorem call_restores_stack (p : Program) (hhosts : p.hosts.Behaves) (n : Nat) (callee : Value)
    (args : List Value) :
    (∀ (spread : Bool) (span : Span) (m : Machine),
      (ended (p.call n callee args spread span m)).calls.size = m.calls.size ∧
      (ended (p.call n callee args spread span m)).calls.map CallRecord.cleared =
        m.calls.map CallRecord.cleared ∧
      (m.calls.size ≤ p.maxDepth → ∀ a m₁, p.During (.call n callee args spread span) m a m₁ →
        m₁.calls.size ≤ p.maxDepth)) ∧
    ∀ m : Machine, m.Session →
      (ended (p.callFunction n callee args m)).calls = #[] ∧
      (ended (p.callFunction n callee args m)).deferring = none := by
  refine ⟨fun spread span m => ?_, fun m hm => (hm.call hhosts n callee args).idle⟩
  have hreturns := returns_ended ((calls_and_runs hhosts n).1 callee args spread span) m
  refine ⟨hreturns.calls.size, hreturns.calls.cleared, fun hsize a m₁ hduring => ?_⟩
  have hsane : p.Sane (.call n callee args spread span) m := ⟨hsize, nofun, nofun⟩
  exact (hsane.during hhosts hduring).room

-- `func f() { f() }` where at most two calls may be active.
def endless : Program where
  code := #[⟨"f", .empty, none, false, false, #[⟨.load "f", some 1, Span.none⟩,
    ⟨.call (.fixed 0) false .discard, some 2, Span.none⟩, ⟨.ret (.fixed 0), none, Span.none⟩]⟩]
  types := .initial
  hosts := .default
  maxDepth := 2
  initializing := false

def callEndless : Value := .func (some (.closure ⟨0, "f"⟩ 0))

-- A new machine in which `f` is bound.
def endlessMachine : Machine :=
  { Machine.start .silent with
    heap := { Heap.empty with scopes := #[⟨[("f", .plain callEndless)], none, true⟩] } }

-- The third call does not fit, and what its failure leaves is fit for another call.
theorem endless_call_restores_stack : endless.hosts.Behaves ∧ endlessMachine.Session ∧
    endlessMachine.calls.size ≤ endless.maxDepth ∧
    (match endless.callFunction 20 callEndless [] endlessMachine with
      | .ok (.error e) _ => e.cause = .stackOverflow 2
      | _ => False) ∧
    (∀ a m₁, endless.During (.call 20 callEndless [] false Span.none) endlessMachine a m₁ →
      m₁.calls.size ≤ endless.maxDepth) ∧
    (ended (endless.callFunction 20 callEndless [] endlessMachine)).calls = #[] ∧
    (ended (endless.callFunction 20 callEndless [] endlessMachine)).deferring = none := by
  have hhosts : endless.hosts.Behaves := HostRegistry.default_behaves
  have hsession : endlessMachine.Session := .prepared (.start .silent) _ .silent
  obtain ⟨hcall, hidle⟩ := call_restores_stack endless hhosts 20 callEndless []
  exact ⟨hhosts, hsession, by decide, rfl,
    (hcall false Span.none endlessMachine).2.2 (by decide), hidle endlessMachine hsession⟩

end Program

end StepGraph

import StepGraph.Proofs.Machine.Unwinding

open EStateM (bind_of_ok map_apply)

namespace StepGraph

-- What an error tells of the step that raised it, and of the machine as that step has left it. If
-- the step has left no operands, nothing is said about those that the error tells.
structure EvalError.ArisesAt (e : EvalError) (cause : Fatal) (s : Step) (m : Machine) : Prop where
  cause : e.cause = cause
  trace : e.trace = some m.backtrace
  span : s.span ≠ Span.none → e.span = some s.span
  operands : m.dump ≠ [] → e.operands = m.dump

theorem EvalError.Extends.arisesAt {e : EvalError} {c : Fatal} {s : Step} {m : Machine}
    (h : e.Extends (Program.annotated.locate s.span (.ofCause c) m)) : e.ArisesAt c s m where
  cause := h.cause
  trace := h.trace _ rfl
  span hs := h.span _ (by simp [Program.annotated.locate, EvalError.ofCause, hs])
  operands := h.operands

namespace Program

variable {p : Program} {n : Nat} {a : Activity} {steps : Array Step} {id : StepId} {s : Step}
  {c : Fatal} {m m₀ m₁ : Machine}

-- A failure that a step raises ends everything that is under way, and still tells of that step.
theorem During.failure_arisesAt (hduring : p.During a m (.steps (n + 1) steps id) m₀)
    (hhosts : p.hosts.Behaves) (ha : a.PassesOn) (hs : steps[id]? = some s)
    (hraised : p.execute n steps s m₀ = .error (.fatal (.ofCause c)) m₁) :
    ∃ e m₂, p.doing a m = .error (.fatal e) m₂ ∧ e.ArisesAt c s m₁ := by
  have hpresent : id < steps.size := (Array.getElem?_eq_some_iff.mp hs).1
  obtain ⟨_, m₂, hends, e, rfl, he⟩ := (hduring.unwinds _).carries hhosts ha hpresent
    (run_of_execute hs hraised)
  exact ⟨e, m₂, hends, he.arisesAt⟩

-- A failure that a step raises, at any depth, ends the call of the embedder or the unit of the
-- package. It tells the calls that were active and the place of the step, and the operands that
-- the step has left, if there are any. Without any it may tell those of a call around it.
theorem failure_tells_where_it_arose (p : Program) (hhosts : p.hosts.Behaves)
    (hs : steps[id]? = some s)
    (hraised : p.execute n steps s m₀ = .error (.fatal (.ofCause c)) m₁) (fuel : Nat)
    (m : Machine) :
    (∀ callee args,
      p.During (.call fuel callee args false Span.none) m (.steps (n + 1) steps id) m₀ →
        ∃ e m₂, p.callFunction fuel callee args m = .ok (.error e) m₂ ∧ e.ArisesAt c s m₁) ∧
    ∀ f scope,
      p.During (.steps fuel f.steps 0) { m with frame := .start scope }
          (.steps (n + 1) steps id) m₀ →
        ∃ e m₂, p.runUnit fuel f scope m = .error (.fatal e) m₂ ∧ e.ArisesAt c s m₁ := by
  refine ⟨fun callee args hduring => ?_, fun f scope hduring => ?_⟩
  · obtain ⟨e, m₂, hends, he⟩ := hduring.failure_arisesAt hhosts trivial hs hraised
    refine ⟨e, m₂, ?_, he⟩
    unfold callFunction
    rw [discard_error.mp hends]
    rfl
  · obtain ⟨e, m₂, hends, he⟩ := hduring.failure_arisesAt hhosts trivial hs hraised
    have hsize : 0 < f.steps.size := (hduring.unwinds (.ofCause c)).present
      (Array.getElem?_eq_some_iff.mp hs).1
    obtain ⟨frame, hbody⟩ := body_error hsize hends
    refine ⟨e, { m₂ with frame := m.frame }, ?_, he⟩
    unfold runUnit inFrame
    rw [hbody]

-- `func f() int { return 1 + g() }`
def addToCall : Function := ⟨"f", .empty, none, false, false,
  #[⟨.const (.int (.plain 1)), some 1, Span.none⟩, ⟨.load "g", some 2, Span.none⟩,
    ⟨.call (.fixed 0) false .one, some 3, ⟨40, 43⟩⟩, ⟨.binary .add none, some 4, Span.none⟩,
    ⟨.ret (.fixed 1), none, Span.none⟩]⟩

-- That function with these steps for `g`.
def adding (g : Array Step) : Program where
  code := #[addToCall, ⟨"g", .empty, none, false, false, g⟩]
  types := .initial
  hosts := .default
  maxDepth := 100
  initializing := false

def callAdding : Value := .func (some (.closure ⟨0, "f"⟩ 0))

def callAdded : Value := .func (some (.closure ⟨1, "g"⟩ 0))

-- A new machine in which `g` is bound.
def addingMachine : Machine :=
  { Machine.start .silent with
    heap := { Heap.empty with scopes := #[⟨[("g", .plain callAdded)], none, true⟩] } }

-- The call of `f` with these operands, the top first.
def inAdding (operands : List Value) : Machine :=
  { addingMachine with
    heap := { addingMachine.heap with scopes := addingMachine.heap.scopes.push ⟨[], some 0, false⟩ }
    frame := { Frame.start 1 with operands }
    calls := #[⟨"f", Span.none, none, none⟩] }

-- The call of `g` with these operands, while 1 waits in the call of `f`.
def inAdded (operands : List Value) : Machine :=
  { inAdding [] with
    heap := { addingMachine.heap with
      scopes := (inAdding []).heap.scopes.push ⟨[], some 0, false⟩ }
    frame := { Frame.start 2 with operands }
    calls := #[⟨"f", Span.none, none, none⟩, ⟨"g", ⟨40, 43⟩, none, none⟩] }

variable {g : Array Step}

theorem adding_enters : (adding g).Enters callAdding [] false Span.none addingMachine addToCall 0
    (inAdding []) :=
  ⟨show 0 < 100 by decide, 0, none, 1, _, rfl, rfl, rfl⟩

theorem added_enters : (adding g).Enters callAdded [] false ⟨40, 43⟩ (inAdding [.int (.plain 1)])
    ⟨"g", .empty, none, false, false, g⟩ 1 (inAdded []) :=
  ⟨show 1 < 100 by decide, 0, none, 2, _, rfl, rfl, rfl⟩

theorem During.of_added (h : (adding g).During (.steps 15 g 0) (inAdded []) a m) :
    (adding g).During (.call 20 callAdding [] false Span.none) addingMachine a m := by
  have hload : (adding g).advance 18 addToCall.steps 0 (inAdding []) =
      .ok (some (some 1)) (inAdding [.int (.plain 1)]) := rfl
  have hloaded : (adding g).advance 17 addToCall.steps 1 (inAdding [.int (.plain 1)]) =
      .ok (some (some 2)) (inAdding [callAdded, .int (.plain 1)]) := rfl
  have hcall : (adding g).step (.call (.fixed 0) false .one)
      (inAdding [callAdded, .int (.plain 1)]) =
        .ok (.call callAdded [] false .one) (inAdding [.int (.plain 1)]) := rfl
  refine .later (.body adding_enters) (.later (.next hload) (.later (.next hloaded) ?_))
  exact .later (.called rfl hcall) (.later (.body added_enters) h)

-- `<-c` where `c` is nil
def receiveNil : Step := ⟨.recv false, none, ⟨20, 23⟩⟩

-- `2 + <-c`
def twoAndReceived : Array Step := #[⟨.const (.int (.plain 2)), some 1, Span.none⟩,
  ⟨.const .nil, some 2, Span.none⟩, receiveNil]

-- The 2 is told and not the 1 that waits in the call around.
theorem failed_receive_tells_its_operands : ∃ e m, (adding twoAndReceived).hosts.Behaves ∧
    (adding twoAndReceived).callFunction 20 callAdding [] addingMachine = .ok (.error e) m ∧
      e.cause = .deadlock ∧ e.trace = some [⟨"g", some ⟨40, 43⟩⟩, ⟨"f", none⟩] ∧
      e.span = some ⟨20, 23⟩ ∧ e.operands = ["2:int"] := by
  have hhosts : (adding twoAndReceived).hosts.Behaves := HostRegistry.default_behaves
  have hduring : (adding twoAndReceived).During (.call 20 callAdding [] false Span.none)
      addingMachine (.steps 13 twoAndReceived 2) (inAdded [.nil, .int (.plain 2)]) := by
    have hconst : (adding twoAndReceived).advance 14 twoAndReceived 0 (inAdded []) =
        .ok (some (some 1)) (inAdded [.int (.plain 2)]) := rfl
    exact .of_added (.later (.next hconst) (.later (.next rfl) (.here _ _)))
  have hraised : (adding twoAndReceived).execute 12 twoAndReceived receiveNil
      (inAdded [.nil, .int (.plain 2)]) =
        .error (.fatal (.ofCause .deadlock)) (inAdded [.int (.plain 2)]) := rfl
  obtain ⟨e, m, hcall, he⟩ := (failure_tells_where_it_arose _ hhosts (s := receiveNil) rfl hraised
    20 addingMachine).1 _ _ hduring
  exact ⟨e, m, hhosts, hcall, he.cause, he.trace, he.span (by decide), he.operands (by decide)⟩

-- `<-c` alone leaves no operands, and the 1 is told that waits in the call around.
theorem operands_of_call_around_are_told :
    let g : Array Step := #[⟨.const .nil, some 1, Span.none⟩, receiveNil]
    (adding g).During (.call 20 callAdding [] false Span.none) addingMachine (.steps 14 g 1)
      (inAdded [.nil]) ∧
    (adding g).execute 13 g receiveNil (inAdded [.nil]) =
      .error (.fatal (.ofCause .deadlock)) (inAdded []) ∧
    (inAdded []).dump = [] ∧
    match (adding g).callFunction 20 callAdding [] addingMachine with
      | .ok (.error e) _ => e.operands = ["1:int"]
      | _ => False := by
  intro g
  exact ⟨.of_added (.later (.next rfl) (.here _ _)), rfl, rfl, rfl⟩

variable {v : Value}

-- The calls that are noted for a panic that now passes a step.
def notedCalls (m : Machine) : List TraceFrame := m.panicTrace.getD m.backtrace

theorem panicTrace_keepTrace (m : Machine) :
    (annotated.keepTrace m).panicTrace = some (notedCalls m) := by
  unfold annotated.keepTrace notedCalls
  cases m.panicTrace <;> rfl

-- A panic that a step raises ends everything that is under way, unless a deferred call holds it up.
theorem Unwinds.panic_noted (h : p.Unwinds (.panic v) a m (.steps (n + 1) steps id) m₀)
    (hhosts : p.hosts.Behaves) (ha : a.PassesOn) (hs : steps[id]? = some s)
    (hraised : p.execute n steps s m₀ = .error (.panic v) m₁) :
    ∃ m₂, p.doing a m = .error (.panic v) m₂ ∧ m₂.panicTrace = some (notedCalls m₁) := by
  have hpresent : id < steps.size := (Array.getElem?_eq_some_iff.mp hs).1
  obtain ⟨_, m₂, hends, rfl, hslot⟩ := h.carries hhosts ha hpresent (run_of_execute hs hraised)
  exact ⟨m₂, hends, hslot _ (panicTrace_keepTrace m₁)⟩

-- To show a value, or to fail at that, leaves alone what is noted for a panic.
def ShowsInPlace (p : Program) (fuel : Nat) (v : Value) (m : Machine) : Prop :=
  match (p.services fuel).show' v m with
  | .ok _ m' => m'.panicTrace = m.panicTrace
  | .error u m' => u.isFinal = false ∧ m'.panicTrace = m.panicTrace

theorem panicError_tells {fuel : Nat} (hshow : p.ShowsInPlace fuel v m) :
    ∃ e m', p.panicError fuel v m = .ok e m' ∧ e.isPanic = true ∧ e.trace = m.panicTrace ∧
      m'.panicTrace = none := by
  unfold ShowsInPlace at hshow
  unfold panicError
  cases hr : (p.services fuel).show' v m with
  | ok text m' =>
      rw [hr] at hshow
      exact ⟨_, _, rfl, rfl, hshow, rfl⟩
  | error u m' =>
      rw [hr] at hshow
      simp only [hshow.1]
      exact ⟨_, _, rfl, rfl, hshow.2, rfl⟩

-- A text stands for itself.
theorem showsInPlace_str (p : Program) (fuel : Nat) (text : String) (m : Machine) :
    p.ShowsInPlace fuel (.str text) m := by
  obtain ⟨n, hn⟩ := Services.exists_showDepth m.heap
  have hshow : (p.services fuel).show' (.str text) m = .ok text m := by
    unfold Services.show' Services.showWhole
    rw [bind_of_ok (Exec.heap_apply m), hn]
    rfl
  unfold ShowsInPlace
  rw [hshow]

-- A panic that a step raises, at any depth, and that finds its way out ends the call of the
-- embedder. The calls that are told are those of the time when it was raised, unless others were
-- noted before that and are still there. Nothing is noted afterwards.
theorem panic_tells_calls_noted_first (p : Program) (hhosts : p.hosts.Behaves) (fuel : Nat)
    (callee : Value) (args : List Value) (hs : steps[id]? = some s)
    (hraised : p.execute n steps s m₀ = .error (.panic v) m₁)
    (hway : p.Unwinds (.panic v) (.call fuel callee args false Span.none) m
      (.steps (n + 1) steps id) m₀)
    (hshow : ∀ m₂, p.call fuel callee args false Span.none m = .error (.panic v) m₂ →
      p.ShowsInPlace fuel v m₂) :
    ∃ e m₃, p.callFunction fuel callee args m = .ok (.error e) m₃ ∧ e.isPanic = true ∧
      e.trace = some (m₁.panicTrace.getD m₁.backtrace) ∧ m₃.panicTrace = none := by
  obtain ⟨m₂, hends, hslot⟩ := hway.panic_noted hhosts trivial hs hraised
  have hcall := discard_error.mp hends
  obtain ⟨e, m₃, herror, hpanic, htrace, hnone⟩ := panicError_tells (hshow m₂ hcall)
  refine ⟨e, m₃, ?_, hpanic, htrace.trans hslot, hnone⟩
  have herror' : p.evalError fuel (.panic v) m₂ = .ok e m₃ := herror
  unfold callFunction
  rw [hcall]
  simp only [map_apply, herror']

def raiseTop : Step := ⟨.callBuiltin .panic none (.fixed 1) false .discard, none, Span.none⟩

-- `func f() { defer g(); panic("a") }`
def deferAndPanic : Function := ⟨"f", .empty, none, false, true,
  #[⟨.defer 3 (.fixed 0) false none, some 1, Span.none⟩, ⟨.const (.str "a"), some 2, Span.none⟩,
    raiseTop, ⟨.load "g", none, Span.none⟩]⟩

-- That function with these steps for `g`.
def deferring (g : Array Step) : Program where
  code := #[deferAndPanic, ⟨"g", .empty, none, false, false, g⟩]
  types := .initial
  hosts := .default
  maxDepth := 100
  initializing := false

def callDeferring : Value := .func (some (.closure ⟨0, "f"⟩ 0))

def deferredG : Deferred := ⟨.inl (.func (some (.closure ⟨1, "g"⟩ 0))), [], false, Span.none⟩

-- A new machine in which `g` is bound.
def deferringMachine : Machine :=
  { Machine.start .silent with
    heap := { Heap.empty with
      scopes := #[⟨[("g", .plain (.func (some (.closure ⟨1, "g"⟩ 0))))], none, true⟩] } }

-- The call of `f` with these operands, the top first, and these deferred calls.
def inDeferring (operands : List Value) (deferred : List Deferred) : Machine :=
  { deferringMachine with
    heap := { deferringMachine.heap with
      scopes := deferringMachine.heap.scopes.push ⟨[], some 0, false⟩ }
    frame := { Frame.start 1 with operands, deferred }
    calls := #[⟨"f", Span.none, none, none⟩] }

-- The panic of `f` waits for the calls that it has deferred.
def afterPanic : Machine :=
  park 0 (.str "a") (annotated.keepTrace (inDeferring [] [deferredG]))

theorem Enters.unique {callee : Value} {args : List Value} {spread : Bool} {span : Span}
    {f f' : Function} {record record' : Nat} {m m₁ m₁' : Machine}
    (h : p.Enters callee args spread span m f record m₁)
    (h' : p.Enters callee args spread span m f' record' m₁') :
    f' = f ∧ record' = record ∧ m₁' = m₁ := by
  obtain ⟨-, env, receiver, scope, m₀, hcode, henter, rfl⟩ := h
  obtain ⟨-, env', receiver', scope', m₀', hcode', henter', rfl⟩ := h'
  cases hcode.symm.trans hcode'
  cases henter.symm.trans henter'
  exact ⟨rfl, rfl, rfl⟩

theorem deferring_enters : (deferring g).Enters callDeferring [] false Span.none deferringMachine
    deferAndPanic 0 (inDeferring [] []) :=
  ⟨show 0 < 100 by decide, 0, none, 1, _, rfl, rfl, rfl⟩

theorem deferring_defers : (deferring g).advance 18 deferAndPanic.steps 0 (inDeferring [] []) =
    .ok (some (some 1)) (inDeferring [] [deferredG]) := rfl

theorem deferring_leads : RunLeads (deferring g) deferAndPanic.steps 19 (some 0) (inDeferring [] [])
    17 (some 2) (inDeferring [.str "a"] [deferredG]) :=
  .step deferring_defers (.step rfl (.refl _ _ _))

theorem deferring_panics : (deferring g).execute 16 deferAndPanic.steps raiseTop
    (inDeferring [.str "a"] [deferredG]) =
      .error (.panic (.str "a")) (inDeferring [] [deferredG]) := rfl

theorem deferring_atEnd : atEnd 0
    (body ((deferring g).run 19) deferAndPanic.steps (inDeferring [] [])) = some afterPanic := by
  have hrun : (deferring g).run 19 deferAndPanic.steps (some 0) (inDeferring [] []) =
      .error (.panic (.str "a")) (annotated.keepTrace (inDeferring [] [deferredG])) :=
    deferring_leads.run_eq.trans (run_of_execute rfl deferring_panics)
  have hbody : body ((deferring g).run 19) deferAndPanic.steps (inDeferring [] []) =
      .error (.panic (.str "a")) (annotated.keepTrace (inDeferring [] [deferredG])) := by
    unfold body
    rw [if_neg (by decide), hrun]
    rfl
  rw [hbody]
  rfl

-- What `func g() {}` leaves of it.
def afterDeferred : Machine :=
  { afterPanic with
    heap := { afterPanic.heap with scopes := afterPanic.heap.scopes.push ⟨[], some 0, false⟩ } }

theorem deferring_letsThrough : (deferring #[]).LetsThrough (.str "a")
    (.call 20 callDeferring [] false Span.none) deferringMachine := by
  intro n record ds m₁ hbegins
  cases hbegins with
  | defers henters hdefer hend =>
      obtain ⟨rfl, rfl, rfl⟩ := deferring_enters.unique henters
      cases deferring_atEnd.symm.trans hend
      refine ⟨afterDeferred, ?_, rfl⟩
      have hperform : (deferring #[]).perform 19 deferredG { afterPanic with deferring := some 0 } =
          .ok [] afterDeferred := rfl
      have hend : atEnd 0 ((deferring #[]).perform 19 deferredG
          { afterPanic with deferring := some 0 }) = some afterDeferred := by
        rw [hperform]
        rfl
      exact performAll_of_atEnd hend

-- The panic passes the deferred call, and the call of `f` is told.
theorem panic_tells_its_calls : ∃ e m, (deferring #[]).hosts.Behaves ∧
    (deferring #[]).callFunction 20 callDeferring [] deferringMachine = .ok (.error e) m ∧
      e.isPanic = true ∧ e.trace = some [⟨"f", none⟩] := by
  have hhosts : (deferring #[]).hosts.Behaves := HostRegistry.default_behaves
  have hway : (deferring #[]).Unwinds (.panic (.str "a"))
      (.call 20 callDeferring [] false Span.none) deferringMachine
      (.steps 17 deferAndPanic.steps 2) (inDeferring [.str "a"] [deferredG]) := by
    refine .later (.body deferring_enters) (fun v hv => .inr ?_) ?_
    · cases hv
      exact deferring_letsThrough
    · refine .later (.next deferring_defers) (fun _ _ => .inr nofun) ?_
      exact .later (.next rfl) (fun _ _ => .inr nofun) (.here _ _)
  obtain ⟨e, m, hcall, hpanic, htrace, -⟩ := panic_tells_calls_noted_first _ hhosts 20 callDeferring
    [] (s := raiseTop) rfl deferring_panics hway fun m₂ _ => showsInPlace_str _ _ _ m₂
  exact ⟨e, m, hhosts, hcall, hpanic, htrace⟩

-- The call of `g` that `f` has deferred, with these operands.
def inDeferred (operands : List Value) : Machine :=
  { afterDeferred with
    frame := { Frame.start 2 with operands }
    calls := afterPanic.calls.push ⟨"g", Span.none, none, some 0⟩ }

theorem deferred_enters : (deferring g).Enters (.func (some (.closure ⟨1, "g"⟩ 0))) [] false
    Span.none { afterPanic with deferring := some 0 } ⟨"g", .empty, none, false, false, g⟩ 1
    (inDeferred []) :=
  ⟨show 1 < 100 by decide, 0, none, 2, _, rfl, rfl, rfl⟩

-- `panic("b")` in place of the empty body: the call of `g` in which it is raised is not told.
theorem replacing_panic_tells_other_calls :
    let g : Array Step := #[⟨.const (.str "b"), some 1, Span.none⟩, raiseTop]
    ∃ m₀ m₁ e m, (deferring g).During (.call 20 callDeferring [] false Span.none) deferringMachine
        (.steps 17 g 1) m₀ ∧
      (deferring g).execute 16 g raiseTop m₀ = .error (.panic (.str "b")) m₁ ∧
      m₁.backtrace = [⟨"g", none⟩, ⟨"f", none⟩] ∧
      (deferring g).callFunction 20 callDeferring [] deferringMachine = .ok (.error e) m ∧
      e.cause = .panicked "b" ∧ e.trace = some [⟨"f", none⟩] := by
  intro g
  have hduring : (deferring g).During (.call 20 callDeferring [] false Span.none) deferringMachine
      (.steps 17 g 1) (inDeferred [.str "b"]) := by
    refine .later (.defers deferring_enters rfl deferring_atEnd) (.later (.started rfl) ?_)
    exact .later (.body deferred_enters) (.later (.next rfl) (.here _ _))
  have hends : (match (deferring g).callFunction 20 callDeferring [] deferringMachine with
      | .ok (.error e) _ => decide (e.cause = .panicked "b" ∧ e.trace = some [⟨"f", none⟩])
      | _ => false) = true := by decide +kernel
  split at hends
  · next e m hcall =>
      exact ⟨_, inDeferred [], e, m, hduring, rfl, rfl, hcall, of_decide_eq_true hends⟩
  · cases hends

end Program

end StepGraph

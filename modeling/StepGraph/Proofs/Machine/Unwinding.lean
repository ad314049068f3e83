import StepGraph.Proofs.Machine.Moments

open EStateM (bind_apply bind_of_ok bind_of_error map_apply)

namespace StepGraph

variable {α : Type} {m m' m₁ m₂ : Machine} {u : Unwind} {v : Value} {e e' e'' : EvalError}

-- Whatever the second error tells the first one tells as well. It may tell more.
structure EvalError.Extends (e' e : EvalError) : Prop where
  cause : e'.cause = e.cause
  span : ∀ s, e.span = some s → e'.span = some s
  trace : ∀ t, e.trace = some t → e'.trace = some t
  operands : e.operands ≠ [] → e'.operands = e.operands

namespace EvalError.Extends

theorem refl (e : EvalError) : e.Extends e := ⟨rfl, fun _ => id, fun _ => id, fun _ => rfl⟩

theorem trans (h₁ : e''.Extends e') (h₂ : e'.Extends e) : e''.Extends e where
  cause := h₁.cause.trans h₂.cause
  span s hs := h₁.span s (h₂.span s hs)
  trace t ht := h₁.trace t (h₂.trace t ht)
  operands hne := by
    have hsame := h₂.operands hne
    rw [h₁.operands (by rwa [hsame]), hsame]

end EvalError.Extends

-- Two operations that come to the same, unless the first one ends with this unwinding.
def Exec.endingWith (u : Unwind) (m' : Machine) : Exec.Law where
  Holds x y := ∀ m, x m = y m ∨ x m = .error u m'
  quiet _ := fun _ => .inl rfl
  bind {_ _ x y f g} hx hf := by
    intro m
    rw [bind_apply, bind_apply]
    rcases hx m with hsame | hends
    · rw [hsame]
      cases y m with
      | ok a m₁ => exact hf a m₁
      | error u m₁ => exact .inl rfl
    · rw [hends]
      exact .inr rfl

-- Whoever has no other hold on the machine than the services ends with the failure of a call that
-- it asks for.
theorem Services.Asks.fails {x : Services → Exec α} {sv : Services} {callee : Value}
    {args : List Value} (hasks : Asks x sv m callee args m₁)
    (hcall : sv.call callee args m₁ = .error u m')
    (hx : ∀ (L : Exec.Law) (sv sv' : Services), sv.Related L sv' → L.Holds (x sv) (x sv')) :
    x sv m = .error u m' := by
  obtain ⟨sv', htypes, hsame, hne⟩ := hasks
  have hrelated : sv.Related (Exec.endingWith u m') sv' := by
    refine ⟨htypes, fun f xs m₂ => ?_⟩
    by_cases hask : f = callee ∧ xs = args ∧ m₂ = m₁
    · obtain ⟨rfl, rfl, rfl⟩ := hask
      exact .inr hcall
    · exact .inl (hsame f xs m₂ hask).symm
  rcases hx _ _ _ hrelated m with heq | hends
  · exact absurd heq.symm hne
  · exact hends

-- A failed call that is asked for is what it all ends with.
def Program.EndsWithAsked (run : Services → Exec (List Value)) : Prop :=
  ∀ (sv : Services) (m m₁ m' : Machine) (callee : Value) (args : List Value) (u : Unwind),
    Services.Asks run sv m callee args m₁ → sv.call callee args m₁ = .error u m' →
      run sv m = .error u m'

namespace Program

variable {p : Program} {n : Nat} {steps : Array Step} {s : Step} {id : StepId}

theorem endsWithAsked_host (hhosts : p.hosts.Behaves) {ref : HostRef} {f : HostFunction}
    (hf : p.hosts.function? ref = some f) (args : List Value) :
    EndsWithAsked fun sv => f sv args :=
  fun _ _ _ _ _ _ _ hasks hcall =>
    hasks.fails hcall fun L sv sv' h => hhosts ref f hf L sv sv' h args

theorem endsWithAsked_builtin (p : Program) (b : Builtin) (ty : Option Ty) (args : List Value)
    (spread : Bool) : EndsWithAsked fun sv => p.callBuiltin sv b ty args spread :=
  fun _ _ _ _ _ _ _ hasks hcall => hasks.fails hcall (holds_callBuiltin_of_asks hasks)

-- What a step does after its work on the operands, and the step that it goes on to.
def followUp (p : Program) (n : Nat) (steps : Array Step) (s : Step) :
    Next → Exec (Option (Option StepId))
  | .next => return some s.next
  | .goto target => return some target
  | .ret => return none
  | .call callee args spread results => do
      Exec.pushResults (← p.call n callee args spread s.span) results
      return some s.next
  | .builtin b ty args spread results => do
      Exec.pushResults (← p.callBuiltin (p.services n) b ty args spread) results
      return some s.next
  | .defer entry args spread builtin => do
      p.run n steps (some entry)
      keepDeferred args spread builtin s.span
      return some s.next

-- All that a step does. An unwinding of it has not yet been told which step it passes.
def execute (p : Program) (n : Nat) (steps : Array Step) (s : Step) :
    Exec (Option (Option StepId)) :=
  p.step s.op >>= p.followUp n steps s

-- What becomes of an unwinding when it passes a step.
def noted (span : Span) (m : Machine) : Unwind → EStateM.Result Unwind Machine α
  | .fatal e => .error (.fatal (annotated.locate span e m)) m
  | .panic v => .error (.panic v) (annotated.keepTrace m)
  | u => .error u m

theorem annotated_error {x : Exec α} (span : Span) (hx : x m = .error u m') :
    annotated span x m = noted span m' u := by
  unfold annotated
  rw [hx]
  cases u <;> rfl

theorem annotated_bind {β : Type} (span : Span) (x : Exec α) (f : α → Exec β) :
    annotated span (x >>= f) = annotated span x >>= fun a => annotated span (f a) := by
  funext m
  rw [bind_apply]
  cases hx : x m with
  | ok a m₁ =>
      rw [annotated_ok span hx]
      unfold annotated
      rw [bind_of_ok hx]
  | error u m₁ =>
      rw [annotated_error span (bind_of_error hx), annotated_error span hx]
      cases u <;> rfl

theorem annotated_pure (span : Span) (a : α) : annotated span (pure a) = pure a := rfl

theorem advance_of_execute (p : Program) (n : Nat) (hs : steps[id]? = some s) :
    p.advance n steps id = annotated s.span (p.execute n steps s) := by
  unfold advance execute
  simp only [hs]
  rw [annotated_bind]
  refine congrArg _ (funext fun after => ?_)
  cases after with
  | next | goto | ret => rfl
  | call | defer =>
      unfold followUp
      simp only [annotated_bind, annotated_pure, bind_assoc]
  | builtin =>
      unfold followUp
      simp only [annotated_bind, annotated_pure, bind_assoc]
      rfl

theorem run_of_execute (hs : steps[id]? = some s) (hx : p.execute n steps s m = .error u m') :
    p.run (n + 1) steps (some id) m = noted s.span m' u := by
  rw [run_succ, advance_of_execute p n hs, annotated_error s.span hx]
  cases u <;> rfl

-- The work of an activity. What a call or a service results in is left out.
def doing (p : Program) : Activity → Exec Unit
  | .call n callee args spread span => discard (p.call n callee args spread span)
  | .steps n steps id => p.run n steps (some id)
  | .deferred n record ds => performAll (p.perform n) record ds
  | .service n run => discard (run (p.services n))

theorem discard_error {x : Exec α} : discard x m = .error u m' ↔ x m = .error u m' := by
  change ((fun _ => PUnit.unit) <$> x) m = _ ↔ _
  rw [map_apply]
  cases x m <;> simp

variable {callee : Value} {args : List Value} {spread : Bool} {span : Span} {f : Function}
  {record : Nat}

-- A call ends as its function does together with the calls that were kept for its end.
theorem call_of_activity (henters : p.Enters callee args spread span m f record m₁)
    (hactivity : activity (p.run n) (p.perform n) f record m₁ = .error u m₂) :
    ∃ frame, p.call (n + 1) callee args spread span m =
      .error u { m₂ with calls := m₂.calls.shrink record, frame } := by
  obtain ⟨hroom, env, receiver, scope, m₀, hcode, henter, rfl⟩ := henters
  refine ⟨m₀.frame, ?_⟩
  have hinvoke : p.invoke (p.run n) (p.perform n) f env receiver args spread span m =
      .error u { m₂ with calls := m₂.calls.shrink record, frame := m₀.frame } := by
    rw [invoke_of_activity henter, hactivity]
  have henterCode : ∀ {code : CodeRef} {env' : ScopeId} {receiver' : Option Value},
      p.code[code.id]?.map (fun f => (f, env', receiver')) = some (f, env, receiver) →
        p.enterCode n code env' receiver' args spread span m =
          .error u { m₂ with calls := m₂.calls.shrink record, frame := m₀.frame } := by
    intro code env' receiver' hmap
    obtain ⟨g, hg, heq⟩ := Option.map_eq_some_iff.mp hmap
    cases heq
    unfold enterCode
    rw [bind_of_ok (Exec.get_apply m), if_neg (Nat.not_le_of_lt hroom), hg]
    exact hinvoke
  unfold code? at hcode
  rw [call_succ]
  split at hcode
  · next hunwrap =>
      rw [hunwrap]
      exact henterCode hcode
  · next hunwrap =>
      rw [hunwrap]
      exact henterCode hcode
  · cases hcode

theorem body_error (hsize : 0 < f.steps.size) (hrun : p.run n f.steps (some 0) m₁ = .error u m₂) :
    ∃ frame, body (p.run n) f.steps m₁ = .error u { m₂ with frame } := by
  unfold body
  rw [if_neg (by simpa using Nat.ne_of_gt hsize), hrun]
  simp only [unwindTo_apply]
  exact ⟨_, rfl⟩

theorem locate_extends (span : Span) (e : EvalError) (m : Machine) :
    (annotated.locate span e m).Extends e where
  cause := rfl
  span s hs := by simp [annotated.locate, hs]
  trace t ht := by simp [annotated.locate, ht]
  operands hne := by simp [annotated.locate, hne]

-- The calls that were kept run however the function has ended, unless it has failed for good.
theorem activity_of_atEnd (hdefer : f.hasDefer = true)
    (hend : atEnd record (body (p.run n) f.steps m₁) = some m₂) :
    activity (p.run n) (p.perform n) f record m₁ =
      performAll (p.perform n) record m₂.frame.deferred m₂ := by
  unfold activity
  rw [if_pos hdefer]
  unfold withDeferred
  cases hr : body (p.run n) f.steps m₁ with
  | ok _ m' =>
      rw [hr] at hend
      cases hend
      rfl
  | error u m' =>
      rw [hr] at hend
      cases u with
      | panic v =>
          cases hend
          rfl
      | _ => cases hend

theorem activity_of_error (hbody : body (p.run n) f.steps m₁ = .error u m₂)
    (hlast : f.hasDefer = true → ∀ v, u ≠ .panic v) :
    activity (p.run n) (p.perform n) f record m₁ = .error u m₂ := by
  unfold activity
  by_cases hdefer : f.hasDefer = true
  · rw [if_pos hdefer]
    unfold withDeferred
    rw [hbody]
    cases u with
    | panic v => exact absurd rfl (hlast hdefer v)
    | _ => rfl
  · rw [if_neg hdefer]
    exact hbody

theorem performAll_cons (perform : Deferred → Exec (List Value)) (record : Nat) (d : Deferred)
    (ds : List Deferred) (m : Machine) :
    performAll perform record (d :: ds) m =
      match perform d { m with deferring := some record } with
      | .ok _ m => performAll perform record ds { m with deferring := none }
      | .error (.panic v) m =>
          performAll perform record ds (park record v { m with deferring := none })
      | .error u m => .error u { m with deferring := none } := rfl

theorem performAll_of_atEnd {d : Deferred} {ds : List Deferred}
    (hend : atEnd record (p.perform n d { m with deferring := some record }) = some m₁) :
    performAll (p.perform n) record (d :: ds) m =
      performAll (p.perform n) record ds { m₁ with deferring := none } := by
  rw [performAll_cons]
  cases hr : p.perform n d { m with deferring := some record } with
  | ok vs m' =>
      rw [hr] at hend
      cases hend
      rfl
  | error u m' =>
      rw [hr] at hend
      cases u with
      | panic v =>
          cases hend
          rfl
      | _ => cases hend

theorem performAll_of_error {d : Deferred} {ds : List Deferred}
    (hfail : p.perform n d { m with deferring := some record } = .error u m₁)
    (hlast : ∀ v, u ≠ .panic v) :
    performAll (p.perform n) record (d :: ds) m = .error u { m₁ with deferring := none } := by
  rw [performAll_cons, hfail]
  cases u with
  | panic v => exact absurd rfl (hlast v)
  | _ => rfl

theorem call_host {ref : HostRef} {f : HostFunction} {args' : List Value}
    (hcallee : callee.unwrap = .func (some (.host ref))) (hf : p.hosts.function? ref = some f)
    (hargs : (if spread then expandSpread args else pure args : Exec _) m = .ok args' m₁) :
    p.call (n + 1) callee args spread span m = f (p.services n) args' m₁ := by
  have hhost : p.callHost (p.services n) ref args spread m = f (p.services n) args' m₁ := by
    unfold callHost
    by_cases hspread : spread = true
    · simp only [if_pos hspread] at hargs ⊢
      rw [bind_of_ok hargs, hf]
    · simp only [if_neg hspread] at hargs ⊢
      rw [bind_of_ok hargs, hf]
  rw [call_succ, hcallee]
  exact hhost

end Program

-- What an unwinding may become on its way out: a failure may be told more, but never anything
-- else. A panic stays as it is, and so do the calls that are noted for it.
def Unwind.Carried (m m' : Machine) : Unwind → Unwind → Prop
  | .fatal e, u' => ∃ e', u' = .fatal e' ∧ e'.Extends e
  | u, u' => u' = u ∧ ∀ t, m.panicTrace = some t → m'.panicTrace = some t

namespace Unwind.Carried

theorem of_slot (u : Unwind) (hslot : m'.panicTrace = m.panicTrace) : Carried m m' u u := by
  cases u with
  | fatal e => exact ⟨e, rfl, .refl e⟩
  | _ => exact ⟨rfl, fun _ ht => hslot.trans ht⟩

theorem trans {u u' u'' : Unwind} (h₁ : Carried m m₁ u u') (h₂ : Carried m₁ m₂ u' u'') :
    Carried m m₂ u u'' := by
  cases u with
  | fatal e =>
      obtain ⟨e', rfl, he⟩ := h₁
      obtain ⟨e'', rfl, he'⟩ := h₂
      exact ⟨e'', rfl, he'.trans he⟩
  | _ =>
      obtain ⟨rfl, hslot⟩ := h₁
      obtain ⟨rfl, hslot'⟩ := h₂
      exact ⟨rfl, fun t ht => hslot' t (hslot t ht)⟩

theorem noted {x : Exec α} {span : Span} (hx : x m' = Program.noted span m u) :
    ∃ u' m'', x m' = .error u' m'' ∧ Carried m m'' u u' := by
  rw [hx]
  cases u with
  | fatal e => exact ⟨_, _, rfl, _, rfl, Program.locate_extends span e m⟩
  | panic v =>
      refine ⟨_, _, rfl, rfl, fun t ht => ?_⟩
      simp [Program.annotated.keepTrace, ht]
  | _ => exact ⟨_, _, rfl, .of_slot _ rfl⟩

end Unwind.Carried

-- Steps are there to run from the given one on.
def Activity.Present : Activity → Prop
  | .steps _ run id => id < run.size
  | _ => True

-- What works through services ends as a call ends that it asks for in vain.
def Activity.PassesOn : Activity → Prop
  | .service _ run => Program.EndsWithAsked run
  | _ => True

namespace Program

variable {p : Program} {n : Nat} {a a₁ a' : Activity}

-- The deferred calls that begin in the course of an activity do not get in the way of a panic:
-- they end with it, and what is noted for it stays.
def LetsThrough (p : Program) (v : Value) (a : Activity) (m : Machine) : Prop :=
  ∀ n record ds m₁, p.Begins a m (.deferred n record ds) m₁ →
    ∃ m₂, performAll (p.perform n) record ds m₁ = .error (.panic v) m₂ ∧
      m₂.panicTrace = m₁.panicTrace

-- The way out of an activity, for an unwinding of one that has begun in its course. Only a panic
-- can be held up, by deferred calls that begin afterwards.
def WayOut (p : Program) (u : Unwind) (a : Activity) (m : Machine) (a₁ : Activity) : Prop :=
  ∀ v, u = .panic v → (∃ n record ds, a₁ = .deferred n record ds) ∨ p.LetsThrough v a m

theorem Begins.present (hb : p.Begins a m a₁ m₁) : a.Present := by
  cases hb with
  | @next n steps id k _ _ hadvance =>
      by_contra hnone
      unfold advance at hadvance
      rw [Array.getElem?_eq_none (Nat.le_of_not_lt hnone)] at hadvance
      exact Exec.fatal_ne_ok _ _ _ _ hadvance
  | called hs | builtin hs | operands hs => exact (Array.getElem?_eq_some_iff.mp hs).1
  | _ => trivial

theorem Begins.passesOn (hhosts : p.hosts.Behaves) (hb : p.Begins a m a₁ m₁) : a₁.PassesOn := by
  cases hb with
  | host _ hf => exact endsWithAsked_host hhosts hf _
  | builtin | startedBuiltin => exact endsWithAsked_builtin p _ _ _ _
  | _ => trivial

-- A deferred call ends those after it as well, unless it panics and they go on with that.
theorem deferred_carries {record : Nat} {d : Deferred} {ds : List Deferred}
    (hfail : p.perform n d { m with deferring := some record } = .error u m₂)
    (hlets : ∀ v, u = .panic v → p.LetsThrough v (.deferred n record (d :: ds)) m) :
    ∃ u' m₃, p.doing (.deferred n record (d :: ds)) m = .error u' m₃ ∧
      Unwind.Carried m₂ m₃ u u' := by
  by_cases hpanics : ∃ v, u = .panic v
  · obtain ⟨v, rfl⟩ := hpanics
    have hend : atEnd record (p.perform n d { m with deferring := some record }) =
        some (park record v m₂) := by
      rw [hfail]
      rfl
    obtain ⟨m₃, hrest, hslot⟩ := hlets v rfl _ _ _ _ (.rest hend)
    exact ⟨_, m₃, (performAll_of_atEnd hend).trans hrest, .of_slot _ hslot⟩
  · exact ⟨u, _, performAll_of_error hfail fun v hv => hpanics ⟨v, hv⟩, .of_slot u rfl⟩

-- An unwinding ends the activity in the course of which it has arisen.
theorem begins_carries (ha : a.PassesOn) (ha₁ : a₁.Present) (hb : p.Begins a m a₁ m₁)
    (hfail : p.doing a₁ m₁ = .error u m₂) (hout : p.WayOut u a m a₁) :
    ∃ u' m₃, p.doing a m = .error u' m₃ ∧ Unwind.Carried m₂ m₃ u u' := by
  have hsame : ∀ {m₃}, p.doing a m = .error u m₃ → m₃.panicTrace = m₂.panicTrace →
      ∃ u' m₃, p.doing a m = .error u' m₃ ∧ Unwind.Carried m₂ m₃ u u' :=
    fun hdoing hslot => ⟨u, _, hdoing, .of_slot u hslot⟩
  cases hb with
  | @body n _ _ _ _ f _ _ record henters =>
      obtain ⟨frame, hbody⟩ := body_error ha₁ hfail
      by_cases hpanics : f.hasDefer = true ∧ ∃ v, u = .panic v
      · obtain ⟨hdefer, v, rfl⟩ := hpanics
        have hend : atEnd record (body (p.run n) f.steps m₁) =
            some (park record v { m₂ with frame }) := by
          rw [hbody]
          rfl
        obtain ⟨m₃, hperform, hslot⟩ := ((hout v rfl).resolve_left (by simp)) _ _ _ _
          (.defers henters hdefer hend)
        obtain ⟨_, hcall⟩ := call_of_activity henters
          ((activity_of_atEnd hdefer hend).trans hperform)
        exact hsame (discard_error.mpr hcall) hslot
      · obtain ⟨_, hcall⟩ := call_of_activity henters
          (activity_of_error hbody fun hdefer v hv => hpanics ⟨hdefer, v, hv⟩)
        exact hsame (discard_error.mpr hcall) rfl
  | defers henters hdefer hend =>
      obtain ⟨_, hcall⟩ := call_of_activity henters ((activity_of_atEnd hdefer hend).trans hfail)
      exact hsame (discard_error.mpr hcall) rfl
  | host hcallee hf hargs =>
      refine hsame (discard_error.mpr ?_) rfl
      rw [call_host hcallee hf hargs]
      exact discard_error.mp hfail
  | asked hasks =>
      exact hsame (discard_error.mpr (ha _ _ _ _ _ _ _ hasks (discard_error.mp hfail))) rfl
  | next hadvance =>
      refine hsame ?_ rfl
      change p.run _ _ _ m = _
      rw [run_succ, hadvance]
      exact hfail
  | called hs hop =>
      refine Unwind.Carried.noted (run_of_execute hs ?_)
      unfold execute
      rw [bind_of_ok hop]
      exact bind_of_error (discard_error.mp hfail)
  | builtin hs hop =>
      refine Unwind.Carried.noted (run_of_execute hs ?_)
      unfold execute
      rw [bind_of_ok hop]
      exact bind_of_error (discard_error.mp hfail)
  | operands hs hop =>
      refine Unwind.Carried.noted (run_of_execute hs ?_)
      unfold execute
      rw [bind_of_ok hop]
      exact bind_of_error hfail
  | started htarget =>
      refine deferred_carries ?_ fun v hv => (hout v hv).resolve_left (by simp)
      unfold perform
      rw [htarget]
      exact discard_error.mp hfail
  | startedBuiltin htarget =>
      refine deferred_carries ?_ fun v hv => (hout v hv).resolve_left (by simp)
      unfold perform
      rw [htarget]
      exact discard_error.mp hfail
  | rest hend => exact hsame ((performAll_of_atEnd hend).trans hfail) rfl

theorem WayOut.of_carried {u' : Unwind} (h : p.WayOut u a m a₁)
    (hcarried : Unwind.Carried m₁ m₂ u u') : p.WayOut u' a m a₁ := by
  intro v hv
  cases u with
  | fatal e =>
      obtain ⟨e', rfl, -⟩ := hcarried
      cases hv
  | _ => exact h v (hcarried.1.symm.trans hv)

-- The way out of everything that is under way, for an unwinding of what has begun last.
inductive Unwinds (p : Program) (u : Unwind) : Activity → Machine → Activity → Machine → Prop
  | here (a : Activity) (m : Machine) : Unwinds p u a m a m
  | later {a a₁ a' : Activity} {m m₁ m' : Machine} (hbegins : p.Begins a m a₁ m₁)
      (hout : p.WayOut u a m a₁) (hrest : Unwinds p u a₁ m₁ a' m') : Unwinds p u a m a' m'

theorem Unwinds.present (h : p.Unwinds u a m a' m') (ha' : a'.Present) : a.Present := by
  cases h with
  | here => exact ha'
  | later hbegins => exact hbegins.present

-- Nothing holds up a failure.
theorem During.unwinds (h : p.During a m a' m') (e : EvalError) :
    p.Unwinds (.fatal e) a m a' m' := by
  induction h with
  | here => exact .here _ _
  | later hbegins _ ih => exact .later hbegins nofun ih

-- What ends the activity that has begun last ends everything that is under way.
theorem Unwinds.carries (hhosts : p.hosts.Behaves) (h : p.Unwinds u a m a' m')
    (ha : a.PassesOn) (ha' : a'.Present) (hends : p.doing a' m' = .error u m₁) :
    ∃ u' m₂, p.doing a m = .error u' m₂ ∧ Unwind.Carried m₁ m₂ u u' := by
  induction h with
  | here => exact ⟨u, m₁, hends, .of_slot u rfl⟩
  | later hbegins hout hrest ih =>
      obtain ⟨u₁, m₂, hends₁, hcarried⟩ := ih (hbegins.passesOn hhosts) ha' hends
      obtain ⟨u₂, m₃, hends₂, hcarried'⟩ := begins_carries ha (hrest.present ha') hbegins hends₁
        (hout.of_carried hcarried)
      exact ⟨u₂, m₃, hends₂, hcarried.trans hcarried'⟩

end Program

end StepGraph

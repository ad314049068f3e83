import StepGraph.Proofs.Machine.Runs

open EStateM (bind_apply bind_of_error)

namespace StepGraph

variable {safe : Prop} {m m' : Machine}

-- The panic that waits at the end of a call.
def Machine.parked (m : Machine) (record : Nat) : Option Value :=
  m.calls[record]?.bind (·.panic)

namespace Program

-- How the calls that were kept run at the end of the call `record`, one after the other. `parked`
-- is the panic that waits there, and `started` are those of the calls that were started. A call
-- that returns leaves the panic or has recovered from it, and one that panics puts its own in its
-- place. Anything else ends everything at once.
inductive Handles (perform : Deferred → Exec (List Value)) (record : Nat) :
    Option Value → List Deferred → Machine → List Deferred →
      EStateM.Result Unwind Machine Unit → Prop
  | done (m : Machine) : Handles perform record none [] m [] (.ok () m)
  | panics (q : Value) (m : Machine) : Handles perform record (some q) [] m [] (.error (.panic q) m)
  | returned {parked : Option Value} {d : Deferred} {ds started : List Deferred}
      {m m' : Machine} {r : EStateM.Result Unwind Machine Unit} {vs : List Value}
      (hcall : perform d { m with deferring := some record } = .ok vs m')
      (hparked : m'.parked record = parked)
      (hrest : Handles perform record parked ds { m' with deferring := none } started r) :
      Handles perform record parked (d :: ds) m (d :: started) r
  | recovered {q : Value} {d : Deferred} {ds started : List Deferred}
      {m m' : Machine} {r : EStateM.Result Unwind Machine Unit} {vs : List Value}
      (hcall : perform d { m with deferring := some record } = .ok vs m')
      (hparked : m'.parked record = none)
      (hrest : Handles perform record none ds { m' with deferring := none } started r) :
      Handles perform record (some q) (d :: ds) m (d :: started) r
  | panicked {parked : Option Value} {q : Value} {d : Deferred} {ds started : List Deferred}
      {m m' : Machine} {r : EStateM.Result Unwind Machine Unit}
      (hcall : perform d { m with deferring := some record } = .error (.panic q) m')
      (hrest : Handles perform record (some q) ds (park record q { m' with deferring := none })
        started r) :
      Handles perform record parked (d :: ds) m (d :: started) r
  | failed {parked : Option Value} {d : Deferred} {ds : List Deferred} {m m' : Machine}
      {u : Unwind}
      (hcall : perform d { m with deferring := some record } = .error u m')
      (hu : ∀ q, u ≠ .panic q) :
      Handles perform record parked (d :: ds) m [d] (.error u { m' with deferring := none })

variable {perform : Deferred → Exec (List Value)} {record : Nat} {parked : Option Value}
  {ds started : List Deferred} {r : EStateM.Result Unwind Machine Unit}

namespace Handles

theorem started_prefix (h : Handles perform record parked ds m started r) : started <+: ds := by
  induction h with
  | done | panics => exact List.prefix_refl _
  | returned _ _ _ ih | recovered _ _ _ ih | panicked _ _ ih =>
      exact List.cons_prefix_cons.mpr ⟨rfl, ih⟩
  | failed => exact List.cons_prefix_cons.mpr ⟨rfl, List.nil_prefix⟩

-- Unless one of them fails for good, all of them are started.
theorem started_eq (h : Handles perform record parked ds m started r)
    (hr : ∀ u m', r = .error u m' → ∃ q, u = .panic q) : started = ds := by
  induction h with
  | done | panics => rfl
  | returned _ _ _ ih | recovered _ _ _ ih | panicked _ _ ih => rw [ih hr]
  | failed hcall hu =>
      obtain ⟨q, rfl⟩ := hr _ _ rfl
      exact absurd rfl (hu q)

end Handles

theorem parked_park (hsize : record < m.calls.size) (v : Value) :
    (park record v m).parked record = some v := by
  unfold Machine.parked park
  rw [Array.getElem?_modify, if_pos rfl, Array.getElem?_eq_getElem hsize]
  rfl

theorem performAll_nil (m : Machine) : performAll perform record [] m =
    match m.parked record with
    | some q => .error (.panic q) m
    | none => .ok () m := by
  unfold performAll releasePanic Machine.parked
  rw [bind_apply, Exec.get_apply]
  simp only
  cases m.calls[record]?.bind (·.panic) <;> rfl

theorem handles_performAll (hperform : ∀ d, Exec.BuiltinReturns safe (perform d))
    (ds : List Deferred) (hsize : record < m.calls.size) (hparked : m.parked record = parked) :
    ∃ started, Handles perform record parked ds m started (performAll perform record ds m) := by
  induction ds generalizing m parked with
  | nil =>
      rw [performAll_nil, hparked]
      cases parked with
      | none => exact ⟨[], .done m⟩
      | some q => exact ⟨[], .panics q m⟩
  | cons d ds ih =>
      have hwork := hperform d { m with deferring := some record }
      unfold performAll
      cases hcall : perform d { m with deferring := some record } with
      | ok vs m₁ =>
          rw [hcall] at hwork
          have hsize₁ : record < m₁.calls.size := Nat.lt_of_lt_of_eq hsize hwork.calls.size.symm
          rcases hwork.calls.panic record with hsame | ⟨-, hnone⟩
          · have hparked₁ : m₁.parked record = parked := hsame.trans hparked
            obtain ⟨started, hrest⟩ := ih (m := { m₁ with deferring := none }) hsize₁ hparked₁
            exact ⟨d :: started, .returned hcall hparked₁ hrest⟩
          · obtain ⟨started, hrest⟩ := ih (m := { m₁ with deferring := none }) hsize₁ hnone
            refine ⟨d :: started, ?_⟩
            cases parked with
            | none => exact .returned hcall hnone hrest
            | some q => exact .recovered hcall hnone hrest
      | error u m₁ =>
          rw [hcall] at hwork
          have hsize₁ : record < m₁.calls.size := Nat.lt_of_lt_of_eq hsize hwork.1.calls.size.symm
          cases u with
          | panic v =>
              obtain ⟨started, hrest⟩ := ih (m := park record v { m₁ with deferring := none })
                (by simpa [park] using hsize₁)
                (parked_park (m := { m₁ with deferring := none }) hsize₁ v)
              exact ⟨d :: started, .panicked hcall hrest⟩
          | fatal | undeclared | exhausted => exact ⟨[d], .failed hcall (by simp)⟩

theorem deferredRan_performAll (hperform : ∀ d, Exec.BuiltinReturns safe (perform d))
    (ds : List Deferred) (hm : m.deferring = none) :
    match performAll perform record ds m with
    | .ok _ m' => DeferredRan record m m'
    | .error u m' => DeferredRan record m m' ∧ (safe → ¬ u.Underflows) := by
  induction ds generalizing m with
  | nil =>
      rw [performAll_nil]
      cases m.parked record with
      | none => exact .refl hm
      | some q => exact ⟨.refl hm, fun _ => id⟩
  | cons d ds ih =>
      have hwork := hperform d { m with deferring := some record }
      have hnext : ∀ {m₁ : Machine}, DeferredRan record m m₁ →
          match performAll perform record ds m₁ with
          | .ok _ m' => DeferredRan record m m'
          | .error u m' => DeferredRan record m m' ∧ (safe → ¬ u.Underflows) := by
        intro m₁ hends
        have hrest := ih hends.deferring
        cases hr : performAll perform record ds m₁ with
        | ok _ m₂ =>
            rw [hr] at hrest
            exact hends.trans hrest
        | error u m₂ =>
            rw [hr] at hrest
            exact ⟨hends.trans hrest.1, hrest.2⟩
      unfold performAll
      cases hcall : perform d { m with deferring := some record } with
      | ok vs m₁ =>
          rw [hcall] at hwork
          exact hnext (.of_builtinReturns hwork)
      | error u m₁ =>
          rw [hcall] at hwork
          cases u with
          | panic v => exact hnext ((DeferredRan.of_builtinReturns hwork.1).trans (.park rfl v))
          | fatal | undeclared | exhausted => exact ⟨.of_builtinReturns hwork.1, hwork.2⟩

-- What the steps of a call come to, as far as the calls around them go.
def Proceeded {α : Type} (safe : Prop) (m : Machine) : EStateM.Result Unwind Machine α → Prop
  | .ok _ m' => CallProceeds m m'
  | .error u m' => CallProceeds m m' ∧ (safe → ¬ u.Underflows)

variable {p : Program} {run : Array Step → Option StepId → Exec Unit} {f : Function}
  {env scope : ScopeId} {receiver : Option Value} {args : List Value} {spread : Bool} {span : Span}
  {m₁ m₂ m₃ : Machine}

-- The step that a body starts with.
def entry (steps : Array Step) : Option StepId := if steps.isEmpty then none else some 0

theorem proceeded_body (h : Proceeded safe m (run f.steps (entry f.steps) m)) :
    Proceeded safe m (body run f.steps m) := by
  have hclose : ∀ {m₁ : Machine}, CallProceeds m m₁ → ∀ {u m₂}, Exec.unwindTo 0 m₁ = .ok u m₂ →
      CallProceeds m m₂ := by
    intro m₁ h₁ u m₂ hu
    rw [unwindTo_apply] at hu
    cases hu
    exact h₁.trans (.of_continues h₁.deferring ⟨rfl, rfl, rfl, rfl, .refl _⟩)
  unfold entry at h
  unfold body
  cases hr : run f.steps (if f.steps.isEmpty then none else some 0) m with
  | ok a m₁ =>
      rw [hr] at h
      obtain ⟨_, _, hu⟩ := unwindTo_ok 0 m₁
      simp only [hu]
      exact hclose h hu
  | error u m₁ =>
      rw [hr] at h
      obtain ⟨_, _, hu⟩ := unwindTo_ok 0 m₁
      simp only [hu]
      exact ⟨hclose h.1 hu, h.2⟩

-- What a call that has begun has left of the machine of its caller.
structure Entered (f : Function) (span : Span) (m : Machine) (record : Nat) (m₁ : Machine) :
    Prop where
  record : record = m.calls.size
  frame : m₁.frame = m.frame
  calls : m₁.calls = m.calls.push ⟨f.name, span, none, m.deferring⟩
  deferring : m₁.deferring = none
  nests : ScopesNest m.heap m₁.heap

theorem entered_enter (p : Program) (f : Function) (env : ScopeId) (receiver : Option Value)
    (args : List Value) (spread : Bool) (span : Span) (m : Machine) :
    match p.enter f env receiver args spread span m with
    | .ok (_, record) m₁ => Entered f span m record m₁
    | .error u m₁ => PositionStays { m with deferring := none } m₁ ∧ ¬ u.Underflows := by
  let Q := Exec.Quiet.trait
  have hquiet : Q.Holds (do
      let scope ← Heap.newScope (some env)
      bindReceiver scope f.recv receiver
      p.bindParams scope f args spread
      p.declareResults scope f.sig
      return scope : Exec ScopeId) :=
    Q.bind (Q.quiet (Heap.quiet_newScope _)) fun scope =>
      have hscope : ∀ x v, Q.Holds (liftM (Heap.declare scope x v) : Exec Unit) :=
        fun x v => (Q.touches x).declare scope v
      Q.bind (holds_bindReceiver hscope _ _) fun _ => Q.bind (holds_bindParams p hscope _ _ _) fun _ =>
        Q.bind (holds_declareResults p hscope _) fun _ => Q.pure _
  have henter : p.enter f env receiver args spread span m = ((do
      let scope ← Heap.newScope (some env)
      bindReceiver scope f.recv receiver
      p.bindParams scope f args spread
      p.declareResults scope f.sig
      return scope : Exec ScopeId) >>= fun scope => do
        return (scope, ← pushCall f.name span m.deferring)) { m with deferring := none } := by
    unfold enter takeDeferring
    simp only [bind_assoc, pure_bind]
    rfl
  rw [henter, bind_apply]
  have hm := hquiet { m with deferring := none }
  revert hm
  generalize (do
      let scope ← Heap.newScope (some env)
      bindReceiver scope f.recv receiver
      p.bindParams scope f args spread
      p.declareResults scope f.sig
      return scope : Exec ScopeId) { m with deferring := none } = r
  intro hm
  cases r with
  | ok scope m₁ =>
      exact ⟨congrArg Array.size hm.calls, hm.frame,
        congrArg (Array.push · ⟨f.name, span, none, m.deferring⟩) hm.calls, hm.deferring, hm.nests⟩
  | error u m₁ => exact hm

-- The body of a call and, where there are any, the calls that it kept.
def activity (run : Array Step → Option StepId → Exec Unit)
    (perform : Deferred → Exec (List Value)) (f : Function) (record : Nat) : Exec Unit :=
  if f.hasDefer then withDeferred perform record (body run f.steps) else body run f.steps

theorem invoke_of_error {u : Unwind}
    (henter : p.enter f env receiver args spread span m = .error u m₁) :
    p.invoke run perform f env receiver args spread span m = .error u m₁ := by
  have hinvoke : p.invoke run perform f env receiver args spread span =
      p.enter f env receiver args spread span >>= fun (scope, record) => inFrame scope (do
        endingCall record
          (if f.hasDefer then withDeferred perform record (body run f.steps) else body run f.steps)
        p.collectResults f.sig) := by
    unfold enter invoke
    simp only [bind_assoc, pure_bind]
  rw [hinvoke, bind_of_error henter]

-- What a call ends with, once its function and the calls that it kept have come to an end.
theorem invoke_of_activity
    (henter : p.enter f env receiver args spread span m = .ok (scope, record) m₁) :
    p.invoke run perform f env receiver args spread span m =
      match activity run perform f record { m₁ with frame := .start scope } with
      | .ok _ m₂ =>
          match p.collectResults f.sig { m₂ with calls := m₂.calls.shrink record } with
          | .ok vs m₃ => .ok vs { m₃ with frame := m₁.frame }
          | .error u m₃ => .error u { m₃ with frame := m₁.frame }
      | .error u m₂ => .error u { m₂ with calls := m₂.calls.shrink record, frame := m₁.frame } := by
  have hend : endingCall record (activity run perform f record) { m₁ with frame := .start scope } =
      match activity run perform f record { m₁ with frame := .start scope } with
      | .ok a m₂ => .ok a { m₂ with calls := m₂.calls.shrink record }
      | .error u m₂ => .error u { m₂ with calls := m₂.calls.shrink record } := rfl
  rw [invoke_of_enter p run perform henter]
  unfold inFrame
  rw [bind_apply]
  unfold activity at hend ⊢
  rw [hend]
  cases (if f.hasDefer then withDeferred perform record (body run f.steps) else body run f.steps :
    Exec Unit) { m₁ with frame := .start scope } with
  | error u m₂ => rfl
  | ok a m₂ =>
      dsimp only
      cases p.collectResults f.sig { m₂ with calls := m₂.calls.shrink record } <;> rfl

-- What a call leaves of those around it when it comes to its end.
structure CallCloses (record : Nat) (m m' : Machine) : Prop where
  below : KeepsCalls (m.handler = some ·) (m.calls.shrink record) (m'.calls.shrink record)
  deferring : m'.deferring = none
  nests : ScopesNest m.heap m'.heap

theorem CallCloses.of_proceeds (h : CallProceeds m m') : CallCloses record m m' :=
  ⟨h.calls.shrink fun _ _ => id, h.deferring, h.nests⟩

theorem CallCloses.of_deferredRan (h : CallProceeds m m₁) (he : DeferredRan record m₁ m') :
    CallCloses record m m' where
  below := (h.calls.shrink fun _ _ => id).trans (by simpa only [h.handler] using he.below)
  deferring := he.deferring
  nests := h.nests.trans he.nests

theorem closes_activity (hperform : ∀ d, Exec.BuiltinReturns safe (perform d))
    (h : Proceeded safe m (body run f.steps m)) :
    match activity run perform f record m with
    | .ok _ m' => CallCloses record m m'
    | .error u m' => CallCloses record m m' ∧ (safe → ¬ u.Underflows) := by
  have hends : ∀ {m₁ m₂ : Machine}, CallProceeds m m₁ → DeferredRan record m₁ m₂ → ∀ ds,
      match performAll perform record ds m₂ with
      | .ok _ m' => CallCloses record m m'
      | .error u m' => CallCloses record m m' ∧ (safe → ¬ u.Underflows) := by
    intro m₁ m₂ h₁ h₂ ds
    have hall : match performAll perform record ds m₂ with
        | .ok _ m' => DeferredRan record m₂ m'
        | .error u m' => DeferredRan record m₂ m' ∧ (safe → ¬ u.Underflows) :=
      deferredRan_performAll hperform ds h₂.deferring
    cases hr : performAll perform record ds m₂ with
    | ok _ m₃ =>
        rw [hr] at hall
        exact .of_deferredRan h₁ (h₂.trans hall)
    | error u m₃ =>
        rw [hr] at hall
        exact ⟨.of_deferredRan h₁ (h₂.trans hall.1), hall.2⟩
  unfold activity
  by_cases hd : f.hasDefer
  · rw [if_pos hd]
    unfold withDeferred
    cases hr : body run f.steps m with
    | ok _ m₁ =>
        rw [hr] at h
        exact hends h (.refl h.deferring) _
    | error u m₁ =>
        rw [hr] at h
        cases u with
        | panic v => exact hends h.1 (.park h.1.deferring v) _
        | fatal | undeclared | exhausted => exact ⟨.of_proceeds h.1, h.2⟩
  · rw [if_neg hd]
    cases hr : body run f.steps m with
    | ok _ m₁ =>
        rw [hr] at h
        exact .of_proceeds h
    | error u m₁ =>
        rw [hr] at h
        exact ⟨.of_proceeds h.1, h.2⟩

theorem Entered.handler (h : Entered f span m record m₁) : m₁.handler = m.deferring := by
  unfold Machine.handler
  rw [h.calls, Array.back?_push]
  rfl

theorem Entered.shrink (h : Entered f span m record m₁) : m₁.calls.shrink record = m.calls := by
  refine Array.ext_getElem? fun i => ?_
  rw [Lists.getElem?_shrink, h.calls, h.record, Array.getElem?_push]
  by_cases hi : i < m.calls.size
  · rw [if_pos hi, if_neg (Nat.ne_of_lt hi)]
  · rw [if_neg hi, Array.getElem?_eq_none (Nat.le_of_not_lt hi)]

theorem Entered.returns (h : Entered f span m record m₁)
    (hclose : CallCloses record { m₁ with frame := .start scope } m₂)
    (hstill : PositionStays { m₂ with calls := m₂.calls.shrink record } m₃) :
    CallReturns m { m₃ with frame := m₁.frame } where
  frame := h.frame
  calls := by
    have hbelow : KeepsCalls (m₁.handler = some ·) (m₁.calls.shrink record)
      (m₂.calls.shrink record) :=
      hclose.below
    rw [h.handler, h.shrink] at hbelow
    exact hstill.calls ▸ hbelow
  deferring := .inr (hstill.deferring.trans hclose.deferring)
  nests := h.nests.trans (hclose.nests.trans hstill.nests)

-- A call works on the machine of its caller as calls do, if its steps stay within it and the
-- calls that it keeps work so as well.
theorem calls_invoke (hperform : ∀ d, Exec.BuiltinReturns safe (perform d))
    (hrun : ∀ m, m.deferring = none → ∀ scope, m.frame = .start scope →
      Proceeded safe m (run f.steps (entry f.steps) m)) :
    Exec.Calls safe (p.invoke run perform f env receiver args spread span) := by
  intro m
  have henter := entered_enter p f env receiver args spread span m
  cases he : p.enter f env receiver args spread span m with
  | error u m₁ =>
      rw [he] at henter
      obtain ⟨hstill, hu⟩ := henter
      rw [invoke_of_error he]
      exact ⟨⟨hstill.frame, hstill.calls ▸ .refl _ _, .inr hstill.deferring, hstill.nests⟩,
        fun _ => hu⟩
  | ok r m₁ =>
      obtain ⟨scope, record⟩ := r
      rw [he] at henter
      rw [invoke_of_activity he]
      have hbody := hrun { m₁ with frame := .start scope } henter.deferring scope rfl
      have hclose : match activity run perform f record { m₁ with frame := .start scope } with
          | .ok _ m' => CallCloses record { m₁ with frame := .start scope } m'
          | .error u m' => CallCloses record { m₁ with frame := .start scope } m' ∧
              (safe → ¬ u.Underflows) := closes_activity hperform (proceeded_body hbody)
      cases ha : activity run perform f record { m₁ with frame := .start scope } with
      | error u m₂ =>
          rw [ha] at hclose
          exact ⟨henter.returns hclose.1 (.refl _), hclose.2⟩
      | ok _ m₂ =>
          rw [ha] at hclose
          simp only
          have hcollect : Exec.Quiet (p.collectResults f.sig) :=
            holds_collectResults Exec.Quiet.trait.toTrait p (fun m => .refl m) f.sig
          have hcollect := hcollect { m₂ with calls := m₂.calls.shrink record }
          cases hc : p.collectResults f.sig { m₂ with calls := m₂.calls.shrink record } with
          | ok vs m₃ =>
              rw [hc] at hcollect
              exact henter.returns hclose hcollect
          | error u m₃ =>
              rw [hc] at hcollect
              exact ⟨henter.returns hclose hcollect.1, fun _ => hcollect.2⟩

-- The services that builtins and functions of the embedder get.
theorem work_services {n : Nat}
    (hcalls : ∀ callee args, Exec.Calls safe (p.call n callee args false Span.none)) :
    (⟨p.types, fun f xs => p.call n f xs false Span.none⟩ : Services).Work safe := hcalls

theorem builtinReturns_perform {n : Nat}
    (hcalls : ∀ callee args spread span, Exec.Calls safe (p.call n callee args spread span))
    (d : Deferred) : Exec.BuiltinReturns safe (p.perform n d) := by
  unfold perform
  split
  · exact (hcalls _ _ _ _).builtinReturns
  · exact builtinReturns_callBuiltin (work_services fun _ _ => hcalls _ _ _ _) _ _ _ _

theorem calls_callHost (hhosts : p.hosts.Behaves) {sv : Services} (hsv : sv.Work safe)
    (ref : HostRef) (args : List Value) (spread : Bool) :
    Exec.Calls safe (p.callHost sv ref args spread) := by
  have hcalled : ∀ f, p.hosts.function? ref = some f → ∀ args, Exec.Calls safe (f sv args) :=
    fun f hf args => hhosts ref f hf (Exec.Calls.law safe) sv sv hsv.related args
  unfold callHost
  by_cases h : spread = true
  · simp only [if_pos h]
    refine .bind (.quiet (holds_expandSpread _ args)) fun args => ?_
    split
    · next f hf => exact hcalled f hf args
    · exact .fatal (by simp)
  · simp only [if_neg h]
    refine .bind (.pure _) fun args => ?_
    split
    · next f hf => exact hcalled f hf args
    · exact .fatal (by simp)

-- Calls work as calls do if those that they make do, and the steps of the functions as well.
theorem calls_succ (hhosts : p.hosts.Behaves) {n : Nat}
    (hcalls : ∀ callee args spread span, Exec.Calls safe (p.call n callee args spread span))
    (hruns : ∀ (i : Nat) f, p.code[i]? = some f → ∀ m, m.deferring = none → ∀ scope,
      m.frame = .start scope → Proceeded safe m (p.run n f.steps (entry f.steps) m))
    (callee : Value) (args : List Value) (spread : Bool) (span : Span) :
    Exec.Calls safe (p.call (n + 1) callee args spread span) := by
  have henter : ∀ code env receiver,
      Exec.Calls safe (p.enterCode n code env receiver args spread span) := by
    intro code env receiver
    unfold enterCode
    refine .bind (.quiet Exec.Quiet.get) fun m => ?_
    split
    · exact .fatal nofun
    · split
      · next f hf => exact calls_invoke (builtinReturns_perform hcalls) (hruns _ f hf)
      · exact .fatal nofun
  rw [call_succ]
  split
  · exact henter _ _ _
  · exact henter _ _ _
  · exact calls_callHost hhosts (work_services fun _ _ => hcalls _ _ _ _) _ _ _
  · dsimp only
    split
    · exact .bind (.quiet (Exec.Quiet.trait.discard (holds_expandSpread _ args))) fun _ => .pure _
    · exact .pure _
  · exact .quiet (Exec.Quiet.trait.fault _)
  · exact .quiet (Exec.Quiet.trait.fault _)
  · exact .fatal nofun

theorem proceeds_advance {n : Nat}
    (hcalls : ∀ callee args spread span, Exec.Calls False (p.call n callee args spread span))
    (hruns : ∀ steps k, Exec.CallProceeds (p.run n steps k)) (steps : Array Step) (id : StepId) :
    Exec.CallProceeds (p.advance n steps id) := by
  unfold advance
  split
  · refine Exec.BuiltinReturns.proceeds (Exec.Calls.builtinReturns (.fatal ?_))
    nofun
  · next s hs =>
    have hstep : Exec.CallProceeds (p.step s.op) := by
      intro m hm
      have h := p.continues_step s.op m
      cases hr : p.step s.op m with
      | ok after m₁ | error u m₁ =>
          rw [hr] at h
          exact .of_continues hm h
    refine .bind (.annotated _ hstep) fun after => ?_
    split
    · exact .pure _
    · exact .pure _
    · exact .pure _
    · exact .bind (.annotated _ (.bind (hcalls _ _ _ _).builtinReturns.proceeds fun vs =>
        Exec.Local.proceeds (Exec.Local.operands.pushResults vs _))) fun _ => .pure _
    · exact .bind (.annotated _ (.bind (builtinReturns_callBuiltin
        (work_services fun _ _ => hcalls _ _ _ _) _ _ _ _).proceeds fun vs =>
          Exec.Local.proceeds (Exec.Local.operands.pushResults vs _))) fun _ => .pure _
    · exact .bind (.annotated _ (.bind (hruns _ _) fun _ => proceeds_keepDeferred _ _ _ _))
        fun _ => .pure _

-- However many steps and calls follow on each other, calls keep to their own part of the machine.
theorem calls_and_runs (hhosts : p.hosts.Behaves) (n : Nat) :
    (∀ callee args spread span, Exec.Calls False (p.call n callee args spread span)) ∧
      ∀ steps k, Exec.CallProceeds (p.run n steps k) := by
  induction n with
  | zero =>
      refine ⟨fun callee args spread span => ?_, fun steps k => ?_⟩
      · unfold call
        exact .quiet Exec.Quiet.exhausted
      · intro m hm
        have hstay : CallProceeds m m := .of_continues hm ⟨rfl, rfl, rfl, rfl, .refl _⟩
        cases k with
        | none =>
            rw [run_none]
            exact hstay
        | some id =>
            rw [run_zero]
            exact hstay
  | succ n ih =>
      obtain ⟨hcalls, hruns⟩ := ih
      refine ⟨calls_succ hhosts hcalls fun _ f _ m hm _ _ => ?_, fun steps k m hm => ?_⟩
      · have hrun := hruns f.steps (entry f.steps) m hm
        cases hr : p.run n f.steps (entry f.steps) m with
        | ok _ m₁ =>
            rw [hr] at hrun
            exact hrun
        | error u m₁ =>
            rw [hr] at hrun
            exact ⟨hrun, False.elim⟩
      · cases k with
        | none =>
            rw [run_none]
            exact .of_continues hm ⟨rfl, rfl, rfl, rfl, .refl _⟩
        | some id =>
            have hstep := proceeds_advance hcalls hruns steps id m hm
            rw [run_succ]
            cases hr : p.advance n steps id m with
            | error u m₁ =>
                rw [hr] at hstep
                exact hstep
            | ok next m₁ =>
                rw [hr] at hstep
                cases next with
                | none => exact hstep
                | some k =>
                    have hrest := hruns steps k m₁ hstep.deferring
                    simp only
                    cases hr₁ : p.run n steps k m₁ with
                    | ok _ m₂ | error u m₂ =>
                        rw [hr₁] at hrest
                        exact hstep.trans hrest

end Program

end StepGraph

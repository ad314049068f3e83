import StepGraph.Proofs.Machine.Hosts
import StepGraph.Proofs.Machine.Return
import StepGraph.Proofs.Machine.Steps

open EStateM (bind_apply)

namespace StepGraph

variable {α β : Type}

-- The call with no panic waiting at its end.
def CallRecord.cleared (r : CallRecord) : CallRecord := { r with panic := none }

-- The active calls are the same, but some of those for which `may` holds have lost the panic that
-- was waiting at their end.
structure KeepsCalls (may : Nat → Prop) (calls calls' : Array CallRecord) : Prop where
  size : calls'.size = calls.size
  record : ∀ i : Nat, calls'[i]? = calls[i]? ∨ may i ∧ calls'[i]? = calls[i]?.map CallRecord.cleared

namespace KeepsCalls

variable {may may' : Nat → Prop} {calls calls' calls'' : Array CallRecord}

theorem refl (may : Nat → Prop) (calls : Array CallRecord) : KeepsCalls may calls calls :=
  ⟨rfl, fun _ => .inl rfl⟩

theorem trans (h₁ : KeepsCalls may calls calls') (h₂ : KeepsCalls may calls' calls'') :
    KeepsCalls may calls calls'' := by
  refine ⟨h₂.size.trans h₁.size, fun i => ?_⟩
  rcases h₁.record i with h | ⟨hmay, h⟩
  · rw [← h]
    exact h₂.record i
  · rcases h₂.record i with h' | ⟨-, h'⟩
    · exact .inr ⟨hmay, h'.trans h⟩
    · refine .inr ⟨hmay, ?_⟩
      rw [h', h, Option.map_map]
      rfl

theorem mono (h : KeepsCalls may calls calls') (hle : ∀ i, may i → may' i) :
    KeepsCalls may' calls calls' :=
  ⟨h.size, fun i => (h.record i).imp id (And.imp_left (hle i))⟩

theorem eq_of_none (h : KeepsCalls may calls calls') (hmay : ∀ i, ¬ may i) : calls' = calls := by
  refine Array.ext_getElem? fun i => ?_
  rcases h.record i with h | ⟨hi, -⟩
  · exact h
  · exact absurd hi (hmay i)

-- A call is still the one that it was, with another panic at most.
theorem deferredBy (h : KeepsCalls may calls calls') (i : Nat) :
    calls'[i]?.bind (·.deferredBy) = calls[i]?.bind (·.deferredBy) := by
  rcases h.record i with h | ⟨-, h⟩
  · rw [h]
  · rw [h]
    cases calls[i]? <;> rfl

theorem panic (h : KeepsCalls may calls calls') (i : Nat) :
    calls'[i]?.bind (·.panic) = calls[i]?.bind (·.panic) ∨
      may i ∧ calls'[i]?.bind (·.panic) = none := by
  rcases h.record i with h | ⟨hmay, h⟩
  · exact .inl (by rw [h])
  · refine .inr ⟨hmay, ?_⟩
    rw [h]
    cases calls[i]? <;> rfl

end KeepsCalls

-- What a call leaves to its caller: the same position, and the same active calls but for the
-- panic that waits at the end of the one that is starting a deferred call.
structure CallReturns (m m' : Machine) : Prop where
  frame : m'.frame = m.frame
  calls : KeepsCalls (m.deferring = some ·) m.calls m'.calls
  deferring : m'.deferring = m.deferring ∨ m'.deferring = none
  nests : ScopesNest m.heap m'.heap

namespace CallReturns

variable {m m' m'' : Machine}

theorem of_positionStays (h : PositionStays m m') : CallReturns m m' :=
  ⟨h.frame, h.calls ▸ .refl _ _, .inl h.deferring, h.nests⟩

theorem trans (h₁ : CallReturns m m') (h₂ : CallReturns m' m'') : CallReturns m m'' where
  frame := h₂.frame.trans h₁.frame
  calls := by
    refine h₁.calls.trans (h₂.calls.mono fun i hi => ?_)
    rcases h₁.deferring with h | h
    · rwa [← h]
    · rw [h] at hi
      cases hi
  deferring := by
    rcases h₂.deferring with h | h
    · rw [h]
      exact h₁.deferring
    · exact .inr h
  nests := h₁.nests.trans h₂.nests

end CallReturns

-- Something that works through calls. Where it is `safe`, it needs no operands.
def Exec.Calls (safe : Prop) (x : Exec α) : Prop :=
  ∀ m, match x m with
    | .ok _ m' => CallReturns m m'
    | .error u m' => CallReturns m m' ∧ (safe → ¬ u.Underflows)

namespace Exec

variable {safe : Prop}

namespace Calls

theorem quiet {x : Exec α} (hx : Quiet.trait.Holds x) : Calls safe x := by
  intro m
  have hm := hx m
  cases hr : x m with
  | ok a m₁ =>
      rw [hr] at hm
      exact .of_positionStays hm
  | error u m₁ =>
      rw [hr] at hm
      exact ⟨.of_positionStays hm.1, fun _ => hm.2⟩

theorem pure (a : α) : Calls safe (pure a) := quiet (Quiet.trait.pure a)

theorem fatal {e : Fatal} (he : e ≠ .operandUnderflow) : Calls safe (fatal e : Exec α) :=
  quiet (Quiet.trait.fatal he)

theorem iff_moves {x : Exec α} :
    Calls safe x ↔ Moves CallReturns x ∧ Fails (fun u => safe → ¬ u.Underflows) x :=
  moves_and_fails_iff.symm

theorem bind {x : Exec α} {f : α → Exec β} (hx : Calls safe x) (hf : ∀ a, Calls safe (f a)) :
    Calls safe (x >>= f) := by
  obtain ⟨hmoves, hfails⟩ := iff_moves.mp hx
  have hany : Yields (fun _ => True) x := fun _ _ _ _ => trivial
  exact iff_moves.mpr ⟨hmoves.bind .trans hany fun a _ => (iff_moves.mp (hf a)).1,
    hfails.bind hany fun a _ => (iff_moves.mp (hf a)).2⟩

end Calls

def Calls.law (safe : Prop) : Exec.Law where
  Holds x _ := Calls safe x
  quiet := Calls.quiet
  bind := Calls.bind

end Exec

-- The services work through calls of the program.
def Services.Work (safe : Prop) (sv : Services) : Prop :=
  ∀ callee args, Exec.Calls safe (sv.call callee args)

theorem Services.Work.related {safe : Prop} {sv : Services} (h : sv.Work safe) :
    sv.Related (Exec.Calls.law safe) sv := ⟨rfl, h⟩

end StepGraph

namespace StepGraph

open Exec (Apart Calls Quiet Local)

variable {α β : Type} {safe : Prop} {m m' m'' : Machine}

-- The call whose panic the innermost call may take.
def Machine.handler (m : Machine) : Option Nat := m.calls.back?.bind (·.deferredBy)

theorem KeepsCalls.handler {may : Nat → Prop} (h : KeepsCalls may m.calls m'.calls) :
    m'.handler = m.handler := by
  unfold Machine.handler
  rw [Array.back?_eq_getElem?, Array.back?_eq_getElem?, h.size]
  exact h.deferredBy _

-- What a call leaves to its caller, and what a builtin does that may recover from a panic.
structure BuiltinReturns (m m' : Machine) : Prop where
  frame : m'.frame = m.frame
  calls : KeepsCalls (fun i => m.deferring = some i ∨ m.handler = some i) m.calls m'.calls
  deferring : m'.deferring = m.deferring ∨ m'.deferring = none
  nests : ScopesNest m.heap m'.heap

theorem BuiltinReturns.of_returns (h : CallReturns m m') : BuiltinReturns m m' :=
  ⟨h.frame, h.calls.mono fun _ => .inl, h.deferring, h.nests⟩

def Exec.BuiltinReturns (safe : Prop) (x : Exec α) : Prop :=
  ∀ m, match x m with
    | .ok _ m' => StepGraph.BuiltinReturns m m'
    | .error u m' => StepGraph.BuiltinReturns m m' ∧ (safe → ¬ u.Underflows)

theorem Exec.Calls.builtinReturns {x : Exec α} (hx : Calls safe x) : BuiltinReturns safe x := by
  intro m
  have hm := hx m
  cases hr : x m with
  | ok a m₁ =>
      rw [hr] at hm
      exact .of_returns hm
  | error u m₁ =>
      rw [hr] at hm
      exact ⟨.of_returns hm.1, hm.2⟩

namespace Program

variable {p : Program} {sv : Services}

-- A parked panic leaves its place when it is recovered, and in no other way.
theorem builtinReturns_recover : Exec.BuiltinReturns safe recover := by
  intro m
  have hstay : BuiltinReturns m m := .of_returns (.of_positionStays (.refl m))
  unfold recover
  rw [bind_apply, Exec.get_apply]
  simp only
  cases hh : m.calls.back?.bind (·.deferredBy) with
  | none => exact hstay
  | some handler =>
      simp only
      rw [bind_apply, Exec.get_apply]
      simp only
      cases hp : m.calls[handler]?.bind (·.panic) with
      | none => exact hstay
      | some payload =>
          refine ⟨rfl, ⟨by simp, fun i => ?_⟩, .inl rfl, .refl _⟩
          rw [Array.getElem?_modify]
          by_cases hi : handler = i
          · rw [if_pos hi]
            exact .inr ⟨.inr (hi ▸ hh), rfl⟩
          · rw [if_neg hi]
            exact .inl rfl

theorem builtinReturns_callBuiltin (hsv : sv.Work safe) (b : Builtin) (ty : Option Ty)
    (args : List Value) (spread : Bool) :
    Exec.BuiltinReturns safe (p.callBuiltin sv b ty args spread) := by
  cases b with
  | recover =>
      intro m
      have hm := @builtinReturns_recover safe m
      unfold callBuiltin
      dsimp only
      rw [bind_apply]
      cases hr : recover m with
      | ok v m₁ | error u m₁ =>
          rw [hr] at hm
          exact hm
  | print =>
      exact (Calls.bind (hsv.related.akin.showAll args) fun s => .bind (.quiet (Quiet.print s)) fun _ =>
        .pure _).builtinReturns
  | println =>
      exact (Calls.bind (hsv.related.akin.showSpaced args) fun s => .bind (.quiet (Quiet.printLine s)) fun _ =>
        .pure _).builtinReturns
  | _ => exact (Calls.quiet (holds_callBuiltin _ p (by nofun) (by nofun)
    (by nofun) ty args spread)).builtinReturns

end Program

-- What the steps of a call leave behind while it goes on: it has kept more deferred calls at
-- most, and recovered from the panic of the call whose end has started it.
structure CallProceeds (m m' : Machine) : Prop where
  calls : KeepsCalls (m.handler = some ·) m.calls m'.calls
  deferring : m'.deferring = none
  deferred : m.frame.deferred <:+ m'.frame.deferred
  funcScope : m'.frame.funcScope = m.frame.funcScope
  nests : ScopesNest m.heap m'.heap

namespace CallProceeds

theorem of_continues (hm : m.deferring = none) (h : CallContinues m m') : CallProceeds m m' :=
  ⟨h.calls ▸ .refl _ _, h.deferring.trans hm, h.deferred ▸ List.suffix_refl _, h.funcScope, h.nests⟩

theorem of_builtinReturns (hm : m.deferring = none) (h : BuiltinReturns m m') :
    CallProceeds m m' where
  calls := h.calls.mono fun i hi => by simpa [hm] using hi
  deferring := by simpa [hm] using h.deferring
  deferred := h.frame ▸ List.suffix_refl _
  funcScope := by rw [h.frame]
  nests := h.nests

theorem trans (h₁ : CallProceeds m m') (h₂ : CallProceeds m' m'') : CallProceeds m m'' where
  calls := h₁.calls.trans (by simpa only [h₁.calls.handler] using h₂.calls)
  deferring := h₂.deferring
  deferred := h₁.deferred.trans h₂.deferred
  funcScope := h₂.funcScope.trans h₁.funcScope
  nests := h₁.nests.trans h₂.nests

theorem handler (h : CallProceeds m m') : m'.handler = m.handler := h.calls.handler

end CallProceeds

def Exec.CallProceeds (x : Exec α) : Prop :=
  ∀ m, m.deferring = none → match x m with
    | .ok _ m' => StepGraph.CallProceeds m m'
    | .error _ m' => StepGraph.CallProceeds m m'

namespace Exec

theorem Local.proceeds {x : Exec α} (hx : Local.trait.Holds x) : CallProceeds x := by
  intro m hm
  have h := hx m
  cases hr : x m with
  | ok a m₁ | error u m₁ =>
      rw [hr] at h
      exact .of_continues hm h.toCallContinues

theorem BuiltinReturns.proceeds {x : Exec α} (hx : BuiltinReturns False x) : CallProceeds x := by
  intro m hm
  have h := hx m
  cases hr : x m with
  | ok a m₁ =>
      rw [hr] at h
      exact .of_builtinReturns hm h
  | error u m₁ =>
      rw [hr] at h
      exact .of_builtinReturns hm h.1

namespace CallProceeds

theorem pure (a : α) : CallProceeds (pure a) := Local.proceeds (.quiet (Quiet.trait.pure a))

theorem bind {x : Exec α} {f : α → Exec β} (hx : CallProceeds x) (hf : ∀ a, CallProceeds (f a)) :
    CallProceeds (x >>= f) := by
  intro m hm
  have h := hx m hm
  rw [bind_apply]
  cases hr : x m with
  | error u m₁ =>
      rw [hr] at h
      exact h
  | ok a m₁ =>
      rw [hr] at h
      have h₁ := hf a m₁ h.deferring
      simp only
      cases hr₁ : f a m₁ with
      | ok b m₂ | error u m₂ =>
          rw [hr₁] at h₁
          exact h.trans h₁

theorem annotated {x : Exec α} (span : Span) (hx : CallProceeds x) :
    CallProceeds (Program.annotated span x) := by
  intro m hm
  have h := hx m hm
  unfold Program.annotated
  cases hr : x m with
  | ok a m₁ =>
      rw [hr] at h
      exact h
  | error u m₁ =>
      rw [hr] at h
      cases u with
      | panic v => exact ⟨h.calls, h.deferring, h.deferred, h.funcScope, h.nests⟩
      | _ => exact h

end CallProceeds

end Exec

namespace Program

variable (p : Program)

-- A deferred call is put in front of those that are kept already.
theorem proceeds_keepDeferred (args : Arity) (spread : Bool)
    (builtin : Option (Builtin × Option Ty)) (span : Span) :
    Exec.CallProceeds (keepDeferred args spread builtin span) := by
  have hkeep : ∀ d, Exec.CallProceeds (Exec.modifyFrame fun f => { f with deferred := d :: f.deferred }) :=
    fun d m hm => ⟨.refl _ _, hm, List.suffix_cons _ _, rfl, .refl _⟩
  have hvalues : ∀ target, Exec.CallProceeds (do
      let values ← (← Exec.take args).mapM fun v => (Heap.copy v : HeapM Value)
      Exec.modifyFrame fun f => { f with deferred := ⟨target, values, spread, span⟩ :: f.deferred }) :=
    fun target => .bind (Local.proceeds (Local.operands.take args)) fun vs =>
      .bind (Local.proceeds (Local.trait.mapM fun v => Local.trait.gentle (Heap.gentle_copy v)))
        fun _ => hkeep _
  unfold keepDeferred
  cases builtin with
  | none => exact .bind (Local.proceeds Local.operands.pop) fun _ => .bind (.pure _) fun _ => hvalues _
  | some b => exact .bind (.pure _) fun _ => hvalues _

-- How a deferred call is performed.
def perform (n : Nat) (d : Deferred) : Exec (List Value) :=
  match d.target with
  | .inl f => p.call n f d.args d.spread d.span
  | .inr (b, ty) =>
      p.callBuiltin ⟨p.types, fun f xs => p.call n f xs false Span.none⟩ b ty d.args d.spread

-- A call of a function with the given code.
def enterCode (n : Nat) (code : CodeRef) (env : ScopeId) (receiver : Option Value)
    (args : List Value) (spread : Bool) (span : Span) : Exec (List Value) := do
  if p.maxDepth ≤ (← get).calls.size then Exec.fatal (.stackOverflow p.maxDepth)
  else match p.code[code.id]? with
    | some f => p.invoke (p.run n) (p.perform n) f env receiver args spread span
    | none => Exec.fatal (.notCallable "func")

theorem call_succ (n : Nat) (callee : Value) (args : List Value) (spread : Bool) (span : Span) :
    p.call (n + 1) callee args spread span =
      match callee.unwrap with
      | .func (some (.closure code env)) => p.enterCode n code env none args spread span
      | .method code env receiver => p.enterCode n code env (some receiver) args spread span
      | .func (some (.host ref)) =>
          p.callHost ⟨p.types, fun f xs => p.call n f xs false Span.none⟩ ref args spread
      | .func (some (.errorText message)) => do
          if spread then discard (expandSpread args)
          return [.str message]
      | .func none | .nil => Exec.fault .nilDereference
      | v => Exec.fatal (.notCallable v.kindName) := by
  rw [call]
  rfl

end Program

theorem KeepsCalls.shrink {may may' : Nat → Prop} {calls calls' : Array CallRecord} {n : Nat}
    (h : KeepsCalls may calls calls') (hle : ∀ i < n, may i → may' i) :
    KeepsCalls may' (calls.shrink n) (calls'.shrink n) := by
  refine ⟨by simp [h.size], fun i => ?_⟩
  rw [Lists.getElem?_shrink, Lists.getElem?_shrink]
  by_cases hi : i < n
  · rw [if_pos hi, if_pos hi]
    exact (h.record i).imp id (And.imp_left (hle i hi))
  · rw [if_neg hi, if_neg hi]
    exact .inl rfl

-- What the calls that were kept leave behind at the end of the call `record`, which is the
-- innermost one when they run: its own panic may be any other one then.
structure DeferredRan (record : Nat) (m m' : Machine) : Prop where
  frame : m'.frame = m.frame
  size : m'.calls.size = m.calls.size
  handler : m'.handler = m.handler
  below : KeepsCalls (m.handler = some ·) (m.calls.shrink record) (m'.calls.shrink record)
  deferring : m'.deferring = none
  nests : ScopesNest m.heap m'.heap

namespace DeferredRan

variable {record : Nat}

theorem refl (hm : m.deferring = none) : DeferredRan record m m :=
  ⟨rfl, rfl, rfl, .refl _ _, hm, .refl _⟩

theorem trans (h₁ : DeferredRan record m m') (h₂ : DeferredRan record m' m'') :
    DeferredRan record m m'' where
  frame := h₂.frame.trans h₁.frame
  size := h₂.size.trans h₁.size
  handler := h₂.handler.trans h₁.handler
  below := h₁.below.trans (by simpa only [h₁.handler] using h₂.below)
  deferring := h₂.deferring
  nests := h₁.nests.trans h₂.nests

theorem of_builtinReturns (h : BuiltinReturns { m with deferring := some record } m') :
    DeferredRan record m { m' with deferring := none } where
  frame := h.frame
  size := h.calls.size
  handler := h.calls.handler
  below := h.calls.shrink fun i hi hmay => by
    rcases hmay with hmay | hmay
    · cases hmay
      exact absurd hi (Nat.lt_irrefl _)
    · exact hmay
  deferring := rfl
  nests := h.nests

theorem park (hm : m.deferring = none) (v : Value) :
    DeferredRan record m (Program.park record v m) where
  frame := rfl
  size := by simp [Program.park]
  handler := by
    unfold Machine.handler Program.park
    simp only [Array.back?_eq_getElem?, Array.size_modify, Array.getElem?_modify]
    split
    · cases m.calls[m.calls.size - 1]? <;> rfl
    · rfl
  below := by
    refine ⟨by simp [Program.park], fun i => .inl ?_⟩
    rw [Lists.getElem?_shrink, Lists.getElem?_shrink]
    by_cases hi : i < record
    · rw [if_pos hi, if_pos hi]
      unfold Program.park
      simp only [Array.getElem?_modify, if_neg (Nat.ne_of_gt hi)]
    · rw [if_neg hi, if_neg hi]
  deferring := hm
  nests := .refl _

end DeferredRan

end StepGraph

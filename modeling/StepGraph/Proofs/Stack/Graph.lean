import StepGraph.Proofs.Machine.Defers
import StepGraph.Proofs.Stack.Effects

open EStateM (bind_apply)

namespace StepGraph

theorem Countable.mono {n k : Nat} (h : Countable n) (hle : k ≤ n) : Countable k :=
  Nat.lt_of_le_of_lt hle h

theorem countable_one : Countable 1 := Nat.one_lt_two_pow (by decide)

namespace Program

open Exec (Yields)

-- The results of a call can be counted in a word.
structure Bounded (p : Program) : Prop where
  hosts : ∀ ref f, p.hosts.function? ref = some f → ∀ sv args,
    Yields (fun vs => Countable vs.length) (f sv args)
  code : ∀ (i : Nat) f, p.code[i]? = some f → Countable f.sig.results.length

variable {p : Program} {n : Nat} {m m' : Machine}

theorem length_collectResults (sig : Signature) :
    Yields (fun vs => vs.length ≤ sig.results.length) (p.collectResults sig) := by
  have hlast : ∀ values : List Value, Yields (fun vs => vs.length ≤ sig.results.length)
      ((values.zip sig.results).mapM fun (x : Value × Param) => p.coerce x.1 x.2.ty) := by
    intro values m vs m' h
    rw [Exec.Yields.mapM _ m vs m' h, List.length_zip]
    exact Nat.min_le_right _ _
  refine .bind fun fr => ?_
  dsimp only
  split
  · exact .bind fun vs => hlast vs
  · split
    · exact .bind fun vs => hlast vs
    · exact .bind fun vs => hlast vs

theorem length_invoke {run : Array Step → Option StepId → Exec Unit}
    {perform : Deferred → Exec (List Value)} {f : Function} {env : ScopeId}
    {receiver : Option Value} {args : List Value} {spread : Bool} {span : Span} :
    Yields (fun vs => vs.length ≤ f.sig.results.length)
      (p.invoke run perform f env receiver args spread span) := by
  intro m vs m' h
  cases he : p.enter f env receiver args spread span m with
  | error u m₁ =>
      rw [invoke_of_error he] at h
      cases h
  | ok r m₁ =>
      obtain ⟨scope, record⟩ := r
      rw [invoke_of_activity he] at h
      split at h
      · split at h
        · next hc =>
            cases h
            exact length_collectResults f.sig _ _ _ hc
        · cases h
      · cases h

theorem countable_call (hb : p.Bounded) (callee : Value) (args : List Value) (spread : Bool)
    (span : Span) : Yields (fun vs => Countable vs.length) (p.call n callee args spread span) := by
  have henter : ∀ n code env receiver, Yields (fun vs => Countable vs.length)
      (p.enterCode n code env receiver args spread span) := by
    intro n code env receiver
    refine .bind fun m => ?_
    split
    · exact .fatal _
    · split
      · next f hf => exact fun m vs m' h => (hb.code _ f hf).mono (length_invoke m vs m' h)
      · exact .fatal _
  have hhost : ∀ sv ref, Yields (fun vs => Countable vs.length) (p.callHost sv ref args spread) := by
    intro sv ref
    unfold callHost
    by_cases h : spread = true
    · simp only [if_pos h]
      refine .bind fun args => ?_
      split
      · next f hf => exact hb.hosts ref f hf sv args
      · exact .fatal _
    · simp only [if_neg h]
      refine .bind fun args => ?_
      split
      · next f hf => exact hb.hosts ref f hf sv args
      · exact .fatal _
  cases n with
  | zero =>
      intro m vs m' h
      unfold call at h
      cases h
  | succ n =>
      rw [call_succ]
      split
      · exact henter _ _ _ _
      · exact henter _ _ _ _
      · exact hhost _ _
      · dsimp only
        split
        · exact .bind fun _ => .pure countable_one
        · exact .pure countable_one
      · exact .fault _
      · exact .fault _
      · exact .fatal _

theorem countable_callBuiltin (sv : Services) (b : Builtin) (ty : Option Ty) (args : List Value)
    (spread : Bool) : Yields (fun vs => Countable vs.length) (p.callBuiltin sv b ty args spread) := by
  have hone : ∀ v : Value, Yields (fun vs : List Value => Countable vs.length) (pure [v]) :=
    fun v => .pure countable_one
  have hnone : Yields (fun vs : List Value => Countable vs.length) (pure []) :=
    .pure (countable_one.mono (Nat.zero_le 1))
  have hpanic : Yields (fun vs => Countable vs.length) (raisePanic (args.getLast?.getD .nil)) := by
    unfold raisePanic
    split
    · exact .fault _
    · exact .throw _
  cases b with
  | panic => exact hpanic
  | delete =>
      refine .bind fun (map, key) => ?_
      dsimp only
      split
      · exact .bind fun _ => .bind fun _ => .bind fun _ => hnone
      · exact .notDefined _ _
  | max | min =>
      unfold callBuiltin
      dsimp only
      split
      · exact .bind fun _ => .bind fun _ => hone _
      · exact .bind fun _ => .bind fun _ => hone _
  | len | cap | real | imag => exact .bind fun _ => .bind fun _ => hone _
  | copy | complex => exact .bind fun _ => .bind fun _ => hone _
  | clear | close | print | println => exact .bind fun _ => .bind fun _ => hnone
  | make => exact .bind fun _ => .bind fun _ => hone _
  | new => exact .bind fun _ => .bind fun _ => .bind fun _ => hone _
  | append | recover => exact .bind fun _ => hone _

end Program

-- A scope stands so many scopes inside another one.
inductive Heap.Above (h : Heap) : Nat → ScopeId → ScopeId → Prop
  | here (s : ScopeId) : Above h 0 s s
  | inside {n : Nat} {s t r : ScopeId} (hparent : h.parent? s = some t) (hrest : Above h n t r) :
      Above h (n + 1) s r

namespace Heap.Above

variable {h h' : Heap} {n k : Nat} {s r : ScopeId}

theorem mono (ha : h.Above n s r) (hn : ScopesNest h h') : h'.Above n s r := by
  induction ha with
  | here s => exact .here s
  | @inside n s t r hparent _ ih =>
      have hlt : s < h.scopes.size := by
        by_contra hge
        unfold Heap.parent? at hparent
        rw [Array.getElem?_eq_none (Nat.le_of_not_lt hge)] at hparent
        cases hparent
      exact .inside ((hn.parent s hlt).trans hparent) ih

theorem leave (ha : h.Above n s r) (hk : k ≤ n) :
    h.Above (n - k) (Exec.leaveScopes k s h) r := by
  induction k generalizing n s with
  | zero => exact ha
  | succ k ih =>
      cases ha with
      | here => exact absurd hk (Nat.not_succ_le_zero k)
      | inside hparent hrest =>
          unfold Exec.leaveScopes
          rw [hparent, Nat.add_sub_add_right]
          exact ih hrest (Nat.le_of_succ_le_succ hk)

theorem newScope (ha : h.Above n s r) :
    (Heap.newScope (some s) h).2.Above (n + 1) h.scopes.size r := by
  refine .inside (t := s) ?_ (ha.mono (Heap.quiet_newScope (some s) h))
  change (h.scopes.push ⟨[], some s, false⟩)[h.scopes.size]?.bind (·.parent) = some s
  rw [Array.getElem?_push_size]
  rfl

end Heap.Above

-- What is known of a machine that comes to a step: the depth of its scope and the layout of its
-- operands. `exit` tells the same of the end of the steps that evaluate a deferred call.
structure Stance where
  depth : Nat
  items : List Item
  exit : Option (Nat × List Item)
  deriving DecidableEq

namespace StepOp

def depthAfter : StepOp → Nat → Nat
  | jump d, _ => d
  | pushScope, n => n + 1
  | popScope, n => n - 1
  | _, n => n

-- A step turns one stance into another one on its way to a successor. The operands only follow
-- where those that the step needs are `safe`.
structure Turns (safe : Prop) (op : StepOp) (edge : Edge) (st st' : Stance) : Prop where
  possible : (op.gives edge).isSome
  depth : st'.depth = op.depthAfter st.depth
  exit : st'.exit = st.exit
  items : safe → ∃ rest, st.items = op.needs ++ rest ∧ st'.items = (op.gives edge).getD [] ++ rest

-- The operands of a deferred call. The function lies on top of its arguments.
def callItems (args : Arity) (builtin : Option (Builtin × Option Ty)) : List Item :=
  if builtin.isSome then args.items else .one :: args.items

-- A step at this depth leaves no more scopes than there are.
def LeavesAtMost (op : StepOp) (depth : Nat) : Prop :=
  (∀ d, op = .jump d → d ≤ depth) ∧ (op = .popScope → 1 ≤ depth)

namespace Turns

variable {safe safe' : Prop} {op : StepOp} {edge : Edge} {st st₁ st₂ : Stance}

theorem mono (h : Turns safe op edge st st₁) (hsafe : safe' → safe) :
    Turns safe' op edge st st₁ :=
  ⟨h.possible, h.depth, h.exit, fun hs => h.items (hsafe hs)⟩

-- There is only one way for a step to go on.
theorem items_eq (h₁ : Turns safe op edge st st₁) (h₂ : Turns safe op edge st st₂)
    (hsafe : safe) : st₁.items = st₂.items := by
  obtain ⟨rest₁, hneeds₁, hleft₁⟩ := h₁.items hsafe
  obtain ⟨rest₂, hneeds₂, hleft₂⟩ := h₂.items hsafe
  rw [hleft₁, hleft₂, List.append_cancel_left (hneeds₁.symm.trans hneeds₂)]

end Turns

end StepOp

-- A step finds the operands that it needs, and its successors have the stances to which it leads.
structure StepConsistent (safe : Prop) (stance : StepId → Stance) (i : StepId) (s : Step) :
    Prop where
  needs : safe → ∃ rest, (stance i).items = s.op.needs ++ rest
  leads : ∀ (edge : Edge) (k : StepId), s.follow edge = some k → (s.op.gives edge).isSome →
    s.op.Turns safe edge (stance i) (stance k)
  ends : ∀ (edge : Edge) (d : Nat) (left : List Item), s.follow edge = none →
    (s.op.gives edge).isSome → (stance i).exit = some (d, left) →
      s.op.Turns safe edge (stance i) ⟨d, left, some (d, left)⟩
  returns : ∀ arity : Arity, s.op = .ret arity → (stance i).exit = none
  defers : ∀ (entry : StepId) (args : Arity) (spread : Bool)
    (builtin : Option (Builtin × Option Ty)), s.op = .defer entry args spread builtin →
      stance entry = ⟨(stance i).depth, (stance i).items,
        some ((stance i).depth, StepOp.callItems args builtin ++ (stance i).items)⟩

-- All ways to a step agree on its stance.
def Consistent (safe : Prop) (steps : Array Step) (stance : StepId → Stance) : Prop :=
  ∀ (i : StepId) (s : Step), steps[i]? = some s → StepConsistent safe stance i s

-- No step leaves more scopes than there are.
def Downward (steps : Array Step) (stance : StepId → Stance) : Prop :=
  ∀ (i : StepId) (s : Step), steps[i]? = some s → s.op.LeavesAtMost (stance i).depth

-- The scope of a machine lies so deep inside the one of its function.
structure Machine.Deep (func : ScopeId) (depth : Nat) (m : Machine) : Prop where
  func_eq : m.frame.funcScope = func
  depth_eq : m.frame.depth = depth
  above : m.heap.Above depth m.frame.scope func

-- A machine with its operands on top of the given ones, where these are `safe`, and in a scope of
-- this depth, where that is asked for.
structure HasStance (safe : Prop) (base : List Value) (deep : Prop) (func : ScopeId) (depth : Nat)
    (items : List Item) (m : Machine) : Prop where
  operands : safe → OperandsLie base items m.frame.operands
  position : deep → m.Deep func depth

namespace HasStance

variable {base : List Value} {deep safe : Prop} {func : ScopeId} {depth : Nat}
  {items items' : List Item} {m m' : Machine}

theorem of_builtinReturns (h : HasStance safe base deep func depth items m)
    (hw : BuiltinReturns m m') :
    HasStance safe base deep func depth items m' where
  operands hs := by
    rw [hw.frame]
    exact h.operands hs
  position hd := by
    have hdeep := h.position hd
    refine ⟨?_, ?_, ?_⟩
    · rw [hw.frame, hdeep.func_eq]
    · rw [hw.frame, hdeep.depth_eq]
    · rw [hw.frame]
      exact hdeep.above.mono hw.nests

theorem congr (h : HasStance safe base deep func depth items m) (hitems : safe → items = items') :
    HasStance safe base deep func depth items' m :=
  ⟨fun hs => hitems hs ▸ h.operands hs, h.position⟩

end HasStance

-- How an operation ends. Where it is `safe`, it does not miss an operand.
def Exec.ComesToEnd {α : Type} (safe : Prop) (post : α → Machine → Prop) :
    EStateM.Result Unwind Machine α → Prop
  | .ok a m => post a m
  | .error u _ => safe → ¬ u.Underflows

namespace Exec

variable {α β : Type} {safe : Prop} {post mid : α → Machine → Prop}

theorem ComesToEnd.bind {x : Exec α} {f : α → Exec β} {m : Machine} {post : β → Machine → Prop}
    (hx : ComesToEnd safe mid (x m)) (hf : ∀ a m', mid a m' → ComesToEnd safe post (f a m')) :
    ComesToEnd safe post ((x >>= f) m) := by
  rw [bind_apply]
  cases hr : x m with
  | ok a m₁ =>
      rw [hr] at hx
      exact hf a m₁ hx
  | error u m₁ =>
      rw [hr] at hx
      exact hx

theorem ComesToEnd.annotated {x : Exec α} {m : Machine} (span : Span)
    (hx : ComesToEnd safe post (x m)) :
    ComesToEnd safe post (Program.annotated span x m) := by
  unfold Program.annotated
  cases hr : x m with
  | ok a m₁ =>
      rw [hr] at hx
      exact hx
  | error u m₁ =>
      rw [hr] at hx
      cases u <;> exact hx

theorem ComesToEnd.mono {r : EStateM.Result Unwind Machine α} (h : ComesToEnd safe mid r)
    (hpost : ∀ a m, mid a m → post a m) : ComesToEnd safe post r := by
  cases r with
  | ok a m => exact hpost a m h
  | error u m => exact h

end Exec

namespace Program

variable {α : Type} {p : Program} {base : List Value} {deep safe : Prop} {func : ScopeId}
  {depth : Nat} {items rest given : List Item} {m m' : Machine} {steps : Array Step}
  {stance : StepId → Stance}

-- A step that leaves no more scopes than there are ends at the depth that it tells.
theorem deep_step {op : StepOp} {after : Next} (hdeep : m.Deep func depth)
    (hfits : op.LeavesAtMost depth) (hs : p.step op m = .ok after m') :
    m'.Deep func (op.depthAfter depth) := by
  have hleave : ∀ d ≤ depth, m.heap.Above d
      (Exec.leaveScopes (m.frame.depth - d) m.frame.scope m.heap) func := by
    intro d hd
    have habove := hdeep.above.leave (Nat.sub_le depth d)
    rwa [Nat.sub_sub_self hd, ← hdeep.depth_eq] at habove
  by_cases hop : Moving op
  · cases op with
    | jump d =>
        have hd := hfits.1 d rfl
        rw [step_jump] at hs
        cases hs
        refine ⟨hdeep.func_eq, ?_, hleave d hd⟩
        change min m.frame.depth d = d
        rw [hdeep.depth_eq, Nat.min_eq_right hd]
    | popScope =>
        rw [step_popScope] at hs
        cases hs
        rw [hdeep.depth_eq] at hleave ⊢
        refine ⟨hdeep.func_eq, ?_, hleave (depth - 1) (Nat.sub_le depth 1)⟩
        exact Nat.min_eq_right (Nat.sub_le depth 1)
    | pushScope =>
        rw [step_pushScope] at hs
        cases hs
        exact ⟨hdeep.func_eq, congrArg (· + 1) hdeep.depth_eq, hdeep.above.newScope⟩
    | _ => exact hop.elim
  · have hlocal : Exec.Local (p.step op) := holds_step Exec.Local.operands p hop
    have hlocal := hlocal m
    rw [hs] at hlocal
    have hsame : op.depthAfter depth = depth := by
      cases op <;> first | rfl | exact absurd trivial hop
    rw [hsame]
    refine ⟨?_, ?_, ?_⟩
    · rw [hlocal.funcScope, hdeep.func_eq]
    · rw [hlocal.depth, hdeep.depth_eq]
    · rw [hlocal.scope]
      exact hdeep.above.mono hlocal.nests

theorem hasStance_step {op : StepOp} (h : HasStance safe base deep func depth items m)
    (hneeds : safe → items = op.needs ++ rest) (hdown : deep → op.LeavesAtMost depth) :
    Exec.ComesToEnd safe (fun after m' => after.Of op ∧
      HasStance safe base deep func (op.depthAfter depth) (after.left op rest) m')
        (p.step op m) := by
  have hstacks := fun hs : safe => p.stacks_step op m (hneeds hs ▸ h.operands hs)
  cases hr : p.step op m with
  | ok after m₁ =>
      rw [hr] at hstacks
      exact ⟨next_of_step hr, hstacks, fun hd => deep_step (h.position hd) (hdown hd) hr⟩
  | error u m₁ =>
      rw [hr] at hstacks
      exact hstacks

-- What is done with the operands alone does not change the place of a machine.
theorem comes_local {x : Exec α} {left : List Item} (hx : Exec.Local.trait.Holds x)
    (hs : safe → Exec.Stacks base items (fun _ => left) x)
    (h : HasStance safe base deep func depth items m) :
    Exec.ComesToEnd safe (fun _ m' => HasStance safe base deep func depth left m') (x m) := by
  have hlocal := hx m
  have hstacks := fun hsafe => hs hsafe m (h.operands hsafe)
  cases hr : x m with
  | ok a m₁ =>
      rw [hr] at hlocal hstacks
      refine ⟨hstacks, fun hd => ?_⟩
      have hdeep := h.position hd
      refine ⟨?_, ?_, ?_⟩
      · rw [hlocal.funcScope, hdeep.func_eq]
      · rw [hlocal.depth, hdeep.depth_eq]
      · rw [hlocal.scope]
        exact hdeep.above.mono hlocal.nests
  | error u m₁ =>
      rw [hr] at hstacks
      exact hstacks

-- A call takes no part of the operands, and its results come to lie on top of them.
theorem comes_results {x : Exec (List Value)} (hx : Exec.BuiltinReturns safe x)
    (hcount : safe → Exec.Yields (fun vs => Countable vs.length) x)
    (h : HasStance safe base deep func depth items m) (results : CallResults) (span : Span) :
    Exec.ComesToEnd safe (fun _ m' =>
      HasStance safe base deep func depth (results.items ++ items) m')
      (annotated span (x >>= fun vs => Exec.pushResults vs results) m) := by
  have hresults : Exec.ComesToEnd safe (fun vs m' => (safe → Countable vs.length) ∧
      HasStance safe base deep func depth items m') (x m) := by
    have hwork := hx m
    cases hr : x m with
    | ok vs m₁ =>
        rw [hr] at hwork
        exact ⟨fun hs => hcount hs m vs m₁ hr, h.of_builtinReturns hwork⟩
    | error u m₁ =>
        rw [hr] at hwork
        exact hwork.2
  exact .annotated span <| hresults.bind fun vs m₁ ⟨hvs, h₁⟩ =>
    comes_local (Exec.Local.operands.pushResults vs results) (fun hs => .pushResults (hvs hs) results) h₁

theorem comes_keepDeferred (args : Arity) (spread : Bool)
    (builtin : Option (Builtin × Option Ty)) (span : Span)
    (h : HasStance safe base deep func depth (StepOp.callItems args builtin ++ items) m) :
    Exec.ComesToEnd safe (fun _ m' => HasStance safe base deep func depth items m')
      (keepDeferred args spread builtin span m) := by
  have hkeep : ∀ {m : Machine} d, HasStance safe base deep func depth items m →
      Exec.ComesToEnd safe (fun _ m' => HasStance safe base deep func depth items m')
        (Exec.modifyFrame (fun f => { f with deferred := d :: f.deferred }) m) :=
    fun d h => ⟨h.operands, fun hd =>
      ⟨(h.position hd).func_eq, (h.position hd).depth_eq, (h.position hd).above⟩⟩
  have hvalues : ∀ {m : Machine} target,
      HasStance safe base deep func depth (args.items ++ items) m →
      Exec.ComesToEnd safe (fun _ m' => HasStance safe base deep func depth items m') ((do
        let values ← (← Exec.take args).mapM fun v => (Heap.copy v : HeapM Value)
        Exec.modifyFrame fun f =>
          { f with deferred := ⟨target, values, spread, span⟩ :: f.deferred }) m) := by
    intro m target h
    refine (comes_local (Exec.Local.operands.take args) (fun _ => .take args) h).bind fun vs m₁ h₁ => ?_
    have hcopy : Exec.Quiet.trait.Holds
        (vs.mapM fun v => (Heap.copy v : HeapM Value) : Exec (List Value)) :=
      Exec.Quiet.trait.mapM fun v => Exec.Quiet.trait.gentle (Heap.gentle_copy v)
    exact (comes_local (.quiet hcopy) (fun _ => .quiet hcopy) h₁).bind fun _ _ h₂ => hkeep _ h₂
  unfold keepDeferred
  cases builtin with
  | none =>
    exact (comes_local Exec.Local.operands.pop (fun _ => .pop) h).bind fun v m₁ h₁ =>
      hvalues (.inl v) h₁
  | some b => exact hvalues (.inr b) h

-- A machine that has left a step stands as the step wants it on the way to the successor. A return
-- only ends the steps of a function.
def Arrives (safe : Prop) (stance : StepId → Stance) (base : List Value) (deep : Prop)
    (func : ScopeId) (id : StepId) (s : Step) (m : Machine) : Option (Option StepId) → Prop
  | none => (stance id).exit = none
  | some k => ∃ edge st, s.follow edge = k ∧ s.op.Turns safe edge (stance id) st ∧
      HasStance safe base deep func st.depth st.items m

theorem comes_advance {id : StepId} {s : Step} (hs : steps[id]? = some s)
    (hc : StepConsistent safe stance id s)
    (hdown : deep → s.op.LeavesAtMost (stance id).depth) (hb : safe → p.Bounded) {n : Nat}
    (hcalls : ∀ callee args spread span, Exec.Calls safe (p.call n callee args spread span))
    (hrun : ∀ entry args spread builtin, s.op = .defer entry args spread builtin →
      ∀ m d left, (stance entry).exit = some (d, left) →
        HasStance safe base deep func (stance entry).depth (stance entry).items m →
          Exec.ComesToEnd safe (fun _ m' => HasStance safe base deep func d left m')
            (p.run n steps (some entry) m))
    (h : HasStance safe base deep func (stance id).depth (stance id).items m) :
    Exec.ComesToEnd safe (fun k m' => Arrives safe stance base deep func id s m' k)
      (p.advance n steps id m) := by
  unfold advance
  rw [hs]
  obtain ⟨rest, hneeds⟩ : ∃ rest, safe → (stance id).items = s.op.needs ++ rest := by
    by_cases hsafe : safe
    · obtain ⟨rest, hrest⟩ := hc.needs hsafe
      exact ⟨rest, fun _ => hrest⟩
    · exact ⟨[], fun hs => absurd hs hsafe⟩
  have hstep : Exec.ComesToEnd safe (fun after m' => after.Of s.op ∧
      HasStance safe base deep func (s.op.depthAfter (stance id).depth) (after.left s.op rest) m')
      (annotated s.span (p.step s.op) m) := .annotated s.span (hasStance_step h hneeds hdown)
  have harrive : ∀ edge {m'}, (s.op.gives edge).isSome →
      HasStance safe base deep func (s.op.depthAfter (stance id).depth)
        ((s.op.gives edge).getD [] ++ rest) m' →
      Arrives safe stance base deep func id s m' (some (s.follow edge)) := fun _ _ hgives h' =>
    ⟨_, ⟨_, _, (stance id).exit⟩, rfl, ⟨hgives, rfl, rfl, fun hs => ⟨rest, hneeds hs, rfl⟩⟩, h'⟩
  refine hstep.bind fun after m₁ ⟨hof, h₁⟩ => ?_
  cases after with
  | next => exact harrive .next hof h₁
  | goto target =>
      obtain ⟨hsome, rfl⟩ := hof
      exact harrive .other hsome h₁
  | ret =>
      obtain ⟨arity, hop⟩ := hof
      exact hc.returns arity hop
  | call callee args spread results =>
      refine (comes_results (hcalls callee args spread s.span).builtinReturns
        (fun hs => countable_call (hb hs) callee args spread s.span) h₁ results s.span).bind
          fun _ _ h₂ => harrive .next (Option.isSome_of_eq_some hof) ?_
      rw [show s.op.gives .next = some results.items from hof]
      exact h₂
  | builtin b ty args spread results =>
      refine (comes_results (builtinReturns_callBuiltin (work_services fun _ _ =>
        hcalls _ _ _ _) b ty args
        spread) (fun _ => countable_callBuiltin _ b ty args spread) h₁ results s.span).bind
          fun _ _ h₂ => harrive .next (Option.isSome_of_eq_some hof) ?_
      rw [show s.op.gives .next = some results.items from hof]
      exact h₂
  | defer entry args spread builtin =>
      have hop : s.op = .defer entry args spread builtin := hof
      have hentry := hc.defers entry args spread builtin hop
      have hrest : safe → (stance id).items = rest := fun hsafe => by
        have hitems := hneeds hsafe
        rw [hop] at hitems
        exact hitems
      have h₂ : HasStance safe base deep func (stance entry).depth (stance entry).items m₁ := by
        rw [hentry]
        rw [hop] at h₁
        exact h₁.congr fun hsafe => (hrest hsafe).symm
      have hchain := hrun entry args spread builtin hop m₁ (stance id).depth
        (StepOp.callItems args builtin ++ (stance id).items) (by rw [hentry]) h₂
      have hkept : Exec.ComesToEnd safe
          (fun _ m' => HasStance safe base deep func (stance id).depth (stance id).items m')
          (annotated s.span (do
            p.run n steps (some entry)
            keepDeferred args spread builtin s.span) m₁) :=
        .annotated s.span <| hchain.bind fun _ _ h₃ => comes_keepDeferred args spread builtin _ h₃
      refine hkept.bind fun _ m₂ h₃ => harrive .next ?_ ?_
      · rw [hop]
        rfl
      · rw [hop]
        exact h₃.congr hrest

-- Whoever arrives at a step stands as the step wants it.
theorem Arrives.hasStance {id k : StepId} {s : Step} (hc : StepConsistent safe stance id s)
    (h : Arrives safe stance base deep func id s m (some (some k))) :
    HasStance safe base deep func (stance k).depth (stance k).items m ∧
      (stance k).exit = (stance id).exit := by
  obtain ⟨edge, st, hfollow, hturns, hstands⟩ := h
  have hleads := hc.leads edge k hfollow hturns.possible
  rw [hleads.depth, ← hturns.depth]
  exact ⟨hstands.congr (hturns.items_eq hleads), hleads.exit⟩

theorem advance_of_none {n : Nat} {id : StepId} (hs : steps[id]? = none) :
    ∃ u, p.advance n steps id m = .error u m ∧ ¬ u.Underflows := by
  unfold advance
  rw [hs]
  exact ⟨_, rfl, nofun⟩

theorem exists_step_of_advance {n : Nat} {id : StepId} {k : Option (Option StepId)}
    (h : p.advance n steps id m = .ok k m') : ∃ s, steps[id]? = some s := by
  cases hs : steps[id]? with
  | none =>
      obtain ⟨u, hu, -⟩ := advance_of_none (p := p) (m := m) (n := n) hs
      rw [h] at hu
      cases hu
  | some s => exact ⟨s, rfl⟩

-- The steps of a deferred call leave its operands behind, and no step misses an operand.
theorem comes_run (hc : Consistent safe steps stance) (hdown : deep → Downward steps stance)
    (hb : safe → p.Bounded) {n : Nat}
    (hcalls : ∀ k < n, ∀ callee args spread span,
      Exec.Calls safe (p.call k callee args spread span)) {id : StepId}
    (h : HasStance safe base deep func (stance id).depth (stance id).items m) :
    Exec.ComesToEnd safe (fun _ m' => ∀ d left, (stance id).exit = some (d, left) →
      HasStance safe base deep func d left m') (p.run n steps (some id) m) := by
  induction n generalizing id m with
  | zero =>
      rw [run_zero]
      exact fun _ => nofun
  | succ n ih =>
      have ih := fun {id m} => @ih m (fun k hk => hcalls k (Nat.lt_succ_of_lt hk)) id
      rw [run_succ]
      cases hs : steps[id]? with
      | none =>
          obtain ⟨u, hu, hno⟩ := advance_of_none (p := p) (m := m) (n := n) hs
          rw [hu]
          exact fun _ => hno
      | some s =>
          have hcs := hc id s hs
          have hadvance := comes_advance hs hcs (fun hd => hdown hd id s hs) hb
            (hcalls n (Nat.lt_succ_self n))
            (fun entry _ _ _ _ m d left hexit h => (ih h).mono fun _ _ h => h d left hexit) h
          cases hr : p.advance n steps id m with
          | error u m₁ =>
              rw [hr] at hadvance
              exact hadvance
          | ok next m₁ =>
              rw [hr] at hadvance
              match next, hadvance with
              | none, hadvance =>
                  intro d left hexit
                  have hnone : (stance id).exit = none := hadvance
                  rw [hnone] at hexit
                  cases hexit
              | some none, ⟨edge, st, hfollow, hturns, hstands⟩ =>
                  dsimp only
                  rw [run_none]
                  intro d left hexit
                  have hends := hcs.ends edge d left hfollow hturns.possible hexit
                  rw [show d = st.depth from hends.depth.trans hturns.depth.symm]
                  exact hstands.congr (hturns.items_eq hends)
              | some (some k), hadvance =>
                  obtain ⟨hstands, hexit⟩ := hadvance.hasStance hcs
                  have hrest := ih hstands
                  rw [hexit] at hrest
                  exact hrest

-- A run comes to a step, on its way or while it evaluates a deferred call. The numbers tell how many
-- steps and calls may follow on each other from there.
inductive Reaches (p : Program) (steps : Array Step) :
    Nat → StepId → Machine → Nat → StepId → Machine → Prop
  | here (n : Nat) (id : StepId) (m : Machine) : Reaches p steps n id m n id m
  | next {n n' : Nat} {id k id' : StepId} {m m₁ m' : Machine}
      (hstep : p.advance n steps id m = .ok (some (some k)) m₁)
      (hrest : Reaches p steps n k m₁ n' id' m') : Reaches p steps (n + 1) id m n' id' m'
  | deferred {n n' : Nat} {id entry id' : StepId} {m m' : Machine} {s : Step} {args : Arity}
      {spread : Bool} {builtin : Option (Builtin × Option Ty)} (hs : steps[id]? = some s)
      (hop : s.op = .defer entry args spread builtin)
      (hrest : Reaches p steps n entry m n' id' m') : Reaches p steps (n + 1) id m n' id' m'

theorem comes_advance_of_calls (hc : Consistent safe steps stance)
    (hdown : deep → Downward steps stance) (hb : safe → p.Bounded)
    (hcalls : ∀ k callee args spread span, Exec.Calls safe (p.call k callee args spread span))
    (n : Nat) {id : StepId} {s : Step} (hs : steps[id]? = some s)
    (h : HasStance safe base deep func (stance id).depth (stance id).items m) :
    Exec.ComesToEnd safe (fun k m' => Arrives safe stance base deep func id s m' k)
      (p.advance n steps id m) :=
  comes_advance hs (hc id s hs) (fun hd => hdown hd id s hs) hb (hcalls n)
    (fun _ _ _ _ _ _ d left hexit h =>
      (comes_run hc hdown hb (fun k _ => hcalls k) h).mono fun _ _ h => h d left hexit) h

-- Wherever a run comes to, its machine stands as the step there wants it.
theorem hasStance_of_reaches (hc : Consistent safe steps stance)
    (hdown : deep → Downward steps stance) (hb : safe → p.Bounded)
    (hcalls : ∀ k callee args spread span, Exec.Calls safe (p.call k callee args spread span))
    {n n' : Nat} {id id' : StepId} (hr : Reaches p steps n id m n' id' m')
    (h : HasStance safe base deep func (stance id).depth (stance id).items m) :
    HasStance safe base deep func (stance id').depth (stance id').items m' := by
  induction hr with
  | here => exact h
  | @next n _ id k _ _ m₁ _ hstep _ ih =>
      obtain ⟨s, hs⟩ := exists_step_of_advance hstep
      have hadvance := comes_advance_of_calls hc hdown hb hcalls n hs h
      rw [hstep] at hadvance
      exact ih (hadvance.hasStance (hc _ s hs)).1
  | deferred hs hop _ ih =>
      refine ih ?_
      rw [(hc _ _ hs).defers _ _ _ _ hop]
      exact h

-- Every function has consistent stances, and a run starts without operands.
def Verified (p : Program) : Prop :=
  ∀ (i : Nat) f, p.code[i]? = some f → ∃ stance, Consistent True f.steps stance ∧
    (f.steps.isEmpty = false → (stance 0).items = [])

-- No call ever misses an operand.
theorem calls_of_verified (hhosts : p.hosts.Behaves) (hb : p.Bounded) (hv : p.Verified) (n : Nat)
    (callee : Value) (args : List Value) (spread : Bool) (span : Span) :
    Exec.Calls True (p.call n callee args spread span) := by
  induction n using Nat.strongRecOn generalizing callee args spread span with
  | ind n ih =>
      cases n with
      | zero =>
          unfold call
          exact .quiet Exec.Quiet.exhausted
      | succ n =>
          refine calls_succ hhosts (ih n (Nat.lt_succ_self n)) (fun i f hf m hm scope hframe => ?_)
            callee args spread span
          obtain ⟨stance, hc, hstart⟩ := hv i f hf
          have hproceeds := (calls_and_runs hhosts n).2 f.steps (entry f.steps) m hm
          have hcomes : Exec.ComesToEnd True (fun _ _ => True)
            (p.run n f.steps (entry f.steps) m) := by
            unfold entry
            cases hempty : f.steps.isEmpty with
            | true =>
                rw [if_pos rfl, run_none]
                trivial
            | false =>
                have hstands : HasStance True [] False 0 (stance 0).depth (stance 0).items m := by
                  rw [hstart hempty]
                  refine ⟨fun _ => ?_, False.elim⟩
                  rw [hframe]
                  exact .base
                have hall := comes_run hc False.elim (fun _ => hb)
                  (fun k hk => ih k (Nat.lt_succ_of_lt hk)) hstands (n := n)
                rw [if_neg (by decide)]
                cases hr : p.run n f.steps (some 0) m with
                | ok _ m₁ => trivial
                | error u m₁ =>
                    rw [hr] at hall
                    exact hall
          cases hr : p.run n f.steps (entry f.steps) m with
          | ok _ m₁ =>
              rw [hr] at hproceeds
              exact hproceeds
          | error u m₁ =>
              rw [hr] at hproceeds hcomes
              exact ⟨hproceeds, hcomes⟩

end Program

end StepGraph

import StepGraph.Proofs.Machine.LockstepUnits
import StepGraph.Proofs.Package.Passes

open EStateM (bind_apply bind_of_ok)

namespace StepGraph

open Heap (Env)

namespace Heap.Env

-- What is known of the one is known of the other.
def Le (env env' : Env) : Prop := ∀ x r, env x = some r → env' x = some r

-- Variables that are known of both read the same.
def Agree (env env' : Env) : Prop := ∀ x r r', env x = some r → env' x = some r' → r = r'

variable {env env' env'' : Env}

theorem Le.refl (env : Env) : env.Le env := fun _ _ => id

theorem Le.trans (h : env.Le env') (h' : env'.Le env'') : env.Le env'' :=
  fun x r hx => h' x r (h x r hx)

theorem Le.agree_of (h : env.Le env'') (h' : env'.Le env'') : env.Agree env' :=
  fun x r r' hx hx' => Option.some.inj ((h x r hx).symm.trans (h' x r' hx'))

theorem Le.agree (h : env.Le env') : env.Agree env' := h.agree_of (.refl env')

theorem Le.antisymm (h : env.Le env') (h' : env'.Le env) : env = env' := by
  funext x
  cases hx : env x with
  | some r => rw [h x r hx]
  | none =>
    cases hx' : env' x with
    | none => rfl
    | some r =>
      rw [h' x r hx'] at hx
      cases hx

end Heap.Env

-- What the orders of a package's declarations have in common: its types, the steps of its units by
-- the units' numbers, and the names that these bind. `fuel` is enough for every unit.
structure Units where
  types : TypeTable
  fuel : Nat
  count : Nat
  steps : Nat → Array Step
  names : Nat → List String
  isPure : ∀ k, PureUnit (steps k) (names k)
  nodup : ∀ k, (names k).Nodup
  short : ∀ k, (steps k).size ≤ fuel
  apart : ∀ j k, j ≠ k → (names j).Disjoint (names k)

-- How the run of a unit ends. A unit that comes to its end leaves variables that read so.
inductive Outcome where
  | finished (env : Env)
  | blocked
  | failed

namespace Units

variable {u : Units} {k : Nat} {env env' env₁ env₁' : Env} {o o' : Outcome}

-- A unit that is about to run, with what is known of its package.
structure Attempt (u : Units) (k : Nat) (p : Program) (f : Function) (c : Side) (m : Machine) :
    Prop where
  ready : c.Ready k (u.names k)
  heap : m.heap = c.heap
  initializing : p.initializing = true
  types : SameTypes u.types p.types
  steps : f.steps = u.steps k

def EndsIn (c : Side) (k : Nat) (names : List String) (r : EStateM.Result Unwind Machine Unit) :
    Outcome → Prop
  | .finished env => ∃ m, r = .ok () m ∧ c.Finished k names m.heap env
  | .blocked => ∃ x m, r = .error (.undeclared x) m ∧ c.Fine m
  | .failed => ∃ e m, r = .error e m ∧ e.Fails ∧ c.Fine m

theorem Attempt.agrees {p p' : Program} {f f' : Function} {c c' : Side} {m m' : Machine}
    (low : Prop) (h : u.Attempt k p f c m) (h' : u.Attempt k p' f' c' m')
    (hagree : ∀ x r r', c.env x = some r → c'.env x = some r' → r = r')
    (hlow : low → ∀ x, c'.env x = none → c.env x = none) :
    OutcomesAgree low c.Fine (fun _ m₁ _ m₁' => BoundAlike k (u.names k) c c' m₁ m₁')
      (p.runUnit u.fuel f c.scope m) (p'.runUnit u.fuel f' c'.scope m') :=
  Program.agrees_runUnit ⟨h.ready, h'.ready, hagree, hlow⟩ h.initializing h'.initializing
    (h.types.symm.trans h'.types) (u.nodup k) (h.steps ▸ u.isPure k) (h'.steps.trans h.steps.symm)
    (h.steps ▸ u.short k) h.heap h'.heap

-- A unit always ends in one of the three ways.
theorem Attempt.endsIn {p : Program} {f : Function} {c : Side} {m : Machine}
    (h : u.Attempt k p f c m) :
    ∃ o, EndsIn c k (u.names k) (p.runUnit u.fuel f c.scope m) o := by
  have hself := Attempt.agrees True h h (fun x r r' hr hr' => Option.some.inj (hr.symm.trans hr'))
    fun _ _ => id
  generalize p.runUnit u.fuel f c.scope m = r at hself ⊢
  cases r with
  | ok a m₁ =>
    cases hself with
    | done hb =>
      obtain ⟨env, -, hfinished, -⟩ := hb
      exact ⟨.finished env, m₁, rfl, hfinished⟩
  | error e m₁ =>
    cases hself with
    | failed he _ hm => exact ⟨.failed, e, m₁, rfl, he, hm⟩
    | waits hm => exact ⟨.blocked, _, m₁, rfl, hm⟩
    | lacks hn => exact absurd trivial hn

-- The unit may end so where the variables of the package read as `env` tells.
def Trial (u : Units) (k : Nat) (env : Env) (o : Outcome) : Prop :=
  ∃ p f c m, u.Attempt k p f c m ∧ c.env = env ∧
    EndsIn c k (u.names k) (p.runUnit u.fuel f c.scope m) o

namespace Trial

-- Variables that both packages have read the same.
theorem agrees (low : Prop) (h : u.Trial k env o) (h' : u.Trial k env' o') (hagree : env.Agree env')
    (hlow : low → env.Le env') :
    ∃ c c' r r', EndsIn c k (u.names k) r o ∧ EndsIn c' k (u.names k) r' o' ∧
      OutcomesAgree low c.Fine (fun _ m₁ _ m₁' => BoundAlike k (u.names k) c c' m₁ m₁') r r' := by
  obtain ⟨p, f, c, m, hc, rfl, hends⟩ := h
  obtain ⟨p', f', c', m', hc', rfl, hends'⟩ := h'
  refine ⟨c, c', _, _, hends, hends', Attempt.agrees low hc hc' hagree fun hl x hx => ?_⟩
  cases hr : c.env x with
  | none => rfl
  | some r =>
    rw [hlow hl x r hr] at hx
    cases hx

-- A unit that comes to its end in two packages binds its names alike.
theorem finished_eq (h : u.Trial k env (.finished env₁)) (h' : u.Trial k env' (.finished env₁'))
    (hagree : env.Agree env') : ∀ x ∈ u.names k, env₁ x = env₁' x := by
  obtain ⟨c, c', _, _, ⟨m, rfl, hm⟩, ⟨m', rfl, hm'⟩, hrun⟩ :=
    Trial.agrees False h h' hagree False.elim
  cases hrun with
  | done hb =>
    obtain ⟨e, e', he, he', hsame⟩ := hb
    rw [hm.knows.unique he.knows, hm'.knows.unique he'.knows]
    exact hsame

-- It does not fail in another package that agrees.
theorem not_failed (h : u.Trial k env (.finished env₁)) (hagree : env.Agree env') :
    ¬ u.Trial k env' .failed := by
  intro h'
  obtain ⟨c, c', _, _, ⟨m, rfl, hm⟩, ⟨e, m', rfl, he, hm'⟩, hrun⟩ :=
    Trial.agrees False h h' hagree False.elim
  cases hrun with
  | lacks => cases he

-- With more variables a unit gets at least as far.
theorem blocked_of_le (h : u.Trial k env o) (h' : u.Trial k env' .blocked) (hle : env.Le env') :
    o = .blocked := by
  obtain ⟨c, c', _, _, hends, ⟨x, m', rfl, hm'⟩, hrun⟩ :=
    Trial.agrees True h h' hle.agree fun _ => hle
  cases hrun with
  | failed hu hu' => cases hu'
  | lacks hn => exact absurd trivial hn
  | waits hm =>
    cases o with
    | blocked => rfl
    | finished env₁ =>
      obtain ⟨m, hr, -⟩ := hends
      cases hr
    | failed =>
      obtain ⟨e, m, hr, he, -⟩ := hends
      cases hr
      cases he

-- Nothing that was bound before is bound anew.
theorem le (h : u.Trial k env (.finished env₁)) : env.Le env₁ := by
  obtain ⟨p, f, c, m, hc, rfl, m₁, -, hfinished⟩ := h
  intro x r hx
  by_cases hmem : x ∈ u.names k
  · rw [hc.ready.unbound x hmem] at hx
    cases hx
  · rw [hfinished.others x hmem]
    exact hx

-- Its names are bound.
theorem named (h : u.Trial k env (.finished env₁)) : ∀ x ∈ u.names k, ∃ r, env₁ x = some r := by
  obtain ⟨p, f, c, m, hc, rfl, m₁, -, hfinished⟩ := h
  exact hfinished.named

theorem others (h : u.Trial k env (.finished env₁)) : ∀ x, x ∉ u.names k → env₁ x = env x := by
  obtain ⟨p, f, c, m, hc, rfl, m₁, -, hfinished⟩ := h
  exact hfinished.others

end Trial

-- Units have come to their ends one after the other, and then the variables read so.
inductive Reaches (u : Units) (start : Env) : List Nat → Env → Prop
  | start : Reaches u start [] start
  | finish {done : List Nat} {k : Nat} {env env₁ : Env} (hrest : Reaches u start done env)
      (hk : k < u.count) (hnew : k ∉ done) (hrun : u.Trial k env (.finished env₁)) :
      Reaches u start (k :: done) env₁

-- No unit that is left can come to its end.
structure Settles (u : Units) (start : Env) (done : List Nat) (env : Env) : Prop where
  reaches : u.Reaches start done env
  blocked : ∀ k, k < u.count → k ∉ done → u.Trial k env .blocked

variable {start : Env} {done done' : List Nat}

theorem Reaches.start_le (h : u.Reaches start done env) : start.Le env := by
  induction h with
  | start => exact .refl _
  | finish _ _ _ hrun ih => exact ih.trans hrun.le

-- Where a unit has come to its end, no more was known than in the end.
theorem Reaches.history (h : u.Reaches start done env) (hk : k ∈ done) :
    ∃ before after, u.Trial k before (.finished after) ∧ before.Le env ∧ after.Le env := by
  induction h with
  | start => cases hk
  | finish _ _ _ hrun ih =>
    rcases List.mem_cons.mp hk with rfl | hk
    · exact ⟨_, _, hrun, hrun.le, .refl _⟩
    · obtain ⟨before, after, htrial, hbefore, hafter⟩ := ih hk
      exact ⟨before, after, htrial, hbefore.trans hrun.le, hafter.trans hrun.le⟩

theorem Reaches.named (h : u.Reaches start done env) (hk : k ∈ done) :
    ∀ x ∈ u.names k, ∃ r, env x = some r := by
  intro x hx
  obtain ⟨before, after, htrial, -, hafter⟩ := h.history hk
  obtain ⟨r, hr⟩ := htrial.named x hx
  exact ⟨r, hafter x r hr⟩

-- Whatever units have come to their ends, nothing else can come of it than where no unit can.
theorem Settles.bounds (hs : u.Settles start done env) (hr : u.Reaches start done' env') :
    (∀ k ∈ done', k ∈ done) ∧ env'.Le env := by
  induction hr with
  | start =>
    exact ⟨fun k hk => absurd hk List.not_mem_nil, hs.reaches.start_le⟩
  | @finish done' k env' env₁ _ hk _ hrun ih =>
    obtain ⟨hsub, hle⟩ := ih
    have hmem : k ∈ done := by
      by_contra hn
      cases hrun.blocked_of_le (hs.blocked k hk hn) hle
    obtain ⟨before, after, htrial, hbefore, hafter⟩ := hs.reaches.history hmem
    refine ⟨fun j hj => ?_, fun x r hx => ?_⟩
    · rcases List.mem_cons.mp hj with rfl | hj
      · exact hmem
      · exact hsub j hj
    · by_cases hname : x ∈ u.names k
      · rw [hrun.finished_eq htrial (hle.agree_of hbefore) x hname] at hx
        exact hafter x r hx
      · rw [hrun.others x hname] at hx
        exact hle x r hx

-- No unit fails on the way to a state in which no unit can come to its end.
theorem Settles.not_failed (hs : u.Settles start done env) (hr : u.Reaches start done' env')
    (hk : k < u.count) : ¬ u.Trial k env' .failed := by
  intro hfailed
  have hle := (hs.bounds hr).2
  by_cases hmem : k ∈ done
  · obtain ⟨before, after, htrial, hbefore, -⟩ := hs.reaches.history hmem
    exact htrial.not_failed (hbefore.agree_of hle) hfailed
  · cases hfailed.blocked_of_le (hs.blocked k hk hmem) hle

-- All orders that come to such a state come to the same one.
theorem Settles.unique (hs : u.Settles start done env) (hs' : u.Settles start done' env') :
    (∀ k, k ∈ done ↔ k ∈ done') ∧ env = env' := by
  obtain ⟨hsub, hle⟩ := hs'.bounds hs.reaches
  obtain ⟨hsub', hle'⟩ := hs.bounds hs'.reaches
  exact ⟨fun k => ⟨hsub k, hsub' k⟩, hle.antisymm hle'⟩

end Units

end StepGraph

namespace StepGraph

open Heap (Env)

namespace Program

theorem show_error (sv : Services) (e : ErrorRef) (m : Machine) :
    sv.show' (.error e) m = .ok e.message m := by
  have hdepth : Services.showDepth m.heap = (m.heap.reach + m.heap.maps.size - 1) + 1 := by
    have hpos := m.heap.reach_pos
    unfold Services.showDepth
    omega
  unfold Services.show' Services.showWhole
  rw [bind_of_ok (Exec.heap_apply m), hdepth]
  rfl

-- A runtime error can always be told to the embedder.
theorem evalError_of_fails (p : Program) (fuel : Nat) {u : Unwind} (hu : u.Fails) (m : Machine) :
    ∃ e m', p.evalError fuel u m = .ok e m' ∧ m'.heap = m.heap := by
  cases hu with
  | fatal e => exact ⟨e, m, rfl, rfl⟩
  | panic e =>
    refine ⟨panicError.traced m e.message, { m with panicTrace := none }, ?_, rfl⟩
    change p.panicError fuel (.error e) m = _
    unfold panicError
    rw [show_error]

end Program

namespace Units

variable {u : Units} {start env env₁ : Env} {k : Nat} {done todo : List Nat} {scope : ScopeId}
  {m m₁ : Machine}

-- What is known of a package between the runs of its units: those that are not done have made no
-- cells, and their names are free.
def BetweenRuns (u : Units) (scope : ScopeId) (done : List Nat) (env : Env) (m : Machine) : Prop :=
  ∃ boxes, m.heap.Knows scope boxes env ∧
    ∀ k, k ∉ done → boxes k = [] ∧ ∀ x ∈ u.names k, env x = none

theorem BetweenRuns.of_heap (h : u.BetweenRuns scope done env m) (hheap : m₁.heap = m.heap) :
    u.BetweenRuns scope done env m₁ := by
  unfold BetweenRuns
  rw [hheap]
  exact h

-- The program has the code of the units. `ref` tells under which number.
structure InProgram (u : Units) (p : Program) (ref : Nat → CodeRef) : Prop where
  initializing : p.initializing = true
  types : SameTypes u.types p.types
  code : ∀ k, k < u.count → ∃ f, p.code[(ref k).id]? = some f ∧ f.steps = u.steps k

-- How an attempt to run a unit leaves the package.
inductive Tried (u : Units) (scope : ScopeId) (done : List Nat) (env : Env) (k : Nat) :
    EStateM.Result Unwind Machine Unit → Prop
  | finished {env₁ : Env} {m : Machine} (htrial : u.Trial k env (.finished env₁))
      (hstands : u.BetweenRuns scope (k :: done) env₁ m) : Tried u scope done env k (.ok () m)
  | blocked {x : String} {m : Machine} (htrial : u.Trial k env .blocked)
      (hstands : u.BetweenRuns scope done env m) :
        Tried u scope done env k (.error (.undeclared x) m)
  | failed {e : Unwind} {m : Machine} (he : e.Fails) (htrial : u.Trial k env .failed)
      (hstands : u.BetweenRuns scope done env m) : Tried u scope done env k (.error e m)

theorem InProgram.tried {p : Program} {ref : Nat → CodeRef} (hp : u.InProgram p ref)
    (hs : u.BetweenRuns scope done env m) (hk : k < u.count) (hnew : k ∉ done) :
    ∃ f, p.code[(ref k).id]? = some f ∧
      u.Tried scope done env k (p.runUnit u.fuel f scope m) := by
  obtain ⟨f, hf, hsteps⟩ := hp.code k hk
  obtain ⟨boxes, hknows, hfree⟩ := hs
  have hattempt : u.Attempt k p f ⟨m.heap, scope, boxes, env⟩ m :=
    ⟨⟨hknows, (hfree k hnew).1, (hfree k hnew).2⟩, rfl, hp.initializing, hp.types, hsteps⟩
  obtain ⟨o, hends⟩ := hattempt.endsIn
  have htrial : u.Trial k env o := ⟨p, f, _, m, hattempt, rfl, hends⟩
  refine ⟨f, hf, ?_⟩
  have hfine : ∀ {m₁ : Machine}, Side.Fine ⟨m.heap, scope, boxes, env⟩ m₁ →
      u.BetweenRuns scope done env m₁ := fun he => ⟨boxes, hknows.evolves he, hfree⟩
  cases o with
  | blocked =>
    obtain ⟨x, m₁, hr, hm⟩ := hends
    rw [hr]
    exact .blocked htrial (hfine hm)
  | failed =>
    obtain ⟨e, m₁, hr, he, hm⟩ := hends
    rw [hr]
    exact .failed he htrial (hfine hm)
  | finished env₁ =>
    obtain ⟨m₁, hr, hfinished⟩ := hends
    rw [hr]
    refine .finished htrial ⟨_, hfinished.knows, fun j hj => ?_⟩
    rw [List.mem_cons, not_or] at hj
    obtain ⟨hboxes, hnames⟩ := hfree j hj.2
    refine ⟨(Function.update_of_ne hj.1 _ _).trans hboxes, fun x hx => ?_⟩
    rw [hfinished.others x fun hx' => u.apart j k hj.1 hx hx']
    exact hnames x hx

end Units

namespace Link

open StepGraph.Units (BetweenRuns InProgram Reaches Settles)

variable {o : BuildOptions} {p : Program} {scope : ScopeId} {u : Units} {ref : Nat → CodeRef}
  {start env env' : Env} {done todo new new' left left' : List Nat} {m m₁ m' : Machine} {k : Nat}
  {l l' : Linker}

-- Units of a package have been run one after the other. `new` are those that have come to their
-- ends, and `left` are the others.
structure Got (p : Program) (u : Units) (ref : Nat → CodeRef) (scope : ScopeId) (start : Env)
    (done todo : List Nat) (m : Machine) (new left : List Nat) (env : Env) (m' : Machine) :
    Prop where
  attempted : ∃ attempts, Attempted p u.fuel scope m attempts m' ∧ finished attempts = new.map ref
  perm : (new ++ left).Perm todo
  reaches : u.Reaches start (new.reverse ++ done) env
  stands : u.BetweenRuns scope (new.reverse ++ done) env m'

namespace Got

theorem refl (hr : u.Reaches start done env) (hs : u.BetweenRuns scope done env m) :
    Got p u ref scope start done todo m [] todo env m :=
  ⟨⟨[], .nil m, rfl⟩, .refl _, hr, hs⟩

theorem trans (h : Got p u ref scope start done todo m new left env m₁)
    (h' : Got p u ref scope start (new.reverse ++ done) left m₁ new' left' env' m') :
    Got p u ref scope start done todo m (new ++ new') left' env' m' := by
  obtain ⟨attempts, hattempted, hfinished⟩ := h.attempted
  obtain ⟨attempts', hattempted', hfinished'⟩ := h'.attempted
  have hdone : (new ++ new').reverse ++ done = new'.reverse ++ (new.reverse ++ done) := by
    rw [List.reverse_append, List.append_assoc]
  refine ⟨⟨attempts ++ attempts', hattempted.append hattempted', ?_⟩, ?_, hdone ▸ h'.reaches,
    hdone ▸ h'.stands⟩
  · rw [List.map_append, ← hfinished, ← hfinished']
    exact List.filterMap_append
  · rw [List.append_assoc]
    exact (h'.perm.append_left new).trans h.perm

-- The first unit comes to its end, and then others do.
theorem finish {f : Function} {rest : List Nat} (hf : p.code[(ref k).id]? = some f)
    (hrun : p.runUnit u.fuel f scope m = .ok () m₁)
    (h : Got p u ref scope start (k :: done) rest m₁ new left env m') :
    Got p u ref scope start done (k :: rest) m (k :: new) left env m' := by
  obtain ⟨attempts, hattempted, hfinished⟩ := h.attempted
  have hdone : (k :: new).reverse ++ done = new.reverse ++ (k :: done) := by
    rw [List.reverse_cons, List.append_assoc]
    rfl
  exact ⟨⟨_, .finished hf hrun hattempted, congrArg (ref k :: ·) hfinished⟩, h.perm.cons k,
    hdone ▸ h.reaches, hdone ▸ h.stands⟩

-- The first unit is blocked, and others come to their ends.
theorem block {f : Function} {x : String} {rest : List Nat} (hf : p.code[(ref k).id]? = some f)
    (hrun : p.runUnit u.fuel f scope m = .error (.undeclared x) m₁)
    (h : Got p u ref scope start done rest m₁ new left env m') :
    Got p u ref scope start done (k :: rest) m new (k :: left) env m' := by
  obtain ⟨attempts, hattempted, hfinished⟩ := h.attempted
  exact ⟨⟨_, .blocked hf hrun hattempted, hfinished⟩,
    List.perm_middle.trans (h.perm.cons k), h.reaches, h.stands⟩

end Got

-- A unit of a package has failed.
structure Broke (p : Program) (u : Units) (ref : Nat → CodeRef) (scope : ScopeId) (k : Nat)
    (env : Env) (m : Machine) : Prop where
  trial : u.Trial k env .failed
  run : ∃ f e m', p.code[(ref k).id]? = some f ∧ e.Fails ∧ p.runUnit u.fuel f scope m = .error e m'

-- How a pass ends. If it gets no unit further, then none of them could come to its end.
inductive Passed (p : Program) (u : Units) (ref : Nat → CodeRef) (scope : ScopeId) (start : Env)
    (done todo : List Nat) (env : Env) (l : Linker) :
    EStateM.Result BuildError Linker (List CodeRef × List String) → Prop
  | through {new left : List Nat} {env' : Env} {missing : List String} {l' : Linker}
      (hgot : Got p u ref scope start done todo l.machine new left env' l'.machine)
      (hstill : new = [] → env' = env ∧ ∀ k ∈ left, u.Trial k env .blocked) :
      Passed p u ref scope start done todo env l (.ok (left.map ref, missing) l')
  | broken {new left : List Nat} {env' : Env} {k : Nat} {m : Machine} {e : EvalError} {l' : Linker}
      (hgot : Got p u ref scope start done todo l.machine new left env' m) (hk : k ∈ left)
      (hbroke : Broke p u ref scope k env' m)
      (hstands : u.BetweenRuns scope (new.reverse ++ done) env' l'.machine) :
      Passed p u ref scope start done todo env l (.error (.init e) l')

theorem passed_runPass (hp : u.InProgram p ref) (hfuel : u.fuel = o.fuel)
    (hr : u.Reaches start done env) (hs : u.BetweenRuns scope done env l.machine)
    (htodo : todo.Nodup) (hnew : ∀ k ∈ todo, k < u.count ∧ k ∉ done) :
    Passed p u ref scope start done todo env l (runPass o p scope (todo.map ref) l) := by
  induction todo generalizing done env l with
  | nil => exact .through (.refl hr hs) fun _ => ⟨rfl, fun k hk => absurd hk List.not_mem_nil⟩
  | cons k rest ih =>
    obtain ⟨hk, hrest⟩ := List.nodup_cons.mp htodo
    obtain ⟨hlt, hdone⟩ := hnew k List.mem_cons_self
    have hothers : ∀ j ∈ rest, j < u.count ∧ j ∉ done :=
      fun j hj => hnew j (List.mem_cons_of_mem _ hj)
    obtain ⟨f, hf, htried⟩ := hp.tried hs hlt hdone
    rw [List.map_cons]
    unfold runPass
    rw [hf]
    simp only
    rw [bind_apply, exec_eq, ← hfuel]
    cases hrun : p.runUnit u.fuel f scope l.machine with
    | ok a m =>
      rw [hrun] at htried
      cases htried with
      | finished htrial hstands =>
        have hrests : ∀ j ∈ rest, j < u.count ∧ j ∉ k :: done := fun j hj =>
          ⟨(hothers j hj).1, fun hmem => (List.mem_cons.mp hmem).elim (fun he => hk (he ▸ hj))
            (hothers j hj).2⟩
        have hpass := ih (l := { l with machine := m }) (hr.finish hlt hdone htrial) hstands hrest
          hrests
        simp only
        generalize runPass o p scope (rest.map ref) _ = r at hpass ⊢
        cases hpass with
        | through hgot hstill =>
          exact .through (hgot.finish hf hrun) fun h => absurd h (List.cons_ne_nil _ _)
        | broken hgot hmem hbroke hstands' =>
          refine .broken (hgot.finish hf hrun) hmem hbroke ?_
          rw [List.reverse_cons, List.append_assoc]
          exact hstands'
    | error e m =>
      rw [hrun] at htried
      cases htried with
      | @blocked x _ htrial hstands =>
        have hpass := ih (l := { l with machine := m }) hr hstands hrest hothers
        simp only
        rw [bind_apply]
        generalize runPass o p scope (rest.map ref) _ = r at hpass ⊢
        cases hpass with
        | @through new left env' missing l' hgot hstill =>
          refine .through (hgot.block hf hrun) fun h => ?_
          obtain ⟨henv, hblocked⟩ := hstill h
          refine ⟨henv, fun j hj => ?_⟩
          rcases List.mem_cons.mp hj with rfl | hj
          · exact htrial
          · exact hblocked j hj
        | broken hgot hmem hbroke hstands' =>
          exact .broken (hgot.block hf hrun) (List.mem_cons_of_mem _ hmem) hbroke hstands'
      | failed he htrial hstands =>
        obtain ⟨e', m', herror, hheap⟩ := p.evalError_of_fails o.fuel he m
        have hfail : ∀ α, (failInit o p e : Link α) { l with machine := m } =
            .error (.init e') { l with machine := m' } := by
          intro α
          unfold failInit
          rw [bind_apply, exec_eq]
          simp only [herror]
          rfl
        have hbroken : Passed p u ref scope start done (k :: rest) env l
            (.error (.init e') { l with machine := m' }) :=
          .broken (.refl hr hs) List.mem_cons_self ⟨htrial, f, e, m, hf, he, hrun⟩
            (hstands.of_heap hheap)
        cases he with
        | panic e =>
          simp only [hfail]
          exact hbroken
        | fatal e =>
          simp only [hfail]
          exact hbroken

-- How the passes end: all units have come to their ends, or none of those left can, or one failed.
inductive PassesEnd (p : Program) (u : Units) (ref : Nat → CodeRef) (scope : ScopeId) (start : Env)
    (done todo : List Nat) (l : Linker) : EStateM.Result BuildError Linker Unit → Prop
  | all {new : List Nat} {env : Env} {l' : Linker}
      (hgot : Got p u ref scope start done todo l.machine new [] env l'.machine) :
      PassesEnd p u ref scope start done todo l (.ok () l')
  | stuck {new left : List Nat} {env : Env} {missing : List String} {l' : Linker}
      (hgot : Got p u ref scope start done todo l.machine new left env l'.machine)
      (hleft : left ≠ []) (hblocked : ∀ k ∈ left, u.Trial k env .blocked) :
      PassesEnd p u ref scope start done todo l (.error (.undefined missing) l')
  | broken {new left : List Nat} {env : Env} {k : Nat} {m : Machine} {e : EvalError} {l' : Linker}
      (hgot : Got p u ref scope start done todo l.machine new left env m) (hk : k ∈ left)
      (hbroke : Broke p u ref scope k env m)
      (hstands : u.BetweenRuns scope (new.reverse ++ done) env l'.machine) :
      PassesEnd p u ref scope start done todo l (.error (.init e) l')

theorem PassesEnd.after {l₁ : Linker} {r : EStateM.Result BuildError Linker Unit}
    (h : Got p u ref scope start done todo l.machine new left env l₁.machine)
    (h' : PassesEnd p u ref scope start (new.reverse ++ done) left l₁ r) :
    PassesEnd p u ref scope start done todo l r := by
  cases h' with
  | all hgot => exact .all (h.trans hgot)
  | stuck hgot hleft hblocked => exact .stuck (h.trans hgot) hleft hblocked
  | broken hgot hk hbroke hstands =>
    refine .broken (h.trans hgot) hk hbroke ?_
    rw [List.reverse_append, List.append_assoc]
    exact hstands

theorem runUnits_of_ne_nil {units : List CodeRef} (h : units ≠ []) (n : Nat) :
    runUnits o p scope (n + 1) units = (runPass o p scope units >>= fun r =>
      if r.1.length = units.length then throw (.undefined r.2) else runUnits o p scope n r.1) := by
  cases units with
  | nil => exact absurd rfl h
  | cons => rfl

-- There are no more passes than units. Each pass but the last one gets a unit to its end.
theorem passesEnd_runUnits (hp : u.InProgram p ref) (hfuel : u.fuel = o.fuel) (n : Nat)
    (hn : todo.length ≤ n) (hr : u.Reaches start done env)
    (hs : u.BetweenRuns scope done env l.machine)
    (htodo : todo.Nodup) (hnew : ∀ k ∈ todo, k < u.count ∧ k ∉ done) :
    PassesEnd p u ref scope start done todo l (runUnits o p scope n (todo.map ref) l) := by
  induction n generalizing done todo env l with
  | zero =>
    obtain rfl := List.eq_nil_of_length_eq_zero (Nat.le_zero.mp hn)
    exact .all (.refl hr hs)
  | succ n ih =>
    cases htodos : todo with
    | nil =>
      subst htodos
      exact .all (.refl hr hs)
    | cons first rest =>
      have hpass := passed_runPass hp hfuel hr hs htodo hnew
      rw [← htodos]
      have hsome : todo.map ref ≠ [] := by simp [htodos]
      rw [runUnits_of_ne_nil hsome, bind_apply]
      generalize runPass o p scope (todo.map ref) l = r at hpass ⊢
      cases hpass with
      | broken hgot hk hbroke hstands => exact .broken hgot hk hbroke hstands
      | @through new left env' missing l' hgot hstill =>
        have hlength := hgot.perm.length_eq
        rw [List.length_append] at hlength
        simp only [List.length_map]
        by_cases hsame : left.length = todo.length
        · have hnone : new = [] := List.eq_nil_of_length_eq_zero (by omega)
          rw [if_pos hsame]
          refine .stuck hgot (fun hleft => ?_) fun k hk => ?_
          · rw [hleft, htodos] at hsame
            cases hsame
          · obtain ⟨rfl, hblocked⟩ := hstill hnone
            exact hblocked k hk
        · rw [if_neg hsame]
          obtain ⟨-, hnodup, hdisjoint⟩ := List.nodup_append.mp (hgot.perm.nodup_iff.mpr htodo)
          refine .after hgot (ih (by omega) hgot.reaches hgot.stands hnodup fun k hk => ?_)
          obtain ⟨hlt, hdone⟩ := hnew k (hgot.perm.subset (List.mem_append_right _ hk))
          refine ⟨hlt, fun hmem => ?_⟩
          rcases List.mem_append.mp hmem with hmem | hmem
          · exact hdisjoint k (List.mem_reverse.mp hmem) k hk rfl
          · exact hdone hmem

end Link

end StepGraph

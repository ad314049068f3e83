import StepGraph.Package.Executable
import StepGraph.Proofs.Machine.Moments
import StepGraph.Proofs.Package.Declarations

open EStateM (bind_apply bind_of_ok bind_eq_ok)

namespace StepGraph

variable {α β : Type} {m m' m₁ m₂ : Machine}

namespace Link

-- Something in the course of linking that leaves the functions known for what they keep.
def Flags (x : Link α) : Prop :=
  ∀ l a l', x l = .ok a l' → l.library.Flagged → l'.library.Flagged

namespace Flags

theorem pure (a : α) : Flags (pure a) := by
  intro l c l' h
  cases h
  exact id

theorem bind {x : Link α} {f : α → Link β} (hx : Flags x) (hf : ∀ a, Flags (f a)) :
    Flags (x >>= f) := by
  intro l c l' h hl
  obtain ⟨a, l₁, hfirst, h⟩ := bind_eq_ok.mp h
  exact hf a l₁ c l' h (hx l a l₁ hfirst hl)

theorem throw (e : BuildError) : Flags (throw e : Link α) := by
  intro l c l' h
  cases h

theorem get : Flags get := by
  intro l c l' h
  cases h
  exact id

theorem load (entry : String × PackageRef) :
    Flags (modify fun l => { l with loaded := entry :: l.loaded }) := by
  intro l c l' h
  cases h
  exact id

theorem internal {x : Link α} (hx : Internal x) : Flags x := by
  intro l a l' h
  have hl := hx l
  rw [h] at hl
  exact hl.2

end Flags

variable (o : BuildOptions)

theorem flags_loadSource (frontEnd : Option FrontEnd) (path : String) :
    Flags (loadSource o frontEnd path) := by
  unfold loadSource
  split
  · dsimp only
    split
    · exact .throw _
    · split
      · exact .throw _
      · split
        · exact .pure _
        · exact .throw _
  · exact .throw _

theorem flags_resolveImport (frontEnd : Option FrontEnd) (linking : List String)
    {link : String → Package → Link ScopeId} (hlink : ∀ path pkg, Flags (link path pkg))
    (path : String) : Flags (resolveImport o frontEnd linking link path) := by
  have hclose : ∀ ref : PackageRef, Flags (do
      modify fun l => { l with loaded := (path, ref) :: l.loaded }
      return ref) := fun _ => .bind (.load _) fun _ => .pure _
  have hlinked : Flags (do
      let pkg ← loadSource o frontEnd path
      let scope ← link path pkg
      let ref : PackageRef := ⟨path, pkg.name, some scope⟩
      modify fun l => { l with loaded := (path, ref) :: l.loaded }
      return ref) :=
    .bind (flags_loadSource o frontEnd path) fun pkg => .bind (hlink path pkg) fun _ => hclose _
  unfold resolveImport
  refine .bind .get fun l => ?_
  split
  · exact .pure _
  · dsimp only
    split
    · refine .bind (.throw _) fun _ => ?_
      split
      · exact hclose _
      · exact hlinked
    · split
      · exact hclose _
      · exact hlinked

theorem flags_bindImports (scope : ScopeId) {resolve : String → Link PackageRef}
    (hresolve : ∀ path, Flags (resolve path)) (imports : List Import) :
    Flags (bindImports scope resolve imports) := by
  induction imports with
  | nil => exact .pure _
  | cons i rest ih =>
      unfold bindImports
      refine .bind (hresolve _) fun ref => ?_
      split
      · exact ih
      · exact .bind (.internal (.onHeap _)) fun _ => .bind ih fun _ => .pure _

theorem flags_link (frontEnd : Option FrontEnd) (n : Nat) (linking : List String)
    (pkg : Package) : Flags (link o frontEnd n linking pkg) := by
  induction n generalizing linking pkg with
  | zero => exact .throw _
  | succ n ih =>
      exact .bind (.internal (.onHeap _)) fun scope => .bind (flags_bindImports scope
        (flags_resolveImport o frontEnd linking fun _ _ => ih _ _) _) fun _ =>
          .bind (.internal (internal_linkDecls o _ _ _)) fun _ => .pure _

end Link

-- In a program that was built, every function that keeps calls is known to do so.
theorem Executable.flagged_of_finish {o : BuildOptions} {frontEnd : Option FrontEnd}
    {pkg : Package} {l l' : Linker} {e : Executable}
    (h : Executable.finish o frontEnd pkg l = .ok e l') (hl : l.library.Flagged) :
    ∀ f ∈ e.program.code, f.Flagged := by
  unfold finish at h
  obtain ⟨scope, l₁, hlink, h⟩ := bind_eq_ok.mp h
  cases h
  exact Link.flags_link o frontEnd _ _ _ l scope _ hlink hl

theorem Executable.hosts_of_finish {o : BuildOptions} {frontEnd : Option FrontEnd}
    {pkg : Package} {l l' : Linker} {e : Executable}
    (h : Executable.finish o frontEnd pkg l = .ok e l') : e.program.hosts = o.hosts := by
  unfold finish at h
  obtain ⟨scope, l₁, -, h⟩ := bind_eq_ok.mp h
  cases h
  rfl

namespace Program

open Exec (Yields)

variable {p : Program} {f : Function} {steps : Array Step} {record : Nat}

-- Something that keeps no call for the end of the function, however it ends.
def KeepsNothing (x : Exec α) : Prop :=
  ∀ m, (ended (x m)).frame.deferred = m.frame.deferred

namespace KeepsNothing

theorem pure (a : α) : KeepsNothing (pure a) := fun _ => rfl

theorem bind {x : Exec α} {g : α → Exec β} (hx : KeepsNothing x)
    (hg : ∀ a, KeepsNothing (g a)) : KeepsNothing (x >>= g) := by
  intro m
  have hm := hx m
  rw [bind_apply]
  cases hr : x m with
  | ok a m₁ =>
      rw [hr] at hm
      exact (hg a m₁).trans hm
  | error u m₁ =>
      rw [hr] at hm
      exact hm

theorem step (op : StepOp) : KeepsNothing (p.step op) := by
  intro m
  have hm := p.continues_step op m
  cases hr : p.step op m with
  | ok a m₁ | error u m₁ =>
      rw [hr] at hm
      exact hm.deferred

theorem of_builtinReturns {safe : Prop} {x : Exec α} (hx : Exec.BuiltinReturns safe x) :
    KeepsNothing x := by
  intro m
  have hm := hx m
  cases hr : x m with
  | ok a m₁ =>
      rw [hr] at hm
      exact congrArg Frame.deferred hm.frame
  | error u m₁ =>
      rw [hr] at hm
      exact congrArg Frame.deferred hm.1.frame

theorem annotated {x : Exec α} (span : Span) (hx : KeepsNothing x) :
    KeepsNothing (annotated span x) := by
  intro m
  have hm := hx m
  unfold Program.annotated
  cases hr : x m with
  | ok a m₁ =>
      rw [hr] at hm
      exact hm
  | error u m₁ =>
      rw [hr] at hm
      cases u <;> exact hm

theorem pushResults (vs : List Value) (wanted : CallResults) :
    KeepsNothing (Exec.pushResults vs wanted) := by
  have hlocal : Exec.Local (Exec.pushResults vs wanted) := Exec.Local.operands.pushResults vs wanted
  intro m
  have hm := hlocal m
  cases hr : Exec.pushResults vs wanted m with
  | ok a m₁ | error u m₁ =>
      rw [hr] at hm
      exact hm.deferred

end KeepsNothing

-- Only a step that defers something asks for a call to be kept.
theorem yields_step {op : StepOp} (hop : op.registers = false) :
    Yields (fun after => ∀ entry args spread b, after ≠ .defer entry args spread b) (p.step op) := by
  have hnext : ∀ entry args spread b, Next.next ≠ .defer entry args spread b :=
    fun _ _ _ _ => Next.noConfusion
  have hgoto : ∀ target entry args spread b, Next.goto target ≠ .defer entry args spread b :=
    fun _ _ _ _ _ => Next.noConfusion
  have hwork : ∀ op, Yields (fun after : Next => ∀ entry args spread b,
      after ≠ .defer entry args spread b) (do p.work op; return .next) :=
    fun op => .bind fun _ => .pure hnext
  cases op with
  | defer => cases hop
  | branch other =>
      refine .bind fun v => ?_
      unfold branch
      split
      · exact .pure hnext
      · exact .pure (hgoto _)
      · exact .notDefined _ _
  | shortCircuit stop other =>
      refine .bind fun v => ?_
      split
      · exact .notDefined _ _
      · split
        · exact .pure (hgoto _)
        · exact .bind fun _ => .pure hnext
  | call => exact .bind fun _ => .bind fun _ => .pure fun _ _ _ _ => Next.noConfusion
  | callBuiltin => exact .bind fun _ => .pure fun _ _ _ _ => Next.noConfusion
  | ret arity =>
      unfold step
      dsimp only
      split
      · exact .bind fun _ => .bind fun _ => .pure fun _ _ _ _ => Next.noConfusion
      · exact .pure fun _ _ _ _ => Next.noConfusion
  | rangeNext cursor value exit =>
      refine .bind fun h => .bind fun scope => ?_
      split
      · refine .bind fun r => ?_
        split
        · refine .bind fun _ => ?_
          dsimp only
          split
          · exact .bind fun _ => .pure hnext
          · exact .pure hnext
        · exact .pure (hgoto _)
      · exact yields_undefined _
  | _ => exact hwork _

-- A step of another kind leaves the calls that are kept as they are.
theorem keepsNothing_advance (hhosts : p.hosts.Behaves) (n : Nat) {id : StepId} {s : Step}
    (hs : steps[id]? = some s) (hop : s.op.registers = false) :
    KeepsNothing (p.advance n steps id) := by
  have hcalls := (calls_and_runs hhosts n).1
  intro m
  unfold advance
  simp only [hs]
  have hstep := KeepsNothing.annotated s.span (.step (p := p) s.op) m
  rw [bind_apply]
  cases hr : annotated s.span (p.step s.op) m with
  | error u m₁ =>
      rw [hr] at hstep
      exact hstep
  | ok after m₁ =>
      rw [hr] at hstep
      refine Eq.trans ?_ hstep
      cases after with
      | next | goto | ret => rfl
      | call callee args spread results =>
          exact KeepsNothing.bind (.annotated _
            (.bind (.of_builtinReturns (hcalls _ _ _ _).builtinReturns)
            fun vs => .pushResults vs _)) (fun _ => .pure _) m₁
      | builtin b ty args spread results =>
          exact KeepsNothing.bind (.annotated _
            (.bind (.of_builtinReturns (builtinReturns_callBuiltin
            (work_services fun _ _ => hcalls _ _ _ _) b ty args spread))
              fun vs => .pushResults vs _)) (fun _ => .pure _) m₁
      | defer entry args spread b =>
          exact absurd rfl (yields_step hop m _ m₁ (annotated_eq_ok.mp hr) entry args spread b)

theorem keepDeferred_ok {args : Arity} {spread : Bool} {b : Option (Builtin × Option Ty)}
    {span : Span} {u : Unit} (h : keepDeferred args spread b span m = .ok u m') :
    ∃ d, m'.frame.deferred = d :: m.frame.deferred := by
  have hvalues : ∀ {target : Value ⊕ (Builtin × Option Ty)} {m₁ : Machine},
      m₁.frame.deferred = m.frame.deferred → (do
        let values ← (← Exec.take args).mapM fun v => (Heap.copy v : HeapM Value)
        Exec.modifyFrame fun f =>
          { f with deferred := ⟨target, values, spread, span⟩ :: f.deferred } : Exec Unit) m₁ =
        .ok u m' → ∃ d, m'.frame.deferred = d :: m.frame.deferred := by
    intro target m₁ hm₁ h
    obtain ⟨vs, m₂, htake, h⟩ := bind_eq_ok.mp h
    obtain ⟨values, m₃, hcopy, h⟩ := bind_eq_ok.mp h
    cases h
    have htaken : Exec.Local (Exec.take args) := Exec.Local.operands.take args
    have htaken := htaken m₁
    rw [htake] at htaken
    have hcopied : Exec.Local (vs.mapM fun v => (Heap.copy v : HeapM Value) : Exec _) :=
      Exec.Local.trait.mapM fun v => Exec.Local.trait.gentle (Heap.gentle_copy v)
    have hcopied := hcopied m₂
    rw [hcopy] at hcopied
    have hsame : m₃.frame.deferred = m.frame.deferred :=
      hcopied.deferred.trans (htaken.deferred.trans hm₁)
    exact ⟨⟨target, values, spread, span⟩, congrArg (_ :: ·) hsame⟩
  unfold keepDeferred at h
  cases b with
  | some b => exact hvalues rfl h
  | none =>
      obtain ⟨v, m₁, hpop, h⟩ := bind_eq_ok.mp h
      have hpopped : Exec.Local Exec.pop := Exec.Local.operands.pop
      have hpopped := hpopped m
      rw [hpop] at hpopped
      exact hvalues hpopped.deferred h

-- A step that defers a call evaluates its operands, and puts the call in front of the others.
theorem advance_defer {n : Nat} {id : StepId} {s : Step} {entry : StepId} {args : Arity}
    {spread : Bool} {b : Option (Builtin × Option Ty)} {k : Option (Option StepId)}
    (hs : steps[id]? = some s) (hop : s.op = .defer entry args spread b)
    (h : p.advance n steps id m = .ok k m') :
    ∃ d m₁, p.run n steps (some entry) m = .ok () m₁ ∧
      m'.frame.deferred = d :: m₁.frame.deferred := by
  unfold advance at h
  simp only [hs, hop] at h
  obtain ⟨after, m₂, hafter, h⟩ := bind_eq_ok.mp h
  cases annotated_eq_ok.mp hafter
  obtain ⟨_, m₃, hkeep, h⟩ := bind_eq_ok.mp h
  cases h
  obtain ⟨_, m₁, hrun, hkeep⟩ := bind_eq_ok.mp (annotated_eq_ok.mp hkeep)
  obtain ⟨d, hd⟩ := keepDeferred_ok hkeep
  exact ⟨d, m₁, hrun, hd⟩

-- What is kept on the way stays, and what is kept later stands in front of it.
theorem RunLeads.deferred (hhosts : p.hosts.Behaves) {n n' : Nat} {k k' : Option StepId}
    (h : p.RunLeads steps n k m n' k' m') (hm : m.deferring = none) :
    m.frame.deferred <:+ m'.frame.deferred ∧ m'.deferring = none := by
  induction h with
  | refl => exact ⟨List.suffix_refl _, hm⟩
  | @step n n' id k k' m m₁ m' hstep hrest ih =>
      have hproceeds := proceeds_advance (calls_and_runs hhosts n).1 (calls_and_runs hhosts n).2
        steps id m hm
      rw [hstep] at hproceeds
      obtain ⟨hsuffix, hnone⟩ := ih hproceeds.deferring
      exact ⟨hproceeds.deferred.trans hsuffix, hnone⟩

theorem keepsNothing_run (hhosts : p.hosts.Behaves)
    (hsteps : ∀ s ∈ steps, s.op.registers = false) (n : Nat) (k : Option StepId) :
    KeepsNothing (p.run n steps k) := by
  induction n generalizing k with
  | zero =>
      intro m
      cases k with
      | none => rw [run_none]; rfl
      | some id => rw [run_zero]; rfl
  | succ n ih =>
      intro m
      cases k with
      | none => rw [run_none]; rfl
      | some id =>
          have hadvance : KeepsNothing (p.advance n steps id) := by
            cases hs : steps[id]? with
            | none =>
                intro m
                unfold advance
                simp only [hs]
                rfl
            | some s =>
                exact keepsNothing_advance hhosts n hs (hsteps s (Array.mem_of_getElem? hs))
          have hm := hadvance m
          rw [run_succ]
          cases hr : p.advance n steps id m with
          | error u m₁ =>
              rw [hr] at hm
              exact hm
          | ok k m₁ =>
              rw [hr] at hm
              cases k with
              | none => exact hm
              | some k => exact (ih k m₁).trans hm

theorem ended_body (run : Array Step → Option StepId → Exec Unit) (steps : Array Step)
    (m : Machine) : (ended (body run steps m)).frame.deferred =
      (ended (run steps (entry steps) m)).frame.deferred := by
  unfold body entry
  cases hr : run steps (if steps.isEmpty then none else some 0) m with
  | ok _ m₁ | error u m₁ =>
      obtain ⟨_, _, hu⟩ := unwindTo_ok 0 m₁
      rw [unwindTo_apply] at hu
      cases hu
      simp only [unwindTo_apply]
      rfl

variable {perform : Deferred → Exec (List Value)}

-- The work at the end of a call has ended with a panic only if one still waits there.
def EndsWithParked (record : Nat) : EStateM.Result Unwind Machine Unit → Prop
  | .ok _ m => m.parked record = none
  | .error u m => ∀ q, u = .panic q → m.parked record = some q

theorem endsWithParked_performAll (ds : List Deferred) (m : Machine) :
    EndsWithParked record (performAll perform record ds m) := by
  induction ds generalizing m with
  | nil =>
      rw [performAll_nil]
      cases hp : m.parked record with
      | none => exact hp
      | some q =>
          rintro _ ⟨⟩
          exact hp
  | cons d ds ih =>
      unfold performAll
      cases perform d { m with deferring := some record } with
      | ok vs m₁ => exact ih _
      | error u m₁ =>
          cases u with
          | panic v => exact ih _
          | fatal | undeclared | exhausted => rintro _ ⟨⟩

-- Something that cannot fail.
def Total (x : Exec α) : Prop := ∀ m, ∃ a m', x m = .ok a m'

theorem Total.bind {x : Exec α} {g : α → Exec β} (hx : Total x) (hg : ∀ a, Total (g a)) :
    Total (x >>= g) := by
  intro m
  obtain ⟨a, m₁, ha⟩ := hx m
  obtain ⟨b, m₂, hb⟩ := hg a m₁
  exact ⟨b, m₂, by rw [bind_of_ok ha, hb]⟩

theorem Total.mapM {g : α → Exec β} (hg : ∀ a, Total (g a)) (l : List α) : Total (l.mapM g) := by
  induction l with
  | nil => exact fun m => ⟨[], m, rfl⟩
  | cons a l ih =>
      rw [List.mapM_cons]
      exact (hg a).bind fun _ => ih.bind fun _ m => ⟨_, m, rfl⟩

theorem total_collectResults (p : Program) (sig : Signature) : Total (p.collectResults sig) := by
  have hzero : ∀ ty, Total (p.zeroValue ty) := fun ty m => ⟨_, _, rfl⟩
  have hnamed : ∀ scope r, Total (p.namedResult scope r) := by
    intro scope r
    unfold namedResult
    refine .bind (fun m => ⟨m.heap, m, rfl⟩) fun h => ?_
    split
    · exact fun m => ⟨_, m, rfl⟩
    · exact hzero _
  unfold collectResults
  refine .bind (fun m => ⟨m.frame, m, rfl⟩) fun fr => ?_
  split
  · exact .bind (.mapM (hnamed _) _) fun _ => .mapM (fun _ _ => ⟨_, _, rfl⟩) _
  · split
    · exact .mapM (fun _ _ => ⟨_, _, rfl⟩) _
    · exact .bind (.mapM (fun _ => hzero _) _) fun _ => .mapM (fun _ _ => ⟨_, _, rfl⟩) _

-- How a call ends when its function and the calls that it kept have ended with `r`: with its
-- results, or with what unwinds them.
def Concludes (p : Program) (f : Function) (record : Nat) (caller : Frame) :
    EStateM.Result Unwind Machine Unit → EStateM.Result Unwind Machine (List Value) → Prop
  | .ok _ m, result => ∃ vs m',
      p.collectResults f.sig { m with calls := m.calls.shrink record } = .ok vs m' ∧
        result = .ok vs { m' with frame := caller }
  | .error u m, result =>
      result = .error u { m with calls := m.calls.shrink record, frame := caller }

variable {env scope : ScopeId} {receiver : Option Value} {args : List Value} {spread : Bool}
  {span : Span}

theorem concludes_invoke {run : Array Step → Option StepId → Exec Unit}
    (henter : p.enter f env receiver args spread span m = .ok (scope, record) m₁) :
    p.Concludes f record m₁.frame (activity run perform f record { m₁ with frame := .start scope })
      (p.invoke run perform f env receiver args spread span m) := by
  rw [invoke_of_activity henter]
  cases activity run perform f record { m₁ with frame := .start scope } with
  | error u m₂ => rfl
  | ok _ m₂ =>
      obtain ⟨vs, m₃, hcollect⟩ :=
        total_collectResults p f.sig { m₂ with calls := m₂.calls.shrink record }
      refine ⟨vs, m₃, hcollect, ?_⟩
      simp only [hcollect]

-- How the calls that a function has kept run when it has ended, with or without a panic that is
-- left to them: the last one first, each once, and all of them unless one fails for good.
structure Settles (p : Program) (n : Nat) (f : Function) (record : Nat) (parked : Option Value)
    (m : Machine) (r : EStateM.Result Unwind Machine Unit) (started : List Deferred) : Prop where
  handles : Handles (p.perform n) record parked m.frame.deferred m started r
  order : started <+: m.frame.deferred
  all : (∀ u m', r = .error u m' → ∃ q, u = .panic q) → started = m.frame.deferred
  left : f.hasDefer = true → EndsWithParked record r

theorem Settles.of_performAll {n : Nat} {parked : Option Value} (hhosts : p.hosts.Behaves)
    (hsize : record < m.calls.size) (hparked : m.parked record = parked) :
    ∃ started, p.Settles n f record parked m
      (performAll (p.perform n) record m.frame.deferred m) started := by
  obtain ⟨started, hhandles⟩ := handles_performAll
    (builtinReturns_perform (calls_and_runs hhosts n).1)
    m.frame.deferred hsize hparked
  exact ⟨started, hhandles, hhandles.started_prefix, hhandles.started_eq,
    fun _ => endsWithParked_performAll _ _⟩

-- The same of a function that has kept none.
theorem Settles.of_nil {n : Nat} {parked : Option Value} {r : EStateM.Result Unwind Machine Unit}
    (hd : f.hasDefer = false) (hnil : m.frame.deferred = [])
    (hr : Handles (p.perform n) record parked [] m [] r) :
    ∃ started, p.Settles n f record parked m r started := by
  refine ⟨[], ?_, List.nil_prefix, fun _ => hnil.symm, fun h => ?_⟩
  · rw [hnil]
    exact hr
  · rw [hd] at h
    cases h

theorem proceeded_steps (hhosts : p.hosts.Behaves) (n : Nat) (f : Function)
    (hm : m.deferring = none) : Proceeded False m (body (p.run n) f.steps m) := by
  refine proceeded_body ?_
  have hrun := (calls_and_runs hhosts n).2 f.steps (entry f.steps) m hm
  cases hr : p.run n f.steps (entry f.steps) m with
  | ok _ m₁ =>
      rw [hr] at hrun
      exact hrun
  | error u m₁ =>
      rw [hr] at hrun
      exact ⟨hrun, False.elim⟩

-- A function that is not known to keep calls keeps none.
theorem deferred_body (hhosts : p.hosts.Behaves) (n : Nat) (hf : f.Flagged)
    (hd : f.hasDefer = false) (hnew : m.frame.deferred = []) :
    (ended (body (p.run n) f.steps m)).frame.deferred = [] := by
  have hsteps : ∀ s ∈ f.steps, s.op.registers = false := by
    intro s hs
    by_contra hr
    rw [hf s hs (by simpa using hr)] at hd
    cases hd
  rw [ended_body]
  exact (keepsNothing_run hhosts hsteps n _ m).trans hnew

theorem activity_of_defer {run : Array Step → Option StepId → Exec Unit}
    (hd : f.hasDefer = true) (m : Machine) : activity run perform f record m =
      match body run f.steps m with
      | .ok _ m => performAll perform record m.frame.deferred m
      | .error (.panic v) m => performAll perform record m.frame.deferred (park record v m)
      | .error u m => .error u m := by
  unfold activity
  rw [if_pos hd]
  rfl

theorem activity_of_plain {run : Array Step → Option StepId → Exec Unit}
    (hd : f.hasDefer = false) : activity run perform f record = body run f.steps := by
  unfold activity
  rw [if_neg (by simp [hd])]

theorem settles_activity (hhosts : p.hosts.Behaves) (n : Nat) (hf : f.Flagged)
    (hm : m.deferring = none) (hnew : m.frame.deferred = []) (hsize : record < m.calls.size)
    (hparked : m.parked record = none) :
    match body (p.run n) f.steps m with
    | .ok _ m₂ => ∃ started, p.Settles n f record none m₂
        (activity (p.run n) (p.perform n) f record m) started
    | .error (.panic v) m₂ => ∃ started, p.Settles n f record (some v)
        (if f.hasDefer then park record v m₂ else m₂)
        (activity (p.run n) (p.perform n) f record m) started
    | .error u m₂ => activity (p.run n) (p.perform n) f record m = .error u m₂ := by
  have hbody := proceeded_steps hhosts n f hm
  cases hd : f.hasDefer with
  | false =>
      have hkept := deferred_body hhosts n hf hd hnew
      rw [activity_of_plain hd]
      cases hr : body (p.run n) f.steps m with
      | ok _ m₂ =>
          rw [hr] at hkept
          exact Settles.of_nil hd hkept (.done m₂)
      | error u m₂ =>
          rw [hr] at hkept
          cases u with
          | panic v => exact Settles.of_nil hd hkept (.panics v m₂)
          | fatal | undeclared | exhausted => rfl
  | true =>
      rw [activity_of_defer hd]
      cases hr : body (p.run n) f.steps m with
      | ok _ m₂ =>
          rw [hr] at hbody
          have hparked₂ : m₂.parked record = none :=
            (hbody.calls.panic record).elim (fun h => h.trans hparked) (·.2)
          exact Settles.of_performAll hhosts (Nat.lt_of_lt_of_eq hsize hbody.calls.size.symm)
            hparked₂
      | error u m₂ =>
          rw [hr] at hbody
          cases u with
          | panic v =>
              have hsize₂ : record < m₂.calls.size :=
                Nat.lt_of_lt_of_eq hsize hbody.1.calls.size.symm
              have hsize₃ : record < (park record v m₂).calls.size := by simpa [park] using hsize₂
              exact Settles.of_performAll hhosts hsize₃ (parked_park hsize₂ v)
          | fatal | undeclared | exhausted => rfl

-- What becomes of the calls that a call keeps, from the machine `m₁` on in which its function
-- starts. A call that is started as a deferred one has the panic at hand that waits with the call
-- that kept it. Only a step that defers a call keeps one, in front of those that were kept before.
-- When the function returns or panics they are started in that order, and the call then ends with
-- what they have ended with. Any other end of the function ends the call at once.
structure RunsDeferred (p : Program) (n : Nat) (f : Function) (record : Nat) (caller : Frame)
    (deferring : Option Nat) (m₁ : Machine) (result : EStateM.Result Unwind Machine (List Value)) :
    Prop where
  handler : m₁.handler = deferring
  fresh : m₁.parked record = none ∧ m₁.frame.deferred = []
  others : ∀ k id m, p.RunLeads f.steps n (entry f.steps) m₁ (k + 1) (some id) m →
    ∀ s, f.steps[id]? = some s → s.op.registers = false →
      (ended (p.advance k f.steps id m)).frame.deferred = m.frame.deferred
  defers : ∀ k id m, p.RunLeads f.steps n (entry f.steps) m₁ (k + 1) (some id) m →
    ∀ s entry args spread b, f.steps[id]? = some s → s.op = .defer entry args spread b →
      ∀ next m', p.advance k f.steps id m = .ok next m' →
        ∃ d m₀, p.run k f.steps (some entry) m = .ok () m₀ ∧
          m'.frame.deferred = d :: m₀.frame.deferred
  older : ∀ k id m, p.RunLeads f.steps n (entry f.steps) m₁ k id m →
    m.frame.deferred <:+ (ended (body (p.run n) f.steps m₁)).frame.deferred
  settled : match body (p.run n) f.steps m₁ with
    | .ok _ m₂ => ∃ r started,
        p.Settles n f record none m₂ r started ∧ p.Concludes f record caller r result
    | .error (.panic v) m₂ => ∃ r started,
        p.Settles n f record (some v) (if f.hasDefer then park record v m₂ else m₂) r started ∧
          p.Concludes f record caller r result
    | .error u m₂ => p.Concludes f record caller (.error u m₂) result

theorem runsDeferred_invoke (hhosts : p.hosts.Behaves) (n : Nat) (hf : f.Flagged)
    (henter : p.enter f env receiver args spread span m = .ok (scope, record) m₁) :
    p.RunsDeferred n f record m₁.frame m.deferring { m₁ with frame := .start scope }
      (p.invoke (p.run n) (p.perform n) f env receiver args spread span m) := by
  have hentered := entered_enter p f env receiver args spread span m
  rw [henter] at hentered
  have hnone : m₁.deferring = none := hentered.deferring
  have hsize : record < m₁.calls.size := by rw [hentered.record, hentered.calls]; simp
  have hparked : m₁.parked record = none := by
    unfold Machine.parked
    rw [hentered.calls, hentered.record, Array.getElem?_push_size]
    rfl
  have hconcludes : p.Concludes f record m₁.frame
      (activity (p.run n) (p.perform n) f record { m₁ with frame := .start scope })
      (p.invoke (p.run n) (p.perform n) f env receiver args spread span m) :=
    concludes_invoke henter
  refine ⟨hentered.handler, ⟨hparked, rfl⟩, fun k id m' _ s hs hop =>
    keepsNothing_advance hhosts k hs hop m', fun k id m' _ s entry args spread b hs hop next m'' h =>
      advance_defer hs hop h, fun k id m' hl => ?_, ?_⟩
  · obtain ⟨-, hdeferring⟩ := hl.deferred hhosts hnone
    have hrun := (calls_and_runs hhosts k).2 f.steps id m' hdeferring
    rw [ended_body, hl.run_eq]
    cases hr : p.run k f.steps id m' with
    | ok _ m₂ | error u m₂ =>
        rw [hr] at hrun
        exact hrun.deferred
  · have hsettles := settles_activity (f := f) hhosts n hf
      (m := { m₁ with frame := .start scope }) hnone rfl hsize hparked
    cases hr : body (p.run n) f.steps { m₁ with frame := .start scope } with
    | ok _ m₂ =>
        rw [hr] at hsettles
        obtain ⟨started, hsettles⟩ := hsettles
        exact ⟨_, started, hsettles, hconcludes⟩
    | error u m₂ =>
        rw [hr] at hsettles
        cases u with
        | panic v =>
            obtain ⟨started, hsettles⟩ := hsettles
            exact ⟨_, started, hsettles, hconcludes⟩
        | fatal | undeclared | exhausted =>
            have hactivity : activity (p.run n) (p.perform n) f record
                { m₁ with frame := .start scope } = .error _ m₂ := hsettles
            rw [hactivity] at hconcludes
            exact hconcludes

theorem call_of_enters {callee : Value} (n : Nat)
    (h : p.Enters callee args spread span m f record m₁) :
    ∃ env receiver scope m₀, p.enter f env receiver args spread span m = .ok (scope, record) m₀ ∧
      m₁ = { m₀ with frame := .start scope } ∧ p.call (n + 1) callee args spread span m =
        p.invoke (p.run n) (p.perform n) f env receiver args spread span m := by
  obtain ⟨hroom, env, receiver, scope, m₀, hcode, henter, rfl⟩ := h
  have hrun : ∀ code env receiver, p.code[code.id]? = some f →
      p.enterCode n code env receiver args spread span m =
        p.invoke (p.run n) (p.perform n) f env receiver args spread span m := by
    intro code env receiver hf
    unfold enterCode
    rw [bind_of_ok (Exec.get_apply m), if_neg (Nat.not_le_of_lt hroom)]
    simp only [hf]
  refine ⟨env, receiver, scope, m₀, henter, rfl, ?_⟩
  rw [call_succ]
  unfold code? at hcode
  split at hcode
  · next code env' hunwrap =>
      obtain ⟨f', hf, he⟩ := Option.map_eq_some_iff.mp hcode
      cases he
      simp only [hunwrap]
      exact hrun code _ _ hf
  · next code env' receiver' hunwrap =>
      obtain ⟨f', hf, he⟩ := Option.map_eq_some_iff.mp hcode
      cases he
      simp only [hunwrap]
      exact hrun code _ _ hf
  · cases hcode

-- The builtin takes the panic that waits for the innermost call, and leaves none there.
theorem recover_takes (p : Program) (sv : Services) (ty : Option Ty) (args : List Value)
    (spread : Bool) {handler : Nat} {q : Value} (hhandler : m.handler = some handler)
    (hparked : m.parked handler = some q) :
    ∃ m', p.callBuiltin sv .recover ty args spread m = .ok [q] m' ∧ m'.parked handler = none := by
  refine ⟨{ m with
    calls := m.calls.modify handler fun r => { r with panic := none }, panicTrace := none }, ?_, ?_⟩
  · unfold Machine.handler at hhandler
    unfold Machine.parked at hparked
    unfold callBuiltin recover
    simp only [bind_apply, Exec.get_apply, hhandler, hparked]
    rfl
  · unfold Machine.parked
    rw [Array.getElem?_modify, if_pos rfl]
    cases m.calls[handler]? <;> rfl

-- In every program that was built, a function with a step that defers a call is known to keep
-- calls. When such a function ends, the calls that it has kept are started, the last one first and
-- each once, and the panic that is left after them, if any, is what the call ends with. A function
-- that was deferred can take that panic.
theorem deferred_calls_settle_panics :
    (∀ (o : BuildOptions) (frontEnd : Option FrontEnd) (pkg : Package) (printer : Printer)
      (e : Executable) (l : Linker),
      Executable.finish o frontEnd pkg (Link.start printer) = .ok e l →
        ∀ f ∈ e.program.code, f.Flagged) ∧
    (∀ (p : Program) (n : Nat) (callee : Value) (args : List Value) (spread : Bool) (span : Span)
      (m : Machine) (f : Function) (record : Nat) (m₁ : Machine), p.hosts.Behaves → f.Flagged →
      p.Enters callee args spread span m f record m₁ →
        p.RunsDeferred n f record m.frame m.deferring m₁
          (p.call (n + 1) callee args spread span m)) ∧
    ∀ (p : Program) (sv : Services) (ty : Option Ty) (args : List Value) (spread : Bool)
      (m : Machine) (handler : Nat) (q : Value),
      m.handler = some handler → m.parked handler = some q →
        ∃ m', p.callBuiltin sv .recover ty args spread m = .ok [q] m' ∧
          m'.parked handler = none := by
  refine ⟨fun _ _ _ _ _ _ h => Executable.flagged_of_finish h Library.flagged_initial,
    fun p n callee args spread span m f record m₁ hhosts hf henters => ?_,
    fun p sv ty args spread _ _ _ hhandler hparked =>
      recover_takes p sv ty args spread hhandler hparked⟩
  obtain ⟨env, receiver, scope, m₀, henter, rfl, hcall⟩ := call_of_enters n henters
  have hentered := entered_enter p f env receiver args spread span m
  rw [henter] at hentered
  rw [hcall, ← hentered.frame]
  exact runsDeferred_invoke hhosts n hf henter

-- A statement that calls a function by its name.
def calling (x : String) (args : List Expr) : Expr :=
  .call Note.empty (.ident Note.empty x) args false

-- `func f() { defer g(); defer h(); panic("a") }`, `func g() { recover() }` and
-- `func h() { panic("b") }`.
def replacing : Package := ⟨"main", [], [
  .func ⟨"f", none, .empty, [.defer Span.none (calling "g" []), .defer Span.none (calling "h" []),
    .expr Span.none (calling "panic" [.lit Note.empty (.str "a")])]⟩,
  .func ⟨"g", none, .empty, [.expr Span.none (calling "recover" [])]⟩,
  .func ⟨"h", none, .empty, [.expr Span.none (calling "panic" [.lit Note.empty (.str "b")])]⟩]⟩

def replacingOptions : BuildOptions := { BuildOptions.default with fuel := 20 }

-- Whether a call of the first function can begin and ends without a panic and without results.
def endsQuietly (e : Executable) (m : Machine) : Bool :=
  let callee := Link.closure ⟨0, "f"⟩ e.scope
  decide (m.calls.size < e.program.maxDepth) &&
    match e.program.code? callee with
    | some (f, env, receiver) =>
        match e.program.enter f env receiver [] false Span.none m,
            e.program.call 20 callee [] false Span.none m with
        | .ok _ _, .ok values _ => values.isEmpty
        | _, _ => false
    | none => false

def replacingEndsQuietly : Bool :=
  match Executable.finish replacingOptions none replacing (Link.start .silent) with
  | .ok e l => endsQuietly e l.machine
  | .error _ _ => false

-- The panic of the function is replaced by the one of the call that was deferred last, and the
-- other call recovers from that one.
theorem replaced_panic_is_recovered : ∃ (e : Executable) (l : Linker) (callee : Value)
    (f : Function) (record : Nat) (m₁ : Machine),
    Executable.finish replacingOptions none replacing (Link.start .silent) = .ok e l ∧
    f ∈ e.program.code ∧ e.program.Enters callee [] false Span.none l.machine f record m₁ ∧
    (∃ m', e.program.call 20 callee [] false Span.none l.machine = .ok [] m') ∧
    e.program.RunsDeferred 19 f record l.machine.frame l.machine.deferring m₁
      (e.program.call 20 callee [] false Span.none l.machine) := by
  have hquiet : replacingEndsQuietly = true := by decide +kernel
  unfold replacingEndsQuietly at hquiet
  cases hbuild : Executable.finish replacingOptions none replacing (Link.start .silent) with
  | error u l =>
      rw [hbuild] at hquiet
      cases hquiet
  | ok e l =>
      rw [hbuild] at hquiet
      obtain ⟨hroom, hcall⟩ := Bool.and_eq_true_iff.mp hquiet
      split at hcall
      · next f env receiver hcode =>
          split at hcall
          · next s m₀ values m' henter hvalues =>
              obtain ⟨scope, record⟩ := s
              obtain rfl := List.isEmpty_iff.mp hcall
              have henters : e.program.Enters (Link.closure ⟨0, "f"⟩ e.scope) [] false Span.none
                  l.machine f record { m₀ with frame := .start scope } :=
                ⟨of_decide_eq_true hroom, env, receiver, scope, m₀, hcode, henter, rfl⟩
              have hmem : f ∈ e.program.code := by
                obtain ⟨f', hf, he⟩ := Option.map_eq_some_iff.mp hcode
                cases he
                exact Array.mem_of_getElem? hf
              have hhosts : e.program.hosts.Behaves := by
                rw [Executable.hosts_of_finish hbuild]
                exact HostRegistry.default_behaves
              exact ⟨e, l, _, f, record, _, rfl, hmem, henters, ⟨m', hvalues⟩,
                deferred_calls_settle_panics.2.1 e.program 19 _ [] false Span.none l.machine f
                  record _ hhosts (deferred_calls_settle_panics.1 _ _ _ _ e l hbuild f hmem) henters⟩
          · cases hcall
      · cases hcall

end Program

end StepGraph

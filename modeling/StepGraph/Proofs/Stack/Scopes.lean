import StepGraph.Proofs.Compile.Landmarks
import StepGraph.Proofs.Compile.Shape
import StepGraph.Proofs.Machine.Hosts

namespace StepGraph

open Build

-- A builder that counts the scopes that it is in. No loop or switch around was begun deeper inside.
structure Builder.Tracks (b : Builder) : Prop where
  counts : b.CountsScopes
  contexts : ∀ c ∈ b.contexts, c.breakDepth ≤ b.depth ∧ c.continueDepth ≤ b.depth

-- What is built leaves all scopes that it enters, and keeps the depths of the steps before.
def Build.KeepsDepths {α : Type} (x : Build α) : Prop :=
  ∀ b a b', b.Tracks → x b = .ok a b' → b'.Tracks ∧ b'.depth = b.depth ∧
    ∀ i ≤ b.steps.size, emissionDepth b'.steps i = emissionDepth b.steps i

theorem SiteFits.of_builder (b : Builder) :
    SiteFits ⟨b.depth, [], [], [], b.contexts.map (·.bare)⟩ b :=
  ⟨rfl, rfl⟩

namespace Build

-- The contexts stay, up to the jumps that they keep.
theorem keeps_of_progress {stage : Stage} {s s' : Site} {b b' : Builder} {marks : List Mark}
    {starts : List StepId} (h : Progress stage s b marks starts s' b') (hf : SiteFits s b)
    (hdepth : s'.depth = s.depth) (hcontexts : s'.contexts = s.contexts) (hb : b.Tracks) :
    b'.Tracks ∧ b'.depth = b.depth ∧
      ∀ i ≤ b.steps.size, emissionDepth b'.steps i = emissionDepth b.steps i := by
  have hf' := h.fits hf
  have hsame : b'.depth = b.depth := by rw [← hf'.depth, hdepth, hf.depth]
  refine ⟨⟨h.counts hb.counts, fun c hc => ?_⟩, hsame, fun i => h.extend.emissionDepth_eq⟩
  have hbare : c.bare ∈ b.contexts.map (·.bare) := by
    rw [← hf.contexts, ← hcontexts, hf'.contexts]
    exact List.mem_map_of_mem hc
  obtain ⟨d, hd, hbares⟩ := List.mem_map.mp hbare
  have hbreak : d.bare.breakDepth = c.bare.breakDepth := congrArg _ hbares
  have hcontinue : d.bare.continueDepth = c.bare.continueDepth := congrArg _ hbares
  change d.breakDepth = c.breakDepth at hbreak
  change d.continueDepth = c.continueDepth at hcontinue
  rw [hsame, ← hbreak, ← hcontinue]
  exact hb.contexts d hd

theorem keepsDepths_compileStmt (stmt : Stmt) (label : Option String) :
    KeepsDepths (compileStmt stmt label) := by
  intro b u b' hb h
  have hready : Ready ⟨b.depth, [], [], [], b.contexts.map (·.bare)⟩ := by
    refine ⟨rfl, fun c hc => ?_⟩
    obtain ⟨d, hd, rfl⟩ := List.mem_map.mp hc
    exact hb.contexts d hd
  have hbuilds := builds stmt label _ hready b (.of_builder b)
  exact keeps_of_progress (hbuilds.progress u b' h) (.of_builder b) rfl rfl hb

theorem keepsDepths_compile (e : Expr) (want : Want) : KeepsDepths (compile e want) := by
  intro b arity b' hb h
  have hcompiles := compiles e want b.names.types [] .expr _ b rfl (.of_builder b) (.refl _)
  exact keeps_of_progress (hcompiles.progress arity b' h) (.of_builder b) rfl rfl hb

end Build

-- A machine in a new frame is in the scope of its function.
theorem Machine.deep_start (m : Machine) (scope : ScopeId) :
    { m with frame := .start scope }.Deep scope 0 := ⟨rfl, rfl, .here scope⟩

variable {p : Program} {o : Origin} {names : Names} {code : Array Function} {f : Function}

-- The depths of a finished function are those that the builder had.
theorem Origin.Makes.depths {types : TypeTable} (h : o.Makes names code types f) : ∃ b,
    (do o.head; compileStmts o.body : Build Unit) (.start names code o.sig) = .ok () b ∧
    f.steps.size = b.steps.size ∧
    ∀ i ≤ b.steps.size, emissionDepth f.steps i = emissionDepth b.steps i := by
  obtain ⟨b, hwork, hres, -, -, hdepth⟩ := h.finished
  exact ⟨b, hwork, hres.size, hdepth⟩

-- Wherever a run comes to, its machine is as deep inside the scope of its function as the builder was.
theorem Origin.Makes.deep_of_reaches (hhosts : p.hosts.Behaves) (h : o.Makes names code p.types f)
    (hgotos : gotosLeave o.body = true) {func : ScopeId} {n n' : Nat} {i : StepId} {m m' : Machine}
    (hm : m.Deep func 0) (hr : p.Reaches f.steps n 0 m n' i m') :
    m'.Deep func (emissionDepth f.steps i) := by
  obtain ⟨log, hlog⟩ := h.stanced
  have hconsistent : Consistent False f.steps log.stance :=
    hlog.charted.consistent hlog.total False.elim
  have hdepth : ∀ j < f.steps.size, (log.stance j).depth = emissionDepth f.steps j := by
    intro j hj
    obtain ⟨st, hst⟩ := Option.isSome_iff_exists.mp (hlog.total j hj)
    rw [Log.stance_of_eq hst, hlog.depths j st hst]
  have hdown : Downward f.steps log.stance := by
    intro j s hs
    rw [hdepth j (Array.getElem?_eq_some_iff.mp hs).1]
    exact h.leavesAtMost hgotos hs
  rcases Nat.eq_zero_or_pos f.steps.size with hzero | hpos
  · have hnone : ∀ j : StepId, f.steps[j]? = none := fun j =>
      Array.getElem?_eq_none (hzero ▸ Nat.zero_le j)
    cases hr with
    | here => exact hm
    | next hstep =>
        obtain ⟨s, hs⟩ := Program.exists_step_of_advance hstep
        cases (hnone _).symm.trans hs
    | deferred hs => cases (hnone _).symm.trans hs
  · have hstands : HasStance False [] True func (log.stance 0).depth (log.stance 0).items m := by
      refine ⟨False.elim, fun _ => ?_⟩
      rw [hdepth 0 hpos]
      exact hm
    have hreached := Program.hasStance_of_reaches hconsistent (fun _ => hdown) False.elim
      (fun k => (Program.calls_and_runs hhosts k).1) hr hstands
    rw [← hdepth i (h.shaped.reached p n m n' i m' hpos hr)]
    exact hreached.position trivial

-- Where every `goto` leads to a label of a list around it, the scope of a machine at a step is as
-- many scopes inside that of the function as the builder was when it emitted the step, on every way
-- to the step. A jump never leads deeper inside, and no more scopes are left than there are.
theorem scopes_are_disciplined (hhosts : p.hosts.Behaves) (h : o.Makes names code p.types f)
    (hgotos : gotosLeave o.body = true) :
    (∀ func n m n' i m', m.Deep func 0 → p.Reaches f.steps n 0 m n' i m' →
      m'.Deep func (emissionDepth f.steps i) ∧
        ∀ s, f.steps[i]? = some s → s.op.LeavesAtMost m'.frame.depth) ∧
    (Builder.start names code o.sig).Tracks ∧
    (∀ stmt label, KeepsDepths (compileStmt stmt label)) ∧
    (∀ e want, KeepsDepths (compile e want)) ∧
    (∀ op span b id b', b.Tracks → emit op span b = .ok id b' →
      id = b.steps.size ∧ emissionDepth b'.steps id = b.depth) ∧
    ∃ b, (do o.head; compileStmts o.body : Build Unit) (.start names code o.sig) = .ok () b ∧
      f.steps.size = b.steps.size ∧
      ∀ i ≤ b.steps.size, emissionDepth f.steps i = emissionDepth b.steps i := by
  refine ⟨fun func n m n' i m' hm hr => ?_, ⟨rfl, nofun⟩, keepsDepths_compileStmt,
    keepsDepths_compile, fun op span b id b' hb hemit => ?_, h.depths⟩
  · have hdeep := h.deep_of_reaches hhosts hgotos hm hr
    refine ⟨hdeep, fun s hs => ?_⟩
    rw [hdeep.depth_eq]
    exact h.leavesAtMost hgotos hs
  · have he := emit_ok hemit
    refine ⟨he.id_eq, ?_⟩
    rw [he.id_eq, he.extend.emissionDepth_eq (Nat.le_refl _), ← hb.counts]

-- `again: if true { k := 1; goto again }`.
def jumpAgain : List Stmt :=
  [.labeled Span.none "again" (.cond Span.none none (.ident Note.empty "true")
    [.define Span.none ["k"] [.lit Note.empty (.int 1)], .goto Span.none "again"] none)]

-- The `goto` at step 6 stands in the scope of its block and leads out of it. A call comes to it one
-- scope inside its own.
-- Its number, where its seventh step leads to at which depth, and the depth of that step.
def jumpOfAgain : Option (Nat × Option (Nat × Option StepId) × Nat) :=
  match (Origin.literal .empty jumpAgain).build (.start ⟨.empty, .initial, []⟩ #[] .empty) with
  | .ok ref b => b.code[ref.id]?.map fun f =>
      (ref.id, f.steps[6]?.map fun s => (s.op.depthAfter 1, s.next), emissionDepth f.steps 6)
  | .error _ _ => none

theorem goto_leaves_its_block : ∃ (p : Program) (f : Function), p.code[0]? = some f ∧
    f.steps[6]?.map (fun s => (s.op.depthAfter 1, s.next)) = some (0, some 0) ∧
    ∀ scope n (m : Machine) n' m',
      p.Reaches f.steps n 0 { m with frame := .start scope } n' 6 m' → m'.Deep scope 1 := by
  have hbuilt : jumpOfAgain = some (0, some (0, some 0), 1) := by decide +kernel
  unfold jumpOfAgain at hbuilt
  split at hbuilt
  · next ref b hb =>
      obtain ⟨f, hf, hfacts⟩ := Option.map_eq_some_iff.mp hbuilt
      obtain ⟨hid, hjump, hdepth⟩ : ref.id = 0 ∧
          f.steps[6]?.map (fun s => (s.op.depthAfter 1, s.next)) = some (0, some 0) ∧
          emissionDepth f.steps 6 = 1 := by simpa using hfacts
      let p : Program := ⟨b.code, b.names.types, [], 10, false⟩
      have hhosts : p.hosts.Behaves := (HostRegistry.aloof_of_packages fun _ hx => (by cases hx)).behaves
      have hmakes : (Origin.literal .empty jumpAgain).Makes ⟨.empty, .initial, []⟩ #[] p.types f :=
        ⟨ref, b, hb, hf, .refl _⟩
      have hreached := (scopes_are_disciplined hhosts hmakes (by decide +kernel)).1
      refine ⟨p, f, hid ▸ hf, hjump, fun scope n m n' m' hr => ?_⟩
      exact hdepth ▸ (hreached scope n _ n' 6 m' (m.deep_start scope) hr).1
  · cases hbuilt

end StepGraph

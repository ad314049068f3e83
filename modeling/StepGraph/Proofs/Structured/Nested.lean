import StepGraph.Proofs.Structured.Loops
import StepGraph.Proofs.Structured.Simple

open EStateM (bind_eq_ok)

namespace StepGraph.Structured

open Build

variable {funcs : Funcs} {result : Option Base} {vars outer inner : Vars} {w : World}
  {exits : List Exit} {shapes : List Shape} {b b' b₁ b₂ b₃ b₄ b₅ b₆ : Builder}
  {k k' : Option StepId} {declares : Bool} {typed : Env × Signal → Prop}
  {x y : World → Env → Eval (Env × Signal)} {op : StepOp} {id : StepId} {span : Span} {u : Unit}

-- Steps were appended, and the scope has changed.
structure Moved (b b' : Builder) (good : World → Option StepId → Option StepId → Prop) : Prop where
  setting : b'.setting = b.setting
  contexts : b'.contexts = b.contexts
  extend : StepsExtend b.steps b'.steps
  opened : ∀ held, b.Open held → b'.Open held
  code : ∀ funcs result w exits k, WorldHasBuilder funcs result w exits b' k →
    WorldHasBuilder funcs result w exits b (b.entry b' k) ∧ good w (b.entry b' k) k

structure OpensScope (b b' : Builder) (good : World → Option StepId → Option StepId → Prop) : Prop
    extends Moved b b' good where
  depth : b'.depth = b.depth + 1
  tail : b'.names.blocks.tail = b.names.blocks

structure ClosesScope (b b' : Builder) (good : World → Option StepId → Option StepId → Prop) : Prop
    extends Moved b b' good where
  depth : b'.depth = b.depth - 1
  blocks : b'.names.blocks = b.names.blocks.tail

theorem Moved.seq {good good₁ good₂ : World → Option StepId → Option StepId → Prop}
    (h₁ : Moved b b₁ good₁) (h₂ : Moved b₁ b₂ good₂)
    (h : ∀ w k k₁ k', good₁ w k k₁ → good₂ w k₁ k' → good w k k') : Moved b b₂ good where
  setting := h₂.setting.trans h₁.setting
  contexts := h₂.contexts.trans h₁.contexts
  extend := h₁.extend.trans h₂.extend
  opened held ho := h₂.opened held (h₁.opened held ho)
  code funcs result w exits k hs := by
    obtain ⟨hs₁, hgood₂⟩ := h₂.code funcs result w exits k hs
    obtain ⟨hs₀, hgood₁⟩ := h₁.code funcs result w exits _ hs₁
    rw [entry_trans h₁.extend h₂.extend] at hs₀ hgood₁
    exact ⟨hs₀, h w _ _ k hgood₁ hgood₂⟩

theorem moved_emit' (h : emit' op span b = .ok u b₁) (hplain : ∀ o, op.bare.toOther o = op)
    (d : Nat) (blocks : List BlockNames) :
    Moved b { b₁ with depth := d, names := { b₁.names with blocks } } (IsStep op) := by
  have hbuilt := onlyBuilds_emit' h hplain
  refine ⟨hbuilt.grown.setting, ?_, hbuilt.extend, hbuilt.opened, fun funcs result w exits k hs => ?_⟩
  · change b₁.contexts = b.contexts
    rw [hbuilt.state]
  · have hstands : WorldHasBuilder funcs result w exits b₁ k :=
      ⟨⟨hs.sound, hs.funcs, hs.extend, hs.leads⟩, hs.result, hs.meets⟩
    exact hstands.coded (coded_emit' h hplain)

theorem enterScope_ok (h : enterScope span b = .ok u b') :
    OpensScope b b' (IsStep .pushScope) ∧
      b'.names = { b.names with blocks := [] :: b.names.blocks } := by
  obtain ⟨_, b₁, h₁, h⟩ := bind_eq_ok.mp h
  cases h
  have hstate := (onlyBuilds_emit' h₁ fun _ => rfl).state
  refine ⟨⟨moved_emit' h₁ (fun _ => rfl) _ _, ?_, ?_⟩, ?_⟩
  all_goals rw [hstate]
  rfl

theorem leaveScope_ok (h : leaveScope span b = .ok u b') : ClosesScope b b' (IsStep .popScope) := by
  obtain ⟨_, b₁, h₁, h⟩ := bind_eq_ok.mp h
  cases h
  have hstate := (onlyBuilds_emit' h₁ fun _ => rfl).state
  refine ⟨moved_emit' h₁ (fun _ => rfl) _ _, ?_, ?_⟩
  all_goals rw [hstate]
  exact List.drop_one

theorem names_eq_of_setting (hs : b'.setting = b.setting)
    (hb : b'.names.blocks = b.names.blocks) : b'.names = b.names := by
  have hpackage : b'.names.package = b.names.package := congrArg (fun s => s.2.2.2.2.1) hs
  have htypes : b'.names.types = b.names.types := congrArg (fun s => s.2.2.2.2.2) hs
  cases hn : b.names
  cases hn' : b'.names
  simp only [hn, hn'] at hb hpackage htypes
  rw [hb, hpackage, htypes]

-- What is built in a scope that is left again leaves the names alone.
theorem Grown.within {good good' : World → Option StepId → Option StepId → Prop}
    (ho : OpensScope b b₁ good) (hg : Grown b₁ b₂) (hc : ClosesScope b₂ b' good') :
    Grown b b' ∧ b'.names = b.names := by
  have hsetting := hc.setting.trans (hg.setting.trans ho.setting)
  have hnames : b'.names = b.names :=
    names_eq_of_setting hsetting (by rw [hc.blocks, hg.tail, ho.tail])
  refine ⟨⟨hsetting, ?_, by rw [hnames], ?_, ho.extend.trans (hg.extend.trans hc.extend),
    fun held h => hc.opened held (hg.opened held (ho.opened held h))⟩, hnames⟩
  · rw [hc.depth, hg.depth, ho.depth, Nat.add_sub_cancel]
  · rw [hc.contexts, ← ho.contexts]
    exact hg.contexts

theorem BlocksLie.enter (hl : BlocksLie exits shapes declares b) (hdepth : b₁.depth = b.depth + 1)
    (declares' : Bool) : BlocksLie exits (.scope :: shapes) declares' b₁ where
  depth := by rw [hdepth, hl.depth, depth_cons, Nat.add_comm]; rfl
  inside := hl.inside.cons .scope
  top _ := .inr ⟨shapes, rfl⟩

theorem BuilderSuits.enter (hs : BuilderSuits funcs result vars b)
    (henter : enterScope span b = .ok u b₁) :
    BuilderSuits funcs result ([] :: vars) b₁ := by
  obtain ⟨ho, hnames⟩ := enterScope_ok henter
  have hsig : b₁.sig = b.sig := congrArg (fun s => s.2.1) ho.setting
  exact ⟨hnames ▸ hs.fits.enter, hsig ▸ hs.unnamed, hsig ▸ hs.results⟩

-- A block with a scope.
theorem Compiled.within (hs : BuilderSuits funcs result vars b)
    (henter : enterScope span b = .ok u b₁)
    (hx : Compiled funcs result ([] :: vars) inner declares (LeavesBlock inner) b₁ b₂ x)
    (htail : inner.tail = vars) {span' : Span} (hleave : leaveScope span' b₂ = .ok u b') :
    Compiled funcs result vars vars false (KeepsTypes vars) b b' fun w => inBlock (x w) := by
  obtain ⟨ho, -⟩ := enterScope_ok henter
  have hc := leaveScope_ok hleave
  obtain ⟨hgrown, hnames⟩ := hx.grown.within ho hc
  refine ⟨hgrown, hs.of_names hgrown hnames, fun _ => hnames,
    fun w exits shapes k hl hstands => ?_⟩
  obtain ⟨hstands₂, id', hid', hpop⟩ := hc.code _ _ _ _ _ hstands
  obtain ⟨hstands₁, hruns⟩ := hx.code w exits _ _ (hl.enter ho.depth _) hstands₂
  obtain ⟨hstands₀, id, hid, hpush⟩ := ho.code _ _ _ _ _ hstands₁
  rw [entry_trans hx.grown.extend hc.extend, entry_trans ho.extend
    (hx.grown.extend.trans hc.extend)] at hstands₀ hid
  rw [hid] at hstands₀ ⊢
  rw [hid'] at hruns hpush
  exact ⟨hstands₀, .scope hpush hruns hpop htail hl.inside⟩

-- A block without one.
theorem Compiled.bare (hs : BuilderSuits funcs result vars b)
    (hx : Compiled funcs result ([] :: vars) inner false (LeavesBlock inner) b b' x)
    (htail : inner.tail = vars) :
    Compiled funcs result vars vars false (KeepsTypes vars) b b' fun w => inBlock (x w) := by
  refine ⟨hx.grown, hs.of_names hx.grown (hx.still rfl), hx.still,
    fun w exits shapes k hl hstands => ?_⟩
  have hbare : BlocksLie exits (.bare :: shapes) false b :=
    ⟨by rw [hl.depth, depth_cons]; exact (Nat.zero_add _).symm, hl.inside.cons .bare, nofun⟩
  obtain ⟨hstands₀, hruns⟩ := hx.code w exits _ k hbare hstands
  exact ⟨hstands₀, hruns.bare htail hl.inside⟩

theorem compiled_inScope {body : List Stmt} {build : Build Unit}
    (hs : BuilderSuits funcs result vars b)
    (hok : inScope body span build b = .ok u b') (htail : inner.tail = vars)
    (hbuild : ∀ b b', BuilderSuits funcs result ([] :: vars) b → build b = .ok u b' →
      Compiled funcs result ([] :: vars) inner (body.any (·.declares)) (LeavesBlock inner) b b' x) :
    Compiled funcs result vars vars false (KeepsTypes vars) b b' fun w => inBlock (x w) := by
  unfold inScope at hok
  cases hdeclares : body.any (·.declares) with
  | true =>
      rw [if_pos hdeclares] at hok
      obtain ⟨_, b₁, henter, hok⟩ := bind_eq_ok.mp hok
      obtain ⟨_, b₂, hbody, hleave⟩ := bind_eq_ok.mp hok
      exact .within hs henter (hbuild _ _ (hs.enter henter) hbody) htail hleave
  | false =>
      rw [if_neg (by simp [hdeclares])] at hok
      refine .bare hs ?_ htail
      rw [← hdeclares]
      exact hbuild _ _ ⟨hs.fits.enterBare, hs.unnamed, hs.results⟩ hok

-- Builders that differ in what is open, where all of that leads somewhere.
theorem WorldHasBuilder.reopen (hs : WorldHasBuilder funcs result w exits b k) {slots : List Slot}
    (hl : AllLead w.steps slots k') :
    WorldHasBuilder funcs result w exits { b with pending := slots } k' :=
  ⟨⟨hs.sound, hs.funcs, hs.extend, hl⟩, hs.result, hs.meets⟩

theorem WorldHasBuilder.fork (hs : WorldHasBuilder funcs result w exits b' k)
    (he : Emitted op b id b') {other : Option StepId} (ho : LeadsTo w.steps ⟨id, .other⟩ other) :
    WorldHasBuilder funcs result w exits b (some id) ∧ w.Op id (op.bare.toOther other) k := by
  obtain ⟨hl, s, hstep, hnext, hop⟩ := hs.toWorldLeads.emitted he
  have hmeets := hs.meets
  rw [he.state] at hmeets
  obtain ⟨s', hstep', hfollow⟩ := ho
  obtain rfl : s = s' := Option.some.inj (hstep.symm.trans hstep')
  change s.op.other? = other at hfollow
  exact ⟨⟨hl, hs.result, hmeets⟩, s, hstep, hfollow ▸ hop, hnext⟩

-- A test and the two statements that it decides between.
theorem compiled_branch {init yes no : World → Env → Eval (Env × Signal)} {e : Expr}
    (hinit : Compiled funcs result vars outer declares (Finishes outer) b b₁ init)
    (htest : Computes funcs outer .bool e b₁ b₂) (hemit : Emitted (.branch none) b₂ id b₃)
    (hyes : Compiled funcs result outer outer false (KeepsTypes outer) b₃ b₄ yes)
    (hno : Compiled funcs result outer outer false (KeepsTypes outer)
      { b₄ with pending := [⟨id, .other⟩] } b₅ no)
    (hb : b' = { b₅ with pending := b₅.pending ++ b₄.pending }) :
    Compiled funcs result vars outer declares (KeepsTypes outer) b b' (fun w env => do
      let (env, _) ← init w env
      let v ← expr w.calls env e
      if ← test v then yes w env else no w env) := by
  have hbuilt := onlyBuilds_emitted hemit rfl
  have htested := htest.built.trans hbuilt
  have hafter := htested.grown.trans hyes.grown
  have hgrown : Grown b₁ b' := by
    subst hb
    refine ⟨hno.grown.setting.trans hafter.setting, hno.grown.depth.trans hafter.depth,
      hno.grown.tail.trans hafter.tail, hafter.contexts.trans hno.grown.contexts,
      hafter.extend.trans hno.grown.extend, fun held ho => ?_⟩
    have hfork := hemit.opened_fork rfl (htest.built.opened _ ho)
    have hother : Builder.Open { b₄ with pending := [⟨id, .other⟩] } (b₄.pending ++ held) :=
      (hyes.grown.opened _ hfork).mono fun x => by
        simp only [List.count_append, List.count_cons, List.count_nil]
        omega
    refine (hno.grown.opened _ hother).mono fun x => ?_
    simp only [List.count_append]
    omega
  have hnames : b'.names = b₁.names := by
    subst hb
    exact (hno.still rfl).trans ((hyes.still rfl).trans htested.names_eq)
  refine ⟨hinit.grown.trans hgrown, hinit.suits.of_names hgrown hnames,
    fun h => hnames.trans (hinit.still h), fun w exits shapes k hl hstands => ?_⟩
  have hlies : BlocksLie exits shapes false b₁ := (hl.of_grown hinit.grown).mono nofun
  have hlies₃ := hlies.of_grown htested.grown
  subst hb
  have hstands₅ : WorldHasBuilder funcs result w exits b₅ k :=
    hstands.reopen fun slot hs => hstands.leads slot (List.mem_append_left _ hs)
  obtain ⟨hstands₄, hruns₂⟩ := hno.code w exits shapes k
    ⟨(hlies₃.of_grown hyes.grown).depth, hl.inside, nofun⟩ hstands₅
  obtain ⟨hstands₃, hruns₁⟩ := hyes.code w exits shapes k hlies₃
    (hstands₄.reopen fun slot hs => hstands.leads slot (List.mem_append_right _ hs))
  obtain ⟨hstands₂, hop⟩ := hstands₃.fork hemit (hstands₄.leads _ (List.mem_singleton_self _))
  obtain ⟨hstands₁, hyields⟩ := hstands₂.coded htest
  obtain ⟨hstands₀, hruns₀⟩ := hinit.code w exits shapes _ hl hstands₁
  have hentry : b.entry b₁ (b₁.entry b₂ (some id)) = b.entry b₅ k := by
    rw [entry_trans hinit.grown.extend htest.built.extend]
    exact entry_before (hinit.grown.extend.trans htest.built.extend) hemit
      (hyes.grown.extend.trans hno.grown.extend)
  rw [hentry] at hstands₀ hruns₀
  exact ⟨hstands₀, hruns₀.cond (hyields shapes) hop hruns₁ hruns₂⟩

end StepGraph.Structured

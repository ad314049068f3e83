import StepGraph.Proofs.Structured.Nested

open EStateM (bind_eq_ok discard_eq_ok)

namespace StepGraph.Structured

open Build

variable {funcs : Funcs} {result : Option Base} {vars outer inner : Vars} {w : World}
  {exits : List Exit} {shapes : List Shape} {b b' b₁ b₂ b₃ b₄ b₅ b₆ b₇ b₈ b₉ : Builder}
  {k k' : Option StepId} {declares : Bool} {x : String} {t : Base} {id : StepId} {span : Span}
  {u : Unit} {good good' : World → Option StepId → Option StepId → Prop}

theorem Moved.imp (h : Moved b b' good) (himp : ∀ w k k', good w k k' → good' w k k') :
    Moved b b' good' :=
  { h with
    code := fun funcs result w exits k hs =>
      ⟨(h.code funcs result w exits k hs).1, himp _ _ _ (h.code funcs result w exits k hs).2⟩ }

-- The scope of a round is opened, and there are no variables for it or one.

def OpensRound (outer : Vars) (w : World) (k k' : Option StepId) : Prop :=
  ∀ shapes, ShiftsBlocks w outer (.scope :: shapes) (.round :: shapes) k k'

def ClosesRound (outer : Vars) (w : World) (k k' : Option StepId) : Prop :=
  ∀ shapes, ShiftsBlocks w outer (.round :: shapes) (.scope :: shapes) k k'

theorem opens_still {vb : List (String × Base)} (hnone : ∀ y, vb.lookup y = none)
    (hs : BuilderSuits funcs result (vb :: vars) b) (henter : enterScope span b = .ok u b') :
    OpensScope b b' (OpensRound (vb :: vars)) ∧ BuilderSuits funcs result (vb :: vars) b' := by
  obtain ⟨ho, hnames⟩ := enterScope_ok henter
  have hsig : b'.sig = b.sig := congrArg (fun s => s.2.1) ho.setting
  have hfits : NamesFit b'.names funcs (vb :: vars) :=
    hnames ▸ { hs.fits with inBlock := by simp, known := hs.fits.known }
  refine ⟨{ ho with toMoved := ho.toMoved.imp ?_ }, hfits, hsig ▸ hs.unnamed, hsig ▸ hs.results⟩
  rintro w k k' ⟨id, rfl, hop⟩ shapes
  exact shifts_push hnone hop

theorem closes_still {vb : List (String × Base)} (hnone : ∀ y, vb.lookup y = none)
    (hleave : leaveScope span b = .ok u b') : ClosesScope b b' (ClosesRound (vb :: vars)) := by
  have hc := leaveScope_ok hleave
  refine { hc with toMoved := hc.toMoved.imp ?_ }
  rintro w k k' ⟨id, rfl, hop⟩ shapes
  exact shifts_pop hnone hop

theorem opens_refresh {vb : List (String × Base)} (hx : vb.lookup x = some t)
    (honly : ∀ y, y ≠ x → vb.lookup y = none) (hblank : x ≠ Names.blank)
    (hs : BuilderSuits funcs result (vb :: vars) b) (henter : enterScope span b = .ok u b₁)
    (hrefresh : refresh span x b₁ = .ok u b') :
    OpensScope b b' (OpensRound (vb :: vars)) ∧ BuilderSuits funcs result (vb :: vars) b' := by
  obtain ⟨ho, hnames⟩ := enterScope_ok henter
  obtain ⟨_, b₂, hload, hrefresh⟩ := bind_eq_ok.mp hrefresh
  obtain ⟨_, b₃, hdeclare, hrefresh⟩ := bind_eq_ok.mp hrefresh
  obtain ⟨n, b₄, hn, hrefresh⟩ := bind_eq_ok.mp hrefresh
  cases hn
  cases hrefresh
  have hload' := onlyBuilds_emit' hload fun _ => rfl
  have hdeclare' := onlyBuilds_emit' hdeclare fun _ => rfl
  have hnames₃ : b₃.names = { b.names with blocks := [] :: b.names.blocks } := by
    rw [hdeclare'.names_eq, hload'.names_eq, hnames]
  have hblocks : b₃.names.blocks = [] :: b.names.blocks := by rw [hnames₃]
  have hsig : b₃.sig = b.sig :=
    congrArg (fun s => s.2.1) (((hload'.trans hdeclare').grown.setting).trans ho.setting)
  have hdeclared : b₃.names.declare x (b₃.names.local? x).join =
      { b₃.names with blocks := [(x, (b₃.names.local? x).join)] :: b.names.blocks } := by
    unfold Names.declare
    rw [if_neg hblank, hblocks]
  have hfits : NamesFit (b₃.names.declare x (b₃.names.local? x).join) funcs (vb :: vars) := by
    have htype : Vars.type? (vb :: vars) x = some t := by simp [Vars.type?, hx]
    rw [hnames₃]
    exact hs.fits.refresh htype
  refine ⟨⟨?_, ?_, ?_⟩, hfits, hsig ▸ hs.unnamed, hsig ▸ hs.results⟩
  · have hloaded : Moved b b₂ fun w k k' =>
        ∃ k₁, IsStep .pushScope w k k₁ ∧ IsStep (.load x) w k₁ k' :=
      ho.toMoved.seq (moved_emit' hload (fun _ => rfl) b₂.depth b₂.names.blocks)
        fun _ _ k₁ _ h₁ h₂ => ⟨k₁, h₁, h₂⟩
    change Moved b { b₃ with names := b₃.names.declare x (b₃.names.local? x).join } _
    rw [hdeclared]
    refine hloaded.seq (moved_emit' hdeclare (fun _ => rfl) b₃.depth _) ?_
    rintro w k k₂ k' ⟨k₁, ⟨id, rfl, hpush⟩, id₁, rfl, hload⟩ ⟨id₂, rfl, hdeclare⟩ shapes
    exact shifts_refresh hx honly hblank hpush hload hdeclare
  · exact (hload'.trans hdeclare').grown.depth.trans ho.depth
  · change (b₃.names.declare x (b₃.names.local? x).join).blocks.tail = b.names.blocks
    rw [hdeclared]
    rfl

theorem closes_carry {vb : List (String × Base)} (hx : vb.lookup x = some t)
    (honly : ∀ y, y ≠ x → vb.lookup y = none) (hcarry : emit' (.carryOut [x]) span b = .ok u b₁)
    (hleave : leaveScope span b₁ = .ok u b') : ClosesScope b b' (ClosesRound (vb :: vars)) := by
  have hc := leaveScope_ok hleave
  have hbuilt := onlyBuilds_emit' hcarry fun _ => rfl
  refine ⟨(moved_emit' hcarry (fun _ => rfl) b₁.depth b₁.names.blocks).seq hc.toMoved ?_, ?_, ?_⟩
  · rintro w k k₁ k' ⟨id, rfl, hcarry⟩ ⟨id₁, rfl, hpop⟩ shapes
    exact shifts_carry hx honly hcarry hpop
  · rw [hc.depth, hbuilt.grown.depth]
  · rw [hc.blocks, hbuilt.names_eq]

-- The variables that a loop has for each round: one or none.
theorem loopVariables_cases {init : Option Stmt} (h : SimpleOption funcs ([] :: vars) init outer) :
    ∃ vb, outer = vb :: vars ∧
      (loopVariables init = [] ∧ (∀ y, vb.lookup y = none) ∨
        ∃ x t, loopVariables init = [x] ∧ x ≠ Names.blank ∧ vb.lookup x = some t ∧
          ∀ y, y ≠ x → vb.lookup y = none) := by
  have hdeclared : ∀ (y : String) (t : Base), ∃ vb, Vars.declare ([] :: vars) y t = vb :: vars ∧
      ([y].filter (· ≠ Names.blank) = [] ∧ (∀ z, vb.lookup z = none) ∨
        ∃ x t, [y].filter (· ≠ Names.blank) = [x] ∧ x ≠ Names.blank ∧ vb.lookup x = some t ∧
          ∀ z, z ≠ x → vb.lookup z = none) := by
    intro y t
    unfold Vars.declare
    by_cases hy : y = Names.blank
    · exact ⟨[], by rw [if_pos hy], .inl ⟨by simp [hy], fun _ => rfl⟩⟩
    · refine ⟨[(y, t)], by rw [if_neg hy], .inr ⟨y, t, by simp [hy], hy, by simp, fun z hz => ?_⟩⟩
      rw [Lists.lookup_cons_eq, if_neg hz]
      rfl
  cases h with
  | none => exact ⟨[], rfl, .inl ⟨rfl, fun _ => rfl⟩⟩
  | some outer s hs =>
      cases hs with
      | define span x e t he => exact hdeclared x t
      | var span x e t he => exact hdeclared x t
      | _ => exact ⟨[], rfl, .inl ⟨rfl, fun _ => rfl⟩⟩

-- Steps that test something, with those that lead on where the test fails.
structure Tested (funcs : Funcs) (outer : Vars) (misses : List Slot) (b b' : Builder)
    (x : World → Env → Eval Bool) : Prop where
  grown : Grown b b'
  names : b'.names = b.names
  contexts : b'.contexts = b.contexts
  opened : ∀ held, b.Open held → b'.Open (misses ++ held)
  code : ∀ result w exits k no, WorldHasBuilder funcs result w exits b' k →
    AllLead w.steps misses no →
    WorldHasBuilder funcs result w exits b (b.entry b' k) ∧
      ∀ shapes, TestsTo w shapes outer (b.entry b' k) k no (x w)

theorem tested_branch {e : Expr} (he : Computes funcs outer .bool e b b₁)
    (hemit : Emitted (.branch none) b₁ id b') :
    Tested funcs outer [⟨id, .other⟩] b b' (fun w env => do test (← expr w.calls env e)) := by
  have hbuilt := he.built.trans (onlyBuilds_emitted hemit rfl)
  refine ⟨hbuilt.grown, hbuilt.names_eq, by rw [hbuilt.state],
    fun held ho => hemit.opened_fork rfl (he.built.opened held ho),
    fun result w exits k no hs hmisses => ?_⟩
  obtain ⟨hs₁, hop⟩ := hs.fork hemit (hmisses _ (List.mem_singleton_self _))
  obtain ⟨hs₀, hyields⟩ := hs₁.coded he
  rw [entry_before he.built.extend hemit (StepsExtend.refl _)] at hs₀ hyields
  exact ⟨hs₀, fun shapes => tests_some (hyields shapes) hop⟩

theorem compileTest_ok {e : Option Expr} {misses : List Slot} (hf : NamesFit b.names funcs outer)
    (he : ∀ e' ∈ e, HasType funcs outer e' .bool) (h : compileTest e span b = .ok misses b') :
    Tested funcs outer misses b b' (fun w env => condition w.calls env e) := by
  cases e with
  | none =>
      cases h
      refine ⟨.refl _, rfl, rfl, fun _ ho => ho, fun result w exits k no hs _ => ?_⟩
      rw [Builder.entry_self]
      exact ⟨hs, fun _ => tests_none⟩
  | some e =>
      obtain ⟨_, b₁, h₁, h⟩ := bind_eq_ok.mp h
      obtain ⟨slot, b₂, h₂, h⟩ := bind_eq_ok.mp h
      obtain ⟨_, h₁⟩ := discard_eq_ok.mp h₁
      obtain ⟨id, hemit, rfl⟩ := emitFork_ok h₂
      cases h
      exact tested_branch (compile_expr hf (he e rfl) Base.bool.hints_ty h₁) hemit

-- Steps inside the scope of a loop or switch. The variables there may be stale at the end.
structure Confined (funcs : Funcs) (result : Option Base) (vars outer : Vars) (b b' : Builder)
    (x : World → Env → Eval (Env × Signal)) : Prop where
  grown : Grown b b'
  code : ∀ w exits shapes k, b.depth = depth (.scope :: shapes) → ExitsInside exits shapes →
    WorldHasBuilder funcs result w exits b' k →
      WorldHasBuilder funcs result w exits b (b.entry b' k) ∧
      ∀ env m, EnvHas vars env → At w.act (.scope :: shapes) env [] m →
        w.Sim (x w env) (b.entry b' k) m fun r k₁ m₁ =>
          EnvHas outer r.1 ∧ LandsAfter w exits shapes k r.1 k₁ m₁ r.2

theorem Confined.after {init x : World → Env → Eval (Env × Signal)}
    (hinit : Compiled funcs result vars outer declares (Finishes outer) b b₁ init)
    (hx : Confined funcs result outer inner b₁ b' x) :
    Confined funcs result vars inner b b' (fun w env => do
      let (env, _) ← init w env
      x w env) := by
  refine ⟨hinit.grown.trans hx.grown, fun w exits shapes k hdepth hin hs => ?_⟩
  obtain ⟨hs₁, hsim⟩ := hx.code w exits shapes k (hinit.grown.depth.trans hdepth) hin hs
  obtain ⟨hs₀, hruns⟩ := hinit.code w exits (.scope :: shapes) _
    ⟨hdepth, hin.cons .scope, fun _ => .inr ⟨shapes, rfl⟩⟩ hs₁
  rw [entry_trans hinit.grown.extend hx.grown.extend] at hs₀ hruns
  exact ⟨hs₀, fun env m he hat => sim_init hruns hsim env m he hat⟩

theorem Confined.within {x : World → Env → Eval (Env × Signal)}
    (hs : BuilderSuits funcs result vars b) (henter : enterScope span b = .ok u b₁)
    (hx : Confined funcs result ([] :: vars) outer b₁ b₂ x) (htail : outer.tail = vars)
    {span' : Span} (hleave : leaveScope span' b₂ = .ok u b') :
    Compiled funcs result vars vars false (KeepsTypes vars) b b' fun w => inBlock (x w) := by
  obtain ⟨ho, -⟩ := enterScope_ok henter
  have hc := leaveScope_ok hleave
  obtain ⟨hgrown, hnames⟩ := hx.grown.within ho hc
  refine ⟨hgrown, hs.of_names hgrown hnames, fun _ => hnames,
    fun w exits shapes k hl hstands => ?_⟩
  obtain ⟨hstands₂, id', hid', hpop⟩ := hc.code _ _ _ _ _ hstands
  obtain ⟨hstands₁, hsim⟩ := hx.code w exits shapes _ (hl.enter ho.depth false).depth hl.inside
    hstands₂
  obtain ⟨hstands₀, id, hid, hpush⟩ := ho.code _ _ _ _ _ hstands₁
  rw [entry_trans hx.grown.extend hc.extend, entry_trans ho.extend
    (hx.grown.extend.trans hc.extend)] at hstands₀ hid
  rw [hid] at hstands₀ ⊢
  rw [hid'] at hsim hpush
  exact ⟨hstands₀, runs_within hpush hsim hpop htail⟩

section

variable {label : Option String} {head j : StepId} {misses : List Slot} {steps : Array Step}
  {c : JumpContext} {rest : List JumpContext} {test : World → Env → Eval Bool}
  {body post : World → Env → Eval (Env × Signal)}

theorem grown_loop (hhead : Emitted .nop b head b₁)
    (htest : Tested funcs outer misses b₁ b₂ test)
    (hopen : OpensScope { b₂ with contexts := ⟨.loop, label, b.depth, b.depth + 1, [], []⟩ :: b₂.contexts }
      b₃ (OpensRound outer))
    (hbody : Grown b₃ b₄) (hcontexts : b₄.contexts = c :: rest)
    (hclose : ClosesScope { b₄ with contexts := rest, pending := b₄.pending ++ c.continues } b₅
      (ClosesRound outer))
    (hpost : Grown b₅ b₆) (hjump : Emitted (.jump b.depth) b₆ j b₇)
    (hlink : Linked b₇.steps [⟨j, .next⟩] head steps)
    (hb : b' = { b₇ with steps, pending := misses ++ c.breaks }) :
    Grown b b' ∧
      JumpContext.GainsJumps ⟨.loop, label, b.depth, b.depth + 1, [], []⟩ c := by
  have hfirst := (onlyBuilds_emitted hhead rfl).grown.trans htest.grown
  have hlast := hpost.trans (onlyBuilds_emitted hjump rfl).grown
  have hgrow := hbody.contexts
  rw [hopen.contexts, hcontexts] at hgrow
  cases hgrow with
  | cons hc hrest =>
      refine ⟨?_, hc⟩
      subst hb
      refine ⟨?_, ?_, ?_, ?_, ?_, fun held ho => ?_⟩
      · exact hlast.setting.trans (hclose.setting.trans (hbody.setting.trans
          (hopen.setting.trans hfirst.setting)))
      · refine hlast.depth.trans (hclose.depth.trans ?_)
        change b₄.depth - 1 = b.depth
        rw [hbody.depth, hopen.depth]
        exact hfirst.depth
      · refine hlast.tail.trans ?_
        rw [hclose.blocks]
        change b₄.names.blocks.tail.tail = _
        rw [hbody.tail, hopen.tail]
        exact hfirst.tail
      · refine (hfirst.contexts.trans hrest).trans ?_
        have hrest' := hlast.contexts
        rwa [hclose.contexts] at hrest'
      · exact hfirst.extend.trans (hopen.extend.trans (hbody.extend.trans (hclose.extend.trans
          (hlast.extend.trans hlink.extend))))
      · have hround : Builder.Open
            { b₂ with contexts := ⟨.loop, label, b.depth, b.depth + 1, [], []⟩ :: b₂.contexts }
            (misses ++ held) :=
          (htest.opened held ((onlyBuilds_emitted hhead rfl).opened held ho)).mono fun x => by
            simp only [jumps_cons, List.nil_append]
            exact Nat.le_refl _
        have hbodied := hbody.opened _ (hopen.opened _ hround)
        unfold Builder.Open at hbodied
        rw [hcontexts] at hbodied
        have hended : Builder.Open
            { b₄ with contexts := rest, pending := b₄.pending ++ c.continues }
            (misses ++ c.breaks ++ held) :=
          hbodied.mono fun x => by
            simp only [jumps_cons, List.count_append]
            omega
        have hjumped := hlast.opened _ (hclose.opened _ hended)
        have hpending : b₇.pending = [⟨j, .next⟩] := by rw [hjump.state]
        unfold Builder.Open at hjumped
        rw [hpending] at hjumped
        refine (hjumped.linked hlink).mono fun x => ?_
        simp only [List.count_append]
        omega

-- The rounds of a loop.
theorem confined_loop (hhead : Emitted .nop b head b₁)
    (htest : Tested funcs outer misses b₁ b₂ test)
    (hopen : OpensScope { b₂ with contexts := ⟨.loop, label, b.depth, b.depth + 1, [], []⟩ :: b₂.contexts }
      b₃ (OpensRound outer))
    (hbody : Compiled funcs result outer outer false (KeepsTypes outer) b₃ b₄ body)
    (hcontexts : b₄.contexts = c :: rest)
    (hclose : ClosesScope { b₄ with contexts := rest, pending := b₄.pending ++ c.continues } b₅
      (ClosesRound outer))
    (hpost : Compiled funcs result outer outer false (Finishes outer) b₅ b₆ post)
    (hjump : Emitted (.jump b.depth) b₆ j b₇) (hlink : Linked b₇.steps [⟨j, .next⟩] head steps)
    (hb : b' = { b₇ with steps, pending := misses ++ c.breaks }) :
    Confined funcs result outer outer b b' (fun w env =>
      rounds label (test w) (body w) (fun env => do return (← post w env).1) w.rounds env) := by
  obtain ⟨hgrown, hgrows⟩ := grown_loop hhead htest hopen hbody.grown hcontexts hclose hpost.grown
    hjump hlink hb
  refine ⟨hgrown, fun w exits shapes k hdepth hin hs => ?_⟩
  have hdepth₁ : b₁.depth = b.depth := (onlyBuilds_emitted hhead rfl).grown.depth
  have hdepth₃ : b₃.depth = depth (.round :: shapes) := by
    rw [hopen.depth]
    change b₂.depth + 1 = _
    rw [htest.grown.depth, hdepth₁, hdepth]
    simp only [depth_cons, Shape.scopes]
    omega
  have hdepth₅ : b₅.depth = depth (.scope :: shapes) := by
    rw [hclose.depth]
    change b₄.depth - 1 = _
    rw [hbody.grown.depth, hdepth₃]
    simp only [depth_cons, Shape.scopes]
    omega
  subst hb
  -- From the end of the loop back to its head: each part leads to the one behind it.
  have hmisses : AllLead w.steps misses k := fun slot h =>
    hs.leads slot (List.mem_append_left _ h)
  have hs₇ : WorldHasBuilder funcs result w exits b₇ (some head) := by
    refine ⟨⟨hs.sound, hs.funcs, hlink.extend.trans hs.extend, ?_⟩, hs.result, hs.meets⟩
    rw [hjump.state]
    exact fun slot h => (hlink.leads slot h).extend hs.extend
  obtain ⟨hs₆, hentry, hjumps⟩ := hs₇.coded (coded_emitted hjump fun _ => rfl)
  rw [hentry] at hs₆
  obtain ⟨hs₅, hruns₅⟩ := hpost.code w exits (.scope :: shapes) _
    ⟨hdepth₅, hin.cons .scope, fun h => absurd h Bool.false_ne_true⟩ hs₆
  obtain ⟨hs₄, hcloses⟩ := hclose.code _ _ _ _ _ hs₅
  generalize Builder.entry _ b₅ _ = kcont at hs₄ hcloses
  have hs₄' : WorldHasBuilder funcs result w (⟨.loop, label, shapes, k, kcont⟩ :: exits) b₄
    kcont := by
    refine ⟨⟨hs.sound, hs.funcs, hs₄.extend, fun slot h =>
      hs₄.leads slot (List.mem_append_left _ h)⟩, hs.result, ?_⟩
    rw [hcontexts]
    refine .cons ⟨hgrows.kind, hgrows.label, hgrows.breakDepth.trans hdepth, fun _ => ?_,
      fun slot h => hs.leads slot (List.mem_append_right _ h),
      fun _ slot h => hs₄.leads slot (List.mem_append_right _ h)⟩ hs₄.meets
    rw [hgrows.continueDepth, hdepth]
    simp only [depth_cons, Shape.scopes]
    omega
  have hin' : ExitsInside (⟨.loop, label, shapes, k, kcont⟩ :: exits) (.round :: shapes) := by
    intro e he
    rcases List.mem_cons.mp he with rfl | he
    · exact ⟨[], rfl⟩
    · exact hin.cons .round e he
  obtain ⟨hs₃, hruns₃⟩ := hbody.code w _ (.round :: shapes) kcont ⟨hdepth₃, hin', fun h =>
    absurd h Bool.false_ne_true⟩ hs₄'
  obtain ⟨hs₂, hopens⟩ := hopen.code _ _ _ _ _ hs₃
  generalize Builder.entry _ b₃ _ = kround at hs₂ hopens
  have hs₂' : WorldHasBuilder funcs result w exits b₂ kround := by
    refine ⟨⟨hs.sound, hs.funcs, hs₂.extend, hs₂.leads⟩, hs.result, ?_⟩
    cases hs₂.meets with
    | cons _ hmeets => exact hmeets
  obtain ⟨hs₁, htests⟩ := htest.code result w exits _ k hs₂' hmisses
  obtain ⟨hs₀, hentry₀, hnop⟩ := hs₁.coded (coded_emitted hhead fun _ => rfl)
  have hstart : b.entry { b₇ with steps, pending := misses ++ c.breaks } k = some head := by
    have hlater := htest.grown.extend.trans (hopen.extend.trans (hbody.grown.extend.trans
      (hclose.extend.trans (hpost.grown.extend.trans (hjump.extend.trans hlink.extend)))))
    rw [← entry_before (.refl _) hhead hlater, b.entry_self]
  rw [hentry₀] at hs₀
  rw [hstart]
  refine ⟨hs₀, fun env m he hat => ?_⟩
  refine sim_rounds hnop (htests _) (hopens _) hruns₃ (hcloses _) (fun env m he hat => ?_)
    (hdepth ▸ hjumps) hin w.rounds (Nat.le_refl _) env m he hat
  refine (hruns₅ env m he hat).bind fun r k₁ m₁ hgood => ?_
  obtain ⟨env₁, signal⟩ := r
  obtain ⟨⟨hdone, he₁⟩, hlands⟩ := hgood
  obtain rfl : signal = .done := hdone
  exact .pure ⟨hlands.1, he₁, hlands.2⟩

end

end StepGraph.Structured

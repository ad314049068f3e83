import Mathlib.Data.List.Nodup
import StepGraph.Proofs.Compile.Stances

open EStateM (bind_eq_ok)

namespace StepGraph

-- The labels on a statement. There may be several.
def Stmt.labels : Stmt → List String
  | .labeled _ l body => l :: body.labels
  | _ => []

-- The labels that a statement in a list may name, besides those around the list.
def labelsOf (body : List Stmt) : List String := body.flatMap (·.labels)

mutual

-- Whether every `goto` in a statement names a label of a statement list around it. `around` are the
-- labels of the lists that the statement stands in.
def Stmt.gotosLeave (around : List String) : Stmt → Bool
  | .block _ body => gotosLeaveAll (labelsOf body ++ around) body
  | .cond _ init _ yes no =>
      gotosLeaveOptional around init && (gotosLeaveAll (labelsOf yes ++ around) yes &&
        gotosLeaveOptional around no)
  | .loop _ init _ post body =>
      gotosLeaveOptional around init && (gotosLeaveAll (labelsOf body ++ around) body &&
        gotosLeaveOptional around post)
  | .range _ _ _ _ _ body => gotosLeaveAll (labelsOf body ++ around) body
  | .switch _ init _ clauses => gotosLeaveOptional around init && gotosLeaveClauses around clauses
  | .typeSwitch _ init _ _ clauses =>
      gotosLeaveOptional around init && gotosLeaveTypeClauses around clauses
  | .labeled _ _ body => body.gotosLeave around
  | .goto _ l => around.contains l
  | _ => true

def gotosLeaveAll (around : List String) : List Stmt → Bool
  | [] => true
  | s :: rest => s.gotosLeave around && gotosLeaveAll around rest

def gotosLeaveOptional (around : List String) : Option Stmt → Bool
  | some s => s.gotosLeave around
  | none => true

def gotosLeaveClauses (around : List String) : List Clause → Bool
  | [] => true
  | ⟨_, _, body⟩ :: rest =>
      gotosLeaveAll (labelsOf body ++ around) body && gotosLeaveClauses around rest

def gotosLeaveTypeClauses (around : List String) : List TypeClause → Bool
  | [] => true
  | ⟨_, _, body⟩ :: rest =>
      gotosLeaveAll (labelsOf body ++ around) body && gotosLeaveTypeClauses around rest

end

-- Every `goto` of a function leads out of the statements that it stands in, if out of any.
def gotosLeave (body : List Stmt) : Bool := gotosLeaveAll (labelsOf body) body

open Build

section marks

variable {around : List String} {marks all : List Mark} {n : Nat}

-- The labels around have marks, none of them deeper than this.
def Marked (all : List Mark) (around : List String) (n : Nat) : Prop :=
  ∀ l ∈ around, ∃ k ≤ n, .label l k ∈ all

-- The labels that the jumps name have marks, none of them deeper than the jump.
def GotosMarked (all marks : List Mark) : Prop :=
  ∀ l n, .goto l n ∈ marks → ∃ k ≤ n, .label l k ∈ all

namespace GotosMarked

theorem nil : GotosMarked all [] := nofun

theorem append {marks' : List Mark} (h : GotosMarked all marks) (h' : GotosMarked all marks') :
    GotosMarked all (marks ++ marks') := fun l n hmem =>
  (List.mem_append.mp hmem).elim (h l n) (h' l n)

theorem cons {x : Mark} (h : GotosMarked all marks) (hx : ∀ l n, x ≠ .goto l n) :
    GotosMarked all (x :: marks) := fun l n hmem =>
  (List.mem_cons.mp hmem).elim (fun heq => absurd heq.symm (hx l n)) (h l n)

end GotosMarked

theorem Marked.mono {n' : Nat} (h : Marked all around n) (hn : n ≤ n') : Marked all around n' :=
  fun l hl => let ⟨k, hk, hmem⟩ := h l hl; ⟨k, Nat.le_trans hk hn, hmem⟩

theorem label_mem_marks {l : String} : ∀ s : Stmt, l ∈ s.labels → Mark.label l n ∈ s.marks n
  | .labeled _ _ body, h => (List.mem_cons.mp h).elim
      (fun heq => heq ▸ List.mem_cons_self)
      (fun hmem => List.mem_cons_of_mem _ (label_mem_marks body hmem))

theorem label_mem_marksOf {l : String} {body : List Stmt} (h : l ∈ labelsOf body) :
    Mark.label l n ∈ marksOf body n := by
  induction body with
  | nil => cases h
  | cons s rest ih =>
      unfold labelsOf at h ih
      rw [List.flatMap_cons] at h
      rcases List.mem_append.mp h with h | h
      · exact List.mem_append_left _ (label_mem_marks s h)
      · exact List.mem_append_right _ (ih h)

-- The labels of a list stand at its depth.
theorem Marked.inside {body : List Stmt} {n' : Nat} (h : Marked all around n) (hn : n ≤ n')
    (hbody : marksOf body n' ⊆ all) : Marked all (labelsOf body ++ around) n' := fun l hl =>
  (List.mem_append.mp hl).elim (fun hl => ⟨n', Nat.le_refl _, hbody (label_mem_marksOf hl)⟩)
    (h.mono hn l)

mutual

-- The depth only grows on the way into a statement.
theorem gotosMarked : ∀ (s : Stmt) (around : List String) (n : Nat), s.gotosLeave around = true →
    s.marks n ⊆ all → Marked all around n → GotosMarked all (s.marks n)
  | .block _ body, around, n, h, hall, hm =>
      gotosMarked_all body _ _ h hall (hm.inside (depth_le_blockDepth body n) hall)
  | .cond _ init _ yes no, around, n, h, hall, hm => by
      have hn : n ≤ if init.isSome then n + 1 else n := by split <;> omega
      simp only [Stmt.gotosLeave, Bool.and_eq_true] at h
      simp only [Stmt.marks, List.append_subset] at hall ⊢
      obtain ⟨hinit, hyes, hno⟩ := h
      exact (gotosMarked_optional init _ _ hinit hall.1 (hm.mono hn)).append <|
        (gotosMarked_all yes _ _ hyes hall.2.1
          (hm.inside (Nat.le_trans hn (depth_le_blockDepth yes _)) hall.2.1)).append
        (gotosMarked_optional no _ _ hno hall.2.2 (hm.mono hn))
  | .loop _ init _ post body, around, n, h, hall, hm => by
      simp only [Stmt.gotosLeave, Bool.and_eq_true] at h
      simp only [Stmt.marks, List.append_subset] at hall ⊢
      obtain ⟨hinit, hbody, hpost⟩ := h
      have hn : n ≤ n + 1 := Nat.le_succ n
      have hdeep : n ≤ blockDepth body (n + 2) :=
        Nat.le_trans (Nat.le_add_right n 2) (depth_le_blockDepth body _)
      exact (gotosMarked_optional init _ _ hinit hall.1 (hm.mono hn)).append <|
        (gotosMarked_all body _ _ hbody hall.2.1 (hm.inside hdeep hall.2.1)).append <|
        (gotosMarked_optional post _ _ hpost hall.2.2.1 (hm.mono hn)).append
        (GotosMarked.nil.cons nofun)
  | .range _ _ _ _ _ body, around, n, h, hall, hm => by
      simp only [Stmt.marks, List.append_subset] at hall ⊢
      have hdeep : n ≤ blockDepth body (n + 2) :=
        Nat.le_trans (Nat.le_add_right n 2) (depth_le_blockDepth body _)
      exact (gotosMarked_all body _ _ h hall.1 (hm.inside hdeep hall.1)).append
        (GotosMarked.nil.cons nofun)
  | .switch _ init _ clauses, around, n, h, hall, hm => by
      simp only [Stmt.gotosLeave, Bool.and_eq_true] at h
      simp only [Stmt.marks, List.append_subset] at hall ⊢
      exact (gotosMarked_optional init _ _ h.1 hall.1 (hm.mono (Nat.le_succ n))).append
        (gotosMarked_clauses clauses _ _ h.2 hall.2 (hm.mono (Nat.le_add_right n 2)))
  | .typeSwitch _ init _ _ clauses, around, n, h, hall, hm => by
      simp only [Stmt.gotosLeave, Bool.and_eq_true] at h
      simp only [Stmt.marks, List.append_subset] at hall ⊢
      exact (gotosMarked_optional init _ _ h.1 hall.1 (hm.mono (Nat.le_succ n))).append
        (gotosMarked_typeClauses clauses _ _ h.2 hall.2 (hm.mono (Nat.le_add_right n 2)))
  | .labeled _ l body, around, n, h, hall, hm =>
      GotosMarked.cons (gotosMarked body around n h (List.subset_of_cons_subset hall) hm) nofun
  | .goto _ l, around, n, h, hall, hm => by
      intro l' k hmem
      cases List.mem_singleton.mp hmem
      exact hm l (List.contains_iff_mem.mp h)
  | .brk .., _, _, _, _, _ => GotosMarked.nil.cons nofun
  | .cont .., _, _, _, _, _ => GotosMarked.nil.cons nofun
  | .empty .., _, _, _, _, _ | .expr .., _, _, _, _, _ | .define .., _, _, _, _, _
  | .var .., _, _, _, _, _ | .const .., _, _, _, _, _ | .typeDecl .., _, _, _, _, _
  | .assign .., _, _, _, _, _ | .opAssign .., _, _, _, _, _ | .incDec .., _, _, _, _, _
  | .send .., _, _, _, _, _ | .ret .., _, _, _, _, _ | .fallthrough .., _, _, _, _, _
  | .defer .., _, _, _, _, _ | .go .., _, _, _, _, _ => .nil

theorem gotosMarked_all : ∀ (body : List Stmt) (around : List String) (n : Nat),
    gotosLeaveAll around body = true → marksOf body n ⊆ all → Marked all around n →
      GotosMarked all (marksOf body n)
  | [], _, _, _, _, _ => .nil
  | s :: rest, around, n, h, hall, hm => by
      simp only [gotosLeaveAll, Bool.and_eq_true] at h
      simp only [marksOf, List.append_subset] at hall ⊢
      exact (gotosMarked s around n h.1 hall.1 hm).append
        (gotosMarked_all rest around n h.2 hall.2 hm)

theorem gotosMarked_optional : ∀ (s : Option Stmt) (around : List String) (n : Nat),
    gotosLeaveOptional around s = true → marksOfOptional s n ⊆ all → Marked all around n →
      GotosMarked all (marksOfOptional s n)
  | none, _, _, _, _, _ => .nil
  | some s, around, n, h, hall, hm => gotosMarked s around n h hall hm

theorem gotosMarked_clauses : ∀ (clauses : List Clause) (around : List String) (n : Nat),
    gotosLeaveClauses around clauses = true → marksOfClauses clauses n ⊆ all →
      Marked all around n → GotosMarked all (marksOfClauses clauses n)
  | [], _, _, _, _, _ => .nil
  | ⟨_, _, body⟩ :: rest, around, n, h, hall, hm => by
      simp only [gotosLeaveClauses, Bool.and_eq_true] at h
      simp only [marksOfClauses, List.append_subset] at hall ⊢
      exact (gotosMarked_all body _ _ h.1 hall.1 (hm.inside (Nat.le_refl n) hall.1)).append
        (gotosMarked_clauses rest around n h.2 hall.2 hm)

theorem gotosMarked_typeClauses : ∀ (clauses : List TypeClause) (around : List String) (n : Nat),
    gotosLeaveTypeClauses around clauses = true → marksOfTypeClauses clauses n ⊆ all →
      Marked all around n → GotosMarked all (marksOfTypeClauses clauses n)
  | [], _, _, _, _, _ => .nil
  | ⟨_, _, body⟩ :: rest, around, n, h, hall, hm => by
      simp only [gotosLeaveTypeClauses, Bool.and_eq_true] at h
      simp only [marksOfTypeClauses, List.append_subset] at hall ⊢
      exact (gotosMarked_all body _ _ h.1 hall.1 (hm.inside (Nat.le_refl n) hall.1)).append
        (gotosMarked_typeClauses rest around n h.2 hall.2 hm)

end

-- A function has the label that a jump of it names, and not at a greater depth.
theorem gotosMarked_body {body : List Stmt} (h : gotosLeave body = true) :
    GotosMarked (marksOf body 0) (marksOf body 0) := by
  have hnone : Marked (marksOf body 0) [] 0 := nofun
  have hlabels := hnone.inside (Nat.le_refl 0) (List.Subset.refl (marksOf body 0))
  rw [List.append_nil] at hlabels
  exact gotosMarked_all body _ 0 h (List.Subset.refl _) hlabels

end marks

-- The builder has entered so many more scopes than it has left.
def Builder.CountsScopes (b : Builder) : Prop := b.depth = emissionDepth b.steps b.steps.size

namespace Builder.CountsScopes

variable {b b' b₁ : Builder} {op : StepOp} {id : StepId}

theorem moved (h : b.CountsScopes) (hsteps : b'.steps = b.steps) (hdepth : b'.depth = b.depth) :
    b'.CountsScopes := by
  unfold CountsScopes at h ⊢
  rw [hsteps, hdepth, h]

theorem emitted (h : b.CountsScopes) (he : Emitted op b id b₁) :
    op.depthEmitted b.depth = emissionDepth b₁.steps b₁.steps.size := by
  obtain ⟨u, hu, hbare⟩ := he.step
  have hlast := emissionDepth_succ hu
  rw [he.id_eq, he.extend.emissionDepth_eq (Nat.le_refl _), ← h, ← he.size_eq] at hlast
  rw [hlast, ← StepOp.depthEmitted_bare, ← hbare, StepOp.depthEmitted_bare]

-- The same of a step that neither enters nor leaves a scope.
theorem emitted_flat (h : b.CountsScopes) (he : Emitted op b id b₁)
    (hflat : op.depthEmitted b.depth = b.depth) : b₁.CountsScopes :=
  he.depth.trans (hflat.symm.trans (h.emitted he))

theorem linked {steps : Array Step} (h : b.CountsScopes) (he : StepsExtend b.steps steps)
    (hsize : steps.size = b.steps.size) (hsteps : b'.steps = steps) (hdepth : b'.depth = b.depth) :
    b'.CountsScopes := by
  unfold CountsScopes at h ⊢
  rw [hsteps, hdepth, hsize, he.emissionDepth_eq (Nat.le_refl _), h]

end Builder.CountsScopes

section progress

variable {stage : Stage} {s s' : Site} {b b' : Builder} {marks before : List Mark}
  {starts : List StepId}

theorem Progress.counts (h : Progress stage s b marks starts s' b') (hb : b.CountsScopes) :
    b'.CountsScopes := by
  induction h with
  | refl | names | take | put | forget | literal | drop | start | flag | push | pop =>
      exact hb.moved rfl rfl
  | trans _ _ ih₁ ih₂ => exact ih₂ (ih₁ hb)
  | emit _ he =>
      have hdepth := hb.emitted he
      exact hdepth
  | ret _ he | leave _ _ _ he | again _ _ _ he | goto _ _ _ he =>
      exact (hb.emitted_flat he rfl).moved rfl rfl
  | label _ _ _ he => exact (hb.emitted_flat he rfl).moved rfl rfl
  | round _ _ _ _ he hlinked _ _ hrounds =>
      exact (hb.emitted_flat he rfl).linked (hlinked.extend.trans hrounds.extend)
        (hrounds.size.trans hlinked.size) rfl rfl
  | @defer s b b₁ b₂ args spread builtin id _ _ _ _ he ih =>
      have hcalled : { b₁ with pending := b.pending }.CountsScopes := (ih (hb.moved rfl rfl)).moved rfl rfl
      exact hcalled.emitted_flat he rfl

-- What is known of the labels and the jumps to labels of a builder at work that has left these
-- marks.
structure Landmarks (marks : List Mark) (b : Builder) : Prop where
  distinct : (b.labels.map (·.1)).Nodup
  labels : ∀ l n, .label l n ∈ marks → ∃ target, (l, target) ∈ b.labels ∧ target.depth = n
  gotos : ∀ g ∈ b.gotos, g.jump < b.steps.size ∧
    .goto g.label (emissionDepth b.steps g.jump) ∈ marks

namespace Landmarks

theorem start (names : Names) (code : Array Function) (sig : Signature) :
    Landmarks [] (.start names code sig) :=
  ⟨List.nodup_nil, nofun, nofun⟩

-- Where neither a label nor a jump to one was added.
theorem same (h : Landmarks marks b) (he : StepsExtend b.steps b'.steps)
    (hlabels : b'.labels = b.labels) (hgotos : b'.gotos = b.gotos) : Landmarks marks b' where
  distinct := hlabels ▸ h.distinct
  labels := hlabels ▸ h.labels
  gotos g hg := by
    obtain ⟨hlt, hmem⟩ := h.gotos g (hgotos ▸ hg)
    refine ⟨Nat.lt_of_lt_of_le hlt he.size_le, ?_⟩
    rwa [he.emissionDepth_eq (Nat.le_of_lt hlt)]

-- Only labels and jumps to labels count among the marks.
theorem mark {x : Mark} (h : Landmarks marks b) (hx : ∀ l n, x ≠ .label l n) :
    Landmarks (marks ++ [x]) b where
  distinct := h.distinct
  labels l n hmem := (List.mem_append.mp hmem).elim (h.labels l n) fun hnew =>
    absurd (List.mem_singleton.mp hnew).symm (hx l n)
  gotos g hg := (h.gotos g hg).imp_right (List.mem_append_left _)

-- A label has one target.
theorem lookup (h : Landmarks marks b) {l : String} {target found : LabelTarget}
    (hmem : (l, target) ∈ b.labels) (hfound : b.labels.lookup l = some found) :
    found = target := by
  obtain ⟨l₁, l₂, hsplit, -⟩ := List.lookup_eq_some_iff.mp hfound
  have hfound : (l, found) ∈ b.labels := by rw [hsplit]; simp
  have hsame := List.inj_on_of_nodup_map h.distinct hfound hmem rfl
  exact congrArg Prod.snd hsame

end Landmarks

-- Every label has its mark, and every jump to a label has one at the depth of its step.
theorem Progress.landmarks (h : Progress stage s b marks starts s' b') (hf : SiteFits s b)
    (hb : b.CountsScopes) (hl : Landmarks before b) : Landmarks (before ++ marks) b' := by
  induction h generalizing before with
  | refl | names | take | put | forget | literal | drop | start | flag | push | pop =>
      rw [List.append_nil]
      exact hl.same (.refl _) rfl rfl
  | trans hfirst _ ih₁ ih₂ =>
      rw [← List.append_assoc]
      exact ih₂ (hfirst.fits hf) (hfirst.counts hb) (ih₁ hf hb hl)
  | emit _ he | ret _ he =>
      rw [List.append_nil]
      exact hl.same he.extend he.labels he.gotos
  | leave _ _ _ he | again _ _ _ he =>
      exact (hl.mark fun _ _ => Mark.noConfusion).same he.extend he.labels he.gotos
  | @goto s b b₁ id label span _ he =>
      have hold := hl.same he.extend he.labels he.gotos
      refine ⟨hold.distinct, fun l n hmem => ?_, fun g hg => ?_⟩
      · refine hold.labels l n ((List.mem_append.mp hmem).resolve_right fun hnew => ?_)
        cases List.mem_singleton.mp hnew
      · rcases List.mem_append.mp hg with hg | hg
        · exact (hold.gotos g hg).imp_right (List.mem_append_left _)
        · obtain rfl := List.mem_singleton.mp hg
          refine ⟨he.id_eq ▸ he.size_lt, List.mem_append_right _ (List.mem_singleton.mpr ?_)⟩
          change Mark.goto label (emissionDepth b₁.steps id) = _
          rw [he.id_eq, he.extend.emissionDepth_eq (Nat.le_refl _), ← hb, hf.depth]
  | @label s b b₁ id label hfresh _ he =>
      have hold := hl.same he.extend he.labels he.gotos
      refine ⟨?_, fun l n hmem => ?_, fun g hg => ?_⟩
      · change ((label, (⟨id, b₁.depth⟩ : LabelTarget)) :: b₁.labels |>.map (·.1)).Nodup
        rw [List.map_cons, List.nodup_cons]
        refine ⟨fun hmem => ?_, hold.distinct⟩
        obtain ⟨x, hx, hsame⟩ := List.mem_map.mp hmem
        rw [he.labels] at hx
        exact bne_iff_ne.mp (List.lookup_eq_none_iff.mp hfresh x hx) hsame.symm
      · rcases List.mem_append.mp hmem with hmem | hmem
        · obtain ⟨target, htarget, hn⟩ := hold.labels l n hmem
          exact ⟨target, List.mem_cons_of_mem _ htarget, hn⟩
        · cases List.mem_singleton.mp hmem
          exact ⟨⟨id, b₁.depth⟩, List.mem_cons_self, he.depth.trans hf.depth.symm⟩
      · exact (hold.gotos g hg).imp_right (List.mem_append_left _)
  | round _ _ _ _ he hlinked _ _ hrounds =>
      have hold : Landmarks (before ++ [.round]) _ :=
        (hl.mark fun _ _ => Mark.noConfusion).same he.extend he.labels he.gotos
      exact hold.same (hlinked.extend.trans hrounds.extend) rfl rfl
  | @defer s b b₁ b₂ args spread builtin id _ _ _ _ he ih =>
      have hinner := ih ⟨hf.depth, hf.contexts⟩ (hb.moved rfl rfl) (hl.same (.refl _) rfl rfl)
      exact hinner.same he.extend he.labels he.gotos

end progress

-- No step of a function leaves more scopes than the builder had entered when it emitted the step.
-- The jumps to labels get their depth at the end, all others when they are emitted.
theorem Origin.Makes.leavesAtMost {o : Origin} {names : Names} {code : Array Function}
    {types : TypeTable} {f : Function} (h : o.Makes names code types f)
    (hgotos : gotosLeave o.body = true) {i : StepId} {s : Step} (hs : f.steps[i]? = some s) :
    s.op.LeavesAtMost (emissionDepth f.steps i) := by
  obtain ⟨b, hprogress, hres, -, -⟩ := h.work
  have hnodup := (hprogress.linear (linear_start ..)).nodup_gotos
  obtain ⟨log, -, hp⟩ := hprogress.plotted (fits_start ..) (fun _ => rfl) (fun _ _ _ _ _ _ hi => hi)
    (plotted_start names code o.sig)
  have hland := hprogress.landmarks (fits_start ..) rfl (.start names code o.sig)
  rw [List.nil_append] at hland
  obtain ⟨u, hu, hcase⟩ := hres.step hs
  have hlt := (Array.getElem?_eq_some_iff.mp hu).1
  rw [hp.emissionDepth_eq hnodup hres (Nat.le_of_lt hlt)]
  rcases hcase with hbare | ⟨g, hg, rfl, target, htarget, hop⟩
  · obtain ⟨st, hst⟩ := Option.isSome_iff_exists.mp (hp.total i (Nat.zero_le i) hlt)
    have hdown := hp.downward i u st hu hst
    rw [hp.depths i st hst] at hdown
    rwa [← StepOp.leavesAtMost_bare, hbare, StepOp.leavesAtMost_bare]
  · obtain ⟨k, hk, hlabel⟩ := gotosMarked_body hgotos _ _ (hland.gotos g hg).2
    obtain ⟨found, hfound, rfl⟩ := hland.labels _ k hlabel
    rw [hop, hland.lookup hfound htarget]
    exact StepOp.leavesAtMost_jump hk

-- What there is of a function when its jumps to labels are resolved. They are still jumps to nowhere,
-- and keep all depths.
theorem Origin.Makes.finished {o : Origin} {names : Names} {code : Array Function}
    {types : TypeTable} {f : Function} (h : o.Makes names code types f) : ∃ b,
    (do o.head; compileStmts o.body : Build Unit) (.start names code o.sig) = .ok () b ∧
    GotosResolve b.labels b.gotos b.steps f.steps ∧ Landmarks (marksOf o.body 0) b ∧
    (∀ g ∈ b.gotos, ∃ s, b.steps[g.jump]? = some s ∧ s.op = .jump 0) ∧
    ∀ i ≤ b.steps.size, emissionDepth f.steps i = emissionDepth b.steps i := by
  obtain ⟨ref, b', hbuild, hf, -⟩ := h
  rw [o.build_eq, ← bind_assoc] at hbuild
  obtain ⟨_, b, hwork, hfinish⟩ := bind_eq_ok.mp hbuild
  obtain ⟨steps, hres, rfl, rfl⟩ := Build.finish_ok hfinish
  rw [Array.getElem?_push_size] at hf
  cases hf
  have hprogress := (o.performs (.start names code o.sig) (fits_start ..)).progress () b hwork
  have hnodup := (hprogress.linear (linear_start ..)).nodup_gotos
  obtain ⟨log, -, hp⟩ := hprogress.plotted (fits_start ..) (fun _ => rfl) (fun _ _ _ _ _ _ hi => hi)
    (plotted_start names code o.sig)
  have hland := hprogress.landmarks (fits_start ..) rfl (.start names code o.sig)
  rw [List.nil_append] at hland
  exact ⟨b, hwork, hres, hland, fun g hg => ((hp.around rfl).gotos g hg).2,
    fun i => hp.emissionDepth_eq hnodup hres⟩

end StepGraph

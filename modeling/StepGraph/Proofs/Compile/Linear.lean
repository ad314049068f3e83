import StepGraph.Proofs.Compile.Progress

namespace StepGraph

-- The site tells the depth of the builder and what is around.
structure SiteFits (s : Site) (b : Builder) : Prop where
  depth : s.depth = b.depth
  contexts : s.contexts = b.contexts.map (·.bare)

-- The successors of jumps to labels.
def Builder.gotoSlots (b : Builder) : List Slot := b.gotos.map fun g => ⟨g.jump, .next⟩

-- All successors that are still to be linked.
def Site.listed (s : Site) (b : Builder) : List Slot :=
  b.pending ++ ((s.slots ++ b.gotoSlots) ++ jumps b.contexts)

-- A step that can have two successors.
def StepForks (steps : Array Step) (i : StepId) : Prop :=
  ∃ s, steps[i]? = some s ∧ (s.op.gives .other).isSome

-- A successor that the step has and that leads nowhere yet.
def IsLinkable (steps : Array Step) (slot : Slot) : Prop :=
  LeadsTo steps slot none ∧ (slot.edge = .other → StepForks steps slot.step)

-- What is still to be linked is open and stands nowhere twice, and is there to be linked.
structure Linear (s : Site) (b : Builder) : Prop where
  isOpen : AreOpen b.steps (s.listed b)
  forks : ∀ x ∈ s.listed b, x.edge = .other → StepForks b.steps x.step

theorem StepForks.extend {steps steps' : Array Step} {i : StepId} (h : StepForks steps i)
    (he : StepsExtend steps steps') : StepForks steps' i := by
  obtain ⟨s, hs, hgives⟩ := h
  obtain ⟨s', hs', hbelow⟩ := he i s hs
  refine ⟨s', hs', ?_⟩
  rwa [← StepOp.gives_bare, hbelow.bare, StepOp.gives_bare]

section contexts

variable (p : JumpContext → Bool) (contexts : List JumpContext) (slot : Slot)

theorem map_bare_modifyContext {f : JumpContext → JumpContext}
    (hf : ∀ c : JumpContext, (f c).bare = c.bare) :
    (Build.modifyContext p f contexts).map (·.bare) = contexts.map (·.bare) := by
  induction contexts with
  | nil => rfl
  | cons c rest ih =>
      unfold Build.modifyContext
      split
      · rw [List.map_cons, List.map_cons, hf]
      · rw [List.map_cons, List.map_cons, ih]

theorem count_jumps_modifyContext {f : JumpContext → JumpContext} (x : Slot)
    (hf : ∀ c : JumpContext, ((f c).breaks ++ (f c).continues).count x ≤
      (c.breaks ++ c.continues).count x + [slot].count x) :
    (jumps (Build.modifyContext p f contexts)).count x ≤
      (jumps contexts).count x + [slot].count x := by
  induction contexts with
  | nil => exact Nat.le_add_right _ _
  | cons c rest ih =>
      have hc := hf c
      unfold Build.modifyContext
      split <;> simp only [jumps_cons, List.count_append] at * <;> omega

theorem count_leaving (x : Slot) (c : JumpContext) :
    ((c.leaving slot).breaks ++ (c.leaving slot).continues).count x ≤
      (c.breaks ++ c.continues).count x + [slot].count x := by
  simp only [JumpContext.leaving, List.count_append]
  omega

theorem count_repeating (x : Slot) (c : JumpContext) :
    ((c.repeating slot).breaks ++ (c.repeating slot).continues).count x ≤
      (c.breaks ++ c.continues).count x + [slot].count x := by
  simp only [JumpContext.repeating, List.count_append]
  omega

end contexts

namespace Build.Emitted

variable {op : StepOp} {id : StepId} {b b' : Builder}

theorem contexts (h : Emitted op b id b') : b'.contexts = b.contexts := congrArg (·.contexts) h.state

theorem gotos (h : Emitted op b id b') : b'.gotos = b.gotos := congrArg (·.gotos) h.state

theorem depth (h : Emitted op b id b') : b'.depth = b.depth := congrArg (·.depth) h.state

theorem labels (h : Emitted op b id b') : b'.labels = b.labels := congrArg (·.labels) h.state

theorem names (h : Emitted op b id b') : b'.names = b.names := congrArg (·.names) h.state

theorem code (h : Emitted op b id b') : b'.code = b.code := congrArg (·.code) h.state

theorem hasDefer (h : Emitted op b id b') : b'.hasDefer = b.hasDefer :=
  congrArg (·.hasDefer) h.state

theorem pending (h : Emitted op b id b') : b'.pending = [⟨id, .next⟩] :=
  congrArg (·.pending) h.state

theorem size_eq (h : Emitted op b id b') : b'.steps.size = b.steps.size + 1 := by
  obtain ⟨span, hl⟩ := h.linked
  rw [hl.size, Array.size_push]

-- The new step has the operation.
theorem step (h : Emitted op b id b') : ∃ u, b'.steps[id]? = some u ∧ u.op.bare = op.bare := by
  obtain ⟨span, hl⟩ := h.linked
  obtain ⟨u, hu, hbelow⟩ := hl.extend id ⟨op, none, span⟩ (by rw [h.id_eq, Array.getElem?_push_size])
  exact ⟨u, hu, hbelow.bare⟩

end Build.Emitted

namespace StepOp

-- The successors of a new step.
def slotsOf (op : StepOp) (id : StepId) : List Slot :=
  ⟨id, .next⟩ :: ((op.gives .other).map fun _ => (⟨id, .other⟩ : Slot)).toList

theorem count_slotsOf_le (op : StepOp) (id : StepId) (x : Slot) :
    (op.slotsOf id).count x ≤ [(⟨id, .next⟩ : Slot), ⟨id, .other⟩].count x := by
  unfold slotsOf
  cases op.gives .other with
  | none =>
      simp only [Option.map_none, Option.toList_none, List.count_cons, List.count_nil]
      omega
  | some given => exact Nat.le_refl _

end StepOp

theorem StepOp.other?_of_isPlain {op : StepOp} (h : op.isPlain = true) : op.other? = none := by
  cases op <;> first | rfl | simpa [isPlain] using h

theorem Site.count_listed (s : Site) (b : Builder) (x : Slot) : (s.listed b).count x =
    b.pending.count x + (s.slots.count x + b.gotoSlots.count x + (jumps b.contexts).count x) := by
  unfold listed
  rw [List.count_append, List.count_append, List.count_append]

theorem Site.count_slots_emitted (s : Site) (op : StepOp) (rest : List Item) (id : StepId)
    (x : Slot) : (s.emitted op rest id).slots.count x + [(⟨id, .next⟩ : Slot)].count x =
      (op.slotsOf id).count x + s.slots.count x := by
  unfold emitted slots StepOp.slotsOf
  cases op.gives .other with
  | none => simp [Nat.add_comm]
  | some given =>
      simp only [Option.map_some, Option.toList_some, List.map_append, List.map_cons, List.map_nil,
        List.count_append, List.count_cons, List.count_nil]
      omega

namespace Site

theorem slot_loose (s : Site) (slots : List Slot) : (slots.map s.loose).map (·.slot) = slots := by
  rw [List.map_map]
  exact List.map_id _

theorem loose_told (s : Site) {slots : List Slot} :
    ∀ x ∈ slots.map s.loose, x.depth = s.depth ∧ x.items = s.items := by
  intro x hx
  obtain ⟨slot, -, rfl⟩ := List.mem_map.mp hx
  exact ⟨rfl, rfl⟩

end Site

namespace Linear

variable {s s' : Site} {b b' b₁ : Builder} {op : StepOp} {id : StepId}

theorem lt_size (h : Linear s b) {x : Slot} (hx : x ∈ s.listed b) : x.step < b.steps.size :=
  ((h.isOpen x).2 (List.count_pos_iff.mpr hx)).lt_size

theorem of_count (h : Linear s b) (hsteps : b'.steps = b.steps)
    (hcount : ∀ x, (s'.listed b').count x ≤ (s.listed b).count x) : Linear s' b' := by
  refine ⟨hsteps ▸ h.isOpen.mono hcount, fun x hx hedge => hsteps ▸ h.forks x ?_ hedge⟩
  rw [← List.count_pos_iff] at hx ⊢
  exact Nat.lt_of_lt_of_le hx (hcount x)

-- A new step takes what was pending, and adds its own successors.
theorem emitted (h : Linear s b) (he : Build.Emitted op b id b₁) (hother : op.other? = none)
    (hsteps : b'.steps = b₁.steps) (hcount : ∀ x, (s'.listed b').count x ≤
      (op.slotsOf id).count x + (s.slots ++ b.gotoSlots ++ jumps b.contexts).count x) :
    Linear s' b' := by
  have hopen := he.opened_fork hother h.isOpen
  unfold Builder.Open at hopen
  rw [he.pending, he.contexts] at hopen
  refine ⟨hsteps ▸ hopen.mono fun x => ?_, fun x hx hedge => ?_⟩
  · have hle := hcount x
    have hslots := op.count_slotsOf_le id x
    simp only [List.count_append, List.count_cons, List.count_nil] at hle hslots ⊢
    omega
  · have hpos := Nat.lt_of_lt_of_le (List.count_pos_iff.mpr hx) (hcount x)
    rw [hsteps]
    rw [← List.count_append, List.count_pos_iff, List.mem_append] at hpos
    rcases hpos with hnew | hold
    · unfold StepOp.slotsOf at hnew
      cases hgives : op.gives .other with
      | none =>
          rw [hgives] at hnew
          obtain rfl : x = ⟨id, .next⟩ := by simpa using hnew
          cases hedge
      | some given =>
          rw [hgives] at hnew
          obtain ⟨u, hu, hbare⟩ := he.step
          have hid : x.step = id := by
            simp only [Option.map_some, Option.toList_some, List.mem_cons, List.not_mem_nil,
              or_false] at hnew
            rcases hnew with rfl | rfl <;> rfl
          refine ⟨u, hid ▸ hu, ?_⟩
          rw [← StepOp.gives_bare, hbare, StepOp.gives_bare, hgives]
          rfl
    · exact (h.forks x (List.mem_append_right _ hold) hedge).extend he.extend

-- What is linked is no longer open.
theorem linked {slots : List Slot} {steps : Array Step} {t : StepId} (h : Linear s b)
    (hl : Linked b.steps slots t steps) (hsteps : b'.steps = steps)
    (hcount : ∀ x, slots.count x + (s'.listed b').count x ≤ (s.listed b).count x) :
    Linear s' b' := by
  have hopen : AreOpen b.steps (slots ++ s'.listed b') := h.isOpen.mono fun x => by
    rw [List.count_append]
    exact hcount x
  refine ⟨hsteps ▸ hopen.linked hl, fun x hx hedge => hsteps ▸ (h.forks x ?_ hedge).extend hl.extend⟩
  rw [← List.count_pos_iff] at hx ⊢
  have hle := hcount x
  omega

-- A jump is set aside.
theorem jumped {depth : Nat} (h : Linear s b) (he : Build.Emitted (.jump depth) b id b₁) :
    Linear { s with held := s.loose ⟨id, .next⟩ :: s.held } { b₁ with pending := [] } := by
  refine h.emitted he rfl rfl fun x => ?_
  simp only [Site.count_listed, Site.slots, Site.loose, List.map_cons, List.count_cons,
    List.count_append, List.count_nil, Builder.gotoSlots, he.gotos, he.contexts, StepOp.slotsOf]
  omega

-- The steps of a deferred call start with nothing that is to be linked.
theorem inner (h : Linear s b) :
    Linear { s with held := [], heads := [] } { b with pending := [] } :=
  h.of_count rfl fun x => by
    simp only [Site.count_listed, Site.slots, List.map_nil, List.count_nil, Builder.gotoSlots]
    omega

end Linear

namespace Progress

variable {stage : Stage} {s s' : Site} {b b' : Builder} {marks : List Mark} {starts : List StepId}

theorem fits (h : Progress stage s b marks starts s' b') (hf : SiteFits s b) : SiteFits s' b' := by
  induction h with
  | refl | names | take | put | forget | literal | drop | start | flag =>
      exact ⟨hf.depth, hf.contexts⟩
  | trans _ _ ih₁ ih₂ => exact ih₂ (ih₁ hf)
  | @emit _ _ _ _ op _ _ _ he =>
      exact ⟨congrArg op.depthEmitted hf.depth, by rw [Site.emitted, he.contexts, hf.contexts]⟩
  | ret _ he | goto _ _ _ he | label _ _ _ he | round _ _ _ _ he =>
      exact ⟨hf.depth.trans he.depth.symm, hf.contexts.trans (congrArg _ he.contexts.symm)⟩
  | push c hbreaks hcontinues =>
      have hbare : c.bare = c := by
        cases c
        cases hbreaks
        cases hcontinues
        rfl
      refine ⟨hf.depth, ?_⟩
      rw [List.map_cons, hbare, hf.contexts]
  | pop hcontexts =>
      refine ⟨hf.depth, ?_⟩
      rw [hf.contexts, hcontexts, List.map_cons, List.tail_cons]
  | @leave _ _ _ p _ id _ _ _ he =>
      refine ⟨hf.depth.trans he.depth.symm, ?_⟩
      rw [hf.contexts, ← he.contexts]
      exact (map_bare_modifyContext p _ (f := .leaving ⟨id, .next⟩) fun _ => rfl).symm
  | @again _ _ _ p _ id _ _ _ he =>
      refine ⟨hf.depth.trans he.depth.symm, ?_⟩
      rw [hf.contexts, ← he.contexts]
      exact (map_bare_modifyContext p _ (f := .repeating ⟨id, .next⟩) fun _ => rfl).symm
  | defer _ _ _ _ he ih =>
      have hchain := ih ⟨hf.depth, hf.contexts⟩
      exact ⟨hchain.depth.trans he.depth.symm, hchain.contexts.trans (congrArg _ he.contexts.symm)⟩

theorem extend (h : Progress stage s b marks starts s' b') : StepsExtend b.steps b'.steps := by
  induction h with
  | refl | names | take | put | forget | literal | drop | start | flag | push | pop =>
      exact .refl _
  | trans _ _ ih₁ ih₂ => exact ih₁.trans ih₂
  | emit _ he | ret _ he | goto _ _ _ he | label _ _ _ he | leave _ _ _ he | again _ _ _ he =>
      exact he.extend
  | round _ _ _ _ he hlinked _ _ hrounds =>
      exact he.extend.trans (hlinked.extend.trans hrounds.extend)
  | defer _ _ _ _ he ih => exact ih.trans he.extend

theorem size_le (h : Progress stage s b marks starts s' b') : b.steps.size ≤ b'.steps.size :=
  h.extend.size_le

-- Nothing before step `n` is still to be linked.
structure Since (n : StepId) (s : Site) (b : Builder) : Prop where
  size : n ≤ b.steps.size
  slots : ∀ x ∈ b.pending ++ s.slots, n ≤ x.step

-- Nothing is to be linked where a deferred call begins.
theorem Since.apart {n : StepId} {s : Site} {b : Builder} (hsize : n ≤ b.steps.size)
    (hslots : b.pending ++ s.slots = []) : Since n s b :=
  ⟨hsize, fun _ hx => absurd (hslots ▸ hx) List.not_mem_nil⟩

-- Neither an expression nor a deferred call links other steps than its own, and neither jumps nor places labels.
structure SelfContained (n : StepId) (b b' : Builder) : Prop where
  leads : ∀ (slot : Slot) (k : Option StepId), slot.step < n → LeadsTo b.steps slot k →
    LeadsTo b'.steps slot k
  contexts : b'.contexts = b.contexts
  gotos : b'.gotos = b.gotos
  labels : b'.labels = b.labels
  hasDefer : b'.hasDefer = b.hasDefer

theorem SelfContained.trans {n : StepId} {b₁ : Builder} (h₁ : SelfContained n b b₁)
    (h₂ : SelfContained n b₁ b') :
    SelfContained n b b' where
  leads slot k hlt hl := h₂.leads slot k hlt (h₁.leads slot k hlt hl)
  contexts := h₂.contexts.trans h₁.contexts
  gotos := h₂.gotos.trans h₁.gotos
  labels := h₂.labels.trans h₁.labels
  hasDefer := h₂.hasDefer.trans h₁.hasDefer

theorem since (h : Progress stage s b marks starts s' b') (hstage : stage ≠ .stmt) {n : StepId}
    (hn : Since n s b) : Since n s' b' ∧ SelfContained n b b' := by
  induction h with
  | refl | names | forget | literal =>
      exact ⟨⟨hn.size, hn.slots⟩, ⟨fun _ _ _ => id, rfl, rfl, rfl, rfl⟩⟩
  | trans _ _ ih₁ ih₂ =>
      obtain ⟨hn₁, ha₁⟩ := ih₁ hstage hn
      obtain ⟨hn₂, ha₂⟩ := ih₂ hstage hn₁
      exact ⟨hn₂, ha₁.trans ha₂⟩
  | @emit _ s b b₁ op rest id _ he =>
      have hsize := he.size_lt
      refine ⟨⟨Nat.le_trans hn.size (Nat.le_of_lt hsize), fun x hx => ?_⟩, ⟨fun slot k hlt hs => ?_,
        he.contexts, he.gotos, he.labels, he.hasDefer⟩⟩
      · have hid : n ≤ id := he.id_eq ▸ hn.size
        rcases List.mem_append.mp hx with hx | hx
        · rw [he.pending, List.mem_singleton] at hx
          exact hx ▸ hid
        · obtain ⟨y, hy, rfl⟩ := List.mem_map.mp hx
          rcases List.mem_append.mp hy with hy | hy
          · rw [Option.mem_toList, Option.map_eq_some_iff] at hy
            obtain ⟨given, -, rfl⟩ := hy
            exact hid
          · exact hn.slots _ (List.mem_append_right _ (List.mem_map_of_mem hy))
      · obtain ⟨span, hl⟩ := he.linked
        refine hl.others slot (fun hmem => ?_) k (hs.push _)
        exact absurd (hn.slots slot (List.mem_append_left _ hmem)) (Nat.not_le.mpr hlt)
  | @take _ s b =>
      refine ⟨⟨hn.size, fun x hx => hn.slots x ?_⟩, ⟨fun _ _ _ => id, rfl, rfl, rfl, rfl⟩⟩
      simpa [Site.slots, Site.loose] using hx
  | @put _ s b moved held hheld _ =>
      refine ⟨⟨hn.size, fun x hx => hn.slots x ?_⟩, ⟨fun _ _ _ => id, rfl, rfl, rfl, rfl⟩⟩
      have hslots : x ∈ s.slots ↔ x ∈ moved.map (·.slot) ++ held.map (·.slot) := by
        rw [Site.slots, (hheld.map (·.slot)).mem_iff, List.map_append]
      simp only [Site.slots, List.mem_append] at hx hslots ⊢
      tauto
  | _ => exact absurd rfl hstage

-- What was open around the steps of a deferred call still is behind them.
theorem linear_around (h : Progress .call { s with held := [], heads := [] }
    { b with pending := [] } marks starts s' b') (hl : Linear s b) :
    Linear s { b' with pending := b.pending } := by
  obtain ⟨-, hapart⟩ := h.since (by simp) (.apart (Nat.le_refl b.steps.size) rfl)
  have hlisted : s.listed { b' with pending := b.pending } = s.listed b := by
    simp only [Site.listed, Builder.gotoSlots, hapart.contexts, hapart.gotos]
  refine ⟨fun x => ?_, fun x hx hedge => ?_⟩
  · rw [hlisted]
    obtain ⟨hone, hopen⟩ := hl.isOpen x
    refine ⟨hone, fun hx => ?_⟩
    exact hapart.leads x none (hopen hx).lt_size (hopen hx)
  · rw [hlisted] at hx
    exact (hl.forks x hx hedge).extend h.extend

-- What is still to be linked stays so, wherever it is moved.
theorem linear (h : Progress stage s b marks starts s' b') (hl : Linear s b) : Linear s' b' := by
  induction h with
  | refl | start => exact hl
  | trans _ _ ih₁ ih₂ => exact ih₂ (ih₁ hl)
  | names | forget | literal | flag => exact hl.of_count rfl fun _ => Nat.le_refl _
  | @emit _ s b b₁ op rest id hop he =>
      refine hl.emitted he (StepOp.other?_of_isPlain hop.plain) rfl fun x => ?_
      have hnew := s.count_slots_emitted op rest id x
      simp only [Site.count_listed, List.count_append, Builder.gotoSlots, he.pending, he.gotos,
        he.contexts] at hnew ⊢
      omega
  | @take _ s b =>
      refine hl.of_count rfl fun x => ?_
      simp only [Site.count_listed, Site.slots, List.map_append, s.slot_loose, List.count_append,
        List.count_nil, Builder.gotoSlots]
      omega
  | put moved held hheld _ =>
      refine hl.of_count rfl fun x => ?_
      have hsame := (hheld.map (·.slot)).count_eq x
      simp only [Site.count_listed, Site.slots, List.map_append, List.count_append,
        Builder.gotoSlots] at hsame ⊢
      omega
  | @drop s b pending given held hheld hpending =>
      refine hl.of_count rfl fun x => ?_
      have hsame := (hheld.map (·.slot)).count_eq x
      have hless : pending.count x ≤ b.pending.count x := by
        rcases hpending with rfl | rfl
        · exact Nat.le_refl _
        · exact Nat.zero_le _
      simp only [Site.count_listed, Site.slots, List.map_append, List.count_append,
        Builder.gotoSlots] at hsame ⊢
      omega
  | ret _ he =>
      refine hl.emitted he rfl rfl fun x => ?_
      simp only [Site.count_listed, Site.slots, Site.withItems, List.count_append, List.count_nil,
        Builder.gotoSlots, he.gotos, he.contexts]
      omega
  | push c hbreaks hcontinues =>
      refine hl.of_count rfl fun x => ?_
      simp only [Site.count_listed, jumps_cons, hbreaks, hcontinues, List.append_nil, List.nil_append]
      exact Nat.le_refl _
  | pop hcontexts =>
      refine hl.of_count rfl fun x => ?_
      simp only [Site.count_listed, Site.slots, hcontexts, jumps_cons, List.map_append, List.map_map,
        List.count_append, Function.comp_def, Loose.exit, Loose.round, List.map_id',
        Builder.gotoSlots]
      omega
  | @leave s b b₁ p c id _ _ _ he =>
      refine hl.emitted he rfl rfl fun x => ?_
      have hjumps := count_jumps_modifyContext p b.contexts ⟨id, .next⟩ x (count_leaving _ x)
      simp only [Site.count_listed, List.count_append, List.count_nil, Builder.gotoSlots, he.gotos,
        he.contexts, StepOp.slotsOf] at hjumps ⊢
      simp only [StepOp.gives, Option.map_none, Option.toList_none]
      omega
  | @again s b b₁ p c id _ _ _ he =>
      refine hl.emitted he rfl rfl fun x => ?_
      have hjumps := count_jumps_modifyContext p b.contexts ⟨id, .next⟩ x (count_repeating _ x)
      simp only [Site.count_listed, List.count_append, List.count_nil, Builder.gotoSlots, he.gotos,
        he.contexts, StepOp.slotsOf] at hjumps ⊢
      simp only [StepOp.gives, Option.map_none, Option.toList_none]
      omega
  | goto _ _ _ he =>
      refine hl.emitted he rfl rfl fun x => ?_
      simp only [Site.count_listed, List.count_append, List.count_nil, Builder.gotoSlots, he.gotos,
        he.contexts, StepOp.slotsOf, List.map_append, List.map_cons, List.map_nil, StepOp.gives,
        Option.map_none, Option.toList_none]
      omega
  | label _ _ _ he =>
      refine hl.emitted he rfl rfl fun x => ?_
      simp only [Site.count_listed, List.count_append, Builder.gotoSlots, he.gotos, he.contexts,
        he.pending, StepOp.slotsOf, StepOp.gives, Option.map_none, Option.toList_none]
      omega
  | @round s b b₁ id head moved held steps steps' _ _ _ _ he hlinked hheld _ hrounds =>
      have hjumped : Linear s { b₁ with pending := [], steps } :=
        (hl.jumped he).linked hlinked rfl fun x => by
          simp only [Site.count_listed, Site.slots, Site.loose, List.map_cons, List.count_cons,
            List.count_nil, Builder.gotoSlots]
          omega
      refine hjumped.linked hrounds rfl fun x => ?_
      have hsame := (hheld.map (·.slot)).count_eq x
      simp only [Site.count_listed, Site.slots, List.map_append, List.count_append,
        Builder.gotoSlots] at hsame ⊢
      omega
  | @defer s b b₁ b₂ args spread builtin id _ _ hchain _ he _ =>
      refine (hchain.linear_around hl).emitted he rfl rfl fun x => ?_
      simp only [Site.count_listed, Site.slots, List.count_append, Builder.gotoSlots, he.pending,
        he.gotos, he.contexts, StepOp.slotsOf, StepOp.gives, Option.map_none, Option.toList_none]
      omega

end Progress

end StepGraph

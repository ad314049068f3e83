import StepGraph.Proofs.Compile.Code

namespace StepGraph

-- A jump leaves the scopes only when it is taken.
theorem StepOp.depthAfter_of_isPlain {op : StepOp} (h : op.isPlain = true) (n : Nat) :
    op.depthAfter n = op.depthEmitted n := by
  cases op <;> first | rfl | cases h

theorem StepOp.leavesAtMost_bare (op : StepOp) (n : Nat) :
    op.bare.LeavesAtMost n ↔ op.LeavesAtMost n := by
  cases op <;> first | exact Iff.rfl | exact ⟨fun _ => ⟨nofun, nofun⟩, fun _ => ⟨nofun, nofun⟩⟩

-- What is known of the steps to which statements may jump, and of the jumps of statements that are
-- still to be linked.
structure JumpsLeave (b : Builder) (types : TypeTable) (steps : Array Step) (log : Log) : Prop where
  breaks : ∀ c ∈ b.contexts, ∀ x ∈ c.breaks, SlotLeaves types steps log x ⟨c.breakDepth, [], none⟩
  continues : ∀ c ∈ b.contexts, ∀ x ∈ c.continues,
    SlotLeaves types steps log x ⟨c.continueDepth, [], none⟩
  labels : ∀ l ∈ b.labels, log l.2.step = some ⟨l.2.depth, [], none⟩
  gotos : ∀ g ∈ b.gotos, (∃ d, log g.jump = some ⟨d, [], none⟩) ∧
    ∃ u, steps[g.jump]? = some u ∧ u.op = .jump 0

-- What is known of a builder at work: the stances of the steps from `n` on, and of whoever comes to
-- the next step. `watch` tells more of the stances of some steps.
structure Plotted (watch : StepId → Stance → Prop) (n : StepId) (exit : Option (Nat × List Item))
    (s : Site) (b : Builder) (log : Log) : Prop where
  size : n ≤ b.steps.size
  charted : Charted b.names.types b.steps log (b.pending ++ s.slots)
  total : ∀ i, n ≤ i → i < b.steps.size → (log i).isSome
  depth : s.depth = emissionDepth b.steps b.steps.size
  depths : ∀ i st, log i = some st → st.depth = emissionDepth b.steps i
  downward : ∀ (i : StepId) u st, b.steps[i]? = some u → log i = some st →
    u.op.LeavesAtMost st.depth
  pending : ∀ x ∈ b.pending, SlotLeaves b.names.types b.steps log x ⟨s.depth, s.items, exit⟩
  held : ∀ x ∈ s.held, SlotLeaves b.names.types b.steps log x.slot ⟨x.depth, x.items, exit⟩
  heads : ∀ x ∈ s.heads, log x.step = some ⟨x.depth, x.items, exit⟩
  logged : ∀ i st, log i = some st → watch i st
  next : watch b.steps.size ⟨s.depth, s.items, exit⟩
  later : ∀ i st, b.steps.size < i → watch i st
  around : exit = none → JumpsLeave b b.names.types b.steps log

section logs

variable {types types' : TypeTable} {steps steps' : Array Step} {log log' : Log}
  {loose loose' : List Slot} {slot : Slot} {st : Stance} {b b' : Builder}

-- Only one stance is left on the way to a successor.
theorem SlotLeaves.exit_eq (h : SlotLeaves types steps log slot st) {s : Step} {st₀ : Stance}
    (hs : steps[slot.step]? = some s) (hst : log slot.step = some st₀) : st₀.exit = st.exit := by
  obtain ⟨u, hu, hturns⟩ := h
  cases hs.symm.trans hu
  exact (hturns st₀ hst).exit.symm

-- A deferred call ends where its last steps lead nowhere.
theorem Charted.ended (h : Charted types steps log loose) (hloose : ∀ x ∈ loose, x ∉ loose' →
    ∃ d left, SlotLeaves types steps log x ⟨d, left, some (d, left)⟩) :
    Charted types steps log loose' := by
  refine ⟨h.bound, fun i s st hs hst => ?_⟩
  have hstep := h.step i s st hs hst
  refine { hstep with ends := fun edge d left hfollow hgives hexit => ?_ }
  rcases hstep.ends edge d left hfollow hgives hexit with hmem | hturns
  · by_cases hkept : ⟨i, edge⟩ ∈ loose'
    · exact .inl hkept
    · obtain ⟨d', left', hleaves⟩ := hloose _ hmem hkept
      have hsame := hleaves.exit_eq hs hst
      rw [hexit] at hsame
      cases hsame
      obtain ⟨u, hu, hturns⟩ := hleaves
      cases hs.symm.trans hu
      exact .inr (hturns st hst)
  · exact .inr hturns

theorem JumpsLeave.mono (h : JumpsLeave b types steps log) (he : StepsExtend steps steps')
    (hlog : ∀ i < steps.size, log' i = log i) (hbound : ∀ i st, log i = some st → i < steps.size)
    (ht : types.KeepsStructs types') (hcontexts : b'.contexts = b.contexts) (hlabels : b'.labels = b.labels)
    (hgotos : b'.gotos = b.gotos) : JumpsLeave b' types' steps' log' where
  breaks c hc x hx := (h.breaks c (hcontexts ▸ hc) x hx).mono he hlog ht
  continues c hc x hx := (h.continues c (hcontexts ▸ hc) x hx).mono he hlog ht
  labels l hl := by
    have hold := h.labels l (hlabels ▸ hl)
    rw [hlog _ (hbound _ _ hold), hold]
  gotos g hg := by
    obtain ⟨⟨d, hd⟩, u, hu, hop⟩ := h.gotos g (hgotos ▸ hg)
    obtain ⟨u', hu', hbelow⟩ := he _ u hu
    refine ⟨⟨d, by rw [hlog _ (hbound _ _ hd), hd]⟩, u', hu', ?_⟩
    rw [← hop]
    exact StepOp.eq_of_bare hbelow.bare.symm (by rw [hop]; rfl)

end logs

theorem JumpsLeave.same {b b' : Builder} {types : TypeTable} {steps : Array Step} {log : Log}
    (h : JumpsLeave b types steps log) (hcontexts : b'.contexts = b.contexts)
    (hlabels : b'.labels = b.labels) (hgotos : b'.gotos = b.gotos) :
    JumpsLeave b' types steps log :=
  ⟨hcontexts ▸ h.breaks, hcontexts ▸ h.continues, hlabels ▸ h.labels, hgotos ▸ h.gotos⟩

open Build

-- A statement knows the stance in which its first step is taken.
def WatchedStance (watch : StepId → Stance → Prop) (starts : List StepId) (i : StepId)
    (st : Stance) :
    Prop := watch i st ∧ (i ∈ starts → st.items = [])

theorem Build.Emitted.keeps_log {op : StepOp} {b b₁ : Builder} {id : StepId} {log : Log}
    (he : Emitted op b id b₁) (st : Option Stance) :
    ∀ i < b.steps.size, Function.update log id st i = log i := fun _ hi =>
  Function.update_of_ne (Nat.ne_of_lt (he.id_eq ▸ hi)) _ _

theorem mem_modifyContext {p : JumpContext → Bool} {f : JumpContext → JumpContext}
    {contexts : List JumpContext} {c c' : JumpContext} (hc : contexts.find? p = some c)
    (h : c' ∈ modifyContext p f contexts) : c' ∈ contexts ∨ c' = f c := by
  induction contexts with
  | nil => cases h
  | cons d rest ih =>
      unfold modifyContext at h
      by_cases hd : p d = true
      · rw [if_pos hd] at h
        rw [List.find?_cons_of_pos hd] at hc
        cases hc
        rcases List.mem_cons.mp h with rfl | h
        · exact .inr rfl
        · exact .inl (List.mem_cons_of_mem _ h)
      · rw [if_neg hd] at h
        rw [List.find?_cons_of_neg hd] at hc
        rcases List.mem_cons.mp h with rfl | h
        · exact .inl List.mem_cons_self
        · exact (ih hc h).imp_left (List.mem_cons_of_mem _)

theorem StepOp.turns_jump {safe : Prop} {st : Stance} (d : Nat) (hitems : st.items = []) :
    (StepOp.jump d).Turns safe .next st ⟨d, [], st.exit⟩ :=
  ⟨rfl, rfl, rfl, fun _ => ⟨[], hitems, rfl⟩⟩

theorem StepOp.leavesAtMost_jump {d n : Nat} (h : d ≤ n) : (StepOp.jump d).LeavesAtMost n :=
  ⟨fun _ hop => by cases hop; exact h, nofun⟩

theorem JumpsLeave.pushed {b : Builder} {types : TypeTable} {steps : Array Step} {log : Log}
    {c : JumpContext} (h : JumpsLeave b types steps log) (hbreaks : c.breaks = [])
    (hcontinues : c.continues = []) :
    JumpsLeave { b with contexts := c :: b.contexts } types steps log := by
  refine ⟨fun d hd x hx => ?_, fun d hd x hx => ?_, h.labels, h.gotos⟩
  · rcases List.mem_cons.mp hd with rfl | hd
    · rw [hbreaks] at hx
      cases hx
    · exact h.breaks d hd x hx
  · rcases List.mem_cons.mp hd with rfl | hd
    · rw [hcontinues] at hx
      cases hx
    · exact h.continues d hd x hx

-- One of the statements around gets another jump.
theorem JumpsLeave.modified {b b' : Builder} {types : TypeTable} {steps : Array Step} {log : Log}
    {p : JumpContext → Bool} {f : JumpContext → JumpContext} {c : JumpContext}
    (h : JumpsLeave b types steps log) (hc : b.contexts.find? p = some c)
    (hcontexts : b'.contexts = modifyContext p f b.contexts) (hlabels : b'.labels = b.labels)
    (hgotos : b'.gotos = b.gotos)
    (hbreaks : ∀ x ∈ (f c).breaks, SlotLeaves types steps log x ⟨(f c).breakDepth, [], none⟩)
    (hcontinues : ∀ x ∈ (f c).continues,
      SlotLeaves types steps log x ⟨(f c).continueDepth, [], none⟩) :
    JumpsLeave b' types steps log := by
  refine ⟨fun d hd => ?_, fun d hd => ?_, hlabels ▸ h.labels, hgotos ▸ h.gotos⟩
  · rcases mem_modifyContext hc (hcontexts ▸ hd) with hd | rfl
    · exact h.breaks d hd
    · exact hbreaks
  · rcases mem_modifyContext hc (hcontexts ▸ hd) with hd | rfl
    · exact h.continues d hd
    · exact hcontinues

section emitted

variable {types : TypeTable} {log : Log} {st st' : Stance} {b b₁ : Builder} {op : StepOp}
  {id i : StepId} {edge : Edge} {slot : Slot}

theorem leaves_emitted (he : Emitted op b id b₁) (h : op.Turns (op.LiteralFits types) edge st st') :
    SlotLeaves types b₁.steps (Function.update log id (some st)) ⟨id, edge⟩ st' := by
  obtain ⟨u, hu, hbare⟩ := he.step
  refine ⟨u, hu, fun st₀ hst₀ => ?_⟩
  rw [Function.update_self] at hst₀
  cases hst₀
  exact (h.of_bare hbare).mono (StepOp.literalFits_of_bare hbare).mp

theorem SlotLeaves.emitted (h : SlotLeaves types b.steps log slot st') (he : Emitted op b id b₁) :
    SlotLeaves types b₁.steps (Function.update log id (some st)) slot st' :=
  h.mono he.extend (he.keeps_log _) (.refl _)

variable (st) in
theorem JumpsLeave.emitted (h : JumpsLeave b types b.steps log) (he : Emitted op b id b₁)
    (hbound : ∀ i st, log i = some st → i < b.steps.size) :
    JumpsLeave b₁ types b₁.steps (Function.update log id (some st)) :=
  h.mono he.extend (he.keeps_log _) hbound (.refl _) he.contexts he.labels he.gotos

-- Nothing else is logged but the new step.
theorem logged_of_update (hbound : ∀ i st, log i = some st → i < b.steps.size)
    (h : Function.update log id (some st) i = some st') :
    i < b.steps.size ∧ log i = some st' ∨ i = id ∧ st' = st := by
  by_cases heq : i = id
  · rw [heq, Function.update_self] at h
    exact .inr ⟨heq, (Option.some.inj h).symm⟩
  · rw [Function.update_of_ne heq] at h
    exact .inl ⟨hbound i st' h, h⟩

-- The step is appended, then what was open before leads to it.
theorem Charted.emitted {slots loose : List Slot} (h : Charted types b.steps log (b.pending ++ slots))
    (he : Emitted op b id b₁) (hother : op.other? = none)
    (hneeds : op.LiteralFits types → ∃ rest, st.items = op.needs ++ rest)
    (hret : ∀ arity, op = .ret arity → st.exit = none)
    (hdefer : ∀ entry args spread builtin, op = .defer entry args spread builtin → log entry =
      some ⟨st.depth, st.items, some (st.depth, StepOp.callItems args builtin ++ st.items)⟩)
    (hpending : ∀ x ∈ b.pending, SlotLeaves types b.steps log x st)
    (hloose : ∀ edge, op.gives edge = none ∨ st.exit = none ∨ ⟨id, edge⟩ ∈ loose)
    (hslots : slots ⊆ loose) :
    Charted types b₁.steps (Function.update log id (some st)) loose := by
  obtain ⟨u, hu, hbare⟩ := he.step
  obtain ⟨span, hlinked⟩ := he.linked
  have hnew : Function.update log id (some st) id = some st := Function.update_self ..
  have hpushed := h.push st ⟨op, none, span⟩ rfl hother hneeds hret hdefer
  rw [← he.id_eq] at hpushed
  have hcharted := hpushed.linked (⟨id, .next⟩ :: ⟨id, .other⟩ :: slots) st hlinked
    (fun slot hslot => (hpending slot hslot).mono (.push _ _) (he.keeps_log _) (.refl _)) hnew
    fun x hx hnot => by
      simp only [List.mem_cons, List.mem_append] at hx ⊢
      tauto
  refine hcharted.tighten fun x hx hnot w st' hw hst' => ?_
  have hnewSlot : ∀ edge, x = ⟨id, edge⟩ → w.op.gives x.edge = none ∨ st'.exit = none := by
    rintro edge rfl
    cases hu.symm.trans hw
    cases hnew.symm.trans hst'
    rcases hloose edge with hnone | hnone | hmem
    · exact .inl (by rw [← StepOp.gives_bare, hbare, StepOp.gives_bare, hnone])
    · exact .inr hnone
    · exact absurd hmem hnot
  simp only [List.mem_cons] at hx
  rcases hx with hx | hx | hx
  · exact hnewSlot _ hx
  · exact hnewSlot _ hx
  · exact absurd (hslots hx) hnot

theorem Build.Emitted.leavesAtMost (he : Emitted op b id b₁) {u : Step}
    (hdown : ∀ i u st, b.steps[i]? = some u → log i = some st → u.op.LeavesAtMost st.depth)
    (hop : op.LeavesAtMost st.depth) (hu : b₁.steps[i]? = some u)
    (h : Function.update log id (some st) i = some st') : u.op.LeavesAtMost st'.depth := by
  have hstays : ∀ {op' : StepOp} {n}, u.op.bare = op'.bare → op'.LeavesAtMost n →
      u.op.LeavesAtMost n := fun hsame hv => by
    rwa [← StepOp.leavesAtMost_bare, hsame, StepOp.leavesAtMost_bare]
  rcases he.below hu with ⟨rfl, hsame⟩ | ⟨v, hv, hbelow⟩
  · rw [Function.update_self] at h
    cases h
    exact hstays hsame hop
  · rw [he.keeps_log _ i (Array.getElem?_eq_some_iff.mp hv).1] at h
    exact hstays hbelow.bare (hdown i v st' hv h)

theorem Build.Emitted.emissionDepth_size (he : Emitted op b id b₁) :
    emissionDepth b₁.steps b₁.steps.size =
      op.depthEmitted (emissionDepth b.steps b.steps.size) := by
  obtain ⟨u, hu, hbare⟩ := he.step
  have hlast := emissionDepth_succ hu
  rw [he.id_eq, he.extend.emissionDepth_eq (Nat.le_refl _)] at hlast
  rw [he.size_eq, hlast, ← StepOp.depthEmitted_bare, hbare, StepOp.depthEmitted_bare]

end emitted

namespace Plotted

variable {watch watch' : StepId → Stance → Prop} {n : StepId} {exit : Option (Nat × List Item)}
  {s s' : Site} {b b' b₁ : Builder} {log : Log} {op : StepOp} {id : StepId}

theorem watch_mono (h : Plotted watch n exit s b log) (hmono : ∀ i st, watch i st → watch' i st) :
    Plotted watch' n exit s b log :=
  { h with
    logged := fun i st hi => hmono i st (h.logged i st hi)
    next := hmono _ _ h.next
    later := fun i st hi => hmono i st (h.later i st hi) }

theorem watching (h : Plotted watch n exit s b log) :
    Plotted (WatchedStance watch []) n exit s b log :=
  h.watch_mono fun _ _ hi => ⟨hi, nofun⟩

-- Where no step was added or linked. What is given up belongs to statements.
theorem moved (h : Plotted watch n exit s b log) (hsteps : b'.steps = b.steps)
    (htypes : b.names.types.KeepsStructs b'.names.types) (hdepth : s'.depth = s.depth)
    (hitems : s'.items = s.items)
    (hloose : exit = none ∨ b.pending ++ s.slots ⊆ b'.pending ++ s'.slots)
    (hpending : ∀ x ∈ b'.pending,
      SlotLeaves b.names.types b.steps log x ⟨s.depth, s.items, exit⟩)
    (hheld : ∀ x ∈ s'.held, SlotLeaves b.names.types b.steps log x.slot ⟨x.depth, x.items, exit⟩)
    (hheads : s'.heads ⊆ s.heads)
    (haround : exit = none → JumpsLeave b' b.names.types b.steps log) :
    Plotted watch n exit s' b' log where
  size := hsteps ▸ h.size
  charted := by
    rw [hsteps]
    refine Charted.mono (h.charted.tighten fun x hx hnot u st hu hst => .inr ?_) htypes
    rcases hloose with hnone | hkept
    · rcases List.mem_append.mp hx with hx | hx
      · exact ((h.pending x hx).exit_eq hu hst).trans hnone
      · obtain ⟨y, hy, rfl⟩ := List.mem_map.mp hx
        exact ((h.held y hy).exit_eq hu hst).trans hnone
    · exact absurd (hkept hx) hnot
  total := hsteps ▸ h.total
  depth := by rw [hdepth, hsteps, h.depth]
  depths := hsteps ▸ h.depths
  downward := hsteps ▸ h.downward
  pending x hx := by
    rw [hsteps, hdepth, hitems]
    exact (hpending x hx).mono (.refl _) (fun _ _ => rfl) htypes
  held x hx := hsteps ▸ (hheld x hx).mono (.refl _) (fun _ _ => rfl) htypes
  heads x hx := h.heads x (hheads hx)
  logged := h.logged
  next := by
    rw [hsteps, hdepth, hitems]
    exact h.next
  later := hsteps ▸ h.later
  around hexit := hsteps ▸ (haround hexit).mono (.refl _) (fun _ _ => rfl) h.charted.bound htypes rfl
    rfl rfl

-- A step was emitted, in the stance that was known before.
theorem emitted (h : Plotted watch n exit s b log) (he : Emitted op b id b₁)
    (hother : op.other? = none)
    (hneeds : op.LiteralFits b.names.types → ∃ rest, s.items = op.needs ++ rest)
    (hdown : op.LeavesAtMost s.depth) (hret : ∀ arity, op = .ret arity → exit = none)
    (hdefer : ∀ entry args spread builtin, op = .defer entry args spread builtin →
      log entry = some ⟨s.depth, s.items,
        some (s.depth, StepOp.callItems args builtin ++ s.items)⟩)
    (hsteps : b'.steps = b₁.steps) (hnames : b'.names = b.names)
    (hdepth : s'.depth = op.depthEmitted s.depth)
    (hloose : ∀ edge, op.gives edge = none ∨ exit = none ∨ ⟨id, edge⟩ ∈ b'.pending ++ s'.slots)
    (hslots : s.slots ⊆ s'.slots)
    (hpending : ∀ x ∈ b'.pending, x.step = id ∧ op.Turns (op.LiteralFits b.names.types) x.edge
      ⟨s.depth, s.items, exit⟩ ⟨s'.depth, s'.items, exit⟩)
    (hheld : ∀ x ∈ s'.held, x ∈ s.held ∨ x.slot.step = id ∧
      op.Turns (op.LiteralFits b.names.types) x.slot.edge ⟨s.depth, s.items, exit⟩
        ⟨x.depth, x.items, exit⟩)
    (hheads : ∀ x ∈ s'.heads, x ∈ s.heads ∨ x.step = id ∧ x.depth = s.depth ∧ x.items = s.items)
    (haround : exit = none → JumpsLeave b' b.names.types b₁.steps
      (Function.update log id (some ⟨s.depth, s.items, exit⟩))) :
    Plotted watch n exit s' b' (Function.update log id (some ⟨s.depth, s.items, exit⟩)) := by
  have hleaves : ∀ {slot : Slot} {st'}, slot.step = id → op.Turns (op.LiteralFits b.names.types)
      slot.edge ⟨s.depth, s.items, exit⟩ st' → SlotLeaves b.names.types b'.steps
        (Function.update log id (some ⟨s.depth, s.items, exit⟩)) slot st' := by
    rintro ⟨_, edge⟩ st' rfl hturns
    exact hsteps ▸ leaves_emitted he hturns
  refine ⟨?_, ?_, fun i hn hi => ?_, ?_, fun i st' hi => ?_, fun i w st' hw hi => ?_, fun x hx => ?_,
    fun x hx => ?_, fun x hx => ?_, fun i st' hi => ?_, h.later _ _ ?_, fun i st' hi => h.later _ _ ?_,
    fun hexit => ?_⟩
  · rw [hsteps, he.size_eq]
    exact Nat.le_succ_of_le h.size
  · rw [hsteps, hnames]
    exact h.charted.emitted he hother hneeds hret hdefer h.pending hloose
      (List.Subset.trans hslots (List.subset_append_right _ _))
  · by_cases heq : i = id
    · rw [heq, Function.update_self]
      rfl
    · rw [hsteps, he.size_eq] at hi
      rw [Function.update_of_ne heq]
      exact h.total i hn (Nat.lt_of_le_of_ne (Nat.le_of_lt_succ hi) (he.id_eq ▸ heq))
  · rw [hdepth, hsteps, he.emissionDepth_size, h.depth]
  · rw [hsteps]
    rcases logged_of_update h.charted.bound hi with ⟨hlt, hi⟩ | ⟨rfl, rfl⟩
    · rw [he.extend.emissionDepth_eq (Nat.le_of_lt hlt), h.depths i st' hi]
    · rw [he.id_eq, he.extend.emissionDepth_eq (Nat.le_refl _), ← h.depth]
  · exact he.leavesAtMost h.downward hdown (hsteps ▸ hw) hi
  · rw [hnames]
    obtain ⟨hstep, hturns⟩ := hpending x hx
    exact hleaves hstep hturns
  · rw [hnames]
    rcases hheld x hx with hx | ⟨hstep, hturns⟩
    · exact hsteps ▸ (h.held x hx).emitted he
    · exact hleaves hstep hturns
  · rcases hheads x hx with hx | ⟨hstep, hd, hitems⟩
    · have hhead := h.heads x hx
      rw [he.keeps_log _ _ (h.charted.bound _ _ hhead), hhead]
    · rw [hstep, Function.update_self, hd, hitems]
  · rcases logged_of_update h.charted.bound hi with ⟨-, hi⟩ | ⟨rfl, rfl⟩
    · exact h.logged i st' hi
    · rw [he.id_eq]
      exact h.next
  · rw [hsteps, he.size_eq]
    exact Nat.lt_succ_self _
  · rw [hsteps, he.size_eq] at hi
    exact Nat.lt_of_succ_lt hi
  · rw [hsteps, hnames]
    exact haround hexit

-- Open successors were linked to a step whose stance is that of whoever comes from them.
theorem linked (h : Plotted watch n exit s b log) {slots : List Slot} {t : StepId}
    {steps : Array Step} (st : Stance) (hl : Linked b.steps slots t steps)
    (hleaves : ∀ x ∈ slots, SlotLeaves b.names.types b.steps log x st) (ht : log t = some st)
    (hloose : b.pending ++ s.slots ⊆ slots ++ (b.pending ++ s'.slots)) (hdepth : s'.depth = s.depth)
    (hitems : s'.items = s.items) (hheld : s'.held ⊆ s.held) (hheads : s'.heads ⊆ s.heads) :
    Plotted watch n exit s' { b with steps } log := by
  have hmono : ∀ {slot st'}, SlotLeaves b.names.types b.steps log slot st' →
      SlotLeaves b.names.types steps log slot st' := fun hleaves =>
    hleaves.mono hl.extend (fun _ _ => rfl) (.refl _)
  have hdepths : ∀ i ≤ b.steps.size, emissionDepth steps i = emissionDepth b.steps i :=
    fun i => hl.extend.emissionDepth_eq
  refine ⟨hl.size ▸ h.size, h.charted.linked _ st hl hleaves ht fun x hx hnot => ?_, fun i hn hi => ?_, ?_,
    fun i st' hi => ?_, fun i w st' hw hi => ?_, fun x hx => ?_, fun x hx => hmono (h.held x (hheld hx)),
    fun x hx => h.heads x (hheads hx), h.logged, ?_, fun i st' hi => ?_, fun hexit => ?_⟩
  · exact (List.mem_append.mp (hloose hx)).resolve_left hnot
  · exact h.total i hn (hl.size ▸ hi)
  · change s'.depth = emissionDepth steps steps.size
    rw [hdepth, hl.size, hdepths _ (Nat.le_refl _), h.depth]
  · change st'.depth = emissionDepth steps i
    rw [hdepths i (Nat.le_of_lt (h.charted.bound i st' hi)), h.depths i st' hi]
  · obtain ⟨v, hv, hbelow⟩ := hl.below hw
    have hdown := h.downward i v st' hv hi
    rwa [← StepOp.leavesAtMost_bare, ← hbelow.bare, StepOp.leavesAtMost_bare] at hdown
  · rw [hdepth, hitems]
    exact hmono (h.pending x hx)
  · change watch steps.size _
    rw [hl.size, hdepth, hitems]
    exact h.next
  · exact h.later i st' (hl.size ▸ hi)
  · exact (h.around hexit).mono hl.extend (fun _ _ => rfl) h.charted.bound (.refl _) rfl rfl rfl

-- Where only names, heads and what statements need have changed.
theorem kept (h : Plotted watch n exit s b log) (hsteps : b'.steps = b.steps)
    (hpending : b'.pending = b.pending) (htypes : b.names.types.KeepsStructs b'.names.types)
    (hdepth : s'.depth = s.depth) (hitems : s'.items = s.items) (hheld : s'.held = s.held)
    (hheads : s'.heads ⊆ s.heads) (haround : exit = none →
      JumpsLeave b' b.names.types b.steps log) :
    Plotted watch n exit s' b' log := by
  refine h.moved hsteps htypes hdepth hitems (.inr ?_) (hpending ▸ h.pending) (hheld ▸ h.held) hheads
    haround
  rw [Site.slots, Site.slots, hpending, hheld]
  exact List.Subset.refl _

theorem taken (h : Plotted watch n exit s b log) : Plotted watch n exit
    { s with held := b.pending.map s.loose ++ s.held } { b with pending := [] } log := by
  refine h.moved rfl (.refl _) rfl rfl (.inr fun x hx => ?_) (by simp) (fun x hx => ?_)
    (List.Subset.refl _) fun hexit => (h.around hexit).same rfl rfl rfl
  · simpa [Site.slots, Site.loose] using hx
  · rcases List.mem_append.mp hx with hx | hx
    · obtain ⟨slot, hslot, rfl⟩ := List.mem_map.mp hx
      exact h.pending slot hslot
    · exact h.held x hx

theorem put {moved held : List Loose} (h : Plotted watch n exit s b log)
    (hheld : s.held.Perm (moved ++ held))
    (hmoved : ∀ x ∈ moved, x.depth = s.depth ∧ x.items = s.items) :
    Plotted watch n exit { s with held } { b with pending := b.pending ++ moved.map (·.slot) } log := by
  refine h.moved rfl (.refl _) rfl rfl (.inr fun x hx => ?_) (fun x hx => ?_)
    (fun x hx => h.held x (hheld.mem_iff.mpr (List.mem_append_right _ hx))) (List.Subset.refl _)
    fun hexit => (h.around hexit).same rfl rfl rfl
  · have hsame := (hheld.map (·.slot)).mem_iff (a := x)
    simp only [Site.slots, List.map_append, List.mem_append] at hsame hx ⊢
    rw [hsame] at hx
    tauto
  · rcases List.mem_append.mp hx with hx | hx
    · exact h.pending x hx
    · obtain ⟨y, hy, rfl⟩ := List.mem_map.mp hx
      obtain ⟨hd, hi⟩ := hmoved y hy
      rw [← hd, ← hi]
      exact h.held y (hheld.mem_iff.mpr (List.mem_append_left _ hy))

-- A statement gives up successors, since it need not lead on.
theorem dropped {given held : List Loose} {pending : List Slot} (h : Plotted watch n none s b log)
    (hheld : s.held.Perm (given ++ held)) (hpending : pending = b.pending ∨ pending = []) :
    Plotted watch n none { s with held } { b with pending } log := by
  refine h.moved rfl (.refl _) rfl rfl (.inl rfl) (fun x hx => h.pending x ?_)
    (fun x hx => h.held x (hheld.mem_iff.mpr (List.mem_append_right _ hx))) (List.Subset.refl _)
    fun hexit => (h.around hexit).same rfl rfl rfl
  rcases hpending with rfl | rfl
  · exact hx
  · cases hx

theorem started (h : Plotted watch n exit s b log) (hitems : s.items = []) :
    Plotted (WatchedStance watch [b.steps.size]) n exit s b log := by
  refine { h with logged := ?_, next := ?_, later := ?_ }
  · intro i st hi
    refine ⟨h.logged i st hi, fun hmem => ?_⟩
    rw [List.mem_singleton.mp hmem] at hi
    exact absurd (h.charted.bound _ _ hi) (Nat.lt_irrefl _)
  · exact ⟨h.next, fun _ => hitems⟩
  · intro i st hi
    refine ⟨h.later i st hi, fun hmem => ?_⟩
    exact absurd (List.mem_singleton.mp hmem) (Nat.ne_of_gt hi)

theorem returned {arity : Arity} {rest : List Item} (h : Plotted watch n none s b log)
    (hneeds : s.items = arity.items ++ rest) (he : Emitted (.ret arity) b id b₁) :
    Plotted watch n none (s.withItems []) { b₁ with pending := [] }
      (Function.update log id (some ⟨s.depth, s.items, none⟩)) := by
  refine h.emitted he rfl (fun _ => ⟨_, hneeds⟩) ⟨(by simp), (by simp)⟩ (fun _ _ => rfl)
    (fun _ _ _ _ hop => by cases hop) rfl he.names rfl (fun _ => .inr (.inl rfl))
    (List.Subset.refl _) (by simp) (fun _ => .inl) (fun _ => .inl) fun hexit => ?_
  exact ((h.around hexit).emitted _ he h.charted.bound).same rfl rfl rfl

-- The jumps out of a statement are set aside at its end.
theorem popped {c : JumpContext} {rest : List JumpContext} (h : Plotted watch n none s b log)
    (hcontexts : b.contexts = c :: rest) : Plotted watch n none
      { s with
        contexts := s.contexts.tail
        held := c.breaks.map (.exit c.breakDepth) ++
          (c.continues.map (.round c.continueDepth) ++ s.held) }
      { b with contexts := rest } log := by
  have haround := h.around rfl
  have hmem : c ∈ b.contexts := hcontexts ▸ List.mem_cons_self
  have hrest : ∀ d ∈ rest, d ∈ b.contexts := fun d hd => hcontexts ▸ List.mem_cons_of_mem _ hd
  refine h.moved rfl (.refl _) rfl rfl (.inl rfl) h.pending (fun x hx => ?_) (List.Subset.refl _)
    fun _ => ⟨fun d hd => haround.breaks d (hrest d hd), fun d hd => haround.continues d (hrest d hd),
      haround.labels, haround.gotos⟩
  rcases List.mem_append.mp hx with hx | hx
  · obtain ⟨slot, hslot, rfl⟩ := List.mem_map.mp hx
    exact haround.breaks c hmem slot hslot
  · rcases List.mem_append.mp hx with hx | hx
    · obtain ⟨slot, hslot, rfl⟩ := List.mem_map.mp hx
      exact haround.continues c hmem slot hslot
    · exact h.held x hx

theorem labeled {label : String} (h : Plotted watch n none s b log) (hf : SiteFits s b)
    (hitems : s.items = []) (he : Emitted .nop b id b₁) :
    Plotted watch n none s { b₁ with labels := (label, ⟨id, b₁.depth⟩) :: b₁.labels }
      (Function.update log id (some ⟨s.depth, s.items, none⟩)) := by
  refine h.emitted he rfl (fun _ => ⟨s.items, rfl⟩) ⟨(by simp), (by simp)⟩ (by simp) (by simp) rfl
    he.names rfl (fun _ => .inr (.inl rfl)) (List.Subset.refl _) (fun x hx => ?_) (fun _ => .inl)
    (fun _ => .inl) fun _ => ?_
  · rw [show x = ⟨id, .next⟩ from List.mem_singleton.mp (he.pending ▸ hx)]
    exact ⟨rfl, rfl, rfl, rfl, fun _ => ⟨s.items, rfl, rfl⟩⟩
  · have haround := (h.around rfl).emitted ⟨s.depth, s.items, none⟩ he h.charted.bound
    refine ⟨haround.breaks, haround.continues, fun l hl => ?_, haround.gotos⟩
    rcases List.mem_cons.mp hl with rfl | hl
    · change Function.update log id _ id = some ⟨b₁.depth, [], none⟩
      rw [Function.update_self, he.depth, ← hf.depth, hitems]
    · exact haround.labels l hl

-- The jump back is emitted and set aside, then it and the other jumps are linked to the head.
theorem rounded {head : Head} {moved held : List Loose} {steps steps' : Array Step}
    (h : Plotted watch n none s b log) (hhead : head ∈ s.heads) (hdepth : head.depth ≤ s.depth)
    (hitems : head.items = []) (hclear : s.items = []) (he : Emitted (.jump head.depth) b id b₁)
    (hlinked : Linked b₁.steps [⟨id, .next⟩] head.step steps) (hheld : s.held.Perm (moved ++ held))
    (hmoved : ∀ x ∈ moved, head.ranges = true ∧ x.depth = head.depth ∧ x.items = [] ∧ x.again = true)
    (hrounds : Linked steps (moved.map (·.slot)) head.step steps') :
    Plotted watch n none { s with held } { b₁ with pending := [], steps := steps' }
      (Function.update log id (some ⟨s.depth, s.items, none⟩)) := by
  have hjumped : Plotted watch n none
      { s with held := ⟨⟨id, .next⟩, head.depth, [], false⟩ :: s.held } { b₁ with pending := [] }
      (Function.update log id (some ⟨s.depth, s.items, none⟩)) := by
    refine h.emitted he rfl (fun _ => ⟨s.items, rfl⟩) (StepOp.leavesAtMost_jump hdepth) (by simp)
      (fun _ _ _ _ hop => by cases hop) rfl he.names rfl (fun _ => .inr (.inl rfl))
      (List.subset_cons_self _ _) (by simp) (fun x hx => ?_) (fun _ => .inl) fun _ => ?_
    · rcases List.mem_cons.mp hx with rfl | hx
      · exact .inr ⟨rfl, StepOp.turns_jump _ hclear⟩
      · exact .inl hx
    · exact ((h.around rfl).emitted _ he h.charted.bound).same rfl rfl rfl
  have hback : Plotted watch n none s { b₁ with pending := [], steps }
      (Function.update log id (some ⟨s.depth, s.items, none⟩)) := by
    refine hjumped.linked ⟨head.depth, [], none⟩ hlinked (fun x hx => ?_) ?_ (fun x hx => hx)
      rfl rfl (List.subset_cons_self _ _) (List.Subset.refl _)
    · obtain rfl := List.mem_singleton.mp hx
      exact hjumped.held ⟨⟨id, .next⟩, head.depth, [], false⟩ List.mem_cons_self
    · rw [hjumped.heads head hhead, hitems]
  refine hback.linked ⟨head.depth, [], none⟩ hrounds (fun x hx => ?_) ?_ (fun x hx => ?_)
    rfl rfl (fun x hx => hheld.mem_iff.mpr (List.mem_append_right _ hx)) (List.Subset.refl _)
  · obtain ⟨y, hy, rfl⟩ := List.mem_map.mp hx
    obtain ⟨-, hd, hi, -⟩ := hmoved y hy
    rw [← hd, ← hi]
    exact hback.held y (hheld.mem_iff.mpr (List.mem_append_left _ hy))
  · rw [hback.heads head hhead, hitems]
  · have hsame := (hheld.map (·.slot)).mem_iff (a := x)
    rw [List.map_append] at hsame
    exact hsame.mp hx

-- The steps of a deferred call are built on their own, with an end of their own.
theorem deferring (h : Plotted watch n none s b log) (args : Arity)
    (builtin : Option (Builtin × Option Ty)) :
    Plotted (fun i st => i = b.steps.size → st = ⟨s.depth, s.items,
        some (s.depth, StepOp.callItems args builtin ++ s.items)⟩) n
      (some (s.depth, StepOp.callItems args builtin ++ s.items))
      { s with held := [], heads := [] } { b with pending := [] } log where
  size := h.size
  charted := h.charted.tighten fun x hx _ u st hu hst => .inr <| by
    rcases List.mem_append.mp hx with hx | hx
    · exact (h.pending x hx).exit_eq hu hst
    · obtain ⟨y, hy, rfl⟩ := List.mem_map.mp hx
      exact (h.held y hy).exit_eq hu hst
  total := h.total
  depth := h.depth
  depths := h.depths
  downward := h.downward
  pending := by simp
  held := by simp
  heads := by simp
  logged i st hi hsize := absurd (h.charted.bound i st hi) (hsize ▸ Nat.lt_irrefl _)
  next _ := rfl
  later i st hi hsize := absurd hsize (Nat.ne_of_gt hi)
  around := by simp

-- The step that keeps the call comes behind the steps of the call, and from where those begin.
theorem deferred {b₂ : Builder} {args : Arity} {spread : Bool}
    {builtin : Option (Builtin × Option Ty)} {log₁ : Log} {watch₁ : StepId → Stance → Prop}
    (h : Plotted watch n none s b log)
    (hchain : Progress .call { s with held := [], heads := [] } { b with pending := [] } [] []
      { s with items := StepOp.callItems args builtin ++ s.items, held := [], heads := [] } b₁)
    (hsome : b.steps.size < b₁.steps.size) (hlog : ∀ i < b.steps.size, log₁ i = log i)
    (h₁ : Plotted watch₁ n (some (s.depth, StepOp.callItems args builtin ++ s.items))
      { s with items := StepOp.callItems args builtin ++ s.items, held := [], heads := [] } b₁ log₁)
    (hentry : ∀ st, watch₁ b.steps.size st → st = ⟨s.depth, s.items,
      some (s.depth, StepOp.callItems args builtin ++ s.items)⟩)
    (hwatch : ∀ i st, log₁ i = some st → watch i st)
    (he : Emitted (.defer b.steps.size args spread builtin) { b₁ with pending := b.pending } id b₂) :
    Plotted watch n none s b₂ (Function.update log₁ id (some ⟨s.depth, s.items, none⟩)) := by
  obtain ⟨-, hapart⟩ := hchain.since (by simp) (.apart (Nat.le_refl b.steps.size) rfl)
  have hmono : ∀ {slot st}, SlotLeaves b.names.types b.steps log slot st →
      SlotLeaves b₁.names.types b₁.steps log₁ slot st := fun hleaves =>
    hleaves.mono hchain.extend hlog hchain.types
  have hcharted : Charted b₁.names.types b₁.steps log₁ [] := h₁.charted.ended fun x hx _ => by
    simp only [Site.slots, List.map_nil, List.append_nil] at hx
    exact ⟨_, _, h₁.pending x hx⟩
  have hcalled : Plotted watch n none s { b₁ with pending := b.pending } log₁ := {
    size := h₁.size
    charted := hcharted.loosen (by simp)
    total := h₁.total
    depth := h₁.depth
    depths := h₁.depths
    downward := h₁.downward
    pending := fun x hx => hmono (h.pending x hx)
    held := fun x hx => hmono (h.held x hx)
    heads := fun x hx => by
      have hhead := h.heads x hx
      rw [hlog _ (h.charted.bound _ _ hhead), hhead]
    logged := hwatch
    next := h.later _ _ hsome
    later := fun i st hi => h.later i st (Nat.lt_trans hsome hi)
    around := fun _ => (h.around rfl).mono hchain.extend hlog h.charted.bound hchain.types
      hapart.contexts hapart.labels hapart.gotos }
  refine hcalled.emitted he rfl (fun _ => ⟨s.items, rfl⟩) ⟨(by simp), (by simp)⟩ (by simp)
    (fun _ _ _ _ hop => ?_) rfl he.names rfl (fun _ => .inr (.inl rfl)) (List.Subset.refl _)
    (fun x hx => ?_) (fun _ => .inl) (fun _ => .inl) fun _ => ?_
  · cases hop
    obtain ⟨st, hst⟩ := Option.isSome_iff_exists.mp (h₁.total _ h.size hsome)
    rw [hst, hentry st (h₁.logged _ st hst)]
  · obtain rfl := List.mem_singleton.mp (he.pending ▸ hx)
    exact ⟨rfl, rfl, rfl, rfl, fun _ => ⟨s.items, rfl, rfl⟩⟩
  · exact (hcalled.around rfl).emitted _ he hcalled.charted.bound

end Plotted

namespace Progress

variable {watch : StepId → Stance → Prop} {n : StepId} {exit : Option (Nat × List Item)}
  {stage : Stage} {s s' : Site} {b b' b₁ : Builder} {log : Log} {marks : List Mark}
  {starts : List StepId}

theorem plotted_emit {op : StepOp} {rest : List Item} {id : StepId}
    (hp : Plotted watch n exit s b log) (hop : s.Takes stage b.names.types op rest)
    (he : Emitted op b id b₁) :
    Plotted watch n exit (s.emitted op rest id) { b₁ with depth := op.depthEmitted b.depth }
      (Function.update log id (some ⟨s.depth, s.items, exit⟩)) := by
  have hturns : ∀ edge given, op.gives edge = some given →
      op.Turns (op.LiteralFits b.names.types) edge ⟨s.depth, s.items, exit⟩
        ⟨op.depthEmitted s.depth, given ++ rest, exit⟩ := fun edge given hgives =>
    ⟨Option.isSome_of_eq_some hgives, (StepOp.depthAfter_of_isPlain hop.plain _).symm, rfl,
      fun hfits => ⟨rest, hop.needs hfits, by rw [hgives]; rfl⟩⟩
  have hdown : op.LeavesAtMost s.depth := by
    refine ⟨?_, hop.depth⟩
    rintro d rfl
    cases hop.plain
  refine hp.emitted he (StepOp.other?_of_isPlain hop.plain) (fun hfits => ⟨rest, hop.needs hfits⟩)
    hdown ?_ ?_ rfl he.names rfl (fun edge => ?_) (fun x hx => ?_) (fun x hx => ?_) (fun x hx => ?_)
    (fun x hx => ?_) fun hexit => ?_
  · rintro arity rfl
    cases hop.plain
  · rintro entry args spread builtin rfl
    cases hop.plain
  · cases edge with
    | next =>
        refine .inr (.inr (List.mem_append_left _ ?_))
        change _ ∈ b₁.pending
        rw [he.pending]
        exact List.mem_singleton_self _
    | other =>
        cases hgives : op.gives .other with
        | none => exact .inl rfl
        | some given =>
            refine .inr (.inr (List.mem_append_right _ ?_))
            simp [Site.slots, Site.emitted, hgives]
  · exact List.map_subset _ (List.subset_append_right _ _) hx
  · change x ∈ b₁.pending at hx
    rw [he.pending, List.mem_singleton] at hx
    subst hx
    obtain ⟨given, hgiven⟩ := Option.isSome_iff_exists.mp hop.gives
    have hnext := hturns .next given hgiven
    rw [← Option.getD_some (a := given) (b := []), ← hgiven] at hnext
    exact ⟨rfl, hnext⟩
  · rcases List.mem_append.mp hx with hx | hx
    · rw [Option.mem_toList, Option.map_eq_some_iff] at hx
      obtain ⟨given, hgiven, rfl⟩ := hx
      exact .inr ⟨rfl, hturns .other given hgiven⟩
    · exact .inl hx
  · rcases List.mem_cons.mp hx with rfl | hx
    · exact .inr ⟨rfl, rfl, rfl⟩
    · exact .inl hx
  · exact ((hp.around hexit).emitted _ he hp.charted.bound).same rfl rfl rfl

-- A jump of a statement, whose successor is kept for later.
theorem plotted_jump {d : Nat} {id : StepId} (hp : Plotted watch n none s b log)
    (he : Emitted (.jump d) b id b₁) (hd : d ≤ s.depth) (hitems : s.items = [])
    (hsteps : b'.steps = b₁.steps) (hnames : b'.names = b.names) (hpending : b'.pending = [])
    (haround : JumpsLeave b' b.names.types b₁.steps
      (Function.update log id (some ⟨s.depth, [], none⟩))) :
    Plotted watch n none s b' (Function.update log id (some ⟨s.depth, [], none⟩)) := by
  have hplotted : Plotted watch n none s b'
      (Function.update log id (some ⟨s.depth, s.items, none⟩)) :=
    hp.emitted he rfl (fun _ => ⟨s.items, rfl⟩) (StepOp.leavesAtMost_jump hd) (fun _ _ => rfl)
      (fun _ _ _ _ hop => by cases hop) hsteps hnames rfl (fun _ => .inr (.inl rfl))
      (List.Subset.refl _) (fun x hx => by rw [hpending] at hx; cases hx) (fun _ => .inl)
      (fun _ => .inl) fun _ => hitems ▸ haround
  rwa [hitems] at hplotted

theorem plotted (h : Progress stage s b marks starts s' b') (hf : SiteFits s b)
    (hexit : stage = .stmt → exit = none) (hblind : stage = .stmt → ∀ i d items e e',
      watch i ⟨d, items, e⟩ → watch i ⟨d, items, e'⟩) (hp : Plotted watch n exit s b log) :
    ∃ log', (∀ i < b.steps.size, log' i = log i) ∧
      Plotted (WatchedStance watch starts) n exit s' b' log' := by
  induction h generalizing watch exit log with
  | refl => exact ⟨log, fun _ _ => rfl, hp.watching⟩
  | trans hfirst hrest ih₁ ih₂ =>
      obtain ⟨log₁, hlog₁, hp₁⟩ := ih₁ hf hexit hblind hp
      obtain ⟨log₂, hlog₂, hp₂⟩ := ih₂ (hfirst.fits hf) hexit
        (fun hstage i d items e e' hi => ⟨hblind hstage i d items e e' hi.1, hi.2⟩) hp₁
      refine ⟨log₂, fun i hi => ?_, hp₂.watch_mono fun i st hi => ⟨hi.1.1, fun hmem => ?_⟩⟩
      · rw [hlog₂ i (Nat.lt_of_lt_of_le hi hfirst.size_le), hlog₁ i hi]
      · exact (List.mem_append.mp hmem).elim hi.1.2 hi.2
  | names names temps iota htypes =>
      exact ⟨log, fun _ _ => rfl, hp.watching.kept rfl rfl htypes rfl rfl rfl (List.Subset.refl _)
        fun hexit => (hp.around hexit).same rfl rfl rfl⟩
  | emit hop he => exact ⟨_, he.keeps_log _, (plotted_emit hp hop he).watching⟩
  | take => exact ⟨log, fun _ _ => rfl, hp.taken.watching⟩
  | put moved held hheld hmoved => exact ⟨log, fun _ _ => rfl, (hp.put hheld hmoved).watching⟩
  | forget heads hheads =>
      exact ⟨log, fun _ _ => rfl, hp.watching.kept rfl rfl (.refl _) rfl rfl rfl hheads
        fun hexit => (hp.around hexit).same rfl rfl rfl⟩
  | literal hbody hinner hfinish =>
      have hliteral : Progress .expr .start _ [] [] .start _ := .literal hbody hinner hfinish
      exact ⟨log, fun _ _ => rfl, hp.watching.kept rfl rfl hliteral.types rfl rfl rfl
        (List.Subset.refl _) fun hexit => (hp.around hexit).same rfl rfl rfl⟩
  | drop given held hheld hpending =>
      obtain rfl := hexit rfl
      exact ⟨log, fun _ _ => rfl, (hp.dropped hheld hpending).watching⟩
  | start hitems => exact ⟨log, fun _ _ => rfl, hp.started hitems⟩
  | flag =>
      exact ⟨log, fun _ _ => rfl, hp.watching.kept rfl rfl (.refl _) rfl rfl rfl (List.Subset.refl _)
        fun hexit => (hp.around hexit).same rfl rfl rfl⟩
  | ret hneeds he =>
      obtain rfl := hexit rfl
      exact ⟨_, he.keeps_log _, (hp.returned hneeds he).watching⟩
  | push c hbreaks hcontinues =>
      exact ⟨log, fun _ _ => rfl, hp.watching.kept rfl rfl (.refl _) rfl rfl rfl (List.Subset.refl _)
        fun hexit => (hp.around hexit).pushed hbreaks hcontinues⟩
  | pop hcontexts =>
      obtain rfl := hexit rfl
      exact ⟨log, fun _ _ => rfl, (hp.popped hcontexts).watching⟩
  | @leave s b b₁ p c id hc hdepth hitems he =>
      obtain rfl := hexit rfl
      refine ⟨_, he.keeps_log _, plotted_jump hp.watching he hdepth hitems rfl he.names rfl ?_⟩
      have haround := (hp.around rfl).emitted ⟨s.depth, [], none⟩ he hp.charted.bound
      have hmem : c ∈ b₁.contexts := he.contexts ▸ List.mem_of_find?_eq_some hc
      refine haround.modified (he.contexts ▸ hc) rfl rfl rfl (fun x hx => ?_) (haround.continues c hmem)
      rcases List.mem_append.mp hx with hx | hx
      · exact haround.breaks c hmem x hx
      · obtain rfl := List.mem_singleton.mp hx
        exact leaves_emitted he (StepOp.turns_jump _ rfl)
  | @again s b b₁ p c id hc hdepth hitems he =>
      obtain rfl := hexit rfl
      refine ⟨_, he.keeps_log _, plotted_jump hp.watching he hdepth hitems rfl he.names rfl ?_⟩
      have haround := (hp.around rfl).emitted ⟨s.depth, [], none⟩ he hp.charted.bound
      have hmem : c ∈ b₁.contexts := he.contexts ▸ List.mem_of_find?_eq_some hc
      refine haround.modified (he.contexts ▸ hc) rfl rfl rfl (haround.breaks c hmem) fun x hx => ?_
      rcases List.mem_append.mp hx with hx | hx
      · exact haround.continues c hmem x hx
      · obtain rfl := List.mem_singleton.mp hx
        exact leaves_emitted he (StepOp.turns_jump _ rfl)
  | @goto s b b₁ id label span hitems he =>
      obtain rfl := hexit rfl
      refine ⟨_, he.keeps_log _, plotted_jump hp.watching he (Nat.zero_le _) hitems rfl he.names rfl ?_⟩
      have haround := (hp.around rfl).emitted ⟨s.depth, [], none⟩ he hp.charted.bound
      refine ⟨haround.breaks, haround.continues, haround.labels, fun g hg => ?_⟩
      rcases List.mem_append.mp hg with hg | hg
      · exact haround.gotos g hg
      · obtain rfl := List.mem_singleton.mp hg
        obtain ⟨u, hu, hbare⟩ := he.step
        exact ⟨⟨_, Function.update_self ..⟩, u, hu, StepOp.eq_of_bare hbare.symm rfl⟩
  | label label hfresh hitems he =>
      obtain rfl := hexit rfl
      exact ⟨_, he.keeps_log _, (hp.labeled hf hitems he).watching⟩
  | round hhead hdepth hitems hclear he hlinked hheld hmoved hrounds =>
      obtain rfl := hexit rfl
      exact ⟨_, he.keeps_log _, (hp.rounded hhead hdepth hitems hclear he hlinked hheld hmoved
        hrounds).watching⟩
  | @defer s b b₁ b₂ args spread builtin id hpos hflag hchain hsome he ih =>
      obtain rfl := hexit rfl
      obtain ⟨log₁, hlog₁, hp₁⟩ := ih ⟨hf.depth, hf.contexts⟩ (by simp) (by simp) (hp.deferring args builtin)
      have hwatch : ∀ i st, log₁ i = some st → watch i st := fun i st hi => by
        rcases Nat.lt_trichotomy i b.steps.size with hlt | rfl | hgt
        · exact hp.logged i st (hlog₁ i hlt ▸ hi)
        · rw [(hp₁.logged _ st hi).1 rfl]
          exact hblind rfl _ _ _ _ _ hp.next
        · exact hp.later i st hgt
      exact ⟨_, fun i hi => (he.keeps_log _ i (Nat.lt_trans hi hsome)).trans (hlog₁ i hi),
        (hp.deferred hchain hsome hlog₁ hp₁ (fun _ hi => hi.1 rfl) hwatch he).watching⟩

end Progress

-- What is known of a step does not depend on where it stands in the source.
theorem StepCharted.congr {types : TypeTable} {log : Log} {loose : List Slot} {i : StepId} {s s' : Step}
    {st : Stance} (h : StepCharted types log loose i s st) (hop : s'.op = s.op)
    (hnext : s'.next = s.next) : StepCharted types log loose i s' st := by
  have hfollow : ∀ edge, s'.follow edge = s.follow edge := by
    intro edge
    cases edge with
    | next => exact hnext
    | other => exact congrArg StepOp.other? hop
  constructor
  · rw [hop]
    exact h.needs
  · intro edge k hk
    rw [hfollow] at hk
    rw [hop]
    exact h.leads edge k hk
  · intro edge d left hnone hgives
    rw [hfollow] at hnone
    rw [hop] at hgives ⊢
    exact h.ends edge d left hnone hgives
  · rw [hop]
    exact h.returns
  · rw [hop]
    exact h.defers

section resolved

variable {b : Builder} {log : Log} {steps : Array Step} {watch : StepId → Stance → Prop} {i : StepId}

theorem Linear.nodup_gotos {s : Site} (h : Linear s b) : (b.gotos.map (·.jump)).Nodup := by
  have hslots : b.gotoSlots.Nodup := by
    rw [List.nodup_iff_count]
    intro x
    have hone := (h.isOpen x).1
    rw [Site.count_listed] at hone
    omega
  refine List.pairwise_map.mpr ((List.pairwise_map.mp hslots).imp fun {g g'} hne heq => hne ?_)
  rw [heq]

-- Once the jumps to labels are resolved, nothing is left open.
theorem Plotted.resolved (h : Plotted watch 0 none .start b log) (hnodup : (b.gotos.map (·.jump)).Nodup)
    (hres : GotosResolve b.labels b.gotos b.steps steps) : Charted b.names.types steps log [] := by
  have hopen : Charted b.names.types b.steps log [] :=
    h.charted.tighten fun x hx _ u st hu hst => .inr <| by
      simp only [Site.slots, Site.start, List.map_nil, List.append_nil] at hx
      exact (h.pending x hx).exit_eq hu hst
  obtain ⟨-, -, hlabels, hgotos⟩ := h.around rfl
  refine ⟨fun i st hi => hres.size ▸ h.charted.bound i st hi, fun i s' st hs' hst => ?_⟩
  have hlt := h.charted.bound i st hst
  by_cases hi : ∃ g ∈ b.gotos, g.jump = i
  · obtain ⟨g, hg, rfl⟩ := hi
    obtain ⟨target, w, htarget, hw, hop, hnext⟩ := hres.goto hnodup hg
    cases hw.symm.trans hs'
    obtain ⟨⟨d, hd⟩, -⟩ := hgotos g hg
    cases hd.symm.trans hst
    obtain ⟨l₁, l₂, hl, -⟩ := List.lookup_eq_some_iff.mp htarget
    have htarget := hlabels (g.label, target) (by rw [hl]; simp)
    refine ⟨fun _ => ⟨[], by rw [hop]; rfl⟩, fun edge k hk => ?_, fun _ _ _ _ _ hexit => ?_,
      fun arity hret => ?_, fun _ _ _ _ hdefer => ?_⟩
    · cases edge with
      | next =>
          cases hnext.symm.trans hk
          exact ⟨_, htarget, hop ▸ StepOp.turns_jump _ rfl⟩
      | other =>
          rw [Step.follow, hop] at hk
          cases hk
    · cases hexit
    · cases hop.symm.trans hret
    · cases hop.symm.trans hdefer
  · have hs := Array.getElem?_eq_getElem hlt
    obtain ⟨w, hw, hop, hnext⟩ := hres.other hs fun g hg heq => hi ⟨g, hg, heq⟩
    cases hw.symm.trans hs'
    exact (hopen.step i _ st hs hst).congr hop hnext

theorem Plotted.emissionDepth_eq (h : Plotted watch 0 none .start b log)
    (hnodup : (b.gotos.map (·.jump)).Nodup) (hres : GotosResolve b.labels b.gotos b.steps steps)
    (hi : i ≤ b.steps.size) : emissionDepth steps i = emissionDepth b.steps i := by
  refine emissionDepth_congr hi fun i s hs => ?_
  by_cases hgoto : ∃ g ∈ b.gotos, g.jump = i
  · obtain ⟨g, hg, rfl⟩ := hgoto
    obtain ⟨target, w, -, hw, hop, -⟩ := hres.goto hnodup hg
    obtain ⟨-, u, hu, hjump⟩ := (h.around rfl).gotos g hg
    cases hs.symm.trans hu
    exact ⟨w, hw, by rw [hop, hjump]; rfl⟩
  · obtain ⟨w, hw, hop, -⟩ := hres.other hs fun g hg heq => hgoto ⟨g, hg, heq⟩
    exact ⟨w, hw, by rw [hop]⟩

end resolved

-- The stances of the steps of a finished function.
structure Stanced (starts : List StepId) (types : TypeTable) (steps : Array Step) (log : Log) :
    Prop where
  charted : Charted types steps log []
  total : ∀ i < steps.size, (log i).isSome
  depths : ∀ i st, log i = some st → st.depth = emissionDepth steps i
  first : ∀ st, log 0 = some st → st.items = []
  starts : ∀ i ∈ starts, ∀ st, log i = some st → st.items = []

-- The work on a function begins where nothing is known yet.
theorem plotted_start (names : Names) (code : Array Function) (sig : Signature) :
    Plotted (fun i st => i = 0 → st.items = []) 0 none .start (.start names code sig)
      fun _ => none where
  size := Nat.le_refl _
  charted := ⟨fun i st hi => (by cases hi), fun i u st _ hi => (by cases hi)⟩
  total i _ hi := absurd hi (Nat.not_lt_zero i)
  depth := rfl
  depths i st hi := by cases hi
  downward i u st _ hi := by cases hi
  pending x hx := absurd hx List.not_mem_nil
  held x hx := absurd hx List.not_mem_nil
  heads x hx := absurd hx List.not_mem_nil
  logged i st hi := by cases hi
  next _ := rfl
  later i _ hi hzero := absurd hzero (Nat.ne_of_gt hi)
  around _ := ⟨fun c hc => absurd hc List.not_mem_nil, fun c hc => absurd hc List.not_mem_nil,
    fun l hl => absurd hl List.not_mem_nil, fun g hg => absurd hg List.not_mem_nil⟩

theorem Origin.Makes.stanced {o : Origin} {names : Names} {code : Array Function} {types : TypeTable}
    {f : Function} (h : o.Makes names code types f) :
    ∃ log, Stanced (o.starts (.start names code o.sig)) types f.steps log := by
  obtain ⟨b, hprogress, hres, -, htypes⟩ := h.work
  have hnodup := (hprogress.linear (linear_start ..)).nodup_gotos
  obtain ⟨log, -, hp⟩ := hprogress.plotted (fits_start ..) (fun _ => rfl) (fun _ _ _ _ _ _ hi => hi)
    (plotted_start names code o.sig)
  refine ⟨log, (hp.resolved hnodup hres).mono htypes, fun i hi => ?_, fun i st hi => ?_,
    fun st hst => (hp.logged 0 st hst).1 rfl, fun i hi st hst => (hp.logged i st hst).2 hi⟩
  · exact hp.total i (Nat.zero_le i) (hres.size ▸ hi)
  · rw [hp.emissionDepth_eq hnodup hres (Nat.le_of_lt (hp.charted.bound i st hi)), hp.depths i st hi]

end StepGraph

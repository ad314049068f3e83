import StepGraph.Proofs.Compile.Linear

open EStateM (bind_eq_ok bind_eq_error)

namespace StepGraph

-- An open successor that the step can have is linked when it is asked for.
theorem Step.link?_isSome {s : Step} {edge : Edge} (t : StepId) (hopen : s.follow edge = none)
    (hgives : edge = .other → (s.op.gives .other).isSome) : (s.link? edge t).isSome := by
  cases edge with
  | next =>
      have hnone : s.next = none := hopen
      simp [link?, hnone]
  | other =>
      have hnone : s.op.other? = none := hopen
      have hsome := hgives rfl
      unfold link?
      generalize s.op = op at *
      cases op <;> simp_all [StepOp.gives, StepOp.other?, StepOp.withOther?]

-- A step becomes a jump to this depth.
def Step.jumping (depth : Nat) (s : Step) : Step := { s with op := .jump depth }

-- Some jumps to labels get their depth and their target in turn.
inductive GotosResolve (labels : List (String × LabelTarget)) :
    List PendingGoto → Array Step → Array Step → Prop
  | nil (steps : Array Step) : GotosResolve labels [] steps steps
  | cons {g : PendingGoto} {rest : List PendingGoto} {target : LabelTarget}
      {steps steps₁ steps' : Array Step} (htarget : labels.lookup g.label = some target)
      (hlinked : Linked (steps.modify g.jump (.jumping target.depth)) [⟨g.jump, .next⟩] target.step
        steps₁) (hrest : GotosResolve labels rest steps₁ steps') :
      GotosResolve labels (g :: rest) steps steps'

theorem leadsTo_modify {steps : Array Step} {slot : Slot} {k : Option StepId} (i : StepId)
    (depth : Nat) (hedge : slot.edge = .next) (h : LeadsTo steps slot k) :
    LeadsTo (steps.modify i (.jumping depth)) slot k := by
  obtain ⟨s, hs, hfollow⟩ := h
  rw [hedge] at hfollow
  by_cases hi : i = slot.step
  · refine ⟨s.jumping depth, ?_, hedge ▸ hfollow⟩
    rw [Array.getElem?_modify, if_pos hi, hs]
    rfl
  · refine ⟨s, ?_, hedge ▸ hfollow⟩
    rw [Array.getElem?_modify, if_neg hi, hs]

-- A step of which no successor was set stays as it is.
theorem Linked.same {steps steps' : Array Step} {slots : List Slot} {t i : StepId} {s : Step}
    (hl : Linked steps slots t steps') (hs : steps[i]? = some s) (hi : ∀ edge, ⟨i, edge⟩ ∉ slots) :
    ∃ s', steps'[i]? = some s' ∧ s'.op = s.op ∧ s'.next = s.next := by
  obtain ⟨s', hs', hbelow⟩ := hl.extend i s hs
  have hfollow : ∀ edge, s'.follow edge = s.follow edge := by
    intro edge
    obtain ⟨u, hu, hsame⟩ := hl.others ⟨i, edge⟩ (hi edge) _ ⟨s, hs, rfl⟩
    cases hs'.symm.trans hu
    exact hsame
  refine ⟨s', hs', ?_, hfollow .next⟩
  rw [← s'.op.bare_toOther, hbelow.bare, show s'.op.other? = s.op.other? from hfollow .other,
    StepOp.bare_toOther]

namespace GotosResolve

variable {labels : List (String × LabelTarget)} {gotos : List PendingGoto}
  {steps steps' : Array Step} {i : StepId}

theorem size (h : GotosResolve labels gotos steps steps') : steps'.size = steps.size := by
  induction h with
  | nil => rfl
  | cons _ hlinked _ ih => rw [ih, hlinked.size, Array.size_modify]

-- A step is what it was before, or one of the jumps.
theorem step (h : GotosResolve labels gotos steps steps') {s' : Step} (hs : steps'[i]? = some s') :
    ∃ s, steps[i]? = some s ∧ (s'.op.bare = s.op.bare ∨
      ∃ g ∈ gotos, g.jump = i ∧ ∃ target, labels.lookup g.label = some target ∧
        s'.op = .jump target.depth) := by
  induction h with
  | nil => exact ⟨s', hs, .inl rfl⟩
  | @cons g rest target steps steps₁ steps' htarget hlinked _ ih =>
      obtain ⟨s₁, hs₁, hcase⟩ := ih hs
      obtain ⟨s, hold, hbelow⟩ := hlinked.below hs₁
      rw [Array.getElem?_modify] at hold
      rcases hcase with hbare | ⟨g', hg', hcase⟩
      · split at hold
        · next hi =>
            obtain ⟨u, hu, rfl⟩ := Option.map_eq_some_iff.mp hold
            refine ⟨u, hu, .inr ⟨g, List.mem_cons_self, hi, target, htarget, ?_⟩⟩
            exact StepOp.eq_of_bare (hbare.trans hbelow.bare).symm rfl
        · exact ⟨s, hold, .inl (hbare.trans hbelow.bare)⟩
      · split at hold
        · obtain ⟨u, hu, rfl⟩ := Option.map_eq_some_iff.mp hold
          exact ⟨u, hu, .inr ⟨g', List.mem_cons_of_mem _ hg', hcase⟩⟩
        · exact ⟨s, hold, .inr ⟨g', List.mem_cons_of_mem _ hg', hcase⟩⟩

-- Whoever follows a successor did so before, or comes from a jump to its label.
theorem edge (h : GotosResolve labels gotos steps steps') {x : Slot} {j : StepId}
    (hx : LeadsTo steps' x (some j)) : LeadsTo steps x (some j) ∨
      ∃ g ∈ gotos, x = ⟨g.jump, .next⟩ ∧ ∃ target, labels.lookup g.label = some target ∧
        j = target.step := by
  induction h with
  | nil => exact .inl hx
  | @cons g rest target steps steps₁ steps' htarget hlinked _ ih =>
      rcases ih hx with hx₁ | ⟨g', hg', hcase⟩
      · rcases hlinked.edge hx₁ with ⟨s, hs, hfollow⟩ | ⟨hmem, rfl⟩
        · left
          rw [Array.getElem?_modify] at hs
          split at hs
          · obtain ⟨u, hu, rfl⟩ := Option.map_eq_some_iff.mp hs
            obtain ⟨i, edge⟩ := x
            cases edge with
            | next => exact ⟨u, hu, hfollow⟩
            | other => cases hfollow
          · exact ⟨s, hs, hfollow⟩
        · obtain rfl := List.mem_singleton.mp hmem
          exact .inr ⟨g, List.mem_cons_self, rfl, target, htarget, rfl⟩
      · exact .inr ⟨g', List.mem_cons_of_mem _ hg', hcase⟩

-- All steps but the jumps stay as they are.
theorem other (h : GotosResolve labels gotos steps steps') {s : Step} (hs : steps[i]? = some s)
    (hi : ∀ g ∈ gotos, g.jump ≠ i) :
    ∃ s', steps'[i]? = some s' ∧ s'.op = s.op ∧ s'.next = s.next := by
  induction h generalizing s with
  | nil => exact ⟨s, hs, rfl, rfl⟩
  | @cons g rest target steps steps₁ steps' _ hlinked _ ih =>
      have hne := hi g List.mem_cons_self
      have hmodified : (steps.modify g.jump (.jumping target.depth))[i]? = some s := by
        rw [Array.getElem?_modify, if_neg hne, hs]
      obtain ⟨s₁, hs₁, hop, hnext⟩ := hlinked.same hmodified fun edge hmem =>
        hne (congrArg Slot.step (List.mem_singleton.mp hmem)).symm
      obtain ⟨s', hs', hop', hnext'⟩ := ih hs₁ fun g' hg' => hi g' (List.mem_cons_of_mem _ hg')
      exact ⟨s', hs', hop'.trans hop, hnext'.trans hnext⟩

-- A jump goes to its label, at the depth of the label.
theorem goto (h : GotosResolve labels gotos steps steps') (hnodup : (gotos.map (·.jump)).Nodup)
    {g : PendingGoto} (hg : g ∈ gotos) : ∃ target s', labels.lookup g.label = some target ∧
      steps'[g.jump]? = some s' ∧ s'.op = .jump target.depth ∧ s'.next = some target.step := by
  induction h with
  | nil => cases hg
  | @cons g' rest target steps steps₁ steps' htarget hlinked hrest ih =>
      rw [List.map_cons] at hnodup
      obtain ⟨hnew, hnodup⟩ := List.nodup_cons.mp hnodup
      rcases List.mem_cons.mp hg with rfl | hg
      · obtain ⟨s₁, hs₁, hnext⟩ := hlinked.leads _ (List.mem_singleton_self _)
        obtain ⟨s₀, hs₀, hbelow⟩ := hlinked.below hs₁
        rw [Array.getElem?_modify, if_pos rfl, Option.map_eq_some_iff] at hs₀
        obtain ⟨u, -, rfl⟩ := hs₀
        obtain ⟨s', hs', hop', hnext'⟩ := hrest.other hs₁
          fun g' hg' (heq : g'.jump = g.jump) => hnew (heq ▸ List.mem_map_of_mem hg')
        refine ⟨target, s', htarget, hs', ?_, hnext'.trans hnext⟩
        rw [hop']
        exact StepOp.eq_of_bare hbelow.bare.symm rfl
      · exact ih hnodup hg

end GotosResolve

namespace Build

variable {α β : Type} {b b' : Builder} {slot : Slot} {slots : List Slot}

theorem discard_eq_error {x : Build α} {e : CompileError} (h : (discard x) b = .error e b') :
    x b = .error e b' := by
  change EStateM.map _ x b = _ at h
  unfold EStateM.map at h
  cases hx : x b with
  | ok a b₁ =>
      rw [hx] at h
      cases h
  | error e₁ b₁ =>
      rw [hx] at h
      cases h
      rfl

theorem link_ne_error (t : StepId) (hopen : LeadsTo b.steps slot none)
    (hforks : slot.edge = .other → StepForks b.steps slot.step) (e : CompileError) :
    link slot t b ≠ .error e b' := by
  obtain ⟨s, hs, hfollow⟩ := hopen
  obtain ⟨s', hs'⟩ := Option.isSome_iff_exists.mp <| s.link?_isSome t hfollow fun hedge => by
    obtain ⟨u, hu, hgives⟩ := hforks hedge
    cases hs.symm.trans hu
    exact hgives
  rw [link_eq, hs, Option.bind_some, hs']
  exact nofun

-- What is open and stands nowhere twice is linked without an error.
theorem linkAll_ne_error (t : StepId) (hopen : AreOpen b.steps slots)
    (hforks : ∀ x ∈ slots, x.edge = .other → StepForks b.steps x.step) (e : CompileError) :
    linkAll slots t b ≠ .error e b' := by
  induction slots generalizing b with
  | nil => exact nofun
  | cons slot slots ih =>
      intro h
      rcases bind_eq_error.mp h with h | ⟨u, b₁, h₁, h₂⟩
      · refine link_ne_error t ((hopen slot).2 ?_) (hforks slot List.mem_cons_self) e h
        exact List.count_pos_iff.mpr List.mem_cons_self
      · obtain ⟨steps, rfl, hl⟩ := link_ok h₁
        have hopen' : AreOpen b.steps ([slot] ++ slots) := hopen
        refine ih (hopen'.linked hl) (fun x hx hedge => ?_) h₂
        exact (hforks x (List.mem_cons_of_mem _ hx) hedge).extend hl.extend

theorem emit_ne_error {op : StepOp} {span : Span} (hopen : AreOpen b.steps b.pending)
    (hforks : ∀ x ∈ b.pending, x.edge = .other → StepForks b.steps x.step) (e : CompileError) :
    emit op span b ≠ .error e b' := by
  intro h
  rcases bind_eq_error.mp h with h | ⟨_, b₁, h₁, h⟩
  · cases h
  cases h₁
  rcases bind_eq_error.mp h with h | ⟨_, b₂, h₂, h⟩
  · cases h
  cases h₂
  rcases bind_eq_error.mp h with h | ⟨slots, b₃, h₃, h⟩
  · cases h
  cases h₃
  rcases bind_eq_error.mp h with h | ⟨_, b₄, -, h⟩
  · have hpush : AreOpen (b.steps.push ⟨op, none, span⟩) b.pending :=
      fun x => ⟨(hopen x).1, fun hx => ((hopen x).2 hx).push _⟩
    exact linkAll_ne_error _ hpush (fun x hx hedge => (hforks x hx hedge).extend (.push _ _)) e h
  · cases h

-- Gives one jump to a label its depth and its target.
def resolveGoto (g : PendingGoto) : Build Unit := do
  match (← get).labels.lookup g.label with
  | some target =>
      modify fun b => { b with steps := b.steps.modify g.jump (.jumping target.depth) }
      link ⟨g.jump, .next⟩ target.step
  | none => fail (.unknownLabel g.label g.span)

theorem resolveGotos_eq : resolveGotos = get >>= fun b => b.gotos.forM resolveGoto := rfl

theorem resolveGoto_eq {g : PendingGoto} : resolveGoto g b =
    match b.labels.lookup g.label with
    | some target => link ⟨g.jump, .next⟩ target.step
        { b with steps := b.steps.modify g.jump (.jumping target.depth) }
    | none => .error (.unknownLabel g.label g.span) b := by
  change ((match b.labels.lookup g.label with
    | some target => do
        modify fun b => { b with steps := b.steps.modify g.jump (.jumping target.depth) }
        link ⟨g.jump, .next⟩ target.step
    | none => fail (.unknownLabel g.label g.span) : Build Unit) b) = _
  cases b.labels.lookup g.label <;> rfl

theorem resolve_ok {gotos : List PendingGoto} {u : PUnit} (h : gotos.forM resolveGoto b = .ok u b') :
    ∃ steps, b' = { b with steps } ∧ GotosResolve b.labels gotos b.steps steps := by
  induction gotos generalizing b with
  | nil =>
      cases h
      exact ⟨_, rfl, .nil _⟩
  | cons g rest ih =>
      obtain ⟨_, b₁, h₁, h₂⟩ := bind_eq_ok.mp h
      rw [resolveGoto_eq] at h₁
      cases htarget : b.labels.lookup g.label with
      | none =>
          rw [htarget] at h₁
          cases h₁
      | some target =>
          rw [htarget] at h₁
          obtain ⟨steps₁, rfl, hl⟩ := link_ok h₁
          obtain ⟨steps', rfl, hrest⟩ := ih h₂
          exact ⟨steps', rfl, .cons htarget hl hrest⟩

theorem finish_ok {name : String} {recv : Option Receiver} {literal : Bool} {ref : CodeRef}
    (h : finish name recv literal b = .ok ref b') :
    ∃ steps, GotosResolve b.labels b.gotos b.steps steps ∧ ref = ⟨b.code.size, name⟩ ∧
      b' = { b with
        steps
        code := b.code.push ⟨name, b.sig, recv, literal, b.hasDefer, steps⟩ } := by
  obtain ⟨_, b₁, h₁, h₂⟩ := bind_eq_ok.mp h
  rw [resolveGotos_eq] at h₁
  obtain ⟨_, b₂, hget, h₁⟩ := bind_eq_ok.mp h₁
  cases hget
  obtain ⟨steps, rfl, hresolves⟩ := resolve_ok h₁
  cases h₂
  exact ⟨steps, hresolves, rfl, rfl⟩

-- The jumps to labels are linked without an error.
theorem resolve_ne_doubleLink {gotos : List PendingGoto} {i : StepId}
    (hopen : AreOpen b.steps (gotos.map fun g => ⟨g.jump, .next⟩)) :
    gotos.forM resolveGoto b ≠ .error (.doubleLink i) b' := by
  induction gotos generalizing b with
  | nil => exact nofun
  | cons g rest ih =>
      have hmodify : ∀ depth, AreOpen (b.steps.modify g.jump (.jumping depth))
          ((g :: rest).map fun g => ⟨g.jump, .next⟩) := fun depth x =>
        ⟨(hopen x).1, fun hx => by
          obtain ⟨g', -, rfl⟩ := List.mem_map.mp (List.count_pos_iff.mp hx)
          exact leadsTo_modify _ _ rfl ((hopen _).2 hx)⟩
      intro h
      rcases bind_eq_error.mp h with h | ⟨u, b₁, h₁, h₂⟩
      · rw [resolveGoto_eq] at h
        cases htarget : b.labels.lookup g.label with
        | none =>
            rw [htarget] at h
            cases h
        | some target =>
            rw [htarget] at h
            refine link_ne_error _ ((hmodify target.depth _).2 ?_) (fun hedge => by cases hedge) _ h
            rw [List.map_cons, List.count_cons_self]
            exact Nat.succ_pos _
      · rw [resolveGoto_eq] at h₁
        cases htarget : b.labels.lookup g.label with
        | none =>
            rw [htarget] at h₁
            cases h₁
        | some target =>
            rw [htarget] at h₁
            obtain ⟨steps, rfl, hl⟩ := link_ok h₁
            have hopen' : AreOpen _ ([_] ++ rest.map _) := hmodify target.depth
            exact ih (hopen'.linked hl) h₂

theorem finish_ne_doubleLink {name : String} {recv : Option Receiver} {literal : Bool} {i : StepId}
    {s : Site} (hl : Linear s b) : finish name recv literal b ≠ .error (.doubleLink i) b' := by
  intro h
  rcases bind_eq_error.mp h with h | ⟨_, b₁, -, h⟩
  · rw [resolveGotos_eq] at h
    rcases bind_eq_error.mp h with h | ⟨_, b₁, hget, h⟩
    · cases h
    · cases hget
      refine resolve_ne_doubleLink (hl.isOpen.mono fun x => ?_) h
      rw [Site.count_listed]
      change b.gotoSlots.count x ≤ _
      omega
  · cases h

end Build

end StepGraph

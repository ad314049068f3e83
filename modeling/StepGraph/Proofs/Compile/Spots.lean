import StepGraph.Proofs.Compile.Hygiene

open EStateM (bind_eq_ok discard_eq_ok)

namespace StepGraph

open Names (isTemp)

open Build

-- What is set aside while a statement is built: open successors, steps to which the builder may
-- lead back, and temporaries. Each has a depth out of whose scope the builder did not come since.
-- Temporaries are only known if they were bound since the step `base`.
structure Spot where
  depth : Nat
  slots : List (Nat × Slot)
  places : List (Nat × StepId)
  temps : List (Nat × String)
  contexts : List JumpContext
  base : StepId

namespace Spot

variable {p p' q : Spot} {b b' : Builder} {n : Nat} {around : List String}

-- Nothing of it lies deeper than this.
structure InsideDepth (p : Spot) (n : Nat) : Prop where
  slots : ∀ x ∈ p.slots, x.1 ≤ n
  places : ∀ x ∈ p.places, x.1 ≤ n
  temps : ∀ x ∈ p.temps, x.1 ≤ n
  contexts : ∀ c ∈ p.contexts, c.breakDepth ≤ n ∧ c.continueDepth ≤ n

-- A step that stands, and at whose depth the builder still is or deeper.
structure IsPlace (steps : Array Step) (n : Nat) (i : StepId) : Prop where
  le_size : i ≤ steps.size
  depth : emissionDepth steps i = n
  floor : Floor steps n i steps.size

structure Describes (p : Spot) (b : Builder) : Prop where
  tidy : b.Tidy
  depth : b.depth = p.depth
  contexts : b.contexts.map (·.bare) = p.contexts
  within : p.InsideDepth p.depth
  slots : ∀ x ∈ p.slots, FreshSlot b.steps x.1 x.2
  places : ∀ x ∈ p.places, IsPlace b.steps x.1 x.2
  temps : ∀ x ∈ p.temps, b.HasBound x.1 x.2
  base : p.base ≤ b.steps.size
  since : ∀ x ∈ p.temps, ∃ k, p.base ≤ k ∧ BindsAt b.steps k x.2
  owned : ∀ i x, isTemp x = true → p.base ≤ i → ReadsAt b.steps i x →
    ∃ k, p.base ≤ k ∧ BindsAt b.steps k x

-- A step like those of expressions, but that it may look up temporaries and have two successors.
structure AllowsStep (p : Spot) (op : StepOp) : Prop where
  other : op.other? = none
  entry : op.entry? = none
  discreet : op.isDiscreet = true
  depth : ∀ n, op.depthEmitted n = n
  reads : ∀ x ∈ op.reads, isTemp x = true → ∃ n, (n, x) ∈ p.temps

-- The head of a loop, to which one may come back.
structure Head (p : Spot) (n : Nat) (t : StepId) : Prop where
  place : (n, t) ∈ p.places
  slot : ∃ edge, (n, ⟨t, edge⟩) ∈ p.slots

-- What is set aside may be forgotten, and a successor may lead to a step outside.
structure Sub (p q : Spot) : Prop where
  depth : p.depth = q.depth
  contexts : p.contexts = q.contexts
  slots : ∀ x ∈ p.slots, ∃ n, x.1 ≤ n ∧ (n, x.2) ∈ q.slots
  places : p.places ⊆ q.places
  temps : p.temps ⊆ q.temps
  base : p.base = q.base

theorem InsideDepth.mono {n' : Nat} (h : p.InsideDepth n) (hn : n ≤ n') : p.InsideDepth n' where
  slots x hx := Nat.le_trans (h.slots x hx) hn
  places x hx := Nat.le_trans (h.places x hx) hn
  temps x hx := Nat.le_trans (h.temps x hx) hn
  contexts c hc := (h.contexts c hc).imp (Nat.le_trans · hn) (Nat.le_trans · hn)

theorem InsideDepth.moved (h : p.InsideDepth n) (depth : Nat) : { p with depth }.InsideDepth n :=
  ⟨h.slots, h.places, h.temps, h.contexts⟩

theorem InsideDepth.withSlots (h : p.InsideDepth n) {slots : List (Nat × Slot)}
    (hs : ∀ x ∈ slots, x.1 ≤ n) :
    { p with slots := slots ++ p.slots }.InsideDepth n :=
  { h with slots := fun x hx => (List.mem_append.mp hx).elim (hs x) (h.slots x) }

theorem Sub.of_subset (hdepth : p.depth = q.depth) (hcontexts : p.contexts = q.contexts)
    (hbase : p.base = q.base) (hslots : p.slots ⊆ q.slots) (hplaces : p.places ⊆ q.places)
    (htemps : p.temps ⊆ q.temps) : p.Sub q :=
  ⟨hdepth, hcontexts, fun x hx => ⟨x.1, Nat.le_refl _, hslots hx⟩, hplaces, htemps, hbase⟩

theorem Sub.add (slots : List (Nat × Slot)) (places : List (Nat × StepId))
    (temps : List (Nat × String)) : p.Sub { p with
      slots := slots ++ p.slots, places := places ++ p.places, temps := temps ++ p.temps } :=
  .of_subset rfl rfl rfl (List.subset_append_right _ _) (List.subset_append_right _ _)
    (List.subset_append_right _ _)

theorem Sub.refl (p : Spot) : p.Sub p := .add [] [] []

theorem IsPlace.here (hb : b.Tidy) (hn : b.depth = n) : IsPlace b.steps n b.steps.size :=
  ⟨Nat.le_refl _, hb.counts.symm.trans hn, .single (Nat.le_of_eq (hn.symm.trans hb.counts))⟩

theorem IsPlace.grows {d : Nat} {i : StepId} (h : IsPlace b.steps n i)
    (hg : b.StaysInside d around b') (hn : n ≤ d) : IsPlace b'.steps n i where
  le_size := Nat.le_trans h.le_size hg.extend.size_le
  depth := (hg.extend.emissionDepth_eq h.le_size).trans h.depth
  floor := (h.floor.extend hg.extend (Nat.le_refl _)).trans (hg.floor.mono hn)

theorem AllowsStep.allowsStep {op : StepOp} (h : p.AllowsStep op) (hb : p.Describes b)
    (hbinds : ∀ x ∈ op.bindings, isTemp x = true → b.LeavesFree x ∧
      ∀ c ∈ b.contexts, c.breakDepth < b.depth ∧ c.continueDepth < b.depth) : b.AllowsStep op where
  other := h.other
  discreet := h.discreet
  contexts c hc := by
    rw [h.depth]
    exact ⟨(hb.tidy.contexts c hc).breakDepth, (hb.tidy.contexts c hc).continueDepth⟩
  reads x hx ht := by
    obtain ⟨n, hn⟩ := h.reads x hx ht
    exact ⟨n, hb.temps _ hn⟩
  binds := hbinds
  chain e he := by cases h.entry.symm.trans he

-- Nothing is set aside where a statement begins.
def bare (b : Builder) : Spot :=
  ⟨b.depth, [], [], [], b.contexts.map (·.bare), b.steps.size⟩

theorem describes_bare (h : b.Tidy) : (bare b).Describes b where
  tidy := h
  depth := rfl
  contexts := rfl
  within := by
    refine ⟨nofun, nofun, nofun, fun c hc => ?_⟩
    obtain ⟨d, hd, rfl⟩ := List.mem_map.mp hc
    exact ⟨(h.contexts d hd).breakDepth, (h.contexts d hd).continueDepth⟩
  slots := nofun
  places := nofun
  temps := nofun
  base := Nat.le_refl _
  since := nofun
  owned i x _ hi hread := by
    obtain ⟨s, hs, -⟩ := hread
    exact absurd (Array.getElem?_eq_some_iff.mp hs).1 (Nat.not_lt.mpr hi)

namespace Describes

-- A context that the builder knows is not deeper than the spot tells.
theorem contexts_le (h : p.Describes b) (hw : p.InsideDepth n) :
    ∀ c ∈ b.contexts, c.breakDepth ≤ n ∧ c.continueDepth ≤ n := fun c hc =>
  hw.contexts c.bare (h.contexts ▸ List.mem_map_of_mem hc)

theorem sub (h : q.Describes b) (hs : p.Sub q) : p.Describes b where
  tidy := h.tidy
  depth := h.depth.trans hs.depth.symm
  contexts := h.contexts.trans hs.contexts.symm
  within :=
    { slots := fun x hx =>
        let ⟨_, hle, hmem⟩ := hs.slots x hx
        hs.depth ▸ Nat.le_trans hle (h.within.slots _ hmem)
      places := fun x hx => hs.depth ▸ h.within.places x (hs.places hx)
      temps := fun x hx => hs.depth ▸ h.within.temps x (hs.temps hx)
      contexts := hs.depth ▸ hs.contexts ▸ h.within.contexts }
  slots x hx :=
    let ⟨_, hle, hmem⟩ := hs.slots x hx
    (h.slots _ hmem).mono hle
  places x hx := h.places x (hs.places hx)
  temps x hx := h.temps x (hs.temps hx)
  base := hs.base ▸ h.base
  since x hx := hs.base ▸ h.since x (hs.temps hx)
  owned := hs.base ▸ h.owned

-- The builder does not come out of any scope that matters, and looks up no other temporaries.
theorem grows {d : Nat} (h : p.Describes b) (hg : b.StaysInside d around b') (hw : p.InsideDepth d)
    (hdepth : b'.depth = n) (hcontexts : b'.contexts.map (·.bare) = p.contexts)
    (hreads : ∀ i x, isTemp x = true → ReadsAt b'.steps i x →
      ReadsAt b.steps i x ∨ ∃ n, (n, x) ∈ p.temps) : { p with depth := n }.Describes b' where
  tidy := hg.tidy
  depth := hdepth
  contexts := hcontexts
  within := by
    have hdeep := hw.mono (hdepth ▸ hg.depth)
    exact ⟨hdeep.slots, hdeep.places, hdeep.temps, hdeep.contexts⟩
  slots x hx := hg.fresh (h.slots x hx) (hw.slots x hx)
  places x hx := (h.places x hx).grows hg (hw.places x hx)
  temps x hx := hg.binds (h.temps x hx) (hw.temps x hx)
  base := Nat.le_trans h.base hg.extend.size_le
  since x hx := (h.since x hx).imp fun _ => And.imp_right (·.extend hg.extend)
  owned i x hx hi hread := by
    have hbound : ∃ k, p.base ≤ k ∧ BindsAt b.steps k x := by
      rcases hreads i x hx hread with hold | ⟨n, hmem⟩
      · exact h.owned i x hx hi hold
      · exact h.since _ hmem
    exact hbound.imp fun _ => And.imp_right (·.extend hg.extend)

-- A step is built that does not come out of any scope that matters either.
theorem emitted {op : StepOp} {b₁ : Builder} {id : StepId} (h : p.Describes b)
    (around : List String)
    (he : Emitted op b id b₁) (ha : b.AllowsStep op) (hw : p.InsideDepth n) (hd : n ≤ p.depth)
    (hd' : n ≤ op.depthEmitted p.depth)
    (hbinds : ∀ x ∈ op.bindings, isTemp x = true → n < p.depth)
    (hreads : ∀ x ∈ op.reads, isTemp x = true → ∃ n, (n, x) ∈ p.temps) :
    b.StaysInside n around { b₁ with depth := op.depthEmitted p.depth } ∧
      { p with depth := op.depthEmitted p.depth }.Describes
        { b₁ with depth := op.depthEmitted p.depth } := by
  have hgrows := Builder.StaysInside.emitted (d := n) around h.tidy he ha (h.depth ▸ hd)
    (h.depth ▸ hd') (h.depth ▸ hbinds)
  rw [h.depth] at hgrows
  refine ⟨hgrows, h.grows hgrows hw rfl ?_ fun i x hx hread => ?_⟩
  · exact (congrArg (List.map _) he.contexts).trans h.contexts
  · rcases he.readsAt hread with ⟨-, hmem⟩ | hold
    · exact .inr (hreads x hmem hx)
    · exact .inl hold

theorem flat {op : StepOp} {b₁ : Builder} {id : StepId} (h : p.Describes b) (around : List String)
    (he : Emitted op b id b₁) (hop : p.AllowsStep op) (ha : b.AllowsStep op) (hw : p.InsideDepth n)
    (hd : n ≤ p.depth) (hbinds : ∀ x ∈ op.bindings, isTemp x = true → n < p.depth) :
    b.StaysInside n around b₁ ∧ p.Describes b₁ := by
  have hstate : { b₁ with depth := op.depthEmitted p.depth } = b₁ := by
    rw [hop.depth, ← h.depth, ← he.depth]
  have hafter := h.emitted around he ha hw hd (hop.depth _ ▸ hd) hbinds hop.reads
  rwa [hstate, hop.depth] at hafter

theorem grown {calm : Prop} (h : p.Describes b) (hg : b.ComesBack calm around b') :
    p.Describes b' :=
  h.grows hg.grows (h.depth ▸ h.within) (hg.depth.trans h.depth) (hg.contexts.trans h.contexts)
    fun i x hx hread => .inl (hg.reads i x hx hread)

-- After a step the builder is in another scope. No such step binds anything.
theorem scope {op : StepOp} {b₁ : Builder} {id : StepId} (h : p.Describes b) (around : List String)
    (he : Emitted op b id b₁) (hother : op.other? = none) (hdiscreet : op.isDiscreet = true)
    (hreads : op.reads = []) (hbinds : op.bindings = []) (hentry : op.entry? = none)
    (hw : p.InsideDepth n) (hn : n ≤ p.depth) (hn' : n ≤ op.depthEmitted p.depth)
    (hb' : b' = { b₁ with depth := op.depthEmitted b₁.depth, names := b'.names }) :
    { p with depth := op.depthEmitted p.depth }.Describes b' ∧ b.BuildsOn around b' := by
  have ha : b.AllowsStep op := by
    refine ⟨hother, hdiscreet, fun c hc => ?_, by simp [hreads], by simp [hbinds],
      fun e he => by cases hentry.symm.trans he⟩
    obtain ⟨hbreak, hcontinue⟩ := h.contexts_le hw c hc
    rw [h.depth]
    exact ⟨Nat.le_trans hbreak hn', Nat.le_trans hcontinue hn'⟩
  obtain ⟨hgrows, hafter⟩ := h.emitted around he ha hw hn hn' (by simp [hbinds]) (by simp [hreads])
  have hmoved : { b₁ with depth := op.depthEmitted p.depth }.ComesBack False around b' := by
    rw [hb', he.depth, h.depth]
    exact .moved hafter.tidy rfl rfl hafter.tidy.pending rfl rfl rfl (Nat.le_refl _) rfl
  exact ⟨hafter.grown hmoved, hgrows.toBuildsOn.trans hmoved.grows.toBuildsOn⟩

theorem minted (h : p.Describes b) (around : List String) :
    p.Describes { b with temps := b.temps + 1 } ∧
    b.BuildsOn around { b with temps := b.temps + 1 } := by
  have hgrown : b.ComesBack False around { b with temps := b.temps + 1 } :=
    .moved h.tidy rfl rfl h.tidy.pending rfl rfl rfl (Nat.le_succ _) rfl
  exact ⟨h.grown hgrown, hgrown.grows.toBuildsOn⟩

-- A step binds temporaries that no step has bound yet.
theorem bindTemps {op : StepOp} {b₁ : Builder} {id : StepId} (h : p.Describes b)
    (around : List String)
    (he : Emitted op b id b₁) (hop : p.AllowsStep op) (hw : p.InsideDepth n) (hn : n < p.depth)
    (hspares : ∀ x ∈ op.bindings, b.LeavesFree x) :
    { p with temps := op.bindings.map (p.depth, ·) ++ p.temps }.Describes b₁ ∧
    b.BuildsOn around b₁ := by
  have ha := hop.allowsStep h fun x hx _ => ⟨hspares x hx, fun c hc => by
    obtain ⟨hbreak, hcontinue⟩ := h.contexts_le hw c hc
    exact ⟨h.depth ▸ Nat.lt_of_le_of_lt hbreak hn, h.depth ▸ Nat.lt_of_le_of_lt hcontinue hn⟩⟩
  obtain ⟨hgrows, hafter⟩ := h.flat around he hop ha hw (Nat.le_of_lt hn) fun _ _ _ => hn
  have hhere : emissionDepth b₁.steps id = p.depth := by
    rw [he.id_eq, he.extend.emissionDepth_eq (Nat.le_refl _), ← h.tidy.counts, h.depth]
  have hstep : ∀ x ∈ op.bindings, BindsAt b₁.steps id x := by
    intro x hx
    obtain ⟨s, hs, hbare⟩ := he.step
    refine ⟨s, hs, ?_⟩
    rw [← StepOp.bindings_bare, hbare, StepOp.bindings_bare]
    exact hx
  have hbinds : ∀ x ∈ op.bindings, b₁.HasBound p.depth x := by
    intro x hx
    refine ⟨id, hstep x hx, Nat.le_of_eq hhere, he.id_eq ▸ he.size_lt, fun j hj hj' => ?_⟩
    have hlast : b₁.steps.size = id + 1 := by rw [he.id_eq, he.size_eq]
    rw [hlast] at hj'
    rcases Nat.le_succ_iff.mp hj' with hle | rfl
    · exact Nat.le_of_eq (congrArg _ (Nat.le_antisymm hj hle))
    · rw [hhere, Nat.succ_eq_add_one, ← hlast, ← hafter.tidy.counts]
      exact Nat.le_of_eq hafter.depth.symm
  refine ⟨?_, hgrows.toBuildsOn⟩
  have hmem : ∀ x ∈ op.bindings.map (p.depth, ·) ++ p.temps, x.1 ≤ p.depth ∧
      b₁.HasBound x.1 x.2 ∧ ∃ k, p.base ≤ k ∧ BindsAt b₁.steps k x.2 := by
    intro x hx
    rcases List.mem_append.mp hx with hx | hx
    · obtain ⟨y, hy, rfl⟩ := List.mem_map.mp hx
      exact ⟨Nat.le_refl _, hbinds y hy, id, he.id_eq ▸ h.base, hstep y hy⟩
    · exact ⟨h.within.temps x hx, hafter.temps x hx, hafter.since x hx⟩
  exact
    { hafter with
      within := { hafter.within with temps := fun x hx => (hmem x hx).1 }
      temps := fun x hx => (hmem x hx).2.1
      since := fun x hx => (hmem x hx).2.2 }

-- A loop or switch around got one more jump.
theorem updated {w : JumpContext → Bool} {c : JumpContext} {f : JumpContext → JumpContext}
    (h : p.Describes b) (around : List String) (hfind : b.contexts.find? w = some c)
    (hbare : ∀ c, (f c).bare = c.bare) (hheld : (f c).Held b.steps b.depth) :
    p.Describes { b with contexts := modifyContext w f b.contexts } ∧
      b.BuildsOn around { b with contexts := modifyContext w f b.contexts } := by
  have htidy : Builder.Tidy { b with contexts := modifyContext w f b.contexts } :=
    h.tidy.moved rfl rfl h.tidy.pending (fun c' hc' => (mem_modifyContext hfind hc').elim
      (h.tidy.contexts c') fun heq => heq ▸ hheld) rfl rfl (Nat.le_refl _) rfl
  have hgrows : b.StaysInside p.depth around _ :=
    .moved htidy rfl (Nat.le_of_eq h.depth.symm) rfl rfl
  refine ⟨h.grows hgrows h.within h.depth ?_ fun _ _ _ => .inl, hgrows.toBuildsOn⟩
  exact (map_bare_modifyContext w b.contexts hbare).trans h.contexts

-- A loop or switch begins.
theorem pushed {m n : Nat} (h : p.Describes b) (around : List String) (kind : JumpKind)
    (label : Option String) (hm : m ≤ p.depth) (hn : n ≤ p.depth) :
    { p with contexts := ⟨kind, label, m, n, [], []⟩ :: p.contexts }.Describes
        { b with contexts := ⟨kind, label, m, n, [], []⟩ :: b.contexts } ∧
      b.BuildsOn around { b with contexts := ⟨kind, label, m, n, [], []⟩ :: b.contexts } := by
  have hheld : JumpContext.Held b.steps b.depth ⟨kind, label, m, n, [], []⟩ :=
    ⟨h.depth ▸ hm, h.depth ▸ hn, nofun, nofun⟩
  have htidy : Builder.Tidy { b with contexts := ⟨kind, label, m, n, [], []⟩ :: b.contexts } :=
    h.tidy.moved rfl rfl h.tidy.pending (List.forall_mem_cons.mpr ⟨hheld, h.tidy.contexts⟩) rfl rfl
      (Nat.le_refl _) rfl
  have hgrows : b.StaysInside p.depth around _ :=
    .moved htidy rfl (Nat.le_of_eq h.depth.symm) rfl rfl
  refine ⟨?_, hgrows.toBuildsOn⟩
  exact
    { h with
      tidy := htidy
      contexts := congrArg _ h.contexts
      within :=
        { h.within with contexts := List.forall_mem_cons.mpr ⟨⟨hm, hn⟩, h.within.contexts⟩ } }

theorem withSlots {slots : List (Nat × Slot)} (h : p.Describes b)
    (hs : ∀ x ∈ slots, x.1 ≤ p.depth ∧ FreshSlot b.steps x.1 x.2) :
    { p with slots := slots ++ p.slots }.Describes b :=
  { h with
    within :=
      { h.within with
        slots := fun x hx => (List.mem_append.mp hx).elim (fun hx => (hs x hx).1)
          (h.within.slots x) }
    slots := fun x hx => (List.mem_append.mp hx).elim (fun hx => (hs x hx).2) (h.slots x) }

theorem withPlace {i : StepId} (h : p.Describes b) (hi : IsPlace b.steps p.depth i) :
    { p with places := (p.depth, i) :: p.places }.Describes b :=
  { h with
    within :=
      { h.within with
        places := List.forall_mem_cons.mpr ⟨Nat.le_refl _, h.within.places⟩ }
    places := List.forall_mem_cons.mpr ⟨hi, h.places⟩ }

end Describes

end Spot

namespace Build

variable {α β : Type} {around : List String} {p p' : Spot}

-- An action that starts in one spot and ends in another one.
def MovesSpot (around : List String) (p : Spot) (x : Build α) (q : α → Spot) : Prop :=
  ∀ b a b', p.Describes b → x b = .ok a b' → (q a).Describes b' ∧ b.BuildsOn around b'

namespace MovesSpot

variable {x : Build α} {q : α → Spot}

theorem pure (a : α) (hsub : (q a).Sub p) : MovesSpot around p (pure a) q := by
  intro b a' b' hb h
  cases h
  exact ⟨hb.sub hsub, .refl hb.tidy⟩

theorem fail (e : CompileError) : MovesSpot around p (fail e : Build α) q := nofun

-- What follows may go by what the action can have resulted in.
theorem bindOf {f : α → Build β} {r : β → Spot} (hx : MovesSpot around p x q)
    (hf : ∀ b a b', x b = .ok a b' → MovesSpot around (q a) (f a) r) :
    MovesSpot around p (x >>= f) r := by
  intro b c b' hb h
  obtain ⟨a, b₁, h₁, h₂⟩ := bind_eq_ok.mp h
  obtain ⟨hq, hfirst⟩ := hx b a b₁ hb h₁
  obtain ⟨hr, hsecond⟩ := hf b a b₁ h₁ b₁ c b' hq h₂
  exact ⟨hr, hfirst.trans hsecond⟩

theorem bind {f : α → Build β} {r : β → Spot} (hx : MovesSpot around p x q)
    (hf : ∀ a, MovesSpot around (q a) (f a) r) : MovesSpot around p (x >>= f) r :=
  hx.bindOf fun _ a _ _ => hf a

-- The last action, the spot of whose result is forgotten.
theorem drop {r : α → Spot} (hx : MovesSpot around p x q) (hsub : ∀ a, (r a).Sub (q a)) :
    MovesSpot around p x r := fun b a b' hb h => (hx b a b' hb h).imp_left (·.sub (hsub a))

theorem given (hx : MovesSpot around p' x q) (hsub : p'.Sub p) : MovesSpot around p x q :=
  fun b a b' hb h => hx b a b' (hb.sub hsub) h

theorem closes (hx : KeepsScope False around x) : MovesSpot around p x fun _ => p := by
  intro b a b' hb h
  have hgrown := hx b a b' hb.tidy h
  exact ⟨hb.grown hgrown, hgrown.grows.toBuildsOn⟩

theorem discard {q : Unit → Spot} (hx : MovesSpot around p x fun _ => q ()) :
    MovesSpot around p (discard x) q := by
  intro b u b' hb h
  obtain ⟨a, ha⟩ := discard_eq_ok.mp h
  exact hx b a b' hb ha

theorem get {f : Builder → Build α} (hf : ∀ b, b.depth = p.depth → b.Tidy →
      MovesSpot around p (f b) q) :
    MovesSpot around p (get >>= f) q := fun b a b' hb h => hf b hb.depth hb.tidy b a b' hb h

theorem names {f : Names → Build α} (hf : ∀ n, MovesSpot around p (f n) q) :
    MovesSpot around p (names >>= f) q := fun b a b' hb h => hf b.names b a b' hb h

-- An action that is left out under a condition.
theorem unlessThen {c : Prop} [Decidable c] {x : Build Unit} {f : Unit → Build α}
    (h : MovesSpot around p ((if c then Pure.pure () else x) >>= f) q) :
    MovesSpot around p (if c then f () else x >>= f) q := by
  split
  · next hc =>
      rw [if_pos hc] at h
      exact h
  · next hc =>
      rw [if_neg hc] at h
      exact h

theorem ifThen {c : Prop} [Decidable c] {x : Build Unit} {f : Unit → Build α}
    (h : MovesSpot around p ((if c then x else Pure.pure ()) >>= f) q) :
    MovesSpot around p (if c then x >>= f else f ()) q := by
  split
  · next hc =>
      rw [if_pos hc] at h
      exact h
  · next hc =>
      rw [if_neg hc] at h
      exact h

-- What a spot tells of itself may be used.
theorem within (hx : p.InsideDepth p.depth → MovesSpot around p x q) : MovesSpot around p x q :=
  fun b a b' hb h => hx hb.within b a b' hb h

end MovesSpot

section steps

variable {op : StepOp} {span : Span}

-- Both successors of a step may be set aside, and the step itself.
theorem movesSpot_emit (hop : p.AllowsStep op) (hbinds : ∀ x ∈ op.bindings, isTemp x = false) :
    MovesSpot around p (emit op span) fun id => { p with
      slots := [(p.depth, ⟨id, .next⟩), (p.depth, ⟨id, .other⟩)] ++ p.slots
      places := (p.depth, id) :: p.places } := by
  intro b id b₁ hb h
  have he := emit_ok h
  have hvisible : ∀ {P : Prop}, ∀ x ∈ op.bindings, isTemp x = true → P := fun x hx ht => by
    cases (hbinds x hx).symm.trans ht
  obtain ⟨hgrows, hafter⟩ := hb.flat around he hop
    (hop.allowsStep hb fun x hx ht => hvisible x hx ht) hb.within (Nat.le_refl _)
    fun x hx ht => hvisible x hx ht
  have hplace := (Spot.IsPlace.here hb.tidy hb.depth).grows hgrows (Nat.le_refl _)
  rw [← he.id_eq] at hplace
  have hfresh : ∀ edge, FreshSlot b₁.steps p.depth ⟨id, edge⟩ := fun edge => by
    have hnext := hafter.tidy.pending ⟨id, .next⟩ (he.pending ▸ List.mem_singleton_self _)
    exact hafter.depth ▸ ⟨hnext.lt, hnext.floor⟩
  exact ⟨(hafter.withPlace hplace).withSlots (by simp [hfresh]), hgrows.toBuildsOn⟩

theorem movesSpot_emit' (hop : p.AllowsStep op) (hbinds : ∀ x ∈ op.bindings, isTemp x = false) :
    MovesSpot around p (emit' op span) fun _ => p :=
  .discard ((movesSpot_emit hop hbinds).drop fun id =>
    .add [(p.depth, ⟨id, .next⟩), (p.depth, ⟨id, .other⟩)] [(p.depth, id)] [])

theorem movesSpot_emitFork (hop : p.AllowsStep op) (hbinds : ∀ x ∈ op.bindings, isTemp x = false) :
    MovesSpot around p (emitFork op span) fun slot =>
      { p with slots := (p.depth, slot) :: p.slots } := by
  refine .bind (movesSpot_emit hop hbinds) fun id => .pure _ ?_
  exact .of_subset rfl rfl rfl (List.subset_cons_self _ _) (List.subset_cons_self _ _)
    (List.Subset.refl _)

theorem movesSpot_branch (span : Span) : MovesSpot around p (branch span) fun slot =>
    { p with slots := (p.depth, slot) :: p.slots } :=
  movesSpot_emitFork ⟨rfl, rfl, rfl, fun _ => rfl, nofun⟩ nofun

end steps

section slots

variable {slots : List Slot} {span : Span} {n : Nat}

theorem movesSpot_setPending (hslots : ∀ slot ∈ slots, (p.depth, slot) ∈ p.slots) :
    MovesSpot around p (setPending slots) fun _ => p := by
  intro b u b' hb h
  cases h
  have hgrown : b.ComesBack False around { b with pending := slots } :=
    .moved hb.tidy rfl rfl (fun slot hslot => hb.depth ▸ hb.slots _ (hslots slot hslot)) rfl rfl rfl
      (Nat.le_refl _) rfl
  exact ⟨hb.grown hgrown, hgrown.grows.toBuildsOn⟩

theorem movesSpot_addPending (hslots : ∀ slot ∈ slots, (p.depth, slot) ∈ p.slots) :
    MovesSpot around p (addPending slots) fun _ => p := by
  intro b u b' hb h
  cases h
  have hgrown : b.ComesBack False around { b with pending := b.pending ++ slots } :=
    .moved hb.tidy rfl rfl (fun slot hslot => (List.mem_append.mp hslot).elim
      (hb.tidy.pending slot) fun hslot => hb.depth ▸ hb.slots _ (hslots slot hslot)) rfl rfl rfl
      (Nat.le_refl _) rfl
  exact ⟨hb.grown hgrown, hgrown.grows.toBuildsOn⟩

theorem movesSpot_takePending : MovesSpot around p takePending fun slots =>
    { p with slots := slots.map (p.depth, ·) ++ p.slots } := by
  intro b slots b' hb h
  cases h
  have hgrown : b.ComesBack False around { b with pending := [] } :=
    .moved hb.tidy rfl rfl nofun rfl rfl rfl (Nat.le_refl _) rfl
  refine ⟨(hb.grown hgrown).withSlots fun x hx => ?_, hgrown.grows.toBuildsOn⟩
  obtain ⟨slot, hslot, rfl⟩ := List.mem_map.mp hx
  exact ⟨Nat.le_refl _, hb.depth ▸ hb.tidy.pending slot hslot⟩

-- A jump out of scopes leads to a step at its depth.
theorem movesSpot_jump (around : List String) (hn : n ≤ p.depth) (span : Span) :
    MovesSpot around p (jump n span) fun slot =>
    { p with slots := (n, slot) :: p.slots } := by
  refine .bind (movesSpot_emit ⟨rfl, rfl, rfl, fun _ => rfl, nofun⟩ nofun) fun id => ?_
  refine .bind (movesSpot_setPending nofun) fun _ => .pure _ ?_
  refine ⟨rfl, rfl, fun x hx => ?_, List.subset_cons_self _ _, List.Subset.refl _, rfl⟩
  rcases List.mem_cons.mp hx with rfl | hx
  · exact ⟨p.depth, hn, List.mem_cons_self⟩
  · exact ⟨x.1, Nat.le_refl _, List.mem_append_right _ hx⟩

theorem movesSpot_linkAll {t : StepId} (hhead : p.Head n t)
    (hslots : ∀ slot ∈ slots, (n, slot) ∈ p.slots) :
    MovesSpot around p (linkAll slots t) fun _ => p := by
  intro b u b' hb h
  obtain ⟨steps, rfl, hl⟩ := linkAll_ok h
  obtain ⟨edge, hedge⟩ := hhead.slot
  have hplace := hb.places _ hhead.place
  have hgrows : b.StaysInside b.depth around { b with steps } :=
    .linked hb.tidy hl (Nat.le_refl _) (hb.slots _ hedge).lt fun slot hslot =>
      have hfresh := hb.slots _ (hslots slot hslot)
      ⟨hfresh.lt, hfresh.level hplace.le_size hplace.depth hplace.floor⟩
  refine ⟨?_, hgrows.toBuildsOn⟩
  refine hb.grows hgrows (hb.depth ▸ hb.within) hb.depth hb.contexts fun i x _ hread => .inl ?_
  obtain ⟨s', hs', hmem⟩ := hread
  obtain ⟨s, hs, hbelow⟩ := hl.below hs'
  exact ⟨s, hs, hbelow.reads ▸ hmem⟩

theorem movesSpot_link {t : StepId} {slot : Slot} (hhead : p.Head n t)
    (hslot : (n, slot) ∈ p.slots) :
    MovesSpot around p (link slot t) fun _ => p := by
  intro b u b' hb h
  have hall : ∀ x ∈ [slot], (n, x) ∈ p.slots := by simpa using hslot
  exact movesSpot_linkAll hhead hall b u b' hb (bind_eq_ok.mpr ⟨(), b', h, rfl⟩)

end slots

section scopes

variable {n m : Nat} {x : Build Unit}

theorem movesSpot_enterScope (span : Span) :
    MovesSpot around p (enterScope span) fun _ => { p with depth := p.depth + 1 } := by
  intro b u b' hb h
  obtain ⟨_, b₁, h₁, h₂⟩ := bind_eq_ok.mp h
  obtain ⟨id, hid⟩ := discard_eq_ok.mp h₁
  exact hb.scope around (emit_ok hid) rfl rfl rfl rfl rfl hb.within (Nat.le_refl _) (Nat.le_succ _)
    (by cases h₂; rfl)

-- Nothing that is still of use lies in the scope that is left.
theorem movesSpot_leaveScope (hw : p.InsideDepth n) (span : Span) :
    MovesSpot around { p with depth := n + 1 } (leaveScope span) fun _ =>
      { p with depth := n } := by
  intro b u b' hb h
  obtain ⟨_, b₁, h₁, h₂⟩ := bind_eq_ok.mp h
  obtain ⟨id, hid⟩ := discard_eq_ok.mp h₁
  exact hb.scope around (emit_ok hid) rfl rfl rfl rfl rfl (hw.moved _) (Nat.le_succ n)
    (Nat.le_refl _) (by cases h₂; rfl)

theorem MovesSpot.scoped
    (hx : MovesSpot around { p with depth := p.depth + 1 } x fun _ =>
      { p with depth := p.depth + 1 })
    (span : Span) : MovesSpot around p (do
      enterScope span
      x
      leaveScope span) fun _ => p :=
  .within fun hw => .bind (movesSpot_enterScope span) fun _ =>
    .bind hx fun _ => movesSpot_leaveScope hw span

theorem movesSpot_pushContext (kind : JumpKind) (label : Option String) (hm : m ≤ p.depth)
    (hn : n ≤ p.depth) : MovesSpot around p (pushContext kind label m n) fun _ =>
      { p with contexts := ⟨kind, label, m, n, [], []⟩ :: p.contexts } := by
  intro b u b' hb h
  cases h
  exact hb.pushed around kind label hm hn

-- The innermost loop or switch is done. Its jumps are set aside.
theorem movesSpot_popContext (c : JumpContext) :
    MovesSpot around { p with contexts := c :: p.contexts } popContext fun r => { p with
      slots := (r.1.map (c.breakDepth, ·) ++ r.2.map (c.continueDepth, ·)) ++ p.slots } := by
  intro b slots b' hb h
  obtain ⟨c', rest, hcontexts, hbare, hrest⟩ : ∃ c' rest, b.contexts = c' :: rest ∧ c'.bare = c ∧
      rest.map (·.bare) = p.contexts := by
    simpa [List.map_eq_cons_iff, and_assoc] using hb.contexts
  obtain ⟨rfl, rfl⟩ := popContext_ok hcontexts h
  have hall : ∀ c ∈ c' :: rest, c.Held b.steps b.depth := hcontexts ▸ hb.tidy.contexts
  obtain ⟨hheld, hothers⟩ := List.forall_mem_cons.mp hall
  have htidy : Builder.Tidy { b with contexts := rest } :=
    hb.tidy.moved rfl rfl hb.tidy.pending hothers rfl rfl (Nat.le_refl _) rfl
  have hgrows : b.StaysInside p.depth around _ :=
    .moved htidy rfl (Nat.le_of_eq hb.depth.symm) rfl rfl
  have hafter : p.Describes { b with contexts := rest } :=
    { hb with
      tidy := htidy
      contexts := hrest
      within := { hb.within with contexts := (List.forall_mem_cons.mp hb.within.contexts).2 } }
  subst hbare
  refine ⟨hafter.withSlots fun x hx => ?_, hgrows.toBuildsOn⟩
  rcases List.mem_append.mp hx with hx | hx <;> obtain ⟨slot, hslot, rfl⟩ := List.mem_map.mp hx
  · exact ⟨hb.depth ▸ hheld.breakDepth, hheld.breaks slot hslot⟩
  · exact ⟨hb.depth ▸ hheld.continueDepth, hheld.continues slot hslot⟩

-- Around a loop there is a scope of its own, and its next round starts in one more.
theorem movesSpot_enterLoop {x : Build α} {q : α → Spot} (kind : JumpKind)
    (label : Option String) (hm : m ≤ p.depth) (hn : n ≤ p.depth + 1) (span : Span)
    (hf : MovesSpot around { p with
      depth := p.depth + 1
      contexts := ⟨kind, label, m, n, [], []⟩ :: p.contexts } x q) :
    MovesSpot around p (do
      pushContext kind label m n
      enterScope span
      x) q := by
  intro b a b' hb h
  obtain ⟨_, b₁, h₁, hrest⟩ := bind_eq_ok.mp h
  obtain ⟨_, b₂, h₂, hinner⟩ := bind_eq_ok.mp hrest
  obtain ⟨_, b₃, h₃, h₄⟩ := bind_eq_ok.mp h₂
  obtain ⟨id, hid⟩ := discard_eq_ok.mp h₃
  have he := emit_ok hid
  cases h₁
  -- The builder enters the scope as it does without the context.
  have hplain : Emitted .pushScope b id { b₃ with contexts := b.contexts } :=
    ⟨he.id_eq, by rw [he.state], he.linked⟩
  have hstate : ({ b₂ with contexts := b.contexts } : Builder) =
      { b₃ with contexts := b.contexts, depth := b₃.depth + 1, names := b₂.names } := by
    cases h₄
    rfl
  obtain ⟨hentered, hfirst⟩ := hb.scope around hplain rfl rfl rfl rfl rfl hb.within (Nat.le_refl _)
    (Nat.le_succ _) hstate
  obtain ⟨hpushed, hsecond⟩ := hentered.pushed around kind label
    (Nat.le_succ_of_le hm) hn
  have hcontexts : b₂.contexts = ⟨kind, label, m, n, [], []⟩ :: b.contexts := by
    cases h₄
    exact he.contexts
  change Spot.Describes _
    { b₂ with contexts := ⟨kind, label, m, n, [], []⟩ :: b.contexts } at hpushed
  change Builder.BuildsOn _ _ { b₂ with contexts := ⟨kind, label, m, n, [], []⟩ :: b.contexts }
    at hsecond
  rw [← hcontexts] at hpushed hsecond
  exact (hf b₂ a b' hpushed hinner).imp_right (hfirst.trans hsecond).trans

end scopes

section temps

variable {n : Nat} {span : Span}

theorem temp_ok {stem : String} {b b' : Builder} {x : String}
    (hstem : ∀ c ∈ stem.toList, c.isDigit = false) (hb : b.Tidy) (h : temp stem b = .ok x b') :
    b' = { b with temps := b.temps + 1 } ∧ isTemp x = true ∧ b'.LeavesFree x := by
  cases h
  have hnumbered : IsNumbered (b.temps + 1) ("." ++ stem ++ toString (b.temps + 1)) :=
    ⟨stem, hstem, rfl⟩
  refine ⟨rfl, hnumbered.isTemp, ⟨_, Nat.le_refl _, hnumbered⟩, fun k hbind => ?_⟩
  obtain ⟨n, hn, hold⟩ := hb.numbered k _ hnumbered.isTemp hbind
  have hsame := hold.unique hnumbered
  omega

theorem movesSpot_load {x : String} (hx : (n, x) ∈ p.temps) (span : Span) :
    MovesSpot around p (emit' (.load x) span) fun _ => p :=
  movesSpot_emit' ⟨rfl, rfl, rfl, fun _ => rfl,
    fun _ hy _ => ⟨n, List.mem_singleton.mp hy ▸ hx⟩⟩ nofun

theorem movesSpot_loads {xs : List String} (hxs : ∀ x ∈ xs, (n, x) ∈ p.temps) (span : Span) :
    MovesSpot around p (xs.forM fun x => emit' (.load x) span) fun _ => p := by
  induction xs with
  | nil => exact .pure _ (.refl p)
  | cons x rest ih =>
      obtain ⟨hx, hrest⟩ := List.forall_mem_cons.mp hxs
      exact .bind (movesSpot_load hx span) fun _ => ih hrest

-- A temporary is bound right after it got its name, in the scope that was entered last.
theorem movesSpot_bindTemp (op : String → StepOp) {stem : String} {f : String → Build α}
    {q : α → Spot}
    (hstem : ∀ c ∈ stem.toList, c.isDigit = false) (hop : ∀ x, p.AllowsStep (op x))
    (hbinds : ∀ x, (op x).bindings = [x]) (hw : p.InsideDepth n) (hn : n < p.depth)
    (hf : ∀ x, isTemp x = true →
      MovesSpot around { p with temps := (p.depth, x) :: p.temps } (f x) q) :
    MovesSpot around p (do
      let x ← temp stem
      emit' (op x) span
      f x) q := by
  intro b a b' hb h
  obtain ⟨x, b₁, h₁, hrest⟩ := bind_eq_ok.mp h
  obtain ⟨_, b₂, h₂, hinner⟩ := bind_eq_ok.mp hrest
  obtain ⟨id, hid⟩ := discard_eq_ok.mp h₂
  obtain ⟨rfl, htemp, hspares⟩ := temp_ok hstem hb.tidy h₁
  obtain ⟨hminted, hfirst⟩ := hb.minted around
  obtain ⟨hbound, hsecond⟩ := hminted.bindTemps around (emit_ok hid) (hop x) hw hn
    (by simpa [hbinds] using hspares)
  rw [hbinds] at hbound
  exact (hf x htemp b₂ a b' hbound hinner).imp_right (hfirst.trans hsecond).trans

end temps

section jumps

variable {p : Spot} {span : Span}

-- The jump is added to the loop or switch that was found.
theorem movesSpot_findContext {w : JumpContext → Bool} {f : Option JumpContext → Build Unit}
    (hnone : MovesSpot around p (f none) fun _ => p)
    (hsome : ∀ b c, p.Describes b → b.contexts.find? w = some c →
      ∀ u b', f (some c) b = .ok u b' → p.Describes b' ∧ b.BuildsOn around b') :
    MovesSpot around p (findContext w >>= f) fun _ => p := by
  intro b u b' hb h
  obtain ⟨found, b₁, h₁, h₂⟩ := bind_eq_ok.mp h
  cases h₁
  cases hfind : b.contexts.find? w with
  | none => exact hnone b u b' hb (hfind ▸ h₂)
  | some c => exact hsome b c hb hfind u b' (hfind ▸ h₂)

theorem holds_jumpOut {w : JumpContext → Bool} {c : JumpContext} {n : Nat}
    {f : Slot → JumpContext → JumpContext} {b b' : Builder} {u : Unit} (hb : p.Describes b)
    (hfind : b.contexts.find? w = some c) (hn : n ≤ b.depth)
    (hbare : ∀ slot c, (f slot c).bare = c.bare)
    (hheld : ∀ slot steps depth, c.Held steps depth → FreshSlot steps n slot →
      (f slot c).Held steps depth)
    (h : (do
      let slot ← jump n span
      updateContext w (f slot)) b = .ok u b') : p.Describes b' ∧ b.BuildsOn around b' := by
  obtain ⟨slot, b₁, h₁, h₂⟩ := bind_eq_ok.mp h
  obtain ⟨hjump, hfirst⟩ := movesSpot_jump around (hb.depth ▸ hn) span b slot b₁ hb h₁
  have hplain : p.Describes b₁ := hjump.sub (.add [(n, slot)] [] [])
  have hcontexts : b₁.contexts = b.contexts := by
    obtain ⟨id, b₂, he, -, rfl⟩ := jump_ok h₁
    exact he.contexts
  have hfound := List.mem_of_find?_eq_some hfind
  have hheld := hheld slot _ _ (hplain.tidy.contexts c (hcontexts ▸ hfound))
    (hjump.slots _ List.mem_cons_self)
  obtain ⟨hlast, hsecond⟩ := hplain.updated around (hcontexts ▸ hfind) (hbare slot) hheld
  cases h₂
  exact ⟨hlast, hfirst.trans hsecond⟩

theorem movesSpot_breakOut (label : Option String) (span : Span) :
    MovesSpot around p (breakOut label span) fun _ => p := by
  unfold breakOut
  refine movesSpot_findContext ?_ fun b c hb hfind u b' h => ?_
  · cases label <;> exact .fail _
  · have hc := hb.tidy.contexts c (List.mem_of_find?_eq_some hfind)
    refine holds_jumpOut (f := JumpContext.leaving) hb hfind hc.breakDepth (fun _ _ => rfl)
      (fun slot steps depth hheld hslot => ?_) h
    refine ⟨hheld.breakDepth, hheld.continueDepth, fun x hx => ?_, hheld.continues⟩
    rcases List.mem_append.mp hx with hx | hx
    · exact hheld.breaks x hx
    · exact List.mem_singleton.mp hx ▸ hslot

theorem movesSpot_continueLoop (label : Option String) (span : Span) :
    MovesSpot around p (continueLoop label span) fun _ => p := by
  unfold continueLoop
  refine movesSpot_findContext ?_ fun b c hb hfind u b' h => ?_
  · cases label <;> exact .fail _
  · have hc := hb.tidy.contexts c (List.mem_of_find?_eq_some hfind)
    dsimp only at h
    split at h
    · cases h
    · refine holds_jumpOut (f := JumpContext.repeating) hb hfind hc.continueDepth (fun _ _ => rfl)
        (fun slot steps depth hheld hslot => ?_) h
      refine ⟨hheld.breakDepth, hheld.continueDepth, hheld.breaks, fun x hx => ?_⟩
      rcases List.mem_append.mp hx with hx | hx
      · exact hheld.continues x hx
      · exact List.mem_singleton.mp hx ▸ hslot

theorem movesSpot_gotoLabel {l : String} (hl : l ∈ around) (span : Span) :
    MovesSpot around p (gotoLabel l span) fun _ => p := by
  intro b u b' hb h
  obtain ⟨slot, b₁, h₁, h₂⟩ := bind_eq_ok.mp h
  obtain ⟨hjump, hfollows⟩ := movesSpot_jump around (Nat.zero_le _) span b slot b₁ hb h₁
  have hslot : b.steps.size = slot.step := by
    obtain ⟨id, b₂, he, rfl, rfl⟩ := jump_ok h₁
    exact he.id_eq.symm
  have hlt := (hjump.slots _ List.mem_cons_self).lt
  have hplain : p.Describes b₁ := hjump.sub (.add [(0, slot)] [] [])
  cases h₂
  have htidy : Builder.Tidy { b₁ with gotos := b₁.gotos ++ [⟨slot.step, l, span⟩] } :=
    { hplain.tidy with
      gotos := fun g hg => (List.mem_append.mp hg).elim (hplain.tidy.gotos g) fun hg => by
        obtain rfl := List.mem_singleton.mp hg
        exact hlt }
  refine ⟨{ hplain with tidy := htidy }, htidy, hfollows.extend, hfollows.labels, fun g hg => ?_⟩
  rcases List.mem_append.mp hg with hg | hg
  · exact hfollows.gotos g hg
  · obtain rfl := List.mem_singleton.mp hg
    exact .inr ⟨Nat.le_of_eq hslot, .inl hl⟩

end jumps

section keeps

variable {labels labels' : List String} {p : Spot} {x : Build Unit}

-- The labels that an action places stand behind the steps that were there, at the depth at which it
-- begins.
def PlacesLabels (labels : List String) (p : Spot) (x : Build Unit) : Prop :=
  ∀ b b', p.Describes b → x b = .ok () b' → ∀ l ∈ labels, ∃ target, (l, target) ∈ b'.labels ∧
    b.steps.size ≤ target.step ∧ emissionDepth b'.steps target.step = p.depth

-- A part of a program that leaves everything as it was, but for the labels that it places. `around`
-- are the labels that its jumps may name.
structure KeepsSpots (around labels : List String) (x : Build Unit) : Prop where
  works : ∀ p, MovesSpot around p x fun _ => p
  places : ∀ p, PlacesLabels labels p x

theorem KeepsSpots.of_works (hx : ∀ p, MovesSpot around p x fun _ => p) : KeepsSpots around [] x :=
  ⟨hx, fun _ _ _ _ _ => nofun⟩

theorem KeepsSpots.of_closes (hx : KeepsScope False around x) : KeepsSpots around [] x :=
  .of_works fun _ => .closes hx

theorem KeepsSpots.seq {y : Build Unit} (hx : KeepsSpots around labels x)
    (hy : KeepsSpots around labels' y) :
    KeepsSpots around (labels ++ labels') (do
      x
      y) where
  works p := .bind (hx.works p) fun _ => hy.works p
  places p := by
    intro b b' hb h l hl
    obtain ⟨_, b₁, h₁, h₂⟩ := bind_eq_ok.mp h
    obtain ⟨hmid, hfirst⟩ := hx.works p b _ b₁ hb h₁
    obtain ⟨-, hsecond⟩ := hy.works p b₁ _ b' hmid h₂
    rcases List.mem_append.mp hl with hl | hl
    · obtain ⟨target, hmem, hle, hdepth⟩ := hx.places p b b₁ hb h₁ l hl
      have hlt := hmid.tidy.labels l target hmem
      refine ⟨target, hsecond.labels hmem, hle, ?_⟩
      rw [hsecond.extend.emissionDepth_eq (Nat.le_of_lt hlt), hdepth]
    · obtain ⟨target, hmem, hle, hdepth⟩ := hy.places p b₁ b' hmid h₂ l hl
      exact ⟨target, hmem, Nat.le_trans hfirst.extend.size_le hle, hdepth⟩

-- The jumps to labels of its own stay inside a part.
theorem KeepsSpots.inside (hx : KeepsSpots (labels ++ around) labels x) (p : Spot) :
    MovesSpot around p x fun _ => p := by
  intro b u b' hb h
  -- The part keeps to its depth since it began.
  have hstart := hb.withPlace (Spot.IsPlace.here hb.tidy hb.depth)
  obtain ⟨hafter, hfollows⟩ := hx.works _ b u b' hstart h
  have hfloor := (hafter.places _ List.mem_cons_self).floor
  refine ⟨hafter.sub (.add [] [(p.depth, b.steps.size)] []), ?_⟩
  refine { hfollows with gotos := fun g hg => (hfollows.gotos g hg).imp_right fun hnew => ?_ }
  obtain ⟨hle, hlabel⟩ := hnew
  refine ⟨hle, hlabel.elim (fun hmem => (List.mem_append.mp hmem).elim (fun hmem => .inr ?_) .inl)
    .inr⟩
  obtain ⟨target, htarget, hle', hdepth⟩ := hx.places p b b' hb h g.label hmem
  exact ⟨target, htarget, hfloor.level hle (hafter.tidy.gotos g hg) hle'
    (Nat.le_of_lt (hafter.tidy.labels _ _ htarget)) hdepth⟩

theorem placeLabel_ok {l : String} {span : Span} {b b' : Builder} {u : Unit}
    (h : placeLabel l span b = .ok u b') : ∃ id b₁, emit .nop span b = .ok id b₁ ∧
      b' = { b₁ with labels := (l, ⟨id, b₁.depth⟩) :: b₁.labels } := by
  have hrest : (if (b.labels.lookup l).isSome then fail (.duplicateLabel l span) >>=
      fun _ => emit .nop span >>= fun step => modify fun b =>
        { b with labels := (l, ⟨step, b.depth⟩) :: b.labels }
      else emit .nop span >>= fun step => modify fun b =>
        { b with labels := (l, ⟨step, b.depth⟩) :: b.labels }) b = .ok u b' := h
  split at hrest
  · cases hrest
  · obtain ⟨id, b₁, h₁, h₂⟩ := bind_eq_ok.mp hrest
    cases h₂
    exact ⟨id, b₁, h₁, rfl⟩

theorem keepsSpots_placeLabel (l : String) (span : Span) :
    KeepsSpots around [l] (placeLabel l span) := by
  have hnop : ∀ p, MovesSpot around p (emit .nop span) _ := fun p =>
    movesSpot_emit ⟨rfl, rfl, rfl, fun _ => rfl, nofun⟩ nofun
  refine ⟨fun p b u b' hb h => ?_, fun p b b' hb h l' hl' => ?_⟩ <;>
    obtain ⟨id, b₁, h₁, rfl⟩ := placeLabel_ok h <;>
    obtain ⟨hafter, hfollows⟩ := hnop p b id b₁ hb h₁
  · have hlt := (hafter.slots _ List.mem_cons_self).lt
    have hplain : p.Describes b₁ :=
      hafter.sub (.add [(p.depth, ⟨id, .next⟩), (p.depth, ⟨id, .other⟩)] [(p.depth, id)] [])
    have htidy : Builder.Tidy { b₁ with labels := (l, ⟨id, b₁.depth⟩) :: b₁.labels } :=
      { hplain.tidy with
        labels := fun l' target hmem => (List.mem_cons.mp hmem).elim (fun heq => by
          obtain ⟨-, rfl⟩ := Prod.mk.injEq .. ▸ heq
          exact hlt) (hplain.tidy.labels l' target) }
    refine ⟨{ hplain with tidy := htidy }, htidy, hfollows.extend,
      List.subset_cons_of_subset _ hfollows.labels, fun g hg => (hfollows.gotos g hg).imp_right ?_⟩
    exact And.imp_right <| Or.imp_right fun ⟨target, hmem, hlevel⟩ =>
      ⟨target, List.mem_cons_of_mem _ hmem, hlevel⟩
  · obtain rfl := List.mem_singleton.mp hl'
    have hplace := hafter.places _ List.mem_cons_self
    refine ⟨⟨id, b₁.depth⟩, List.mem_cons_self, ?_, hplace.depth⟩
    exact Nat.le_of_eq (emit_ok h₁).id_eq.symm

end keeps

section blocks

variable {body : List Stmt} {p : Spot}

-- A statement whose jumps to labels stay inside of it or lead to labels around.
def StmtKeepsSpots (around : List String) (s : Stmt) : Prop :=
  ∀ label, KeepsSpots around s.labels (compileStmt s label)

theorem keepsSpots_list (h : ∀ s ∈ body, StmtKeepsSpots around s) :
    KeepsSpots around (labelsOf body) (compileStmts body) := by
  induction body with
  | nil =>
      unfold compileStmts
      exact .of_closes (.pure _)
  | cons s rest ih =>
      obtain ⟨hs, hrest⟩ := List.forall_mem_cons.mp h
      unfold compileStmts
      exact (hs none).seq (ih hrest)

-- The statements of a block of its own, which may jump to their own labels.
theorem movesSpot_block (h : ∀ s ∈ body, StmtKeepsSpots (labelsOf body ++ around) s) (p : Spot) :
    MovesSpot around p (compileStmts body) fun _ => p := (keepsSpots_list h).inside p

theorem movesSpot_inScope (h : ∀ s ∈ body, StmtKeepsSpots (labelsOf body ++ around) s) :
    MovesSpot around p (inScope body Span.none (compileStmts body)) fun _ => p := by
  unfold inScope
  split
  · exact .scoped (movesSpot_block h _) _
  · exact movesSpot_block h p

theorem movesSpot_optional {s : Option Stmt} (h : ∀ x ∈ s, StmtKeepsSpots around x) :
    MovesSpot around p (compileOptional s) fun _ => p := by
  unfold compileOptional
  cases s with
  | none => exact .pure _ (.refl p)
  | some x => exact (h x rfl none).works p

theorem keepsSpots_blockStmt (h : ∀ s ∈ body, StmtKeepsSpots (labelsOf body ++ around) s)
    (span : Span) :
    StmtKeepsSpots around (.block span body) := by
  intro label
  unfold compileStmt
  exact .of_works fun p => movesSpot_inScope h

theorem keepsSpots_labeled {s : Stmt} (h : StmtKeepsSpots around s) (span : Span) (l : String) :
    StmtKeepsSpots around (.labeled span l s) := by
  intro label
  unfold compileStmt
  exact (keepsSpots_placeLabel l span).seq (h _)

theorem movesSpot_enterIf (c : Prop) [Decidable c] (span : Span) :
    MovesSpot around p (if c then enterScope span else pure ())
      fun _ => { p with depth := if c then p.depth + 1 else p.depth } := by
  split
  · exact movesSpot_enterScope span
  · exact .pure _ (.refl p)

theorem movesSpot_leaveIf (hw : p.InsideDepth p.depth) (c : Prop) [Decidable c] (span : Span) :
    MovesSpot around { p with depth := if c then p.depth + 1 else p.depth }
      (if c then leaveScope span else pure ()) fun _ => p := by
  split
  · exact movesSpot_leaveScope hw span
  · exact .pure _ (.refl p)

theorem keepsSpots_cond {init no : Option Stmt} {test : Expr} {yes : List Stmt}
    (hinit : ∀ x ∈ init, StmtKeepsSpots around x) (htest : ExprKeepsScope test)
    (hyes : ∀ s ∈ yes, StmtKeepsSpots (labelsOf yes ++ around) s)
    (hno : ∀ x ∈ no, StmtKeepsSpots around x)
    (span : Span) : StmtKeepsSpots around (.cond span init test yes no) := by
  intro label
  refine .of_works fun p => .within fun hw => ?_
  unfold compileStmt
  refine .ifThen <| .bind (movesSpot_enterIf _ span) fun _ =>
    .bind (movesSpot_optional hinit) fun _ => ?_
  refine .bind (.closes (htest.value _)) fun _ => .bind (movesSpot_branch span) fun other => ?_
  refine .bind (movesSpot_inScope hyes) fun _ => .bind movesSpot_takePending fun exits => ?_
  refine .bind (movesSpot_setPending ?_) fun _ => .bind (movesSpot_optional hno) fun _ => ?_
  · simp
  refine .bind (movesSpot_addPending ?_) fun _ => ?_
  · intro slot hslot
    exact List.mem_append_left _ (List.mem_map_of_mem hslot)
  exact (movesSpot_leaveIf hw (init.isSome = true) span).given <| .of_subset rfl rfl rfl
    (fun x hx => by simp [hx]) (List.Subset.refl _) (List.Subset.refl _)

end blocks

end Build

end StepGraph

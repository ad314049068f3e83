import StepGraph.Proofs.Compile.Code

namespace StepGraph

namespace StepOp

-- The entry of the steps that compute the operands of a deferred call.
def entry? : StepOp → Option StepId
  | defer entry .. => some entry
  | _ => none

theorem entry?_bare (op : StepOp) : op.bare.entry? = op.entry? := by cases op <;> rfl

theorem entry?_of_isPlain {op : StepOp} (h : op.isPlain = true) : op.entry? = none := by
  cases op <;> first | rfl | cases h

theorem bare_of_isPlain {op : StepOp} (h : op.isPlain = true) : op.bare = op := by
  have hother := other?_of_isPlain h
  have hbare := op.bare_toOther
  rw [hother] at hbare
  cases op <;> first | rfl | exact hbare

end StepOp

-- A step defers a call. Its operands are computed from the entry on.
def DefersFrom (steps : Array Step) (e d : StepId) : Prop :=
  ∃ s, steps[d]? = some s ∧ s.op.entry? = some e

-- The steps before the deferring one compute its operands, from the entry on.
def InChain (e d i : StepId) : Prop := e ≤ i ∧ i < d

instance (e d i : StepId) : Decidable (InChain e d i) := inferInstanceAs (Decidable (_ ∧ _))

def OutsideChains (steps : Array Step) (i : StepId) : Prop := ∀ e d, DefersFrom steps e d →
    ¬ InChain e d i

-- The chains of deferred calls are on their own: they start behind the first step, go forward, and
-- share neither a step nor an edge with each other or with the rest.
structure Detached (steps : Array Step) : Prop where
  entry : ∀ e d, DefersFrom steps e d → 0 < e ∧ e < d
  plain : ∀ e d, DefersFrom steps e d → ∀ i s, InChain e d i → steps[i]? = some s →
    s.op.bare.isPlain = true
  edge : ∀ e d, DefersFrom steps e d → ∀ x j, LeadsTo steps x (some j) →
    (InChain e d x.step ↔ InChain e d j)
  forward : ∀ e d, DefersFrom steps e d → ∀ x j, LeadsTo steps x (some j) → InChain e d x.step →
    x.step < j
  apart : ∀ e d e' d', DefersFrom steps e d → DefersFrom steps e' d' → d < e' ∨ d = d' ∨ d' < e

section steps

variable {steps steps' : Array Step} {e d i : StepId} {s : Step}

theorem DefersFrom.lt_size (h : DefersFrom steps e d) : d < steps.size := by
  obtain ⟨s, hs, -⟩ := h
  exact (Array.getElem?_eq_some_iff.mp hs).1

theorem DefersFrom.of_bare (h : DefersFrom steps' e d) (hs : steps[d]? = some s) {s' : Step}
    (hs' : steps'[d]? = some s') (hbare : s'.op.bare = s.op.bare) : DefersFrom steps e d := by
  obtain ⟨u, hu, hentry⟩ := h
  cases hu.symm.trans hs'
  refine ⟨s, hs, ?_⟩
  rw [← hentry, ← StepOp.entry?_bare, ← hbare, StepOp.entry?_bare]

-- What lies behind all steps lies in no chain.
theorem outside_of_size_le (hi : steps.size ≤ i) : OutsideChains steps i := fun _ _ hd hin =>
  absurd (Nat.lt_trans hin.2 hd.lt_size) (Nat.not_lt.mpr hi)

theorem OutsideChains.mono (h : OutsideChains steps i) (hdefers : ∀ e d, DefersFrom steps' e d →
      DefersFrom steps e d) :
    OutsideChains steps' i := fun e d hd => h e d (hdefers e d hd)

theorem detached_empty : Detached #[] := by
  have hnone : ∀ e d, ¬ DefersFrom #[] e d := fun e d h => absurd h.lt_size (Nat.not_lt_zero d)
  exact ⟨fun e d h => absurd h (hnone e d), fun e d h => absurd h (hnone e d),
    fun e d h => absurd h (hnone e d), fun e d h => absurd h (hnone e d),
    fun e d _ _ h => absurd h (hnone e d)⟩

namespace Detached

-- Edges between steps outside of all chains do no harm, and neither do steps that defer nothing.
theorem mono (h : Detached steps) (hdefers : ∀ e d, DefersFrom steps' e d → DefersFrom steps e d)
    (hsteps : ∀ i s', i < steps.size → steps'[i]? = some s' →
      ∃ s, steps[i]? = some s ∧ (s'.op.bare = s.op.bare ∨ OutsideChains steps i))
    (hedge : ∀ x j, LeadsTo steps' x (some j) → LeadsTo steps x (some j) ∨
      OutsideChains steps x.step ∧ OutsideChains steps j) : Detached steps' where
  entry e d hd := h.entry e d (hdefers e d hd)
  plain e d hd i s' hin hs' := by
    have hd := hdefers e d hd
    obtain ⟨s, hs, hbare | hout⟩ := hsteps i s' (Nat.lt_trans hin.2 hd.lt_size) hs'
    · exact hbare ▸ h.plain e d hd i s hin hs
    · exact absurd hin (hout e d hd)
  edge e d hd x j hx := by
    have hd := hdefers e d hd
    rcases hedge x j hx with hx | ⟨hout, hout'⟩
    · exact h.edge e d hd x j hx
    · exact iff_of_false (hout e d hd) (hout' e d hd)
  forward e d hd x j hx hin := by
    have hd := hdefers e d hd
    rcases hedge x j hx with hx | ⟨hout, -⟩
    · exact h.forward e d hd x j hx hin
    · exact absurd hin (hout e d hd)
  apart e d e' d' hd hd' := h.apart e d e' d' (hdefers e d hd) (hdefers e' d' hd')

-- No step belongs to two chains.
theorem disjoint {e' d' : StepId} (h : Detached steps) (hd : DefersFrom steps e d)
    (hd' : DefersFrom steps e' d') (hne : d ≠ d') (hin : InChain e d i) : ¬ InChain e' d' i := by
  intro hin'
  rcases h.apart e d e' d' hd hd' with hlt | heq | hlt
  · exact absurd (Nat.lt_of_le_of_lt hin'.1 hin.2) (Nat.lt_asymm hlt)
  · exact hne heq
  · exact absurd (Nat.lt_of_le_of_lt hin.1 hin'.2) (Nat.lt_asymm hlt)

end Detached

-- From step `n` on all steps go on among themselves, and nothing leads there from before.
structure Onward (n : StepId) (steps : Array Step) : Prop where
  plain : ∀ i s, n ≤ i → steps[i]? = some s → s.op.bare.isPlain = true
  forward : ∀ x j, LeadsTo steps x (some j) → n ≤ x.step → x.step < j
  before : ∀ x j, LeadsTo steps x (some j) → x.step < n → j < n

-- Nothing is there yet from the next step on.
theorem Onward.start (hbound : ∀ x j, LeadsTo steps x (some j) → j < steps.size) :
    Onward steps.size steps where
  plain _ _ hi hu := absurd (Array.getElem?_eq_some_iff.mp hu).1 (Nat.not_lt.mpr hi)
  forward _ _ hx hge := absurd hx.lt_size (Nat.not_lt.mpr hge)
  before _ _ hx _ := hbound _ _ hx

theorem Onward.defers_lt {n : StepId} (h : Onward n steps) (hd : DefersFrom steps e d) : d < n := by
  by_contra hge
  obtain ⟨s, hs, hentry⟩ := hd
  have hnone := StepOp.entry?_of_isPlain (h.plain d s (Nat.le_of_not_lt hge) hs)
  rw [StepOp.entry?_bare, hentry] at hnone
  cases hnone

section push

variable {args : Arity} {spread : Bool} {builtin : Option (Builtin × Option Ty)} {span : Span}
  {n : StepId}

theorem leadsTo_of_push {x : Slot} {j : StepId} (hother : s.op.other? = none)
    (hnext : s.next = none) (hx : LeadsTo (steps.push s) x (some j)) :
    LeadsTo steps x (some j) := by
  obtain ⟨u, hu, hfollow⟩ := hx
  rw [Array.getElem?_push] at hu
  split at hu
  · cases hu
    obtain ⟨i, edge⟩ := x
    cases edge with
    | next => cases hnext.symm.trans hfollow
    | other => cases hother.symm.trans hfollow
  · exact ⟨u, hu, hfollow⟩

theorem defers_push {d : StepId} (hd : DefersFrom (steps.push s) e d) :
    DefersFrom steps e d ∨ d = steps.size ∧ s.op.entry? = some e := by
  obtain ⟨u, hu, hentry⟩ := hd
  rw [Array.getElem?_push] at hu
  split at hu
  · next hi =>
      cases hu
      exact .inr ⟨hi, hentry⟩
  · exact .inl ⟨u, hu, hentry⟩

-- A step that defers a call makes a chain of the steps from the entry on.
theorem Detached.push (h : Detached steps) (ho : Onward n steps) (hpos : 0 < n)
    (hlt : n < steps.size) (hbound : ∀ x j, LeadsTo steps x (some j) → j < steps.size) :
    Detached (steps.push ⟨.defer n args spread builtin, none, span⟩) := by
  have hedges : ∀ x j, LeadsTo (steps.push ⟨.defer n args spread builtin, none, span⟩) x (some j) →
      LeadsTo steps x (some j) := fun _ _ => leadsTo_of_push rfl rfl
  have hcases : ∀ e d, DefersFrom (steps.push ⟨.defer n args spread builtin, none, span⟩) e d →
      DefersFrom steps e d ∧ d < n ∨ e = n ∧ d = steps.size := by
    intro e d hd
    rcases defers_push hd with hd | ⟨rfl, hentry⟩
    · exact .inl ⟨hd, ho.defers_lt hd⟩
    · cases hentry
      exact .inr ⟨rfl, rfl⟩
  have hstep : ∀ i u d, InChain n d i → d ≤ steps.size →
      (steps.push ⟨.defer n args spread builtin, none, span⟩)[i]? = some u → steps[i]? = some u := by
    intro i u d hin hd hu
    rwa [Array.getElem?_push, if_neg (Nat.ne_of_lt (Nat.lt_of_lt_of_le hin.2 hd))] at hu
  refine ⟨fun e d hd => ?_, fun e d hd i u hin hu => ?_, fun e d hd x j hx => ?_,
    fun e d hd x j hx hin => ?_, fun e d e' d' hd hd' => ?_⟩
  · rcases hcases e d hd with ⟨hd, -⟩ | ⟨rfl, rfl⟩
    · exact h.entry e d hd
    · exact ⟨hpos, hlt⟩
  · rcases hcases e d hd with ⟨hd, -⟩ | ⟨rfl, rfl⟩
    · rw [Array.getElem?_push, if_neg (Nat.ne_of_lt (Nat.lt_trans hin.2 hd.lt_size))] at hu
      exact h.plain e d hd i u hin hu
    · exact ho.plain i u hin.1 (hstep i u _ hin (Nat.le_refl _) hu)
  · have hold := hedges x j hx
    rcases hcases e d hd with ⟨hd, -⟩ | ⟨rfl, rfl⟩
    · exact h.edge e d hd x j hold
    · refine ⟨fun hin => ⟨?_, hbound x j hold⟩, fun hin => ⟨?_, hold.lt_size⟩⟩
      · exact Nat.le_of_lt (Nat.lt_of_le_of_lt hin.1 (ho.forward x j hold hin.1))
      · by_contra hbefore
        exact absurd (ho.before x j hold (Nat.lt_of_not_le hbefore)) (Nat.not_lt.mpr hin.1)
  · have hold := hedges x j hx
    rcases hcases e d hd with ⟨hd, -⟩ | ⟨rfl, rfl⟩
    · exact h.forward e d hd x j hold hin
    · exact ho.forward x j hold hin.1
  · rcases hcases e d hd with ⟨hd, hlt⟩ | ⟨rfl, rfl⟩
    · rcases hcases e' d' hd' with ⟨hd', -⟩ | ⟨rfl, rfl⟩
      · exact h.apart e d e' d' hd hd'
      · exact .inl hlt
    · rcases hcases e' d' hd' with ⟨-, hlt'⟩ | ⟨rfl, rfl⟩
      · exact .inr (.inr hlt')
      · exact .inr (.inl rfl)

end push

end steps

open Build

theorem Site.mem_listed {s : Site} {b : Builder} {x : Slot} : x ∈ s.listed b ↔
    x ∈ b.pending ∨ x ∈ s.slots ∨ x ∈ b.gotoSlots ∨ x ∈ jumps b.contexts := by
  simp only [listed, List.mem_append, or_assoc]

theorem mem_jumps_modifyContext {p : JumpContext → Bool} {contexts : List JumpContext} {slot x : Slot}
    {f : JumpContext → JumpContext} (hf : ∀ c : JumpContext, ((f c).breaks ++ (f c).continues).count x ≤
      (c.breaks ++ c.continues).count x + [slot].count x)
    (hx : x ∈ jumps (modifyContext p f contexts)) : x ∈ jumps contexts ∨ x = slot := by
  have hle := count_jumps_modifyContext p contexts slot x hf
  rw [← List.count_pos_iff] at hx
  rw [← List.count_pos_iff, ← List.mem_singleton, ← List.count_pos_iff (l := [slot])]
  omega

-- A step that stands outside of all chains.
structure FreeStep (steps : Array Step) (i : StepId) : Prop where
  lt_size : i < steps.size
  outside : OutsideChains steps i

-- A chain that starts behind a free step leaves it free.
theorem FreeStep.pushed {steps steps' : Array Step} {i : StepId} {s : Step} (h : FreeStep steps i)
    (he : StepsExtend steps steps') (ho : Onward steps.size steps')
    (hop : ∀ e, s.op.entry? = some e → e = steps.size) :
    FreeStep (steps'.push s) i := by
  refine ⟨?_, fun e d hd hin => ?_⟩
  · rw [Array.size_push]
    exact Nat.lt_succ_of_lt (Nat.lt_of_lt_of_le h.lt_size he.size_le)
  · rcases defers_push hd with hd | ⟨-, hentry⟩
    · have ⟨u', hu', _⟩ := hd
      have hu := Array.getElem?_eq_getElem (ho.defers_lt hd)
      obtain ⟨u'', hu'', hbelow⟩ := he d _ hu
      cases hu'.symm.trans hu''
      exact h.outside e d (hd.of_bare hu hu' hbelow.bare) hin
    · rw [hop e hentry] at hin
      exact absurd h.lt_size (Nat.not_lt.mpr hin.1)

-- The chains so far are on their own, and whatever may become the source or the target of an edge
-- is no part of them.
structure Chained (s : Site) (b : Builder) : Prop where
  detached : Detached b.steps
  bound : ∀ x j, LeadsTo b.steps x (some j) → j < b.steps.size
  slots : ∀ x ∈ s.listed b, FreeStep b.steps x.step
  heads : ∀ x ∈ s.heads, FreeStep b.steps x.step
  labels : ∀ x ∈ b.labels, FreeStep b.steps x.2.step

namespace Chained

variable {s s' : Site} {b b' b₁ : Builder} {op : StepOp} {id : StepId}

theorem of_subset (h : Chained s b) (hsteps : b'.steps = b.steps)
    (hslots : s'.listed b' ⊆ s.listed b) (hheads : s'.heads ⊆ s.heads)
    (hlabels : b'.labels = b.labels) : Chained s' b' := by
  refine ⟨hsteps ▸ h.detached, hsteps ▸ h.bound, fun x hx => ?_, fun x hx => ?_, fun x hx => ?_⟩
  · exact hsteps ▸ h.slots x (hslots hx)
  · exact hsteps ▸ h.heads x (hheads hx)
  · exact hsteps ▸ h.labels x (hlabels ▸ hx)

-- Open successors are linked to a step that is free.
theorem linked {slots : List Slot} {t : StepId} {steps : Array Step} (h : Chained s b)
    (hl : Linked b.steps slots t steps) (hlinked : slots ⊆ s.listed b) (ht : FreeStep b.steps t)
    (hsteps : b'.steps = steps) (hslots : s'.listed b' ⊆ s.listed b) (hheads : s'.heads ⊆ s.heads)
    (hlabels : b'.labels = b.labels) : Chained s' b' := by
  subst hsteps
  have hdefers : ∀ e d, DefersFrom b'.steps e d → DefersFrom b.steps e d := by
    intro e d hd
    have ⟨u, hu, _⟩ := hd
    obtain ⟨w, hw, hbelow⟩ := hl.below hu
    exact hd.of_bare hw hu hbelow.bare
  have hfree : ∀ i, FreeStep b.steps i → FreeStep b'.steps i := fun i hi =>
    ⟨hl.size ▸ hi.lt_size, hi.outside.mono hdefers⟩
  refine ⟨?_, fun x j hx => ?_, fun x hx => hfree _ (h.slots x (hslots hx)),
    fun x hx => hfree _ (h.heads x (hheads hx)), fun x hx => hfree _ (h.labels x (hlabels ▸ hx))⟩
  · refine h.detached.mono hdefers (fun i u _ hu => ?_) fun x j hx => ?_
    · obtain ⟨w, hw, hbelow⟩ := hl.below hu
      exact ⟨w, hw, .inl hbelow.bare⟩
    · refine (hl.edge hx).imp_right fun ⟨hx, hj⟩ => ⟨(h.slots x (hlinked hx)).outside, ?_⟩
      exact hj ▸ ht.outside
  · rw [hl.size]
    rcases hl.edge hx with hx | ⟨-, rfl⟩
    · exact h.bound x j hx
    · exact ht.lt_size

-- A step that defers nothing is added.
theorem emitted (h : Chained s b) (he : Emitted op b id b₁) (hother : op.other? = none)
    (hentry : op.entry? = none)
    (hsteps : b'.steps = b₁.steps) (hslots : ∀ x ∈ s'.listed b', x ∈ s.listed b ∨ x.step = id)
    (hheads : ∀ x ∈ s'.heads, x ∈ s.heads ∨ x.step = id)
    (hlabels : ∀ x ∈ b'.labels, x ∈ b.labels ∨ x.2.step = id) : Chained s' b' := by
  have hid := he.id_eq
  have hsize := he.size_eq
  have hbelow := @Emitted.below _ _ _ _ he
  have hedge := fun {x j} => he.edge hother (x := x) (j := j)
  rw [← hsteps] at hsize hbelow hedge
  have hdefers : ∀ e d, DefersFrom b'.steps e d → DefersFrom b.steps e d := by
    intro e d hd
    have ⟨u, hu, hsome⟩ := hd
    rcases hbelow hu with ⟨-, hbare⟩ | ⟨w, hw, hbelow⟩
    · rw [← StepOp.entry?_bare, hbare, StepOp.entry?_bare, hentry] at hsome
      cases hsome
    · exact hd.of_bare hw hu hbelow.bare
  have hnew : OutsideChains b.steps id := outside_of_size_le (Nat.le_of_eq hid.symm)
  have hfree : ∀ i, FreeStep b.steps i ∨ i = id → FreeStep b'.steps i := by
    rintro i (hi | rfl)
    · exact ⟨hsize ▸ Nat.lt_succ_of_lt hi.lt_size, hi.outside.mono hdefers⟩
    · exact ⟨hsize ▸ Nat.lt_succ_of_le (Nat.le_of_eq hid), hnew.mono hdefers⟩
  refine ⟨?_, fun x j hx => ?_, fun x hx => hfree _ ((hslots x hx).imp_left (h.slots x)),
    fun x hx => hfree _ ((hheads x hx).imp_left (h.heads x)),
    fun x hx => hfree _ ((hlabels x hx).imp_left (h.labels x))⟩
  · refine h.detached.mono hdefers (fun i u hi hu => ?_) fun x j hx => ?_
    · rcases hbelow hu with ⟨rfl, -⟩ | ⟨w, hw, hbelow⟩
      · exact absurd hi (Nat.not_lt.mpr (Nat.le_of_eq hid.symm))
      · exact ⟨w, hw, .inl hbelow.bare⟩
    · exact (hedge hx).imp_right fun ⟨hx, hj⟩ =>
        ⟨(h.slots x (List.mem_append_left _ hx)).outside, hj ▸ hnew⟩
  · rw [hsize]
    rcases hedge hx with hx | ⟨-, rfl⟩
    · exact Nat.lt_succ_of_lt (h.bound x j hx)
    · exact Nat.lt_succ_of_le (Nat.le_of_eq hid)

-- What is open is set aside, put back, or given up.
theorem taken (h : Chained s b) :
    Chained { s with held := b.pending.map s.loose ++ s.held } { b with pending := [] } := by
  refine h.of_subset rfl (fun x hx => ?_) (fun _ hx => hx) rfl
  simp only [Site.mem_listed, Site.slots, List.map_append, s.slot_loose, List.mem_append,
    List.not_mem_nil, false_or, or_assoc] at hx ⊢
  exact hx

theorem put {moved held : List Loose} (h : Chained s b) (hheld : s.held.Perm (moved ++ held)) :
    Chained { s with held } { b with pending := b.pending ++ moved.map (·.slot) } := by
  refine h.of_subset rfl (fun x hx => ?_) (fun _ hx => hx) rfl
  have hsame := (hheld.map (·.slot)).mem_iff (a := x)
  simp only [Site.mem_listed, Site.slots, List.map_append, List.mem_append] at hsame hx ⊢
  rw [hsame]
  tauto

theorem dropped {given held : List Loose} {pending : List Slot} (h : Chained s b)
    (hheld : s.held.Perm (given ++ held)) (hpending : pending = b.pending ∨ pending = []) :
    Chained { s with held } { b with pending } := by
  refine h.of_subset rfl (fun x hx => ?_) (fun _ hx => hx) rfl
  have hsame := (hheld.map (·.slot)).mem_iff (a := x)
  have hless : x ∈ pending → x ∈ b.pending := by
    rcases hpending with rfl | rfl
    · exact fun hx => hx
    · simp
  simp only [Site.mem_listed, Site.slots, List.map_append, List.mem_append] at hsame hx ⊢
  rw [hsame]
  exact hx.imp hless (.imp_left .inr)

theorem pushed {c : JumpContext} (h : Chained s b) (hbreaks : c.breaks = [])
    (hcontinues : c.continues = []) :
    Chained { s with contexts := c :: s.contexts } { b with contexts := c :: b.contexts } := by
  refine h.of_subset rfl (fun x hx => ?_) (fun _ hx => hx) rfl
  simp only [Site.mem_listed, jumps_cons, hbreaks, hcontinues, List.append_nil,
    List.nil_append] at hx ⊢
  exact hx

theorem popped {c : JumpContext} {rest : List JumpContext} (h : Chained s b)
    (hcontexts : b.contexts = c :: rest) : Chained
      { s with
        contexts := s.contexts.tail
        held := c.breaks.map (.exit c.breakDepth) ++
          (c.continues.map (.round c.continueDepth) ++ s.held) }
      { b with contexts := rest } := by
  refine h.of_subset rfl (fun x hx => ?_) (fun _ hx => hx) rfl
  simp only [Site.mem_listed, Site.slots, hcontexts, jumps_cons, List.map_append, List.map_map,
    Function.comp_def, Loose.exit, Loose.round, List.map_id', List.mem_append] at hx ⊢
  tauto

theorem emitted_plain {rest : List Item} (h : Chained s b) (hop : op.isPlain = true)
    (he : Emitted op b id b₁) :
    Chained (s.emitted op rest id) { b₁ with depth := op.depthEmitted b.depth } := by
  refine h.emitted he (StepOp.other?_of_isPlain hop) (StepOp.entry?_of_isPlain hop) rfl
    (fun x hx => ?_) (fun x hx => ?_) fun x hx => .inl (he.labels ▸ hx)
  · simp only [Site.mem_listed, Builder.gotoSlots, he.gotos, he.contexts, he.pending,
      List.mem_singleton] at hx ⊢
    rcases hx with rfl | hx | hx
    · exact .inr rfl
    · obtain ⟨y, hy, rfl⟩ := List.mem_map.mp hx
      rcases List.mem_append.mp hy with hy | hy
      · rw [Option.mem_toList, Option.map_eq_some_iff] at hy
        obtain ⟨given, -, rfl⟩ := hy
        exact .inr rfl
      · exact .inl (.inr (.inl (List.mem_map_of_mem hy)))
    · exact .inl (.inr (.inr hx))
  · rcases List.mem_cons.mp hx with rfl | hx
    · exact .inr rfl
    · exact .inl hx

-- A jump that a statement around keeps for its end or for its next round.
theorem jumped {d : Nat} {p : JumpContext → Bool} {f : JumpContext → JumpContext} (h : Chained s b)
    (he : Emitted (.jump d) b id b₁) (hf : ∀ x c, ((f c).breaks ++ (f c).continues).count x ≤
      (c.breaks ++ c.continues).count x + [⟨id, .next⟩].count x) :
    Chained s { b₁ with pending := [], contexts := modifyContext p f b₁.contexts } := by
  refine h.emitted he rfl rfl rfl (fun x hx => ?_) (fun _ => .inl) fun x hx => .inl (he.labels ▸ hx)
  simp only [Site.mem_listed, Builder.gotoSlots, he.gotos, he.contexts, List.not_mem_nil,
    false_or] at hx ⊢
  rcases hx with hx | hx | hx
  · exact .inl (.inr (.inl hx))
  · exact .inl (.inr (.inr (.inl hx)))
  · exact (mem_jumps_modifyContext (hf x) hx).imp (fun hx => .inr (.inr (.inr hx)))
      fun hx : x = ⟨id, .next⟩ => congrArg (·.step) hx

theorem emitted_goto {d : Nat} (h : Chained s b) (label : String) (span : Span)
    (he : Emitted (.jump d) b id b₁) :
    Chained s { b₁ with pending := [], gotos := b₁.gotos ++ [⟨id, label, span⟩] } := by
  refine h.emitted he rfl rfl rfl (fun x hx => ?_) (fun _ => .inl) fun x hx => .inl (he.labels ▸ hx)
  simp only [Site.mem_listed, Builder.gotoSlots, he.gotos, he.contexts, List.not_mem_nil,
    false_or, List.map_append, List.mem_append, List.map_cons, List.map_nil,
    List.mem_singleton] at hx ⊢
  rcases hx with hx | (hx | rfl) | hx
  · exact .inl (.inr (.inl hx))
  · exact .inl (.inr (.inr (.inl hx)))
  · exact .inr rfl
  · exact .inl (.inr (.inr (.inr hx)))

theorem labeled (h : Chained s b) (label : String) (he : Emitted .nop b id b₁) :
    Chained s { b₁ with labels := (label, ⟨id, b₁.depth⟩) :: b₁.labels } := by
  refine h.emitted he rfl rfl rfl (fun x hx => ?_) (fun _ => .inl) fun x hx => ?_
  · simp only [Site.mem_listed, Builder.gotoSlots, he.gotos, he.contexts, he.pending,
      List.mem_singleton] at hx ⊢
    exact (Or.symm hx).imp .inr fun hx => congrArg (·.step) hx
  · rcases List.mem_cons.mp hx with rfl | hx
    · exact .inr rfl
    · exact .inl (he.labels ▸ hx)

-- The jump back is emitted and set aside, then it and the other jumps are linked to the head.
theorem rounded {d : Nat} {head : Head} {moved held : List Loose} {steps steps' : Array Step}
    (h : Chained s b) (hhead : head ∈ s.heads) (he : Emitted (.jump d) b id b₁)
    (hlinked : Linked b₁.steps [⟨id, .next⟩] head.step steps) (hheld : s.held.Perm (moved ++ held))
    (hrounds : Linked steps (moved.map (·.slot)) head.step steps') :
    Chained { s with held } { b₁ with pending := [], steps := steps' } := by
  have hjumped : Chained { s with held := s.loose ⟨id, .next⟩ :: s.held }
      { b₁ with pending := [] } := by
    refine h.emitted he rfl rfl rfl (fun x hx => ?_) (fun _ => .inl)
      fun x hx => .inl (he.labels ▸ hx)
    simp only [Site.mem_listed, Site.slots, Builder.gotoSlots, he.gotos, he.contexts,
      List.not_mem_nil, false_or, List.map_cons, Site.loose, List.mem_cons] at hx ⊢
    rcases hx with (rfl | hx) | hx
    · exact .inr rfl
    · exact .inl (.inr (.inl hx))
    · exact .inl (.inr (.inr hx))
  have hback : Chained { s with held := s.held } { b₁ with pending := [], steps } := by
    refine hjumped.linked hlinked (fun x hx => ?_) (hjumped.heads head hhead) rfl (fun x hx => ?_)
      (fun _ hx => hx) rfl
    · obtain rfl := List.mem_singleton.mp hx
      exact Site.mem_listed.mpr (.inr (.inl List.mem_cons_self))
    · simp only [Site.mem_listed, Site.slots, List.map_cons, List.mem_cons] at hx ⊢
      exact hx.imp_right (.imp_left .inr)
  have hsame := fun x => (hheld.map (·.slot)).mem_iff (a := x)
  simp only [List.map_append, List.mem_append] at hsame
  refine hback.linked hrounds (fun x hx => ?_) (hback.heads head hhead) rfl (fun x hx => ?_)
    (fun _ hx => hx) rfl
  · exact Site.mem_listed.mpr (.inr (.inl ((hsame x).mpr (.inl hx))))
  · rw [Site.mem_listed] at hx ⊢
    exact hx.imp_right (.imp_left fun hx => (hsame x).mpr (.inr hx))

-- A deferred call is built with nothing open.
theorem inner (h : Chained s b) : Chained { s with held := [], heads := [] } { b with pending := [] } := by
  refine h.of_subset rfl (fun x hx => ?_) (by simp) rfl
  simp only [Site.mem_listed, Site.slots, List.map_nil, List.not_mem_nil, false_or] at hx ⊢
  exact .inr (.inr hx)

-- Its step makes a chain of what was built since.
theorem deferred {b₂ : Builder} {args : Arity} {spread : Bool} {builtin : Option (Builtin × Option Ty)}
    {n : StepId} {s₁ : Site} (h : Chained s b) (h₁ : Chained s₁ b₁) (ho : Onward b.steps.size b₁.steps)
    (hextend : StepsExtend b.steps b₁.steps)
    (hapart : Progress.SelfContained n { b with pending := [] } b₁)
    (hpos : 0 < b.steps.size) (hsome : b.steps.size < b₁.steps.size)
    (he : Emitted (.defer b.steps.size args spread builtin) { b₁ with pending := b.pending } id b₂) :
    Chained s b₂ := by
  obtain ⟨span, hlinked⟩ := he.linked
  have hid : id = b₁.steps.size := he.id_eq
  have hnew : FreeStep (b₁.steps.push ⟨.defer b.steps.size args spread builtin, none, span⟩)
    id := by
    refine ⟨by rw [Array.size_push, hid]; exact Nat.lt_succ_self _, fun e d hd hin => ?_⟩
    have hlt := Nat.lt_of_lt_of_le hin.2 (Nat.le_of_lt_succ (Array.size_push _ ▸ hd.lt_size))
    exact absurd hid (Nat.ne_of_lt hlt)
  have hfree : ∀ i, FreeStep b.steps i →
      FreeStep (b₁.steps.push ⟨.defer b.steps.size args spread builtin, none, span⟩) i :=
    fun i hi => hi.pushed hextend ho fun _ hentry => (Option.some.inj hentry).symm
  have hpushed : Chained s { b₁ with
      pending := ⟨id, .next⟩ :: b.pending
      steps := b₁.steps.push ⟨.defer b.steps.size args spread builtin, none, span⟩ } := by
    refine ⟨h₁.detached.push ho hpos hsome h₁.bound, fun x j hx => ?_, fun x hx => ?_,
      fun x hx => hfree _ (h.heads x hx), fun x hx => hfree _ (h.labels x (hapart.labels ▸ hx))⟩
    · have hlt := h₁.bound x j (leadsTo_of_push rfl rfl hx)
      exact Array.size_push _ ▸ Nat.lt_succ_of_lt hlt
    · simp only [Site.mem_listed, List.mem_cons, Builder.gotoSlots, hapart.gotos,
        hapart.contexts, or_assoc] at hx
      rcases hx with rfl | hx
      · exact hnew
      · exact hfree _ (h.slots x (Site.mem_listed.mpr hx))
  refine hpushed.linked hlinked (fun x hx => ?_) hnew rfl (fun x hx => ?_) (fun _ hx => hx)
    he.labels
  · exact List.mem_append_left _ (List.mem_cons_of_mem _ hx)
  · simp only [Site.mem_listed, he.pending, Builder.gotoSlots, he.gotos, he.contexts,
      List.mem_cons, List.not_mem_nil, or_false] at hx ⊢
    exact hx.imp_left .inl

end Chained

namespace Progress

variable {stage : Stage} {s s' : Site} {b b' : Builder} {marks : List Mark} {starts : List StepId}

-- Expressions and deferred calls are made of plain steps.
theorem plain (h : Progress stage s b marks starts s' b') (hstage : stage ≠ .stmt) {n : StepId}
    (hb : ∀ i u, n ≤ i → b.steps[i]? = some u → u.op.bare.isPlain = true) :
    ∀ i u, n ≤ i → b'.steps[i]? = some u → u.op.bare.isPlain = true := by
  induction h with
  | refl | names | take | put | forget | literal => exact hb
  | trans _ _ ih₁ ih₂ => exact ih₂ hstage (ih₁ hstage hb)
  | emit hop he =>
      intro i u hi hu
      rcases he.below hu with ⟨-, hbare⟩ | ⟨w, hw, hbelow⟩
      · rw [hbare, StepOp.bare_of_isPlain hop.plain, hop.plain]
      · rw [hbelow.bare]
        exact hb i w hi hw
  | _ => exact absurd rfl hstage

-- They go on among themselves.
theorem onward (h : Progress stage s b marks starts s' b') (hstage : stage ≠ .stmt) {n : StepId}
    (hl : Linear s b) (hn : Since n s b) (ho : Onward n b.steps) : Onward n b'.steps := by
  induction h with
  | refl | names | take | put | forget | literal => exact ho
  | trans hfirst _ ih₁ ih₂ =>
      exact ih₂ hstage (hfirst.linear hl) (hfirst.since hstage hn).1 (ih₁ hstage hl hn ho)
  | @emit _ s b b₁ op rest id hop he =>
      have hother := StepOp.other?_of_isPlain hop.plain
      have hpending : ∀ x ∈ b.pending, n ≤ x.step ∧ x.step < id := fun x hx =>
        ⟨hn.slots x (List.mem_append_left _ hx), he.id_eq ▸ hl.lt_size (List.mem_append_left _ hx)⟩
      refine ⟨(Progress.emit hop he).plain hstage ho.plain, fun x j hx hge => ?_,
        fun x j hx hlt => ?_⟩
      · rcases he.edge hother hx with hx | ⟨hx, rfl⟩
        · exact ho.forward x j hx hge
        · exact (hpending x hx).2
      · rcases he.edge hother hx with hx | ⟨hx, -⟩
        · exact ho.before x j hx hlt
        · exact absurd (hpending x hx).1 (Nat.not_le.mpr hlt)
  | _ => exact absurd rfl hstage

theorem chained (h : Progress stage s b marks starts s' b') (hl : Linear s b) (hc : Chained s b) :
    Chained s' b' := by
  induction h with
  | refl | start => exact hc
  | names | flag | literal => exact hc.of_subset rfl (fun _ => id) (fun _ => id) rfl
  | trans hfirst _ ih₁ ih₂ => exact ih₂ (hfirst.linear hl) (ih₁ hl hc)
  | forget heads hheads => exact hc.of_subset rfl (fun _ => id) hheads rfl
  | take => exact hc.taken
  | put moved held hheld _ => exact hc.put hheld
  | drop given held hheld hpending => exact hc.dropped hheld hpending
  | push c hbreaks hcontinues => exact hc.pushed hbreaks hcontinues
  | pop hcontexts => exact hc.popped hcontexts
  | emit hop he => exact hc.emitted_plain hop.plain he
  | ret _ he =>
      refine hc.emitted he rfl rfl rfl (fun x hx => ?_) (fun _ => .inl)
        fun x hx => .inl (he.labels ▸ hx)
      simp only [Site.mem_listed, Builder.gotoSlots, he.gotos, he.contexts, List.not_mem_nil,
        false_or] at hx ⊢
      exact .inl (.inr hx)
  | leave _ _ _ he => exact hc.jumped he (count_leaving _)
  | again _ _ _ he => exact hc.jumped he (count_repeating _)
  | goto label span _ he => exact hc.emitted_goto label span he
  | label label _ _ he => exact hc.labeled label he
  | round hhead _ _ _ he hlinked hheld _ hrounds => exact hc.rounded hhead he hlinked hheld hrounds
  | @defer s b b₁ b₂ args spread builtin id hpos _ hchain hsome he ih =>
      have honward : Onward b.steps.size b₁.steps :=
        hchain.onward (by simp) hl.inner (.apart (Nat.le_refl b.steps.size) rfl) (.start hc.bound)
      obtain ⟨-, hapart⟩ := hchain.since (by simp) (.apart (Nat.le_refl b.steps.size) rfl)
      exact hc.deferred (ih hl.inner hc.inner) honward hchain.extend hapart hpos hsome he

end Progress

end StepGraph

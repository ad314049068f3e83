import Mathlib.Tactic.Common
import StepGraph.Compile.Builder
import StepGraph.Proofs.Outcomes

open EStateM (bind_eq_ok)

namespace StepGraph

namespace StepOp

-- The other successor of a step.
def other? : StepOp → Option StepId
  | branch other | shortCircuit _ other | rangeNext _ _ other => other
  | _ => none

-- The step without its other successor.
def bare : StepOp → StepOp
  | branch _ => branch none
  | shortCircuit stop _ => shortCircuit stop none
  | rangeNext c v _ => rangeNext c v none
  | op => op

-- The step with this other successor, if it can have one.
def toOther (op : StepOp) (other : Option StepId) : StepOp :=
  match op with
  | branch _ => branch other
  | shortCircuit stop _ => shortCircuit stop other
  | rangeNext c v _ => rangeNext c v other
  | op => op

theorem bare_toOther (op : StepOp) : op.bare.toOther op.other? = op := by cases op <;> rfl

theorem withOther?_eq {op op' : StepOp} {t : StepId} (h : op.withOther? t = some op') :
    op.other? = none ∧ op'.bare = op.bare ∧ op'.other? = some t := by
  unfold withOther? at h
  split at h <;> simp only [Option.some.injEq, reduceCtorEq] at h <;> subst h <;> exact ⟨rfl, rfl, rfl⟩

end StepOp

namespace Step

-- Where a successor of the step leads.
def follow (s : Step) : Edge → Option StepId
  | .next => s.next
  | .other => s.op.other?

-- The second step is the first one with more of its successors set.
structure Below (s s' : Step) : Prop where
  bare : s'.op.bare = s.op.bare
  keeps : ∀ edge t, s.follow edge = some t → s'.follow edge = some t

theorem Below.refl (s : Step) : Below s s := ⟨rfl, fun _ _ h => h⟩

theorem Below.trans {s s' s'' : Step} (h₁ : Below s s') (h₂ : Below s' s'') : Below s s'' :=
  ⟨h₂.bare.trans h₁.bare, fun edge t h => h₂.keeps edge t (h₁.keeps edge t h)⟩

-- What it means that a successor was set.
theorem link?_eq {s s' : Step} {edge : Edge} {t : StepId} (h : s.link? edge t = some s') :
    s.follow edge = none ∧ s'.op.bare = s.op.bare ∧ s'.follow edge = some t ∧
      ∀ edge' ≠ edge, s'.follow edge' = s.follow edge' := by
  cases edge with
  | next =>
      unfold link? at h
      simp only at h
      split at h
      · next hnone =>
          cases h
          refine ⟨Option.isNone_iff_eq_none.mp hnone, rfl, rfl, fun edge' hne => ?_⟩
          cases edge' with
          | next => exact absurd rfl hne
          | other => rfl
      · cases h
  | other =>
      unfold link? at h
      obtain ⟨op, hop, rfl⟩ := Option.map_eq_some_iff.mp h
      obtain ⟨hnone, hbare, hother⟩ := StepOp.withOther?_eq hop
      refine ⟨hnone, hbare, hother, fun edge' hne => ?_⟩
      cases edge' with
      | next => rfl
      | other => exact absurd rfl hne

end Step

-- Steps to which steps and links were added.
def StepsExtend (steps steps' : Array Step) : Prop :=
  ∀ (i : StepId) (s : Step), steps[i]? = some s → ∃ s', steps'[i]? = some s' ∧ s.Below s'

-- A successor leads to a step, or ends the run.
def LeadsTo (steps : Array Step) (slot : Slot) (k : Option StepId) : Prop :=
  ∃ s, steps[slot.step]? = some s ∧ s.follow slot.edge = k

def AllLead (steps : Array Step) (slots : List Slot) (k : Option StepId) : Prop :=
  ∀ slot ∈ slots, LeadsTo steps slot k

variable {steps steps' steps'' : Array Step} {slot : Slot} {slots : List Slot} {t : StepId}
  {k : Option StepId}

theorem StepsExtend.refl (steps : Array Step) : StepsExtend steps steps :=
  fun _ s h => ⟨s, h, .refl s⟩

theorem StepsExtend.trans (h₁ : StepsExtend steps steps') (h₂ : StepsExtend steps' steps'') :
    StepsExtend steps steps'' := by
  intro i s hs
  obtain ⟨s', hs', hbelow⟩ := h₁ i s hs
  obtain ⟨s'', hs'', hbelow'⟩ := h₂ i s' hs'
  exact ⟨s'', hs'', hbelow.trans hbelow'⟩

theorem StepsExtend.push (steps : Array Step) (s : Step) : StepsExtend steps (steps.push s) := by
  intro i s' hs
  refine ⟨s', ?_, .refl s'⟩
  rw [Array.getElem?_push, if_neg (Nat.ne_of_lt (Array.getElem?_eq_some_iff.mp hs).1), hs]

theorem StepsExtend.size_le (h : StepsExtend steps steps') : steps.size ≤ steps'.size := by
  by_contra hlt
  obtain ⟨s', hs', -⟩ := h _ _ (Array.getElem?_eq_getElem (Nat.lt_of_not_le hlt))
  exact absurd (Array.getElem?_eq_some_iff.mp hs').1 (Nat.lt_irrefl _)

theorem LeadsTo.extend (hl : LeadsTo steps slot (some t)) (he : StepsExtend steps steps') :
    LeadsTo steps' slot (some t) := by
  obtain ⟨s, hs, hfollow⟩ := hl
  obtain ⟨s', hs', hbelow⟩ := he _ s hs
  exact ⟨s', hs', hbelow.keeps _ t hfollow⟩

theorem LeadsTo.lt_size (hl : LeadsTo steps slot k) : slot.step < steps.size := by
  obtain ⟨s, hs, -⟩ := hl
  exact (Array.getElem?_eq_some_iff.mp hs).1

theorem LeadsTo.push (hl : LeadsTo steps slot k) (s : Step) : LeadsTo (steps.push s) slot k := by
  have hlt := hl.lt_size
  obtain ⟨s', hs', hfollow⟩ := hl
  refine ⟨s', ?_, hfollow⟩
  rw [Array.getElem?_push, if_neg (Nat.ne_of_lt hlt), hs']

-- Exactly these successors were set, and all of them lead to the target.
structure Linked (steps : Array Step) (slots : List Slot) (target : StepId) (steps' : Array Step) :
    Prop where
  size : steps'.size = steps.size
  extend : StepsExtend steps steps'
  leads : AllLead steps' slots (some target)
  others : ∀ slot ∉ slots, ∀ k, LeadsTo steps slot k → LeadsTo steps' slot k

theorem Linked.nil (steps : Array Step) (target : StepId) : Linked steps [] target steps :=
  ⟨rfl, .refl _, fun _ h => absurd h (by simp), fun _ _ _ h => h⟩

theorem Linked.cons (h₁ : Linked steps [slot] t steps') (h₂ : Linked steps' slots t steps'') :
    Linked steps (slot :: slots) t steps'' where
  size := h₂.size.trans h₁.size
  extend := h₁.extend.trans h₂.extend
  leads s hs := by
    rcases List.mem_cons.mp hs with rfl | hs
    · exact (h₁.leads s (by simp)).extend h₂.extend
    · exact h₂.leads s hs
  others s hs k hl := by
    rw [List.mem_cons, not_or] at hs
    exact h₂.others s hs.2 k (h₁.others s (by simpa using hs.1) k hl)

theorem linked_link? {s s' : Step} (hs : steps[slot.step]? = some s)
    (hlink : s.link? slot.edge t = some s') :
    Linked steps [slot] t (steps.setIfInBounds slot.step s') := by
  obtain ⟨hnone, hbare, hset, hsame⟩ := Step.link?_eq hlink
  have hlt := (Array.getElem?_eq_some_iff.mp hs).1
  have hself : (steps.setIfInBounds slot.step s')[slot.step]? = some s' := by
    simp [hlt]
  refine ⟨by simp, fun i u hu => ?_, fun x hx => ?_, fun x hx k hl => ?_⟩
  · by_cases hi : slot.step = i
    · subst hi
      obtain rfl : s = u := Option.some.inj (hs.symm.trans hu)
      refine ⟨s', hself, hbare, fun edge j hj => ?_⟩
      by_cases he : edge = slot.edge
      · rw [he, hnone] at hj
        cases hj
      · rw [hsame edge he, hj]
    · exact ⟨u, by simp [hi, hu], .refl u⟩
  · obtain rfl : x = slot := by simpa using hx
    exact ⟨s', hself, hset⟩
  · obtain ⟨u, hu, hfollow⟩ := hl
    by_cases hi : slot.step = x.step
    · obtain rfl : s = u := Option.some.inj (hs.symm.trans (hi ▸ hu))
      refine ⟨s', hi ▸ hself, ?_⟩
      rw [hsame, hfollow]
      rintro he
      exact hx (by rw [List.mem_singleton]; cases x; cases slot; simp_all)
    · exact ⟨u, by simp [hi, hu], hfollow⟩

theorem LeadsTo.unique {k' : Option StepId} (h : LeadsTo steps slot k) (h' : LeadsTo steps slot k') :
    k = k' := by
  obtain ⟨s, hs, rfl⟩ := h
  obtain ⟨s', hs', rfl⟩ := h'
  rw [Option.some.inj (hs.symm.trans hs')]

namespace Linked

-- No step was added.
theorem below (hl : Linked steps slots t steps') {i : StepId} {s' : Step}
    (hs : steps'[i]? = some s') : ∃ s, steps[i]? = some s ∧ s.Below s' := by
  have hlt := (Array.getElem?_eq_some_iff.mp hs).1
  have hold := Array.getElem?_eq_getElem (hl.size ▸ hlt)
  obtain ⟨s'', hs'', hbelow⟩ := hl.extend i _ hold
  obtain rfl := Option.some.inj (hs''.symm.trans hs)
  exact ⟨_, hold, hbelow⟩

-- Whoever follows a successor either did so before, or was sent to the target.
theorem edge (hl : Linked steps slots t steps') {x : Slot} {j : StepId}
    (h : LeadsTo steps' x (some j)) : LeadsTo steps x (some j) ∨ x ∈ slots ∧ j = t := by
  by_cases hx : x ∈ slots
  · exact .inr ⟨hx, Option.some.inj (h.unique (hl.leads x hx))⟩
  · have ⟨s', hs', _⟩ := h
    obtain ⟨s, hs, -⟩ := hl.below hs'
    have hold : LeadsTo steps x (s.follow x.edge) := ⟨s, hs, rfl⟩
    rw [h.unique (hl.others x hx _ hold)]
    exact .inl hold

end Linked

end StepGraph

namespace StepGraph

-- The open successors in jumps out of loops and switches, and to their next rounds.
def jumps (contexts : List JumpContext) : List Slot :=
  contexts.flatMap fun c => c.breaks ++ c.continues

@[simp] theorem jumps_nil : jumps [] = [] := rfl

@[simp] theorem jumps_cons (c : JumpContext) (contexts : List JumpContext) :
    jumps (c :: contexts) = c.breaks ++ c.continues ++ jumps contexts := by simp [jumps]

-- These successors are not set yet, and none of them stands twice in the list.
def AreOpen (steps : Array Step) (slots : List Slot) : Prop :=
  ∀ x, slots.count x ≤ 1 ∧ (0 < slots.count x → LeadsTo steps x none)

namespace AreOpen

variable {steps steps' : Array Step} {slots slots' : List Slot} {t : StepId}

theorem mono (h : AreOpen steps slots) (hle : ∀ x, slots'.count x ≤ slots.count x) :
    AreOpen steps slots' :=
  fun x => ⟨Nat.le_trans (hle x) (h x).1, fun hx => (h x).2 (Nat.lt_of_lt_of_le hx (hle x))⟩

theorem fresh (h : AreOpen steps slots) {x : Slot} (hx : steps.size ≤ x.step) :
    slots.count x = 0 := by
  by_contra hne
  exact absurd ((h x).2 (Nat.pos_of_ne_zero hne)).lt_size (Nat.not_lt.mpr hx)

-- Where some of the successors are set, the other ones stay open.
theorem linked (h : AreOpen steps (slots ++ slots')) (hl : Linked steps slots t steps') :
    AreOpen steps' slots' := by
  intro x
  obtain ⟨hone, hopen⟩ := h x
  rw [List.count_append] at hone hopen
  refine ⟨by omega, fun hx => hl.others x ?_ none (hopen (by omega))⟩
  rw [← List.count_pos_iff]
  omega

end AreOpen

-- The builder and the slots in hand.
def Builder.Open (b : Builder) (held : List Slot) : Prop :=
  AreOpen b.steps (b.pending ++ (held ++ jumps b.contexts))

namespace Build

variable {α β : Type} {b b' : Builder}

theorem pure_eq_ok {a c : α} : (pure a : Build α) b = .ok c b' ↔ a = c ∧ b = b' := by
  change EStateM.Result.ok a b = _ ↔ _
  simp

theorem fail_ne_ok (e : CompileError) (a : α) : fail e b ≠ .ok a b' := nofun

theorem unsupported_ne_ok (what : String) (span : Span) (a : α) :
    unsupported what span b ≠ .ok a b' := nofun

-- An action that is left out under a condition, in front of another one.
theorem unless_ok {p : Prop} [Decidable p] {x : Build Unit} {f : Unit → Build α} {a : α}
    (h : (if p then f () else x >>= f) b = .ok a b') :
    ∃ b₁, (if p then pure () else x) b = .ok () b₁ ∧ f () b₁ = .ok a b' := by
  by_cases hp : p
  · rw [if_pos hp] at h ⊢
    exact ⟨b, rfl, h⟩
  · rw [if_neg hp] at h ⊢
    obtain ⟨_, b₁, hx, hf⟩ := bind_eq_ok.mp h
    exact ⟨b₁, hx, hf⟩

theorem link_eq (slot : Slot) (t : StepId) (b : Builder) : link slot t b =
    match b.steps[slot.step]?.bind fun s => s.link? slot.edge t with
    | some s => .ok () { b with steps := b.steps.setIfInBounds slot.step s }
    | none => .error (.doubleLink slot.step) b := by
  change ((match b.steps[slot.step]? with
    | some s =>
        match s.link? slot.edge t with
        | some s' => modify fun b => { b with steps := b.steps.setIfInBounds slot.step s' }
        | none => fail (.doubleLink slot.step)
    | none => fail (.doubleLink slot.step) : Build Unit) b) = _
  cases b.steps[slot.step]? with
  | none => rfl
  | some s =>
      simp only [Option.bind_some]
      cases s.link? slot.edge t <;> rfl

theorem link_ok {slot : Slot} {t : StepId} {u : Unit} (h : link slot t b = .ok u b') :
    ∃ steps, b' = { b with steps } ∧ Linked b.steps [slot] t steps := by
  rw [link_eq] at h
  split at h
  · next s' hs' =>
      obtain ⟨s, hs, hl⟩ := Option.bind_eq_some_iff.mp hs'
      cases h
      exact ⟨_, rfl, linked_link? hs hl⟩
  · cases h

theorem linkAll_ok {slots : List Slot} {t : StepId} {u : Unit} (h : linkAll slots t b = .ok u b') :
    ∃ steps, b' = { b with steps } ∧ Linked b.steps slots t steps := by
  induction slots generalizing b with
  | nil =>
      cases h
      exact ⟨_, rfl, .nil _ _⟩
  | cons slot slots ih =>
      obtain ⟨_, b₁, h₁, h₂⟩ := bind_eq_ok.mp h
      obtain ⟨steps₁, rfl, hl₁⟩ := link_ok h₁
      obtain ⟨steps₂, rfl, hl₂⟩ := ih h₂
      exact ⟨steps₂, rfl, hl₁.cons hl₂⟩

-- A step was appended. All open successors lead to it, and its own are open.
structure Emitted (op : StepOp) (b : Builder) (id : StepId) (b' : Builder) : Prop where
  id_eq : id = b.steps.size
  state : b' = { b with steps := b'.steps, pending := [⟨id, .next⟩] }
  linked : ∃ span, Linked (b.steps.push ⟨op, none, span⟩) b.pending id b'.steps

theorem emit_ok {op : StepOp} {span : Span} {id : StepId} (h : emit op span b = .ok id b') :
    Emitted op b id b' := by
  obtain ⟨_, b₁, h₁, h⟩ := bind_eq_ok.mp h
  cases h₁
  obtain ⟨_, b₂, h₂, h⟩ := bind_eq_ok.mp h
  cases h₂
  obtain ⟨_, b₃, h₃, h⟩ := bind_eq_ok.mp h
  cases h₃
  obtain ⟨_, b₄, h₄, h⟩ := bind_eq_ok.mp h
  obtain ⟨steps, rfl, hl⟩ := linkAll_ok h₄
  cases h
  exact ⟨rfl, rfl, span, hl⟩

theorem emitFork_ok {op : StepOp} {span : Span} {slot : Slot}
    (h : emitFork op span b = .ok slot b') : ∃ id, Emitted op b id b' ∧ slot = ⟨id, .other⟩ := by
  obtain ⟨id, b₁, h₁, h⟩ := bind_eq_ok.mp h
  obtain ⟨rfl, rfl⟩ := pure_eq_ok.mp h
  exact ⟨id, emit_ok h₁, rfl⟩

theorem jump_ok {d : Nat} {span : Span} {slot : Slot} (h : jump d span b = .ok slot b') :
    ∃ id b₁, Emitted (.jump d) b id b₁ ∧ slot = ⟨id, .next⟩ ∧ b' = { b₁ with pending := [] } := by
  obtain ⟨id, b₁, h₁, hset⟩ := bind_eq_ok.mp h
  obtain ⟨_, b₂, h₂, hpure⟩ := bind_eq_ok.mp hset
  cases h₂
  cases hpure
  exact ⟨id, b₁, emit_ok h₁, rfl, rfl⟩

theorem popContext_ok {c : JumpContext} {rest : List JumpContext} {slots : List Slot × List Slot}
    (hc : b.contexts = c :: rest) (h : popContext b = .ok slots b') :
    slots = (c.breaks, c.continues) ∧ b' = { b with contexts := rest } := by
  cases b
  cases hc
  cases h
  exact ⟨rfl, rfl⟩

namespace Emitted

variable {op : StepOp} {id : StepId} {held : List Slot}

theorem extend (h : Emitted op b id b') : StepsExtend b.steps b'.steps := by
  obtain ⟨span, hl⟩ := h.linked
  exact (StepsExtend.push _ _).trans hl.extend

theorem size_lt (h : Emitted op b id b') : b.steps.size < b'.steps.size := by
  obtain ⟨span, hl⟩ := h.linked
  rw [hl.size, Array.size_push]
  exact Nat.lt_succ_self _

-- The step has its operation, with the other successor where the step can have one.
theorem follow {steps : Array Step} {k : Option StepId} (h : Emitted op b id b')
    (he : StepsExtend b'.steps steps) (hl : LeadsTo steps ⟨id, .next⟩ k) :
    ∃ s, steps[id]? = some s ∧ s.next = k ∧ s.op = op.bare.toOther s.op.other? := by
  obtain ⟨span, hlinked⟩ := h.linked
  have hpush : (b.steps.push ⟨op, none, span⟩)[id]? = some ⟨op, none, span⟩ := by
    rw [h.id_eq, Array.getElem?_push_size]
  obtain ⟨s, hs, hbelow⟩ := (hlinked.extend.trans he) _ _ hpush
  obtain ⟨s', hs', hnext⟩ := hl
  obtain rfl : s = s' := Option.some.inj (hs.symm.trans hs')
  refine ⟨s, hs, hnext, ?_⟩
  rw [← hbelow.bare, StepOp.bare_toOther]

-- All other steps were there before.
theorem below (h : Emitted op b id b') {i : StepId} {s' : Step} (hs : b'.steps[i]? = some s') :
    i = id ∧ s'.op.bare = op.bare ∨ ∃ s, b.steps[i]? = some s ∧ s.Below s' := by
  obtain ⟨span, hl⟩ := h.linked
  obtain ⟨s, hold, hbelow⟩ := hl.below hs
  rw [Array.getElem?_push] at hold
  split at hold
  · next hi =>
      cases hold
      exact .inl ⟨hi.trans h.id_eq.symm, hbelow.bare⟩
  · exact .inr ⟨s, hold, hbelow⟩

-- Whoever follows a successor did so before, or comes to the new step.
theorem edge (h : Emitted op b id b') (hother : op.other? = none) {x : Slot} {j : StepId}
    (hx : LeadsTo b'.steps x (some j)) : LeadsTo b.steps x (some j) ∨ x ∈ b.pending ∧ j = id := by
  obtain ⟨span, hl⟩ := h.linked
  refine (hl.edge hx).imp_left fun hpush => ?_
  obtain ⟨s, hs, hfollow⟩ := hpush
  rw [Array.getElem?_push] at hs
  split at hs
  · cases hs
    obtain ⟨i, edge⟩ := x
    cases edge with
    | next => cases hfollow
    | other =>
        rw [show Step.follow _ .other = op.other? from rfl, hother] at hfollow
        cases hfollow
  · exact ⟨s, hs, hfollow⟩

-- What led nowhere so far leads to the new step.
theorem leads {steps : Array Step} (h : Emitted op b id b') (he : StepsExtend b'.steps steps) :
    AllLead steps b.pending (some id) := by
  obtain ⟨span, hl⟩ := h.linked
  exact fun slot hslot => (hl.leads slot hslot).extend he

-- Both successors of a new step are open.
theorem opened_fork (h : Emitted op b id b') (hother : op.other? = none) (ho : b.Open held) :
    b'.Open (⟨id, .other⟩ :: held) := by
  obtain ⟨span, hl⟩ := h.linked
  obtain rfl := h.id_eq
  have hnew : ∀ edge, LeadsTo (b.steps.push ⟨op, none, span⟩) ⟨b.steps.size, edge⟩ none := by
    intro edge
    refine ⟨_, Array.getElem?_push_size, ?_⟩
    cases edge with
    | next => rfl
    | other => exact hother
  have hpush : AreOpen (b.steps.push ⟨op, none, span⟩) (b.pending ++
      (⟨b.steps.size, .next⟩ :: ⟨b.steps.size, .other⟩ :: (held ++ jumps b.contexts))) := by
    intro x
    obtain ⟨hone, hopen⟩ := ho x
    have hfresh := fun hx => ho.fresh (x := x) hx
    simp only [List.count_append, List.count_cons] at hone hopen hfresh ⊢
    by_cases hx : x.step = b.steps.size
    · obtain ⟨i, edge⟩ := x
      obtain rfl : i = b.steps.size := hx
      have hzero := hfresh (Nat.le_refl _)
      refine ⟨?_, fun _ => hnew edge⟩
      cases edge <;> simp <;> omega
    · have hne : ∀ edge, (⟨b.steps.size, edge⟩ == x) = false := by
        intro edge
        rw [beq_eq_false_iff_ne]
        rintro rfl
        exact hx rfl
      simp only [hne, Bool.false_eq_true, if_false]
      exact ⟨by omega, fun hpos => (hopen (by omega)).push _⟩
  rw [h.state]
  exact hpush.linked hl

theorem opened (h : Emitted op b b.steps.size b') (hother : op.other? = none) (ho : b.Open held) :
    b'.Open held :=
  (h.opened_fork hother ho).mono fun x => by
    simp only [List.count_append, List.count_cons]
    omega

end Emitted

end Build

end StepGraph

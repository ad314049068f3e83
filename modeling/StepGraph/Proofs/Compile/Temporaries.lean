import StepGraph.Proofs.Compile.Chains
import StepGraph.Proofs.Compile.Landmarks
import StepGraph.Proofs.Number.Digits

open EStateM (bind_eq_ok discard_eq_ok)

namespace StepGraph

-- The names that a builder makes up begin with a dot.
def Names.isTemp (x : String) : Bool := x.toList.head? == some '.'

open Names (isTemp)

-- The name of the value with this number that the program has no name for.
def IsNumbered (n : Nat) (x : String) : Prop :=
  ∃ stem : String, (∀ c ∈ stem.toList, c.isDigit = false) ∧ x = "." ++ stem ++ toString n

namespace IsNumbered

variable {n n' : Nat} {x : String}

theorem isTemp (h : IsNumbered n x) : Names.isTemp x = true := by
  obtain ⟨stem, -, rfl⟩ := h
  unfold Names.isTemp
  simp

-- The number can be read off its digits.
theorem unique (h : IsNumbered n x) (h' : IsNumbered n' x) : n = n' := by
  have hdigits : ∀ {n}, IsNumbered n x → x.toList.filter Char.isDigit = Nat.toDigits 10 n := by
    rintro n ⟨stem, hstem, rfl⟩
    have hnone : stem.toList.filter Char.isDigit = [] :=
      List.filter_eq_nil_iff.mpr fun c hc => by simp [hstem c hc]
    have hall : (Nat.toDigits 10 n).filter Char.isDigit = Nat.toDigits 10 n :=
      List.filter_eq_self.mpr fun c hc => Nat.isDigit_of_mem_toDigits (by decide) (by decide) hc
    simp [hnone, hall, Nat.repr]
  rw [← Digits.read_toDigits (b := 10) (by decide) (by decide) n, ← hdigits h, hdigits h',
    Digits.read_toDigits (by decide) (by decide)]

end IsNumbered

-- Targets that name nothing that a builder has made up.
def Target.isVisible : Target → Bool
  | var x | field x => !isTemp x
  | _ => true

namespace StepOp

-- The names that a step binds in the present scope.
def bindings : StepOp → List String
  | declare names .. | declareZero names _ => names
  | rangeInit _ cursor => [cursor]
  | _ => []

-- The names whose values a step looks up.
def reads : StepOp → List String
  | load x | loadTarget (.var x) _ | rangeNext x .. => [x]
  | _ => []

-- Steps that have no more to do with temporaries than to bind them to a value or to look them up.
def isDiscreet : StepOp → Bool
  | declareZero names _ | carryOut names => names.all fun x => !isTemp x
  | assign targets _ => targets.all (·.isVisible)
  | loadTarget target _ => target.isVisible
  | addressOf (.var x) => !isTemp x
  | _ => true

-- Steps that have nothing to do with temporaries.
def isVisible (op : StepOp) : Bool :=
  op.isDiscreet && (op.bindings.all (!isTemp ·) && op.reads.all (!isTemp ·))

-- Such steps of which the operands of a deferred call are made.
def isCalm (op : StepOp) : Bool :=
  op.isVisible && match op with
    | nop => true
    | op => op.isOperation

section bare

variable (op : StepOp)

theorem bindings_bare : op.bare.bindings = op.bindings := by cases op <;> rfl

theorem reads_bare : op.bare.reads = op.reads := by cases op <;> rfl

theorem isDiscreet_bare : op.bare.isDiscreet = op.isDiscreet := by cases op <;> rfl

theorem isCalm_bare : op.bare.isCalm = op.isCalm := by cases op <;> rfl

end bare

variable {op : StepOp} {x : String}

theorem bindings_of_isVisible (h : op.isVisible = true) (hx : x ∈ op.bindings) :
    isTemp x = false := by
  simp only [isVisible, Bool.and_eq_true, List.all_eq_true] at h
  simpa using h.2.1 x hx

theorem reads_of_isVisible (h : op.isVisible = true) (hx : x ∈ op.reads) : isTemp x = false := by
  simp only [isVisible, Bool.and_eq_true, List.all_eq_true] at h
  simpa using h.2.2 x hx

theorem isDiscreet_of_isVisible (h : op.isVisible = true) : op.isDiscreet = true := by
  simp only [isVisible, Bool.and_eq_true] at h
  exact h.1

theorem isVisible_of_isCalm (h : op.isCalm = true) : op.isVisible = true := by
  simp only [isCalm, Bool.and_eq_true] at h
  exact h.1

end StepOp

theorem Step.Below.binds {s s' : Step} (h : s.Below s') : s'.op.bindings = s.op.bindings := by
  rw [← StepOp.bindings_bare, h.bare, StepOp.bindings_bare]

theorem Step.Below.reads {s s' : Step} (h : s.Below s') : s'.op.reads = s.op.reads := by
  rw [← StepOp.reads_bare, h.bare, StepOp.reads_bare]

-- Steps that do to temporaries no more than they say, with the operands of deferred calls on their
-- own and without temporaries.
structure Orderly (steps : Array Step) : Prop where
  discreet : ∀ (i : StepId) s, steps[i]? = some s → s.op.isDiscreet = true
  detached : Detached steps
  calm : ∀ e d, DefersFrom steps e d → ∀ i s, InChain e d i → steps[i]? = some s →
    s.op.isCalm = true

section positions

variable {steps steps' : Array Step} {i j k n lo mid hi d d' : Nat} {x : String} {slot : Slot}

def BindsAt (steps : Array Step) (k : StepId) (x : String) : Prop :=
  ∃ s, steps[k]? = some s ∧ x ∈ s.op.bindings

def ReadsAt (steps : Array Step) (k : StepId) (x : String) : Prop :=
  ∃ s, steps[k]? = some s ∧ x ∈ s.op.reads

def BindsTemp (steps : Array Step) (k : StepId) : Prop := ∃ x, isTemp x = true ∧ BindsAt steps k x

-- From one place to another the builder did not come out of the scope at this depth, and made no
-- step that binds a temporary there.
structure Floor (steps : Array Step) (d lo hi : Nat) : Prop where
  depth : ∀ k, lo ≤ k → k ≤ hi → d ≤ emissionDepth steps k
  binds : ∀ k, lo ≤ k → k < hi → BindsTemp steps k → d < emissionDepth steps k

-- The scope of a step is still open at another one behind it.
def ScopeCovers (steps : Array Step) (k i : StepId) : Prop :=
  k < i ∧ ∀ j, k ≤ j → j ≤ i → emissionDepth steps k ≤ emissionDepth steps j

-- Between a step and its successor, whichever stands first, no scope around the successor was left,
-- and no temporary was bound there.
structure LevelEdge (steps : Array Step) (i j : StepId) : Prop where
  onward : Floor steps (emissionDepth steps j) (i + 1) j
  back : Floor steps (emissionDepth steps j) j (i + 1)

-- An open successor may lead to a next step at this depth.
structure FreshSlot (steps : Array Step) (d : Nat) (slot : Slot) : Prop where
  lt : slot.step < steps.size
  floor : Floor steps d (slot.step + 1) steps.size

theorem BindsAt.lt_size (h : BindsAt steps k x) : k < steps.size := by
  obtain ⟨s, hs, -⟩ := h
  exact (Array.getElem?_eq_some_iff.mp hs).1

theorem BindsAt.extend (h : BindsAt steps k x) (he : StepsExtend steps steps') :
    BindsAt steps' k x := by
  obtain ⟨s, hs, hx⟩ := h
  obtain ⟨s', hs', hbelow⟩ := he k s hs
  exact ⟨s', hs', hbelow.binds ▸ hx⟩

theorem StepsExtend.bindsAt (he : StepsExtend steps steps') (hk : k < steps.size) :
    BindsAt steps' k x ↔ BindsAt steps k x := by
  refine ⟨fun h => ?_, fun h => h.extend he⟩
  obtain ⟨s', hs', hx⟩ := h
  have hs := Array.getElem?_eq_getElem hk
  obtain ⟨s'', hs'', hbelow⟩ := he k _ hs
  cases hs'.symm.trans hs''
  exact ⟨_, hs, hbelow.binds ▸ hx⟩

-- The steps that there were are at the depths at which they were, and bind the same names.
structure KeepsScopes (steps steps' : Array Step) : Prop where
  depth : ∀ i ≤ steps.size, emissionDepth steps' i = emissionDepth steps i
  binds : ∀ k < steps.size, ∀ x, BindsAt steps' k x ↔ BindsAt steps k x

theorem StepsExtend.keepsScopes (he : StepsExtend steps steps') : KeepsScopes steps steps' :=
  ⟨fun _ => he.emissionDepth_eq, fun _ hk _ => he.bindsAt hk⟩

namespace Floor

theorem mono (h : Floor steps d lo hi) (hd : d' ≤ d) : Floor steps d' lo hi :=
  ⟨fun k hl hh => Nat.le_trans hd (h.depth k hl hh),
    fun k hl hh hb => Nat.lt_of_le_of_lt hd (h.binds k hl hh hb)⟩

theorem within {lo' hi' : Nat} (h : Floor steps d lo hi) (hlo : lo ≤ lo') (hhi : hi' ≤ hi) :
    Floor steps d lo' hi' :=
  ⟨fun k hl hh => h.depth k (by omega) (by omega), fun k hl hh => h.binds k (by omega) (by omega)⟩

theorem trans (h : Floor steps d lo mid) (h' : Floor steps d mid hi) : Floor steps d lo hi := by
  refine ⟨fun k hl hh => ?_, fun k hl hh => ?_⟩
  · rcases Nat.le_total k mid with hk | hk
    · exact h.depth k hl hk
    · exact h'.depth k hk hh
  · rcases Nat.lt_or_ge k mid with hk | hk
    · exact h.binds k hl hk
    · exact h'.binds k hk hh

theorem single (h : d ≤ emissionDepth steps n) : Floor steps d n n :=
  ⟨fun k hl hh => Nat.le_antisymm hl hh ▸ h, fun k hl hh => by omega⟩

theorem keeps (h : Floor steps d lo hi) (hs : KeepsScopes steps steps') (hhi : hi ≤ steps.size) :
    Floor steps' d lo hi := by
  refine ⟨fun k hl hh => ?_, fun k hl hh ⟨x, hx, hb⟩ => ?_⟩
  · rw [hs.depth k (Nat.le_trans hh hhi)]
    exact h.depth k hl hh
  · have hk : k < steps.size := Nat.lt_of_lt_of_le hh hhi
    rw [hs.depth k (Nat.le_of_lt hk)]
    exact h.binds k hl hh ⟨x, hx, (hs.binds k hk x).mp hb⟩

theorem extend (h : Floor steps d lo hi) (he : StepsExtend steps steps') (hhi : hi ≤ steps.size) :
    Floor steps' d lo hi := h.keeps he.keepsScopes hhi

-- Two places inside of one stretch where the builder came back to its floor.
theorem level (h : Floor steps d lo hi) (hi' : lo ≤ i) (hlt : i < hi) (hj : lo ≤ j) (hj' : j ≤ hi)
    (hd : emissionDepth steps j = d) : LevelEdge steps i j :=
  ⟨hd ▸ h.within (by omega) hj', hd ▸ h.within hj hlt⟩

end Floor

theorem ScopeCovers.keeps (h : ScopeCovers steps k i) (hs : KeepsScopes steps steps')
    (hi : i ≤ steps.size) : ScopeCovers steps' k i := by
  refine ⟨h.1, fun j hk hj => ?_⟩
  rw [hs.depth k (Nat.le_trans (Nat.le_of_lt h.1) hi), hs.depth j (Nat.le_trans hj hi)]
  exact h.2 j hk hj

theorem ScopeCovers.extend (h : ScopeCovers steps k i) (he : StepsExtend steps steps')
    (hi : i ≤ steps.size) : ScopeCovers steps' k i := h.keeps he.keepsScopes hi

theorem LevelEdge.keeps (h : LevelEdge steps i j) (hs : KeepsScopes steps steps')
    (hi : i < steps.size) (hj : j ≤ steps.size) : LevelEdge steps' i j := by
  have hdepth := hs.depth j hj
  exact ⟨hdepth ▸ h.onward.keeps hs hj, hdepth ▸ h.back.keeps hs hi⟩

theorem LevelEdge.extend (h : LevelEdge steps i j) (he : StepsExtend steps steps')
    (hi : i < steps.size) (hj : j ≤ steps.size) : LevelEdge steps' i j :=
  h.keeps he.keepsScopes hi hj

namespace LevelEdge

variable (h : LevelEdge steps i j)

include h

-- A scope in which a temporary was bound is left by an edge, or it covers both ends.

theorem covers (hk : ScopeCovers steps k i) (hb : BindsTemp steps k)
    (hd : emissionDepth steps k ≤ emissionDepth steps j) : ScopeCovers steps k j := by
  have hlt : k < j := by
    by_contra hge
    have hbinds := h.back.binds k (Nat.le_of_not_lt hge) (Nat.lt_succ_of_lt hk.1) hb
    omega
  refine ⟨hlt, fun l hl hl' => ?_⟩
  rcases Nat.lt_or_ge i l with hil | hli
  · exact Nat.le_trans hd (h.onward.depth l hil hl')
  · exact hk.2 l hl hli

theorem covers_start (hb : BindsTemp steps i) (hd : emissionDepth steps i ≤ emissionDepth steps j) :
    ScopeCovers steps i j := by
  have hlt : i < j := by
    by_contra hge
    have hbinds := h.back.binds i (Nat.le_of_not_lt hge) (Nat.lt_succ_self i) hb
    omega
  refine ⟨hlt, fun l hl hl' => ?_⟩
  rcases Nat.eq_or_lt_of_le hl with rfl | hil
  · exact Nat.le_refl _
  · exact Nat.le_trans hd (h.onward.depth l hil hl')

theorem covers_of_covers (hk : ScopeCovers steps k j) (hb : BindsTemp steps k) (hne : k ≠ i) :
    ScopeCovers steps k i := by
  have hd := hk.2 j (Nat.le_of_lt hk.1) (Nat.le_refl _)
  have hlt : k < i := by
    by_contra hge
    have hbinds := h.onward.binds k (by omega) hk.1 hb
    omega
  refine ⟨hlt, fun l hl hl' => ?_⟩
  rcases Nat.le_total l j with hlj | hjl
  · exact hk.2 l hl hlj
  · exact Nat.le_trans hd (h.back.depth l hjl (Nat.le_succ_of_le hl'))

end LevelEdge

namespace FreshSlot

theorem mono (h : FreshSlot steps d slot) (hd : d' ≤ d) : FreshSlot steps d' slot :=
  ⟨h.lt, h.floor.mono hd⟩

theorem extend (h : FreshSlot steps d slot) (he : StepsExtend steps steps')
    (hf : Floor steps' d steps.size steps'.size) : FreshSlot steps' d slot :=
  ⟨Nat.lt_of_lt_of_le h.lt he.size_le, (h.floor.extend he (Nat.le_refl _)).trans hf⟩

-- It leads to the next step, or to one since which the builder kept to its floor.
theorem level (h : FreshSlot steps d slot) (hj : j ≤ steps.size) (hd : emissionDepth steps j = d)
    (hf : Floor steps d j steps.size) : LevelEdge steps slot.step j :=
  ⟨hd ▸ h.floor.within (Nat.le_refl _) hj, hd ▸ hf.within (Nat.le_refl _) h.lt⟩

end FreshSlot

namespace Linked

variable {slots : List Slot} {t : StepId}

theorem bindsAt (hl : Linked steps slots t steps') : BindsAt steps' k x ↔ BindsAt steps k x := by
  refine ⟨fun h => (hl.extend.bindsAt (hl.size ▸ h.lt_size)).mp h, fun h => h.extend hl.extend⟩

theorem fresh (hl : Linked steps slots t steps') (h : FreshSlot steps d slot) :
    FreshSlot steps' d slot := by
  refine ⟨hl.size ▸ h.lt, ?_⟩
  rw [hl.size]
  exact h.floor.extend hl.extend (Nat.le_refl _)

end Linked

end positions

section builder

open Build

variable {b b' b₁ b₂ : Builder} {op : StepOp} {id : StepId} {d d' : Nat} {around : List String}

-- The jumps out of a loop or switch and to its next round may still lead to steps at its depths.
structure JumpContext.Held (steps : Array Step) (depth : Nat) (c : JumpContext) : Prop where
  breakDepth : c.breakDepth ≤ depth
  continueDepth : c.continueDepth ≤ depth
  breaks : ∀ slot ∈ c.breaks, FreshSlot steps c.breakDepth slot
  continues : ∀ slot ∈ c.continues, FreshSlot steps c.continueDepth slot

-- What is known of a builder at work: its edges keep to the scopes around their ends, so will those
-- that are still open, and every temporary is bound once, in a scope that is open where it is read.
structure Builder.Tidy (b : Builder) : Prop where
  counts : b.CountsScopes
  edges : ∀ slot j, LeadsTo b.steps slot (some j) → j < b.steps.size ∧ LevelEdge b.steps slot.step j
  pending : ∀ slot ∈ b.pending, FreshSlot b.steps b.depth slot
  contexts : ∀ c ∈ b.contexts, c.Held b.steps b.depth
  reads : ∀ i x, isTemp x = true → ReadsAt b.steps i x →
    ∃ k, BindsAt b.steps k x ∧ ScopeCovers b.steps k i
  numbered : ∀ k x, isTemp x = true → BindsAt b.steps k x → ∃ n ≤ b.temps, IsNumbered n x
  unique : ∀ k k' x, isTemp x = true → BindsAt b.steps k x → BindsAt b.steps k' x → k = k'
  discreet : ∀ (i : StepId) s, b.steps[i]? = some s → s.op.isDiscreet = true
  chains : ∀ e i, DefersFrom b.steps e i → ∀ k s, InChain e i k → b.steps[k]? = some s →
    s.op.isCalm = true
  labels : ∀ l t, (l, t) ∈ b.labels → t.step < b.steps.size
  gotos : ∀ g ∈ b.gotos, g.jump < b.steps.size
  results : ∀ t ∈ resultTargets b.sig, t.isVisible = true

-- A temporary is bound in a scope that is open now and not deeper than this.
def Builder.HasBound (b : Builder) (n : Nat) (x : String) : Prop :=
  ∃ k, BindsAt b.steps k x ∧ emissionDepth b.steps k ≤ n ∧ ScopeCovers b.steps k b.steps.size

-- A temporary has a number and is not bound yet.
def Builder.LeavesFree (b : Builder) (x : String) : Prop :=
  (∃ n ≤ b.temps, IsNumbered n x) ∧ ∀ k, ¬ BindsAt b.steps k x

-- A step that may come next.
structure Builder.AllowsStep (b : Builder) (op : StepOp) : Prop where
  other : op.other? = none
  discreet : op.isDiscreet = true
  contexts : ∀ c ∈ b.contexts, c.breakDepth ≤ op.depthEmitted b.depth ∧
    c.continueDepth ≤ op.depthEmitted b.depth
  reads : ∀ x ∈ op.reads, isTemp x = true → ∃ n, b.HasBound n x
  binds : ∀ x ∈ op.bindings, isTemp x = true → b.LeavesFree x ∧ ∀ c ∈ b.contexts,
    c.breakDepth < b.depth ∧ c.continueDepth < b.depth
  chain : ∀ e, op.entry? = some e → ∀ k s, e ≤ k → b.steps[k]? = some s → s.op.isCalm = true

namespace Build.Emitted

variable {k : StepId} {x : String}

theorem stepAt (he : Emitted op b id b₁) (hk : ∃ s, b₁.steps[k]? = some s ∧ x ∈ s.op.bindings) :
    k = id ∧ x ∈ op.bindings ∨ BindsAt b.steps k x := by
  obtain ⟨s', hs', hx⟩ := hk
  rcases he.below hs' with ⟨rfl, hbare⟩ | ⟨s, hs, hbelow⟩
  · rw [← StepOp.bindings_bare, hbare, StepOp.bindings_bare] at hx
    exact .inl ⟨rfl, hx⟩
  · exact .inr ⟨s, hs, hbelow.binds ▸ hx⟩

theorem readsAt (he : Emitted op b id b₁) (hk : ReadsAt b₁.steps k x) :
    k = id ∧ x ∈ op.reads ∨ ReadsAt b.steps k x := by
  obtain ⟨s', hs', hx⟩ := hk
  rcases he.below hs' with ⟨rfl, hbare⟩ | ⟨s, hs, hbelow⟩
  · rw [← StepOp.reads_bare, hbare, StepOp.reads_bare] at hx
    exact .inl ⟨rfl, hx⟩
  · exact .inr ⟨s, hs, hbelow.reads ▸ hx⟩

-- The builder keeps to a floor that is not above it, and binds temporaries above it only.
theorem floor (he : Emitted op b id b₁) (hb : b.CountsScopes) (hd : d ≤ b.depth)
    (hd' : d ≤ op.depthEmitted b.depth)
    (hbinds : ∀ x ∈ op.bindings, isTemp x = true → d < b.depth) :
    Floor b₁.steps d b.steps.size b₁.steps.size := by
  have hnow : emissionDepth b₁.steps b.steps.size = b.depth :=
    (he.extend.emissionDepth_eq (Nat.le_refl _)).trans hb.symm
  have hthen : emissionDepth b₁.steps b₁.steps.size = op.depthEmitted b.depth :=
    (hb.emitted he).symm
  have hsize := he.size_eq
  refine ⟨fun k hl hh => ?_, fun k hl hh hk => ?_⟩
  · rcases Nat.lt_or_ge k b₁.steps.size with hk | hk
    · obtain rfl : k = b.steps.size := by omega
      rw [hnow]
      exact hd
    · obtain rfl : k = b₁.steps.size := by omega
      rw [hthen]
      exact hd'
  · obtain rfl : k = b.steps.size := by omega
    obtain ⟨x, hx, hbind⟩ := hk
    rw [hnow]
    rcases he.stepAt hbind with ⟨-, hmem⟩ | hold
    · exact hbinds x hmem hx
    · exact absurd hold.lt_size (Nat.lt_irrefl _)

end Build.Emitted

theorem JumpContext.Held.emitted {c : JumpContext} (h : c.Held b.steps b.depth)
    (he : Emitted op b id b₁) (hb : b.CountsScopes)
    (hbreak : c.breakDepth ≤ op.depthEmitted b.depth)
    (hcontinue : c.continueDepth ≤ op.depthEmitted b.depth)
    (hbinds : ∀ x ∈ op.bindings, isTemp x = true →
      c.breakDepth < b.depth ∧ c.continueDepth < b.depth) :
    c.Held b₁.steps (op.depthEmitted b.depth) where
  breakDepth := hbreak
  continueDepth := hcontinue
  breaks slot hslot := (h.breaks slot hslot).extend he.extend
    (he.floor hb h.breakDepth hbreak fun x hx ht => (hbinds x hx ht).1)
  continues slot hslot := (h.continues slot hslot).extend he.extend
    (he.floor hb h.continueDepth hcontinue fun x hx ht => (hbinds x hx ht).2)

-- What the new step reads is bound around it, and for the others nothing changes.
theorem Builder.Tidy.reads_emitted (h : b.Tidy) (he : Emitted op b id b₁) (ha : b.AllowsStep op)
    {i : StepId} {x : String} (hx : isTemp x = true) (hread : ReadsAt b₁.steps i x) :
    ∃ k, BindsAt b₁.steps k x ∧ ScopeCovers b₁.steps k i := by
  have hold : ∀ {k i}, BindsAt b.steps k x → ScopeCovers b.steps k i → i ≤ b.steps.size →
      ∃ k, BindsAt b₁.steps k x ∧ ScopeCovers b₁.steps k i := fun hb hcov hi =>
    ⟨_, hb.extend he.extend, hcov.extend he.extend hi⟩
  rcases he.readsAt hread with ⟨rfl, hmem⟩ | hread
  · obtain ⟨_, k, hbind, -, hcov⟩ := ha.reads x hmem hx
    rw [he.id_eq]
    exact hold hbind hcov (Nat.le_refl _)
  · obtain ⟨k, hbind, hcov⟩ := h.reads i x hx hread
    obtain ⟨s, hs, -⟩ := hread
    exact hold hbind hcov (Nat.le_of_lt (Array.getElem?_eq_some_iff.mp hs).1)

-- A chain ends at the step that has its entry, so that no step is added to one.
theorem Builder.Tidy.chains_emitted (h : b.Tidy) (he : Emitted op b id b₁) (ha : b.AllowsStep op)
    {e i k : StepId} {s' : Step} (hdefers : DefersFrom b₁.steps e i) (hin : InChain e i k)
    (hs' : b₁.steps[k]? = some s') : s'.op.isCalm = true := by
  have hcalm : ∀ {s : Step}, s.Below s' → s.op.isCalm = true → s'.op.isCalm = true := by
    intro s hbelow hs
    rw [← StepOp.isCalm_bare, hbelow.bare, StepOp.isCalm_bare]
    exact hs
  have hbefore : k < b.steps.size → ∃ s, b.steps[k]? = some s ∧ s.Below s' := by
    intro hk
    obtain ⟨s'', hs'', hbelow⟩ := he.extend k _ (Array.getElem?_eq_getElem hk)
    cases hs'.symm.trans hs''
    exact ⟨_, Array.getElem?_eq_getElem hk, hbelow⟩
  obtain ⟨t, ht, hentry⟩ := hdefers
  have hi : i < b.steps.size + 1 := he.size_eq ▸ (Array.getElem?_eq_some_iff.mp ht).1
  obtain ⟨s, hs, hbelow⟩ := hbefore (Nat.lt_of_lt_of_le hin.2 (Nat.le_of_lt_succ hi))
  refine hcalm hbelow ?_
  rcases he.below ht with ⟨-, hbare⟩ | ⟨u, hu, hbelow'⟩
  · refine ha.chain e ?_ k s hin.1 hs
    rw [← StepOp.entry?_bare, ← hbare, StepOp.entry?_bare, hentry]
  · refine h.chains e i ⟨u, hu, ?_⟩ k s hin hs
    rw [← StepOp.entry?_bare, ← hbelow'.bare, StepOp.entry?_bare, hentry]

theorem Builder.Tidy.emitted (h : b.Tidy) (he : Emitted op b id b₁) (ha : b.AllowsStep op) :
    { b₁ with depth := op.depthEmitted b.depth }.Tidy where
  counts := by
    have hdepth := h.counts.emitted he
    exact hdepth
  edges slot j hj := by
    rcases he.edge ha.other hj with hold | ⟨hslot, rfl⟩
    · obtain ⟨hlt, hlevel⟩ := h.edges slot j hold
      exact ⟨Nat.lt_of_lt_of_le hlt he.extend.size_le,
        hlevel.extend he.extend hold.lt_size (Nat.le_of_lt hlt)⟩
    · have hfresh := h.pending slot hslot
      rw [he.id_eq]
      exact ⟨he.size_lt, (hfresh.level (Nat.le_refl _) h.counts.symm
        (.single (Nat.le_of_eq h.counts))).extend he.extend hfresh.lt (Nat.le_refl _)⟩
  pending slot hslot := by
    have hpending : slot ∈ b₁.pending := hslot
    rw [he.pending, List.mem_singleton] at hpending
    obtain rfl := hpending
    have hlast : id + 1 = b₁.steps.size := by rw [he.id_eq, he.size_eq]
    have hfloor : Floor b₁.steps (op.depthEmitted b.depth) (id + 1) b₁.steps.size :=
      hlast ▸ .single (Nat.le_of_eq (hlast ▸ h.counts.emitted he))
    exact ⟨he.id_eq ▸ he.size_lt, hfloor⟩
  contexts c hc := by
    have hc : c ∈ b.contexts := he.contexts ▸ hc
    obtain ⟨hbreak, hcontinue⟩ := ha.contexts c hc
    have hheld := (h.contexts c hc).emitted he h.counts hbreak hcontinue
      fun x hx ht => (ha.binds x hx ht).2 c hc
    exact hheld
  reads _ _ hx hread := h.reads_emitted he ha hx hread
  numbered k x hx hbind := by
    have htemps : b₁.temps = b.temps := congrArg (·.temps) he.state
    change ∃ n ≤ b₁.temps, _
    rw [htemps]
    rcases he.stepAt hbind with ⟨-, hmem⟩ | hold
    · exact (ha.binds x hmem hx).1.1
    · exact h.numbered k x hx hold
  unique k k' x hx hbind hbind' := by
    rcases he.stepAt hbind with ⟨rfl, hmem⟩ | hold <;>
      rcases he.stepAt hbind' with ⟨rfl, hmem'⟩ | hold'
    · rfl
    · exact absurd hold' ((ha.binds x hmem hx).1.2 k')
    · exact absurd hold ((ha.binds x hmem' hx).1.2 k)
    · exact h.unique k k' x hx hold hold'
  discreet i s' hs' := by
    rcases he.below hs' with ⟨-, hbare⟩ | ⟨s, hs, hbelow⟩
    · rw [← StepOp.isDiscreet_bare, hbare, StepOp.isDiscreet_bare]
      exact ha.discreet
    · rw [← StepOp.isDiscreet_bare, hbelow.bare, StepOp.isDiscreet_bare]
      exact h.discreet i s hs
  chains _ _ hdefers _ _ hin hs' := h.chains_emitted he ha hdefers hin hs'
  labels l t ht := Nat.lt_of_lt_of_le (h.labels l t (he.labels ▸ ht)) he.extend.size_le
  gotos g hg := Nat.lt_of_lt_of_le (h.gotos g (he.gotos ▸ hg)) he.extend.size_le
  results := by
    have hsig : b₁.sig = b.sig := congrArg (·.sig) he.state
    exact hsig ▸ h.results

namespace Builder

-- A change of what leads to the next step, or of what is not written in the steps.
theorem Tidy.moved (h : b.Tidy) (hsteps : b'.steps = b.steps) (hdepth : b'.depth = b.depth)
    (hpending : ∀ slot ∈ b'.pending, FreshSlot b.steps b.depth slot)
    (hcontexts : ∀ c ∈ b'.contexts, c.Held b.steps b.depth) (hlabels : b'.labels = b.labels)
    (hgotos : b'.gotos = b.gotos) (htemps : b.temps ≤ b'.temps) (hsig : b'.sig = b.sig) :
    b'.Tidy where
  counts := h.counts.moved hsteps hdepth
  edges := by
    rw [hsteps]
    exact h.edges
  pending := by
    rw [hsteps, hdepth]
    exact hpending
  contexts := by
    rw [hsteps, hdepth]
    exact hcontexts
  reads := by
    rw [hsteps]
    exact h.reads
  numbered k x hx hbind := by
    rw [hsteps] at hbind
    obtain ⟨n, hn, hnumbered⟩ := h.numbered k x hx hbind
    exact ⟨n, Nat.le_trans hn htemps, hnumbered⟩
  unique := by
    rw [hsteps]
    exact h.unique
  discreet := by
    rw [hsteps]
    exact h.discreet
  chains := by
    rw [hsteps]
    exact h.chains
  labels := by
    rw [hsteps, hlabels]
    exact h.labels
  gotos := by
    rw [hsteps, hgotos]
    exact h.gotos
  results := hsig ▸ h.results

-- Some successors were set to a step, over which they do not come out of its scope.
theorem Tidy.linked {slots : List Slot} {t : StepId} {steps : Array Step} (h : b.Tidy)
    (hl : Linked b.steps slots t steps) (ht : t < b.steps.size)
    (hlevel : ∀ slot ∈ slots, slot.step < b.steps.size ∧ LevelEdge b.steps slot.step t) :
    { b with steps }.Tidy where
  counts := h.counts.linked hl.extend hl.size rfl rfl
  edges slot j hj := by
    change j < steps.size ∧ LevelEdge steps slot.step j
    rw [hl.size]
    rcases hl.edge hj with hold | ⟨hslot, rfl⟩
    · obtain ⟨hlt, hlevel⟩ := h.edges slot j hold
      exact ⟨hlt, hlevel.extend hl.extend hold.lt_size (Nat.le_of_lt hlt)⟩
    · obtain ⟨hlt, hlevel⟩ := hlevel slot hslot
      exact ⟨ht, hlevel.extend hl.extend hlt (Nat.le_of_lt ht)⟩
  pending slot hslot := hl.fresh (h.pending slot hslot)
  contexts c hc := by
    have hheld := h.contexts c hc
    exact ⟨hheld.breakDepth, hheld.continueDepth,
      fun slot hslot => hl.fresh (hheld.breaks slot hslot),
      fun slot hslot => hl.fresh (hheld.continues slot hslot)⟩
  reads i x hx hread := by
    obtain ⟨s', hs', hmem⟩ := hread
    obtain ⟨s, hs, hbelow⟩ := hl.below hs'
    obtain ⟨k, hbind, hcov⟩ := h.reads i x hx ⟨s, hs, hbelow.reads ▸ hmem⟩
    exact ⟨k, hbind.extend hl.extend,
      hcov.extend hl.extend (Nat.le_of_lt (Array.getElem?_eq_some_iff.mp hs).1)⟩
  numbered k x hx hbind := h.numbered k x hx (hl.bindsAt.mp hbind)
  unique k k' x hx hbind hbind' :=
    h.unique k k' x hx (hl.bindsAt.mp hbind) (hl.bindsAt.mp hbind')
  discreet i s' hs' := by
    obtain ⟨s, hs, hbelow⟩ := hl.below hs'
    rw [← StepOp.isDiscreet_bare, hbelow.bare, StepOp.isDiscreet_bare]
    exact h.discreet i s hs
  chains e i hdefers k s' hin hs' := by
    obtain ⟨u', hu', hentry⟩ := hdefers
    obtain ⟨u, hu, hbelow⟩ := hl.below hu'
    have hold : DefersFrom b.steps e i :=
      ⟨u, hu, by rw [← StepOp.entry?_bare, ← hbelow.bare, StepOp.entry?_bare, hentry]⟩
    obtain ⟨s, hs, hbelow⟩ := hl.below hs'
    rw [← StepOp.isCalm_bare, hbelow.bare, StepOp.isCalm_bare]
    exact h.chains e i hold k s hin hs
  labels l target hl' := by
    change target.step < steps.size
    rw [hl.size]
    exact h.labels l target hl'
  gotos g hg := by
    change g.jump < steps.size
    rw [hl.size]
    exact h.gotos g hg
  results := h.results

-- A jump to a label that is placed, and to which one does not come into a scope.
def GotoSettled (b : Builder) (g : PendingGoto) : Prop :=
  ∃ target, (g.label, target) ∈ b.labels ∧ LevelEdge b.steps g.jump target.step

-- What the builder has done since it stood elsewhere: jumps were added to labels that are placed now
-- or that stand around.
structure BuildsOn (around : List String) (b b' : Builder) : Prop where
  tidy : b'.Tidy
  extend : StepsExtend b.steps b'.steps
  labels : b.labels ⊆ b'.labels
  gotos : ∀ g ∈ b'.gotos, g ∈ b.gotos ∨
    b.steps.size ≤ g.jump ∧ (g.label ∈ around ∨ b'.GotoSettled g)

namespace BuildsOn

theorem refl (h : b.Tidy) : b.BuildsOn around b :=
  ⟨h, .refl _, List.Subset.refl _, fun _ hg => .inl hg⟩

theorem settled {g : PendingGoto} (h : b.BuildsOn around b') (hb : b.Tidy) (hg : g ∈ b.gotos)
    (hs : b.GotoSettled g) : b'.GotoSettled g := by
  obtain ⟨target, hmem, hlevel⟩ := hs
  exact ⟨target, h.labels hmem,
    hlevel.extend h.extend (hb.gotos g hg) (Nat.le_of_lt (hb.labels _ _ hmem))⟩

theorem trans (h : b.BuildsOn around b₁) (h' : b₁.BuildsOn around b') : b.BuildsOn around b' where
  tidy := h'.tidy
  extend := h.extend.trans h'.extend
  labels := List.Subset.trans h.labels h'.labels
  gotos g hg := by
    rcases h'.gotos g hg with hg | ⟨hlt, hg⟩
    · refine (h.gotos g hg).imp_right fun hnew => ⟨hnew.1, hnew.2.imp_right ?_⟩
      exact h'.settled h.tidy hg
    · exact .inr ⟨Nat.le_trans h.extend.size_le hlt, hg⟩

theorem mono {around' : List String} (h : b.BuildsOn around b') (haround : around ⊆ around') :
    b.BuildsOn around' b' :=
  { h with
    gotos := fun g hg => (h.gotos g hg).imp_right (And.imp_right (Or.imp_left (@haround _))) }

end BuildsOn

-- It did not come out of the scope at this depth, and bound temporaries deeper inside only.
structure StaysInside (d : Nat) (around : List String) (b b' : Builder) : Prop
    extends BuildsOn around b b' where
  depth : d ≤ b'.depth
  floor : Floor b'.steps d b.steps.size b'.steps.size

namespace StaysInside

theorem refl (h : b.Tidy) (hd : d ≤ b.depth) : b.StaysInside d around b :=
  ⟨.refl h, hd, .single (h.counts ▸ hd)⟩

theorem trans (h : b.StaysInside d around b₁) (h' : b₁.StaysInside d around b') :
    b.StaysInside d around b' where
  toBuildsOn := h.toBuildsOn.trans h'.toBuildsOn
  depth := h'.depth
  floor := (h.floor.extend h'.extend (Nat.le_refl _)).trans h'.floor

theorem mono {around' : List String} (h : b.StaysInside d around b') (hd : d' ≤ d)
    (haround : around ⊆ around') : b.StaysInside d' around' b' :=
  ⟨h.toBuildsOn.mono haround, Nat.le_trans hd h.depth, h.floor.mono hd⟩

-- What is set aside meanwhile may still lead to steps at its depth.
theorem fresh {slot : Slot} (h : b.StaysInside d around b') (hf : FreshSlot b.steps d' slot)
    (hd : d' ≤ d) :
    FreshSlot b'.steps d' slot := hf.extend h.extend (h.floor.mono hd)

theorem binds {n : Nat} {x : String} (h : b.StaysInside d around b') (hx : b.HasBound n x)
    (hd : n ≤ d) :
    b'.HasBound n x := by
  obtain ⟨k, hbind, hn, hcov⟩ := hx
  have hold := hcov.extend h.extend (Nat.le_refl _)
  have hdepth := h.extend.emissionDepth_eq (Nat.le_of_lt hbind.lt_size)
  refine ⟨k, hbind.extend h.extend, hdepth ▸ hn, Nat.lt_of_lt_of_le hcov.1 h.extend.size_le,
    fun j hk hj => ?_⟩
  rcases Nat.le_total j b.steps.size with hle | hge
  · exact hold.2 j hk hle
  · rw [hdepth]
    exact Nat.le_trans (Nat.le_trans hn hd) (h.floor.depth j hge hj)

-- A change of what is not written in the steps, or of what leads to the next one.
theorem moved (h : b'.Tidy) (hsteps : b'.steps = b.steps) (hd : d ≤ b'.depth)
    (hlabels : b'.labels = b.labels) (hgotos : b'.gotos = b.gotos) : b.StaysInside d around b' where
  tidy := h
  extend := hsteps ▸ .refl _
  depth := hd
  floor := by
    rw [← hsteps]
    exact .single (h.counts ▸ hd)
  labels := hlabels ▸ List.Subset.refl _
  gotos g hg := .inl (hgotos ▸ hg)

theorem emitted (around : List String) (h : b.Tidy) (he : Emitted op b id b₁) (ha : b.AllowsStep op)
    (hd : d ≤ b.depth) (hd' : d ≤ op.depthEmitted b.depth)
    (hbinds : ∀ x ∈ op.bindings, isTemp x = true → d < b.depth) :
    b.StaysInside d around { b₁ with depth := op.depthEmitted b.depth } where
  tidy := h.emitted he ha
  extend := he.extend
  depth := hd'
  floor := he.floor h.counts hd hd' hbinds
  labels := by
    have hsame := he.labels
    exact hsame ▸ List.Subset.refl _
  gotos g hg := .inl (he.gotos ▸ hg)

theorem linked {slots : List Slot} {t : StepId} {steps : Array Step} (h : b.Tidy)
    (hl : Linked b.steps slots t steps) (hd : d ≤ b.depth) (ht : t < b.steps.size)
    (hlevel : ∀ slot ∈ slots, slot.step < b.steps.size ∧ LevelEdge b.steps slot.step t) :
    b.StaysInside d around { b with steps } where
  tidy := h.linked hl ht hlevel
  extend := hl.extend
  depth := hd
  floor := by
    change Floor steps d b.steps.size steps.size
    rw [hl.size]
    exact .single (hl.extend.emissionDepth_eq (Nat.le_refl _) ▸ h.counts ▸ hd)
  labels := List.Subset.refl _
  gotos g hg := .inl hg

end StaysInside

end Builder

-- What an action has done that ends in the scope in which it began, and none of whose steps looks up
-- temporaries. Where it is `calm`, it made steps only of which the operands of a deferred call may be
-- made.
structure Builder.ComesBack (calm : Prop) (around : List String) (b b' : Builder) : Prop where
  grows : b.StaysInside b.depth around b'
  depth : b'.depth = b.depth
  contexts : b'.contexts.map (·.bare) = b.contexts.map (·.bare)
  reads : ∀ i x, isTemp x = true → ReadsAt b'.steps i x → ReadsAt b.steps i x
  calm : calm → ∀ (k : StepId) s, b.steps.size ≤ k → b'.steps[k]? = some s → s.op.isCalm = true

namespace Builder.ComesBack

variable {calm : Prop}

theorem refl (h : b.Tidy) : b.ComesBack calm around b where
  grows := .refl h (Nat.le_refl _)
  depth := rfl
  contexts := rfl
  reads _ _ _ := id
  calm _ _ _ hk hs := absurd (Array.getElem?_eq_some_iff.mp hs).1 (Nat.not_lt.mpr hk)

theorem trans (h : b.ComesBack calm around b₁) (h' : b₁.ComesBack calm around b') :
    b.ComesBack calm around b' where
  grows := h.grows.trans (h.depth ▸ h'.grows)
  depth := h'.depth.trans h.depth
  contexts := h'.contexts.trans h.contexts
  reads i x hx hread := h.reads i x hx (h'.reads i x hx hread)
  calm hc k s hk hs := by
    rcases Nat.lt_or_ge k b₁.steps.size with hlt | hge
    · obtain ⟨s', hs', hbelow⟩ := h'.grows.extend k _ (Array.getElem?_eq_getElem hlt)
      cases hs.symm.trans hs'
      rw [← StepOp.isCalm_bare, hbelow.bare, StepOp.isCalm_bare]
      exact h.calm hc k _ hk (Array.getElem?_eq_getElem hlt)
    · exact h'.calm hc k s hge hs

theorem mono {calm' : Prop} {around' : List String} (h : b.ComesBack calm around b')
    (hcalm : calm' → calm) (haround : around ⊆ around') : b.ComesBack calm' around' b' :=
  ⟨h.grows.mono (Nat.le_refl _) haround, h.depth, h.contexts, h.reads, fun hc => h.calm (hcalm hc)⟩

theorem fresh {slot : Slot} (h : b.ComesBack calm around b') (hf : FreshSlot b.steps b.depth slot) :
    FreshSlot b'.steps b'.depth slot := h.depth ▸ h.grows.fresh hf (Nat.le_refl _)

-- What leads to the next step is another, and so is what is not written in the steps.
theorem moved (h : b.Tidy) (hsteps : b'.steps = b.steps) (hdepth : b'.depth = b.depth)
    (hpending : ∀ slot ∈ b'.pending, FreshSlot b.steps b.depth slot)
    (hcontexts : b'.contexts = b.contexts)
    (hlabels : b'.labels = b.labels) (hgotos : b'.gotos = b.gotos) (htemps : b.temps ≤ b'.temps)
    (hsig : b'.sig = b.sig) : b.ComesBack calm around b' where
  grows := .moved
    (h.moved hsteps hdepth hpending (hcontexts ▸ h.contexts) hlabels hgotos htemps hsig)
    hsteps (Nat.le_of_eq hdepth.symm) hlabels hgotos
  depth := hdepth
  contexts := by rw [hcontexts]
  reads i x _ hread := by rwa [hsteps] at hread
  calm _ k s hk hs := by
    rw [hsteps] at hs
    exact absurd (Array.getElem?_eq_some_iff.mp hs).1 (Nat.not_lt.mpr hk)

theorem emitted (h : b.Tidy) (he : Emitted op b id b₁) (hop : op.isVisible = true)
    (hother : op.other? = none) (hdepth : ∀ n, op.depthEmitted n = n)
    (hchain : ∀ e, op.entry? = some e → ∀ k s, e ≤ k → b.steps[k]? = some s → s.op.isCalm = true)
    (hcalm : calm → op.isCalm = true) : b.ComesBack calm around b₁ := by
  have ha : b.AllowsStep op := by
    refine ⟨hother, StepOp.isDiscreet_of_isVisible hop, fun c hc => ?_, fun x hx ht => ?_,
      fun x hx ht => ?_, hchain⟩
    · rw [hdepth]
      exact ⟨(h.contexts c hc).breakDepth, (h.contexts c hc).continueDepth⟩
    · cases (StepOp.reads_of_isVisible hop hx).symm.trans ht
    · cases (StepOp.bindings_of_isVisible hop hx).symm.trans ht
  have hgrows := Builder.StaysInside.emitted around h he ha (Nat.le_refl _)
    (Nat.le_of_eq (hdepth _).symm) fun x hx ht => by
      cases (StepOp.bindings_of_isVisible hop hx).symm.trans ht
  rw [hdepth, ← he.depth] at hgrows
  refine ⟨he.depth ▸ hgrows, he.depth, by rw [he.contexts], fun i x hx hread => ?_,
    fun hc k s hk hs => ?_⟩
  · rcases he.readsAt hread with ⟨-, hmem⟩ | hold
    · cases (StepOp.reads_of_isVisible hop hmem).symm.trans hx
    · exact hold
  rcases he.below hs with ⟨-, hbare⟩ | ⟨s', hs', -⟩
  · rw [← StepOp.isCalm_bare, hbare, StepOp.isCalm_bare]
    exact hcalm hc
  · exact absurd (Array.getElem?_eq_some_iff.mp hs').1 (Nat.not_lt.mpr hk)

end Builder.ComesBack

end builder

namespace Build

variable {α β : Type} {calm : Prop} {around : List String}

-- An action that ends in the scope in which it began. Temporaries are bound deeper inside only.
def KeepsScope (calm : Prop) (around : List String) (x : Build α) : Prop :=
  ∀ b a b', b.Tidy → x b = .ok a b' → b.ComesBack calm around b'

namespace KeepsScope

variable {x : Build α}

theorem pure (a : α) : KeepsScope calm around (pure a : Build α) := by
  intro b a b' hb h
  cases h
  exact .refl hb

theorem fail (e : CompileError) : KeepsScope calm around (fail e : Build α) := nofun

theorem unsupported (what : String) (span : Span) :
    KeepsScope calm around (unsupported what span : Build α) := nofun

-- What follows may go by what the action can have resulted in.
theorem bindOf {f : α → Build β} (hx : KeepsScope calm around x)
    (hf : ∀ b a b', x b = .ok a b' → KeepsScope calm around (f a)) :
    KeepsScope calm around (x >>= f) := by
  intro b c b' hb h
  obtain ⟨a, b₁, h₁, h₂⟩ := bind_eq_ok.mp h
  have hfirst := hx b a b₁ hb h₁
  exact hfirst.trans (hf b a b₁ h₁ b₁ c b' hfirst.grows.tidy h₂)

theorem bind {f : α → Build β} (hx : KeepsScope calm around x)
    (hf : ∀ a, KeepsScope calm around (f a)) :
    KeepsScope calm around (x >>= f) := hx.bindOf fun _ a _ _ => hf a

theorem discard (hx : KeepsScope calm around x) : KeepsScope calm around (discard x) := by
  intro b u b' hb h
  obtain ⟨a, ha⟩ := discard_eq_ok.mp h
  exact hx b a b' hb ha

theorem get {f : Builder → Build α} (hf : ∀ b, b.Tidy → KeepsScope calm around (f b)) :
    KeepsScope calm around (get >>= f) := fun b a b' hb h => hf b hb b a b' hb h

theorem names {f : Names → Build α} (hf : ∀ n, KeepsScope calm around (f n)) :
    KeepsScope calm around (names >>= f) := fun b a b' hb h => hf b.names b a b' hb h

theorem modifyNames (f : Names → Names) : KeepsScope calm around (modifyNames f) := by
  intro b u b' hb h
  cases h
  exact .moved hb rfl rfl hb.pending rfl rfl rfl (Nat.le_refl _) rfl

theorem forM {l : List α} {f : α → Build PUnit} (hf : ∀ a ∈ l, KeepsScope calm around (f a)) :
    KeepsScope calm around (l.forM f) := by
  induction l with
  | nil => exact pure _
  | cons a l ih =>
      exact bind (hf a List.mem_cons_self) fun _ => ih fun a ha => hf a (List.mem_cons_of_mem _ ha)

theorem step {op : StepOp} (hop : op.isVisible = true) (hother : op.other? = none)
    (hentry : op.entry? = none) (hdepth : ∀ n, op.depthEmitted n = n)
    (hcalm : calm → op.isCalm = true) (span : Span) : KeepsScope calm around (emit' op span) := by
  intro b u b' hb h
  obtain ⟨id, hid⟩ := discard_eq_ok.mp h
  exact .emitted hb (emit_ok hid) hop hother hdepth
    (fun e he => by cases hentry.symm.trans he) hcalm

theorem emit' {op : StepOp} (hop : op.isVisible = true) (hserial : op.isSerial = true)
    (hentry : op.entry? = none) (hcalm : calm → op.isCalm = true) (span : Span) :
    KeepsScope calm around (emit' op span) :=
  .step hop (StepOp.other?_of_isPlain (StepOp.isPlain_of_isSerial hserial)) hentry
    (StepOp.depthEmitted_of_isSerial hserial) hcalm span

-- A step of an expression.
theorem operation {op : StepOp} (hop : op.isCalm = true) (hserial : op.isSerial = true)
    (hentry : op.entry? = none) (span : Span) : KeepsScope calm around (Build.emit' op span) :=
  emit' (StepOp.isVisible_of_isCalm hop) hserial hentry (fun _ => hop) span

end KeepsScope

end Build

end StepGraph

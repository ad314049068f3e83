import StepGraph.Proofs.Compile.Beginnings
import StepGraph.Proofs.Compile.Landmarks
import StepGraph.Proofs.Compile.PureValues
import StepGraph.Proofs.Operator.Resolution
import StepGraph.Proofs.Stack.Operands

open EStateM (bind_apply bind_eq_ok map_apply discard_eq_ok)

namespace StepGraph

open Build

-- Steps in a row that go forward, each one to another of the row or to the step right behind it.
structure ForwardPart (steps : Array Step) (first last : StepId) : Prop where
  step : ∀ i : StepId, first ≤ i → i < last → ∃ s, steps[i]? = some s ∧ s.op.bare.isPlain = true ∧
    ∀ edge, (s.op.gives edge).isSome → ∃ j : StepId, s.follow edge = some j ∧ i < j ∧ j ≤ last

-- The steps are still there, with more of their successors set. Only jumps may have changed, since a
-- jump to a label gets its depth at the end of the function.
structure StepsKept (steps steps' : Array Step) : Prop where
  step : ∀ (i : StepId) u, steps[i]? = some u → (∀ d, u.op ≠ .jump d) →
    ∃ s, steps'[i]? = some s ∧ u.Below s
  leads : ∀ (slot : Slot) (k : StepId), LeadsTo steps slot (some k) → LeadsTo steps' slot (some k)

-- What is known from step `n` on of a builder at work on an expression. Successors that lead
-- nowhere yet are pending or set aside.
structure Build.Ahead (n : StepId) (s : Site) (b : Builder) : Prop where
  plain : ∀ (i : StepId) u, n ≤ i → b.steps[i]? = some u → u.op.bare.isPlain = true
  forward : ∀ {x : Slot} {j : StepId}, n ≤ x.step → LeadsTo b.steps x (some j) →
    x.step < j ∧ j < b.steps.size
  dangling : ∀ {x : Slot}, n ≤ x.step → IsLinkable b.steps x → x ∈ b.pending ++ s.slots

section progress

variable {stage : Stage} {s s' : Site} {b b' : Builder} {marks : List Mark}
  {starts : List StepId} {n : StepId} {steps : Array Step}

theorem StepOp.ne_jump_of_isPlain {op : StepOp} (h : op.bare.isPlain = true) (d : Nat) :
    op ≠ .jump d := by
  rintro rfl
  cases h

theorem StepOp.ne_jump_of_bare {op op' : StepOp} (hbare : op'.bare = op.bare)
    (h : ∀ d, op ≠ .jump d) (d : Nat) : op' ≠ .jump d := by
  rintro rfl
  cases op <;> cases hbare
  exact h d rfl

theorem StepsKept.of_extends (he : StepsExtend b.steps b'.steps) (h : StepsKept b'.steps steps) :
    StepsKept b.steps steps where
  step i u hu hjump := by
    obtain ⟨v, hv, hbelow⟩ := he i u hu
    obtain ⟨w, hw, hbelow'⟩ := h.step i v hv (StepOp.ne_jump_of_bare hbelow.bare hjump)
    exact ⟨w, hw, hbelow.trans hbelow'⟩
  leads slot k hl := h.leads slot k (hl.extend he)

theorem StepsKept.refl (steps : Array Step) : StepsKept steps steps :=
  ⟨fun _ u hu _ => ⟨u, hu, .refl u⟩, fun _ _ hl => hl⟩

theorem Build.Ahead.start (s : Site) (b : Builder) : Ahead b.steps.size s b where
  plain _ _ hi hu := absurd (Array.getElem?_eq_some_iff.mp hu).1 (Nat.not_lt.mpr hi)
  forward hi h := absurd h.lt_size (Nat.not_lt.mpr hi)
  dangling hi h := absurd h.1.lt_size (Nat.not_lt.mpr hi)

theorem Progress.ahead (h : Progress stage s b marks starts s' b') (hstage : stage = .expr)
    (hl : Linear s b) (ha : Ahead n s b) : Ahead n s' b' := by
  induction h with
  | refl => exact ha
  | trans hfirst _ ih₁ ih₂ => exact ih₂ hstage (hfirst.linear hl) (ih₁ hstage hl ha)
  | names | forget | literal => exact ⟨ha.plain, ha.forward, ha.dangling⟩
  | @emit _ s b b₁ op rest id hop he =>
      have hother := StepOp.other?_of_isPlain hop.plain
      refine ⟨fun i u hi hu => ?_, fun {x j} hx hlead => ?_, fun {x} hx hopen => ?_⟩
      · rcases he.below hu with ⟨-, hbare⟩ | ⟨v, hv, hbelow⟩
        · rw [hbare, StepOp.bare_of_isPlain hop.plain]
          exact hop.plain
        · rw [hbelow.bare]
          exact ha.plain i v hi hv
      · rcases he.edge hother hlead with hold | ⟨hmem, rfl⟩
        · obtain ⟨hlt, hsize⟩ := ha.forward hx hold
          exact ⟨hlt, Nat.lt_trans hsize he.size_lt⟩
        · have hlt := hl.lt_size (List.mem_append_left _ hmem)
          exact ⟨he.id_eq ▸ hlt, he.id_eq ▸ he.size_lt⟩
      · rcases he.isLinkable hopen with ⟨hid, hgives⟩ | ⟨hold, hnot⟩
        · obtain ⟨i, edge⟩ := x
          obtain rfl : i = id := hid
          cases edge with
          | next => exact List.mem_append_left _ (by rw [he.pending]; exact List.mem_singleton_self _)
          | other =>
              obtain ⟨given, hgiven⟩ := Option.isSome_iff_exists.mp (hgives rfl)
              refine List.mem_append_right _ ?_
              simp [Site.slots, Site.emitted, hgiven]
        · rcases List.mem_append.mp (ha.dangling hx hold) with hpending | hheld
          · exact absurd hpending hnot
          · refine List.mem_append_right _ ?_
            rw [Site.slots, Site.emitted, List.map_append]
            exact List.mem_append_right _ hheld
  | @take _ s b =>
      refine ⟨ha.plain, ha.forward, fun {x} hx hopen => ?_⟩
      have hmem := ha.dangling hx hopen
      simpa [Site.slots, Site.loose] using hmem
  | @put _ s b moved held hheld _ =>
      refine ⟨ha.plain, ha.forward, fun {x} hx hopen => ?_⟩
      have hmem := ha.dangling hx hopen
      have hslots : x ∈ s.slots ↔ x ∈ moved.map (·.slot) ++ held.map (·.slot) := by
        rw [Site.slots, (hheld.map (·.slot)).mem_iff, List.map_append]
      simp only [Site.slots, List.mem_append] at hmem hslots ⊢
      tauto
  | _ => cases hstage

-- A step that leads somewhere can have that successor.
theorem StepOp.gives_of_follow {s : Step} (hplain : s.op.bare.isPlain = true) {edge : Edge}
    {j : StepId} (h : s.follow edge = some j) : (s.op.gives edge).isSome := by
  cases edge with
  | next =>
      rw [← StepOp.gives_bare]
      exact StepOp.gives_next_of_isPlain hplain
  | other =>
      obtain ⟨op, next, span⟩ := s
      change op.other? = some j at h
      cases op <;> first | rfl | cases h

-- What led nowhere in front of the last step leads behind it once that is where all that is pending
-- leads.
theorem Progress.leads_behind (h : Progress .expr s b marks starts s' b')
    (hheld : s'.held = s.held) (hl : Linear s b)
    (hleads : AllLead steps b'.pending (some b'.steps.size)) {i : StepId} {edge : Edge} {u : Step}
    (hi : b.steps.size ≤ i) (hu : b'.steps[i]? = some u) (hnone : u.follow edge = none)
    (hgives : (u.op.gives edge).isSome) : LeadsTo steps ⟨i, edge⟩ (some b'.steps.size) := by
  have ha := h.ahead rfl hl (.start s b)
  have hopen : IsLinkable b'.steps ⟨i, edge⟩ := ⟨⟨u, hu, hnone⟩, fun he => ⟨u, hu, he ▸ hgives⟩⟩
  rcases List.mem_append.mp (ha.dangling hi hopen) with hpending | hslot
  · exact hleads _ hpending
  · have hold : (⟨i, edge⟩ : Slot) ∈ s.slots := by
      unfold Site.slots at hslot ⊢
      rwa [hheld] at hslot
    have hlisted : (⟨i, edge⟩ : Slot) ∈ s.listed b := by
      simp only [Site.listed, List.mem_append]
      tauto
    exact absurd (hl.lt_size hlisted) (Nat.not_lt.mpr hi)

theorem Progress.part (h : Progress .expr s b marks starts s' b') (hheld : s'.held = s.held)
    (hl : Linear s b) (hkept : StepsKept b'.steps steps)
    (hleads : AllLead steps b'.pending (some b'.steps.size)) :
    ForwardPart steps b.steps.size b'.steps.size := by
  have ha := h.ahead rfl hl (.start s b)
  refine ⟨fun i hi hlt => ?_⟩
  have hu := Array.getElem?_eq_getElem hlt
  set u := b'.steps[i]
  have hplain := ha.plain i u hi hu
  obtain ⟨v, hv, hbelow⟩ := hkept.step i u hu (StepOp.ne_jump_of_isPlain hplain)
  refine ⟨v, hv, hbelow.bare ▸ hplain, fun edge hgives => ?_⟩
  cases hfollow : u.follow edge with
  | some j =>
      obtain ⟨hij, hj⟩ := ha.forward (x := ⟨i, edge⟩) hi ⟨u, hu, hfollow⟩
      exact ⟨j, hbelow.keeps edge j hfollow, hij, Nat.le_of_lt hj⟩
  | none =>
      rw [← StepOp.gives_bare, hbelow.bare, StepOp.gives_bare] at hgives
      obtain ⟨w, hw, hlead⟩ := h.leads_behind hheld hl hleads hi hu hfollow hgives
      obtain rfl := Option.some.inj (hv.symm.trans hw)
      exact ⟨_, hlead, hlt, Nat.le_refl _⟩

theorem Progress.becomes (h : Progress .expr s b marks starts s' b') (hheld : s'.held = s.held)
    (hl : Linear s b) (hkept : StepsKept b'.steps steps)
    (hleads : AllLead steps b'.pending (some b'.steps.size)) :
    StepsBecome b.steps.size b'.steps steps where
  step i u hi hu :=
    have hplain := (h.ahead rfl hl (.start s b)).plain i u hi hu
    hkept.step i u hu (StepOp.ne_jump_of_isPlain hplain)
  behind i edge k hi hnone hsome := by
    obtain ⟨u, hu, hnone⟩ := hnone
    have hplain := (h.ahead rfl hl (.start s b)).plain i u hi hu
    obtain ⟨v, hv, hbelow⟩ := hkept.step i u hu (StepOp.ne_jump_of_isPlain hplain)
    obtain ⟨w, hw, hsome⟩ := hsome
    obtain rfl := Option.some.inj (hv.symm.trans hw)
    have hgives := StepOp.gives_of_follow (hbelow.bare ▸ hplain) hsome
    rw [← StepOp.gives_bare, hbelow.bare, StepOp.gives_bare] at hgives
    have hlead := h.leads_behind hheld hl hleads hi hu hnone hgives
    exact Nat.le_of_eq (Option.some.inj (hlead.unique ⟨v, hv, hsome⟩))

-- Operands only change by steps.
theorem Progress.items_eq (h : Progress stage s b marks starts s' b') (hstage : stage = .expr)
    (hsize : b'.steps.size = b.steps.size) : s'.items = s.items := by
  induction h with
  | refl | names | take | put | forget | literal => rfl
  | trans hfirst hrest ih₁ ih₂ =>
      have hle := hfirst.size_le
      have hle' := hrest.size_le
      exact (ih₂ hstage (by omega)).trans (ih₁ hstage (by omega))
  | emit _ he => exact absurd hsize.symm (Nat.ne_of_lt he.size_lt)
  | _ => cases hstage

end progress

-- A builder at work, as the site tells.
structure Build.AtSite (s : Site) (b : Builder) : Prop where
  fits : SiteFits s b
  linear : Linear s b
  counts : b.CountsScopes

-- A builder comes to another site. What it built before stands.
structure Build.ComesToSite (b : Builder) (s' : Site) (b' : Builder) : Prop where
  site : AtSite s' b'
  extend : StepsExtend b.steps b'.steps
  types : b.names.types.KeepsStructs b'.names.types

namespace Build.AtSite

variable {s s' : Site} {b b' : Builder}

theorem start (names : Names) (code : Array Function) (sig : Signature) :
    AtSite .start (.start names code sig) :=
  ⟨fits_start names code sig, linear_start names code sig, rfl⟩

theorem after {stage : Stage} {marks : List Mark} {starts : List StepId} (hat : AtSite s b)
    (h : Progress stage s b marks starts s' b') : ComesToSite b s' b' :=
  ⟨⟨h.fits hat.fits, h.linear hat.linear, h.counts hat.counts⟩, h.extend, h.types⟩

theorem performs {α : Type} {x : Build α} {a : α} {post : α → Site} {marks : List Mark}
    {starts : Starts} (hat : AtSite s b) (hx : Performs s x post marks starts)
    (h : x b = .ok a b') : ComesToSite b (post a) b' :=
  hat.after ((hx b hat.fits).progress a b' h)

theorem emits {op : StepOp} {span : Span} {u : Unit} (rest : List Item) (hat : AtSite s b)
    (hneeds : s.items = op.needs ++ rest) (hserial : op.isSerial = true)
    (h : emit' op span b = .ok u b') : Emitted op b b.steps.size b' ∧
      ComesToSite b (s.withItems ((op.gives .next).getD [] ++ rest)) b' := by
  have hcomes := hat.performs (performs_emit' rest hneeds hserial) h
  obtain ⟨id, h⟩ := discard_eq_ok.mp h
  have he := emit_ok h
  exact ⟨he.id_eq ▸ he, hcomes⟩

end Build.AtSite

-- The step that was emitted, in the function that it is a part of.
theorem Build.Emitted.kept {op : StepOp} {id : StepId} {b b' : Builder} {steps : Array Step}
    (he : Emitted op b id b') (hkept : StepsKept b'.steps steps) (hplain : op.bare.isPlain = true) :
    ∃ s, steps[id]? = some s ∧ s.op = op.bare.toOther s.op.other? := by
  obtain ⟨u, hu, hbare⟩ := he.step
  obtain ⟨s, hs, hbelow⟩ := hkept.step id u hu (StepOp.ne_jump_of_isPlain (hbare ▸ hplain))
  exact ⟨s, hs, by rw [← hbare, ← hbelow.bare, StepOp.bare_toOther]⟩

-- What was pending in front of an expression leads to its first step once a step follows.
theorem Build.Begins.allLead {op : StepOp} {id : StepId} {b b₁ b' : Builder} {steps : Array Step}
    (h : Begins b b₁) (he : Emitted op b₁ id b') (hkept : StepsKept b'.steps steps) :
    AllLead steps b.pending (some b.steps.size) :=
  fun slot hslot => hkept.leads slot _ (h.leads he slot hslot)

theorem Exec.pop_of_operands {m : Machine} {v : Value} {rest : List Value}
    (h : m.frame.operands = v :: rest) :
    pop m = .ok v { m with frame := { m.frame with operands := rest } } := by
  unfold pop
  rw [bind_apply, frame_apply]
  simp only
  rw [h]
  rfl

theorem Exec.peekN_of_operands {m : Machine} {vs rest : List Value}
    (h : m.frame.operands = vs ++ rest) : peekN vs.length m = .ok vs.reverse m := by
  unfold peekN
  rw [bind_apply, frame_apply]
  simp only
  rw [h, if_neg (by simp), List.take_left']
  · rfl
  · rfl

-- A stretch of a run. The number bounds the steps and calls that may still follow on each other.
abbrev Stretch := StateT Nat Exec

namespace Program

variable {p : Program} {steps : Array Step} {first last i : StepId} {n n' : Nat} {m m' : Machine}

-- Steps from one of them on until the run comes to the last one, which is not taken. Steps of a row
-- go on to another step, so that nothing but the bound stops a run in between.
def toEnd (p : Program) (steps : Array Step) (last : StepId) : Nat → StepId → Exec Nat
  | 0, i => if i = last then pure 0 else throw .exhausted
  | n + 1, i =>
      if i = last then pure (n + 1)
      else do
        match (← p.advance n steps i).join with
        | some j => toEnd p steps last n j
        | none => pure 0

theorem toEnd_last (p : Program) (steps : Array Step) (last : StepId) (n : Nat) (m : Machine) :
    p.toEnd steps last n last m = .ok n m := by
  cases n <;> unfold toEnd <;> rw [if_pos rfl] <;> rfl

def across (p : Program) (steps : Array Step) (first last : StepId) : Stretch Unit := fun n => do
  return ((), ← p.toEnd steps last n first)

-- One step.
def taking {α : Type} (steps : Array Step) (i : StepId) (x : Exec α) : Stretch α
  | 0 => throw .exhausted
  | n + 1 => do return (← annotated ((steps[i]?.map (·.span)).getD Span.none) x, n)

-- A step that does its work on the operands.
def does (p : Program) (steps : Array Step) (i : StepId) (op : StepOp) : Stretch Unit :=
  taking steps i (p.work op)

-- One that applies an operator to the two operands on top.
def applies (steps : Array Step) (i : StepId) (op : BinaryOp) (resolved : Option Family) :
    Stretch Unit := taking steps i do
  let r ← Exec.pop
  let l ← Exec.pop
  Exec.push (← Exec.ofExcept (applied (← Exec.heap) op resolved l r))

theorem does_binary (p : Program) (steps : Array Step) (i : StepId) (op : BinaryOp)
    (resolved : Option Family) : p.does steps i (.binary op resolved) = applies steps i op resolved := by
  cases resolved <;> rfl

-- One that tests the operand on top.
def tests (steps : Array Step) (i : StepId) : Stretch Bool := taking steps i do
  let v ← Exec.pop
  match v.bool? with
  | some b => return b
  | none => Exec.notDefined "if" v.kindName

-- A stretch and the run from where it leads to.
def goOn (p : Program) (steps : Array Step) (x : Stretch (Option StepId)) (n : Nat) : Exec Unit := do
  let (k, n) ← x n
  p.run n steps k

-- Every run from a place starts with this stretch.
def Follows (p : Program) (steps : Array Step) (k : Option StepId) (x : Stretch (Option StepId)) :
    Prop := ∀ n m, p.run n steps k m = p.goOn steps x n m

-- A step that returns nothing and defers nothing goes on to one of its successors.
theorem follow_of_advance {s : Step} (hs : steps[i]? = some s) (hplain : s.op.bare.isPlain = true)
    {k : Option (Option StepId)} (h : p.advance n steps i m = .ok k m') :
    ∃ edge, (s.op.gives edge).isSome ∧ k = some (s.follow edge) := by
  obtain ⟨hret, hdefer⟩ := StepOp.ne_of_isPlain hplain
  unfold advance at h
  simp only [hs] at h
  obtain ⟨after, m₁, hstep, h⟩ := bind_eq_ok.mp h
  have hof := next_of_step (annotated_eq_ok.mp hstep)
  cases after with
  | next =>
      cases h
      exact ⟨.next, hof, rfl⟩
  | goto target =>
      cases h
      obtain ⟨hgives, rfl⟩ := hof
      exact ⟨.other, hgives, rfl⟩
  | ret =>
      obtain ⟨arity, hop⟩ := hof
      exact absurd hop (hret arity)
  | call =>
      obtain ⟨_, _, -, h⟩ := bind_eq_ok.mp h
      cases h
      exact ⟨.next, by rw [hof]; rfl, rfl⟩
  | builtin =>
      obtain ⟨_, _, -, h⟩ := bind_eq_ok.mp h
      cases h
      exact ⟨.next, by rw [hof]; rfl, rfl⟩
  | defer => exact absurd hof (hdefer _ _ _ _)

-- A step of a row leads further on in the row or to its end.
theorem ForwardPart.next_of_advance (hp : ForwardPart steps first last) (hfirst : first ≤ i)
    (hlt : i < last) {k : Option (Option StepId)} (h : p.advance n steps i m = .ok k m') :
    ∃ j, k = some (some j) ∧ i < j ∧ j ≤ last := by
  obtain ⟨s, hs, hplain, hgoes⟩ := hp.step i hfirst hlt
  obtain ⟨edge, hgives, rfl⟩ := follow_of_advance hs hplain h
  obtain ⟨j, hj, hij, hle⟩ := hgoes edge hgives
  exact ⟨j, by rw [hj], hij, hle⟩

-- A run that is in a row comes to its end, unless one of the steps ends it.
theorem ForwardPart.run_eq (hp : ForwardPart steps first last) (p : Program) (n : Nat) (m : Machine)
    (hfirst : first ≤ i) (hlast : i ≤ last) : p.run n steps (some i) m =
      (p.toEnd steps last n i >>= fun n' => p.run n' steps (some last)) m := by
  induction n generalizing i m with
  | zero =>
      unfold toEnd
      split
      · next h => rw [h]; rfl
      · exact run_zero _ _ _ _
  | succ n ih =>
      unfold toEnd
      split
      · next h => rw [h]; rfl
      · next hne =>
          have hlt : i < last := Nat.lt_of_le_of_ne hlast hne
          rw [run_succ, bind_apply, bind_apply]
          cases hstep : p.advance n steps i m with
          | error u m' => rfl
          | ok k m₁ =>
              obtain ⟨j, rfl, hij, hle⟩ := ForwardPart.next_of_advance hp hfirst hlt hstep
              have hrest := ih m₁ (Nat.le_trans hfirst (Nat.le_of_lt hij)) hle
              rw [bind_apply] at hrest
              exact hrest

-- Whoever comes to the end of a row has left it.
theorem ForwardPart.passes (hp : ForwardPart steps first last) (hfirst : first ≤ i) (hlt : i < last)
    (h : p.toEnd steps last n i m = .ok n' m') : p.Passes steps first last n i m m' := by
  induction n generalizing i m with
  | zero =>
      unfold toEnd at h
      rw [if_neg (Nat.ne_of_lt hlt)] at h
      cases h
  | succ n ih =>
      unfold toEnd at h
      rw [if_neg (Nat.ne_of_lt hlt)] at h
      obtain ⟨k, m₁, hstep, h⟩ := bind_eq_ok.mp h
      obtain ⟨j, rfl, hij, hle⟩ := ForwardPart.next_of_advance hp hfirst hlt hstep
      rcases Nat.eq_or_lt_of_le hle with rfl | hlt'
      · obtain ⟨rfl, rfl⟩ : n = n' ∧ m₁ = m' := by
          simpa using (toEnd_last p steps j n m₁).symm.trans h
        refine .leave ⟨hfirst, hlt⟩ hstep fun k hk => ?_
        cases hk
        exact fun hin => Nat.lt_irrefl _ hin.2
      · exact .next ⟨hfirst, hlt⟩ hstep (ih (Nat.le_trans hfirst (Nat.le_of_lt hij)) hlt' h)

theorem goOn_bind {α : Type} (x : Stretch α) (f : α → Stretch (Option StepId)) (n : Nat)
    (m : Machine) : p.goOn steps (x >>= f) n m = match x n m with
      | .ok (a, n') m' => p.goOn steps (f a) n' m'
      | .error u m' => .error u m' := by
  change (StateT.bind x f n >>= fun r => p.run r.2 steps r.1) m = _
  unfold StateT.bind
  rw [bind_apply, bind_apply]
  cases x n m with
  | ok r m' =>
      change _ = (f r.1 r.2 >>= fun r => p.run r.2 steps r.1) m'
      rw [bind_apply]
  | error u m' => rfl

theorem annotated_map {α β : Type} (span : Span) (x : Exec α) (f : α → β) (m : Machine) :
    annotated span (f <$> x) m = match annotated span x m with
      | .ok a m' => .ok (f a) m'
      | .error u m' => .error u m' := by
  unfold annotated
  rw [map_apply]
  cases x m with
  | ok a m' => rfl
  | error u m' => cases u <;> rfl

theorem taking_succ {α : Type} (x : Exec α) {s : Step} (hs : steps[i]? = some s) (n : Nat)
    (m : Machine) : taking steps i x (n + 1) m = match annotated s.span x m with
      | .ok a m' => .ok (a, n) m'
      | .error u m' => .error u m' := by
  change (annotated ((steps[i]?.map (·.span)).getD Span.none) x >>= fun a => pure (a, n)) m = _
  rw [hs]
  change (annotated s.span x >>= fun a => pure (a, n)) m = _
  rw [bind_apply]
  cases annotated s.span x m <;> rfl

namespace Follows

variable {s : Step} {op : StepOp} {k : Option StepId} {x y : Stretch (Option StepId)}

theorem done (k : Option StepId) : p.Follows steps k (pure k) := fun _ _ => rfl

theorem across (hp : ForwardPart steps first last) (hle : first ≤ last)
    (hx : p.Follows steps (some last) x) :
    p.Follows steps (some first) (do p.across steps first last; x) := by
  intro n m
  rw [ForwardPart.run_eq hp p n m (Nat.le_refl _) hle, goOn_bind, bind_apply]
  unfold Program.across
  rw [bind_apply]
  cases p.toEnd steps last n first m with
  | ok n' m' => exact hx n' m'
  | error u m' => rfl

-- A step that calls nothing leads on as its result tells.
theorem taking {α : Type} {y : Exec α} {f : α → Next} {x : α → Stretch (Option StepId)}
    (hs : steps[i]? = some s) (hstep : p.step s.op = f <$> y)
    (hx : ∀ a, f a = .next ∧ p.Follows steps s.next (x a) ∨
      ∃ k, f a = .goto k ∧ p.Follows steps k (x a)) :
    p.Follows steps (some i) (do x (← taking steps i y)) := by
  intro n m
  rw [goOn_bind]
  cases n with
  | zero => exact run_zero _ _ _ _
  | succ n =>
      rw [run_succ, taking_succ y hs]
      unfold advance
      simp only [hs]
      rw [bind_apply, hstep, annotated_map]
      cases annotated s.span y m with
      | error u m' => rfl
      | ok a m' =>
          rcases hx a with ⟨ha, hrest⟩ | ⟨k, ha, hrest⟩
          · simp only [ha]
            exact hrest n m'
          · simp only [ha]
            exact hrest n m'

-- A step that does its work and goes on.
theorem does (hs : steps[i]? = some s) (hop : s.op = op)
    (hwork : p.step op = do p.work op; return .next) (hx : p.Follows steps s.next x) :
    p.Follows steps (some i) (do p.does steps i op; x) :=
  taking (f := fun _ => .next) hs (by rw [hop, hwork, map_eq_pure_bind]) fun _ => .inl ⟨rfl, hx⟩

-- A step that goes on if the operand on top is true, and elsewhere if it is false.
theorem tests (hs : steps[i]? = some s) (hop : s.op = .branch k) (hx : p.Follows steps s.next x)
    (hy : p.Follows steps k y) :
    p.Follows steps (some i) (do if ← tests steps i then x else y) := by
  refine taking (f := fun b => if b then .next else .goto k) hs ?_ fun b => ?_
  · rw [hop]
    change (Exec.pop >>= fun v => branch v k) = _
    rw [map_eq_pure_bind, bind_assoc]
    refine bind_congr fun v => ?_
    unfold branch
    cases v.bool? with
    | none => rfl
    | some b => cases b <;> rfl
  · cases b with
    | true => exact .inl ⟨rfl, hx⟩
    | false => exact .inr ⟨k, rfl, hy⟩

-- A step that was emitted, where what is pending behind it leads somewhere.
theorem emitted {b b' : Builder} {id : StepId} {k : Option StepId} (he : Emitted op b id b')
    (hkept : StepsKept b'.steps steps) (hwork : p.step op = do p.work op; return .next)
    (hop : ∀ other, op.bare.toOther other = op) (hplain : op.bare.isPlain = true)
    (hleads : AllLead steps b'.pending k) (hx : p.Follows steps k x) :
    p.Follows steps (some id) (do p.does steps id op; x) := by
  obtain ⟨s, hs, hsop⟩ := he.kept hkept hplain
  obtain ⟨s', hs', hnext⟩ := hleads ⟨id, .next⟩ (he.pending ▸ List.mem_singleton_self _)
  obtain rfl := Option.some.inj (hs.symm.trans hs')
  exact does hs (hsop.trans (hop _)) hwork (by rwa [show s.next = k from hnext])

theorem applies {b b' : Builder} {id : StepId} {k : Option StepId} {op : BinaryOp}
    {resolved : Option Family} (he : Emitted (.binary op resolved) b id b') (hkept : StepsKept b'.steps steps)
    (hleads : AllLead steps b'.pending k) (hx : p.Follows steps k x) :
    p.Follows steps (some id) (do applies steps id op resolved; x) := by
  rw [← does_binary p]
  exact emitted he hkept rfl (fun _ => rfl) rfl hleads hx

end Follows

end Program

-- The steps of an expression in a function: they are built among these names, they form a row,
-- and every run leaves these operands on top of those that were there.
structure Program.Evaluates (p : Program) (steps : Array Step) {α : Type} (x : Build α) (a : α)
    (names : Names) (items : List Item) (first last : StepId) : Prop where
  built : ∃ b b', b.names = names ∧ b.steps.size = first ∧ x b = .ok a b' ∧ b'.steps.size = last ∧
    StepsKept b'.steps steps
  part : ForwardPart steps first last
  le : first ≤ last
  leaves : ∀ n m n' m', p.toEnd steps last n first m = .ok n' m' →
    OperandsLie m.frame.operands items m'.frame.operands

-- A program whose calls find their operands, and the steps of one of its functions.
structure Program.HasSteps (p : Program) (steps : Array Step) : Prop where
  bounded : p.Bounded
  calls : ∀ k callee args spread span, Exec.Calls True (p.call k callee args spread span)
  literals : ∀ s ∈ steps, s.op.LiteralFits p.types

theorem Program.HasSteps.evaluates {p : Program} {steps : Array Step} {α : Type} {x : Build α}
    {a : α} {left : α → List Item} {s : Site} {b b' : Builder} (hp : p.HasSteps steps)
    (hx : ∀ types items, Operates types items x fun a => left a ++ items) (hat : AtSite s b)
    (hbuild : x b = .ok a b') (hkept : StepsKept b'.steps steps)
    (hleads : AllLead steps b'.pending (some b'.steps.size))
    (htypes : b'.names.types.KeepsStructs p.types) :
    p.Evaluates steps x a b.names (left a) b.steps.size b'.steps.size := by
  have hoperates := hx b.names.types s.items .expr s b rfl hat.fits (.refl _)
  have hprogress := hoperates.progress a b' hbuild
  have hpart := hprogress.part rfl hat.linear hkept hleads
  refine ⟨⟨b, b', rfl, rfl, hbuild, rfl, hkept⟩, hpart, hprogress.size_le, fun n m n' m' h => ?_⟩
  rcases Nat.eq_or_lt_of_le hprogress.size_le with hsize | hlt
  · have hitems : left a ++ s.items = s.items := hprogress.items_eq rfl hsize.symm
    rw [hsize, toEnd_last] at h
    cases h
    rw [List.append_left_eq_self.mp hitems]
    exact .base
  · have hwork : b.AtWork :=
      ⟨fun x hx => hat.linear.lt_size (List.mem_append_left _ hx), hat.counts⟩
    exact Program.lies_of_passes hp.bounded hp.calls (fun types => by simpa using hx types []) hwork
      hbuild htypes hp.literals (hprogress.becomes rfl hat.linear hkept hleads)
      (Program.ForwardPart.passes hpart (Nat.le_refl _) hlt h)

theorem Program.HasSteps.evaluates_value {p : Program} {steps : Array Step} {e : Expr}
    {hint : Option Ty} {s : Site} {b b' : Builder} (hp : p.HasSteps steps) (hat : AtSite s b)
    (hbuild : discard (compile e (.value hint)) b = .ok () b') (hkept : StepsKept b'.steps steps)
    (hleads : AllLead steps b'.pending (some b'.steps.size)) (htypes : b'.names.types.KeepsStructs p.types) :
    p.Evaluates steps (discard (compile e (.value hint))) () b.names [.one] b.steps.size b'.steps.size :=
  have hvalue : ∀ types items, Operates types items (discard (compile e (.value hint))) fun _ =>
      [.one] ++ items := fun _ _ => (compiles e).value hint
  hp.evaluates hvalue hat hbuild hkept hleads htypes

-- A program without functions and packages.
def Program.bare (types : TypeTable) : Program := ⟨#[], types, [], 10, false⟩

namespace Program

variable (types : TypeTable)

theorem behaves_bare : (bare types).hosts.Behaves :=
  (HostRegistry.aloof_of_packages fun _ hx => absurd hx List.not_mem_nil).behaves

theorem bounded_bare : (bare types).Bounded :=
  ⟨fun _ _ hg => (by cases hg), fun _ _ hg => (by cases hg)⟩

theorem compiled_bare : (bare types).Compiled :=
  ⟨fun _ _ hg => (by cases hg), fun _ _ hg => (by cases hg)⟩

end Program

end StepGraph

import StepGraph.Proofs.Stack.Parts
import Mathlib.Data.List.Chain

open EStateM (bind_apply discard_eq_ok)

namespace StepGraph

open Build

-- Where a row of steps leads that goes on with this one: to the step, or to the way out behind the
-- last one.
def heading (last : StepId) (k : Option StepId) (i : StepId) : Option StepId :=
  if i < last then some i else k

theorem heading_of_lt {last i : StepId} (k : Option StepId) (h : i < last) :
    heading last k i = some i := if_pos h

theorem heading_last (last : StepId) (k : Option StepId) : heading last k last = k :=
  if_neg (Nat.lt_irrefl _)

theorem heading_eq_none {last i : StepId} {k : Option StepId} (hi : i ≤ last)
    (h : heading last k i = none) : i = last ∧ k = none := by
  rcases Nat.eq_or_lt_of_le hi with rfl | hlt
  · rw [heading_last] at h
    exact ⟨rfl, h⟩
  · rw [heading_of_lt _ hlt] at h
    cases h

theorem eq_of_heading {last i j : StepId} {k : Option StepId} (hexit : ∀ j ∈ k, j = last)
    (hi : i ≤ last) (h : heading last k i = some j) : i = j := by
  rcases Nat.eq_or_lt_of_le hi with rfl | hlt
  · rw [heading_last] at h
    exact (hexit j h).symm
  · rw [heading_of_lt _ hlt] at h
    exact Option.some.inj h

-- The first part of a row leads to where the second part begins.
theorem heading_heading {i mid last : StepId} (k : Option StepId) (hi : i ≤ mid) (hmid : mid ≤ last) :
    heading mid (heading last k mid) i = heading last k i := by
  rcases Nat.eq_or_lt_of_le hi with rfl | hlt
  · exact heading_last _ _
  · rw [heading_of_lt _ hlt, heading_of_lt _ (Nat.lt_of_lt_of_le hlt hmid)]

-- Steps with these operations stand one behind the other.
inductive InLine (steps : Array Step) (k : Option StepId) : List StepOp → StepId → StepId → Prop
  | nil (i : StepId) : InLine steps k [] i i
  | cons {ops : List StepOp} {i last : StepId} {s : Step} (hs : steps[i]? = some s)
      (hnext : s.next = heading last k (i + 1)) (hrest : InLine steps k ops (i + 1) last) :
      InLine steps k (s.op :: ops) i last

theorem InLine.le {steps : Array Step} {k : Option StepId} {ops : List StepOp} {first last : StepId}
    (h : InLine steps k ops first last) : first ≤ last := by
  induction h with
  | nil i => exact Nat.le_refl _
  | cons hs hnext hrest ih => exact Nat.le_of_succ_le ih

-- Each step of a row goes on to the next one. Only the steps that may cut a logical operation short
-- have another successor, which lies further on.
def Straight (steps : Array Step) (k : Option StepId) (first last : StepId) : Prop :=
  ∀ i : StepId, first ≤ i → i < last → ∃ s, steps[i]? = some s ∧ s.op.bare.isPlain = true ∧
    s.next = heading last k (i + 1) ∧ ((s.op.gives .other).isSome →
      ∃ stop, ∃ j : StepId, s.op = .shortCircuit stop (heading last k j) ∧ i < j ∧ j ≤ last)

namespace Straight

variable {steps : Array Step} {k : Option StepId} {first mid last : StepId}

theorem nil (steps : Array Step) (k : Option StepId) (i : StepId) : Straight steps k i i :=
  fun _ hi hlt => absurd hlt (Nat.not_lt.mpr hi)

theorem from_mid (hle : first ≤ mid) (h : Straight steps k first last) : Straight steps k mid last :=
  fun i hi hlt => h i (Nat.le_trans hle hi) hlt

theorem cons {s : Step} (hs : steps[first]? = some s) (hplain : s.op.bare.isPlain = true)
    (hnext : s.next = heading last k (first + 1)) (hother : (s.op.gives .other).isSome →
      ∃ stop, ∃ j : StepId, s.op = .shortCircuit stop (heading last k j) ∧ first < j ∧ j ≤ last)
    (h : Straight steps k (first + 1) last) : Straight steps k first last := by
  intro i hi hlt
  rcases Nat.eq_or_lt_of_le hi with rfl | hlt'
  · exact ⟨s, hs, hplain, hnext, hother⟩
  · exact h i hlt' hlt

theorem append (hle : mid ≤ last) (h : Straight steps (heading last k mid) first mid)
    (h' : Straight steps k mid last) : Straight steps k first last := by
  intro i hi hlt
  by_cases hmid : i < mid
  · obtain ⟨s, hs, hplain, hnext, hother⟩ := h i hi hmid
    rw [heading_heading k hmid hle] at hnext
    refine ⟨s, hs, hplain, hnext, fun hgives => ?_⟩
    obtain ⟨stop, j, hop, hij, hj⟩ := hother hgives
    rw [heading_heading k hj hle] at hop
    exact ⟨stop, j, hop, hij, Nat.le_trans hj hle⟩
  · exact h' i (Nat.le_of_not_lt hmid) hlt

end Straight

theorem StepOp.toOther_of_isSerial {op : StepOp} (h : op.isSerial = true) (other : Option StepId) :
    op.bare.toOther other = op := by
  cases op <;> first | rfl | cases h

theorem InLine.straight {steps : Array Step} {k : Option StepId} {ops : List StepOp}
    {first last : StepId} (h : InLine steps k ops first last)
    (hserial : ∀ op ∈ ops, op.isSerial = true) : Straight steps k first last := by
  induction h with
  | nil i => exact .nil _ _ _
  | @cons ops i last s hs hnext hrest ih =>
      have hs_serial := hserial s.op List.mem_cons_self
      have hplain := StepOp.isPlain_of_isSerial hs_serial
      have hrest' := ih fun op hop => hserial op (List.mem_cons_of_mem _ hop)
      refine .cons hs (by rwa [StepOp.bare_of_isPlain hplain]) hnext (fun hgives => ?_) hrest'
      rw [StepOp.gives_other_of_isSerial hs_serial] at hgives
      cases hgives

namespace Build

variable {b b₁ b' : Builder} {op : StepOp} {ops : List StepOp} {steps : Array Step}
  {k : Option StepId}

theorem emitted_of_emit' {span : Span} {u : Unit} (h : emit' op span b = .ok u b') :
    Emitted op b b.steps.size b' := by
  obtain ⟨id, h⟩ := discard_eq_ok.mp h
  have he := emit_ok h
  exact he.id_eq ▸ he

-- What is pending where more may be built leads there, or out if nothing is.
theorem Begins.heading (h : Begins b b') (hkept : StepsKept b'.steps steps)
    (hleads : AllLead steps b'.pending k) :
    AllLead steps b.pending (heading b'.steps.size k b.steps.size) := by
  rcases h.first with ⟨hsize, hpending⟩ | ⟨hlt, hfirst⟩
  · rw [hsize, heading_last, ← hpending]
    exact hleads
  · rw [heading_of_lt _ hlt]
    exact fun slot hslot => hkept.leads slot _ (hfirst slot hslot)

-- A builder adds these steps one after the other. What else it does leaves its steps and open paths.
inductive Lays : Builder → List StepOp → Builder → Prop
  | nil (b : Builder) : Lays b [] b
  | emit {b b₁ b₂ b' : Builder} {op : StepOp} {ops : List StepOp}
      (he : Emitted op b b.steps.size b₁) (hsteps : b₂.steps = b₁.steps)
      (hpending : b₂.pending = b₁.pending) (hrest : Lays b₂ ops b') : Lays b (op :: ops) b'

theorem lays_emit' {op : StepOp} {span : Span} {u : Unit} (h : emit' op span b = .ok u b') :
    Lays b [op] b' := .emit (emitted_of_emit' h) rfl rfl (.nil _)

namespace Lays

theorem extend (h : Lays b ops b') : StepsExtend b.steps b'.steps := by
  induction h with
  | nil b => exact .refl _
  | emit he hsteps _ _ ih =>
      rw [hsteps] at ih
      exact he.extend.trans ih

theorem append {ops' : List StepOp} (h : Lays b ops b₁) (h' : Lays b₁ ops' b') :
    Lays b (ops ++ ops') b' := by
  induction h with
  | nil b => exact h'
  | emit he hsteps hpending _ ih => exact .emit he hsteps hpending (ih h')

-- What is open behind the steps leads somewhere once all of them are linked.
theorem exists_leads (h : Lays b ops b') (hops : ops ≠ []) (hkept : StepsKept b'.steps steps)
    (hplain : ∀ op ∈ ops, op.bare.isPlain = true) : ∃ k, AllLead steps b'.pending k := by
  induction h with
  | nil b => exact absurd rfl hops
  | @emit b b₁ b₂ b' op ops he hsteps hpending hrest ih =>
      cases hrest with
      | nil =>
          obtain ⟨s, hs, -⟩ := he.kept (hsteps ▸ hkept) (hplain _ List.mem_cons_self)
          refine ⟨s.next, fun slot hslot => ?_⟩
          rw [hpending, he.pending] at hslot
          obtain rfl := List.mem_singleton.mp hslot
          exact ⟨s, hs, rfl⟩
      | emit he' hsteps' hpending' hrest' =>
          exact ih (List.cons_ne_nil _ _) hkept fun op hop => hplain op (List.mem_cons_of_mem _ hop)

theorem begins (h : Lays b ops b') : Begins b b' := by
  induction h with
  | nil b => exact .refl b
  | emit he hsteps hpending _ ih =>
      have hsame : Begins _ _ := ⟨hsteps ▸ .refl _, .inl ⟨by rw [hsteps], hpending⟩⟩
      exact he.begins.trans (hsame.trans ih)

-- In a finished function the steps stand there.
theorem inLine (h : Lays b ops b') (hkept : StepsKept b'.steps steps)
    (hleads : AllLead steps b'.pending k) (hserial : ∀ op ∈ ops, op.isSerial = true) :
    InLine steps k ops b.steps.size b'.steps.size := by
  induction h with
  | nil b => exact .nil _
  | @emit b b₁ b₂ b' op ops he hsteps hpending hrest ih =>
      have hop := hserial op List.mem_cons_self
      have hplain : op.bare.isPlain = true := by
        rw [StepOp.bare_of_isPlain (StepOp.isPlain_of_isSerial hop)]
        exact StepOp.isPlain_of_isSerial hop
      have hkept₁ : StepsKept b₁.steps steps := hsteps ▸ hkept.of_extends hrest.extend
      obtain ⟨s, hs, hsop⟩ := he.kept hkept₁ hplain
      rw [StepOp.toOther_of_isSerial hop] at hsop
      have hsize : b₂.steps.size = b.steps.size + 1 := by rw [hsteps, he.size_eq]
      have hahead := hrest.begins.heading hkept hleads
      rw [hpending, he.pending, hsize] at hahead
      obtain ⟨s', hs', hnext⟩ := hahead _ (List.mem_singleton_self _)
      obtain rfl := Option.some.inj (hs.symm.trans hs')
      have hrest' := ih hkept hleads fun op hop => hserial op (List.mem_cons_of_mem _ hop)
      rw [hsize] at hrest'
      exact hsop ▸ .cons hs hnext hrest'

end Lays

end Build

-- A step that may cut a logical operation short and go on with another one of the row.
def StepSkips (steps : Array Step) (k : Option StepId) (last i j : StepId) : Prop :=
  ∃ s stop, steps[i]? = some s ∧ s.op = .shortCircuit stop (heading last k j)

namespace Program

variable {p : Program} {steps : Array Step} {k : Option StepId} {first last : StepId} {n : Nat}
  {m m' : Machine}

-- The steps that a run takes from one of them on until it comes to the last one, which it does not
-- take.
def visits (p : Program) (steps : Array Step) (last : StepId) : Nat → StepId → Machine → List StepId
  | 0, _, _ => []
  | n + 1, i, m =>
      if i = last then []
      else i :: match p.advance n steps i m with
        | .ok k m =>
            match k.join with
            | some j => visits p steps last n j m
            | none => []
        | .error _ _ => []

@[simp] theorem visits_last (p : Program) (steps : Array Step) (last : StepId) (n : Nat)
    (m : Machine) : p.visits steps last n last m = [] := by
  cases n with
  | zero => rfl
  | succ n => exact if_pos rfl

-- A run goes over a row once: it takes steps in their order and none of them twice, each step either
-- leads to the next one or cuts a logical operation short, and a step that is not taken either was
-- skipped so or lies behind the one where the run ended.
structure Sweeps (p : Program) (steps : Array Step) (k : Option StepId) (first last : StepId) (n : Nat)
    (m : Machine) : Prop where
  run : p.run n steps (heading last k first) m =
    (p.toEnd steps last n first >>= fun n' => p.run n' steps k) m
  ascending : (p.visits steps last n first m).Pairwise (· < ·)
  inside : ∀ i ∈ p.visits steps last n first m, first ≤ i ∧ i < last
  connected : (p.visits steps last n first m).IsChain fun i j => j = i + 1 ∨
    StepSkips steps k last i j
  complete : ∀ j : StepId, first ≤ j → j < last → j ∈ p.visits steps last n first m ∨
    (∃ i ∈ p.visits steps last n first m, ∃ t : StepId, StepSkips steps k last i t ∧ i < j ∧ j < t ∧
      ∀ x ∈ p.visits steps last n first m, x ≤ i ∨ t ≤ x) ∨
    (∃ u m', p.toEnd steps last n first m = .error u m') ∧
      ∀ i ∈ p.visits steps last n first m, i < j

theorem Sweeps.done (p : Program) (steps : Array Step) (k : Option StepId) (last : StepId) (n : Nat)
    (m : Machine) : p.Sweeps steps k last last n m where
  run := by rw [heading_last, bind_apply, toEnd_last]
  ascending := by rw [visits_last]; exact .nil
  inside i hi := by rw [visits_last] at hi; cases hi
  connected := by rw [visits_last]; exact .nil
  complete j hj hlt := absurd hlt (Nat.not_lt.mpr hj)

-- Where a step of a row leads.
theorem next_of_straight (h : Straight steps k first last) (hlt : first < last)
    {k' : Option (Option StepId)} (hstep : p.advance n steps first m = .ok k' m') :
    ∃ j, k' = some (heading last k j) ∧ first < j ∧ j ≤ last ∧
      (j = first + 1 ∨ StepSkips steps k last first j) := by
  obtain ⟨s, hs, hplain, hnext, hother⟩ := h first (Nat.le_refl _) hlt
  obtain ⟨edge, hgives, rfl⟩ := follow_of_advance hs hplain hstep
  cases edge with
  | next => exact ⟨first + 1, congrArg some hnext, Nat.lt_succ_self _, hlt, .inl rfl⟩
  | other =>
      obtain ⟨stop, j, hop, hij, hj⟩ := hother hgives
      refine ⟨j, ?_, hij, hj, .inr ⟨s, stop, hs, hop⟩⟩
      change some s.op.other? = _
      rw [hop]
      rfl

-- A run that may not take any step.
theorem Sweeps.exhausted (hlt : first < last) : p.Sweeps steps k first last 0 m := by
  have hend : p.toEnd steps last 0 first m = .error .exhausted m := by
    unfold toEnd
    rw [if_neg (Nat.ne_of_lt hlt)]
    rfl
  refine ⟨?_, .nil, fun i hi => absurd hi List.not_mem_nil, .nil, fun j _ _ => ?_⟩
  · rw [heading_of_lt _ hlt, run_zero, bind_apply, hend]
  · exact .inr (.inr ⟨⟨_, _, hend⟩, fun i hi => absurd hi List.not_mem_nil⟩)

-- A step that ends the run.
theorem Sweeps.ended {u : Unwind} (hlt : first < last)
    (hstep : p.advance n steps first m = .error u m') : p.Sweeps steps k first last (n + 1) m := by
  have hvisits : p.visits steps last (n + 1) first m = [first] := by
    unfold visits
    rw [if_neg (Nat.ne_of_lt hlt), hstep]
  have hend : p.toEnd steps last (n + 1) first m = .error u m' := by
    unfold toEnd
    rw [if_neg (Nat.ne_of_lt hlt), bind_apply, hstep]
  refine ⟨?_, ?_, ?_, ?_, ?_⟩
  · rw [heading_of_lt _ hlt, run_succ, hstep, bind_apply, hend]
  · rw [hvisits]
    exact List.pairwise_singleton _ _
  · rw [hvisits]
    intro i hi
    obtain rfl := List.mem_singleton.mp hi
    exact ⟨Nat.le_refl _, hlt⟩
  · rw [hvisits]
    exact .singleton _
  · rw [hvisits]
    intro j hj hjlt
    rcases Nat.eq_or_lt_of_le hj with rfl | hlt'
    · exact .inl (List.mem_singleton_self _)
    · exact .inr (.inr ⟨⟨u, m', hend⟩, fun i hi => List.mem_singleton.mp hi ▸ hlt'⟩)

-- The rest of a row from one of its steps on, or from its end.
theorem visits_heading (hexit : ∀ j ∈ k, j = last) {j : StepId} (hj : j ≤ last) (n : Nat)
    (m : Machine) : (match heading last k j with
      | some j => p.visits steps last n j m
      | none => []) = p.visits steps last n j m := by
  cases hgoal : heading last k j with
  | some i =>
      obtain rfl := eq_of_heading hexit hj hgoal
      rfl
  | none =>
      obtain ⟨rfl, -⟩ := heading_eq_none hj hgoal
      exact (visits_last _ _ _ _ _).symm

theorem head_of_visits {i j : StepId} (h : i ∈ (p.visits steps last n j m).head?) : i = j := by
  cases n with
  | zero => cases h
  | succ n =>
      unfold visits at h
      split at h
      · cases h
      · exact (Option.mem_some.mp h).symm

-- A step that goes on with another one of the row.
theorem Sweeps.step {j : StepId} (hlt : first < last) (hexit : ∀ j ∈ k, j = last)
    (hstep : p.advance n steps first m = .ok (some (heading last k j)) m') (hij : first < j)
    (hj : j ≤ last) (hgoes : j = first + 1 ∨ StepSkips steps k last first j)
    (hrest : p.Sweeps steps k j last n m') : p.Sweeps steps k first last (n + 1) m := by
  have hvisits : p.visits steps last (n + 1) first m = first :: p.visits steps last n j m' := by
    rw [visits, if_neg (Nat.ne_of_lt hlt), hstep]
    exact congrArg _ (visits_heading hexit hj n m')
  have hend : p.toEnd steps last (n + 1) first m = match heading last k j with
      | some j => p.toEnd steps last n j m'
      | none => .ok 0 m' := by
    rw [toEnd, if_neg (Nat.ne_of_lt hlt), bind_apply, hstep]
    cases heading last k j <;> rfl
  have hbehind : ∀ i ∈ p.visits steps last n j m', first < i := fun i hi =>
    Nat.lt_of_lt_of_le hij (hrest.inside i hi).1
  refine ⟨?_, ?_, ?_, ?_, ?_⟩
  · rw [heading_of_lt _ hlt, run_succ, hstep, bind_apply, hend]
    have hrun := hrest.run
    rw [bind_apply] at hrun
    cases hgoal : heading last k j with
    | some i =>
        obtain rfl := eq_of_heading hexit hj hgoal
        rwa [hgoal] at hrun
    | none =>
        obtain ⟨-, rfl⟩ := heading_eq_none hj hgoal
        simp only [run_none]
  · rw [hvisits]
    exact List.pairwise_cons.mpr ⟨hbehind, hrest.ascending⟩
  · rw [hvisits]
    refine List.forall_mem_cons.mpr ⟨⟨Nat.le_refl _, hlt⟩, fun i hi => ?_⟩
    exact ⟨Nat.le_of_lt (hbehind i hi), (hrest.inside i hi).2⟩
  · rw [hvisits]
    exact hrest.connected.cons fun i hi => head_of_visits hi ▸ hgoes
  · rw [hvisits]
    intro i hi hilt
    by_cases hbefore : i < j
    · rcases Nat.eq_or_lt_of_le hi with rfl | hfirst
      · exact .inl List.mem_cons_self
      · have hskips : StepSkips steps k last first j := by
          refine hgoes.resolve_left fun h => ?_
          rw [h] at hbefore
          exact absurd hfirst (Nat.not_lt.mpr (Nat.le_of_lt_succ hbefore))
        refine .inr (.inl ⟨first, List.mem_cons_self, j, hskips, hfirst, hbefore, ?_⟩)
        exact List.forall_mem_cons.mpr ⟨.inl (Nat.le_refl _), fun x hx => .inr (hrest.inside x hx).1⟩
    · rcases hrest.complete i (Nat.le_of_not_lt hbefore) hilt with
        hmem | ⟨x, hx, t, hskips, hxi, hit, hover⟩ | ⟨⟨u, m₁, herror⟩, hall⟩
      · exact .inl (List.mem_cons_of_mem _ hmem)
      · refine .inr (.inl ⟨x, List.mem_cons_of_mem _ hx, t, hskips, hxi, hit, ?_⟩)
        exact List.forall_mem_cons.mpr ⟨.inl (Nat.le_of_lt (hbehind x hx)), hover⟩
      · have hjlt : j < last := Nat.lt_of_le_of_lt (Nat.le_of_not_lt hbefore) hilt
        refine .inr (.inr ⟨⟨u, m₁, ?_⟩, List.forall_mem_cons.mpr
          ⟨Nat.lt_of_lt_of_le hij (Nat.le_of_not_lt hbefore), hall⟩⟩)
        rw [hend, heading_of_lt _ hjlt]
        exact herror

theorem sweeps_of_straight (p : Program) (h : Straight steps k first last) (hle : first ≤ last)
    (hexit : ∀ j ∈ k, j = last) (n : Nat) (m : Machine) : p.Sweeps steps k first last n m := by
  induction n generalizing first m with
  | zero =>
      rcases Nat.eq_or_lt_of_le hle with rfl | hlt
      · exact .done _ _ _ _ _ _
      · exact .exhausted hlt
  | succ n ih =>
      rcases Nat.eq_or_lt_of_le hle with rfl | hlt
      · exact .done _ _ _ _ _ _
      · cases hstep : p.advance n steps first m with
        | error u m' => exact .ended hlt hstep
        | ok k' m' =>
            obtain ⟨j, rfl, hij, hj, hgoes⟩ := next_of_straight h hlt hstep
            exact .step hlt hexit hstep hij hj hgoes (ih (h.from_mid (Nat.le_of_lt hij)) hj m')

end Program

end StepGraph

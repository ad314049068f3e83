import StepGraph.Proofs.Machine.Trace
import StepGraph.Proofs.Structured.Evaluation
import Mathlib.Tactic.Common

open EStateM (bind_apply bind_of_error)

namespace StepGraph.Structured

variable {α β : Type}

-- What a run with a bound on its length comes to.
abbrev Outcome (α : Type) := EStateM.Result Unwind Machine α

-- The run was stopped by its bound.
def IsExhausted (r : Outcome α) : Prop := ∃ m, r = .error .exhausted m

-- From some bound on, the outcome is one that `good` allows, and below it the run is stopped.
def SettlesFrom (f : Nat → Outcome α) (good : Outcome α → Prop) : Prop :=
  ∃ t, ∀ n, (n < t → IsExhausted (f n)) ∧ (t ≤ n → good (f n))

-- The outcome shows the end of an evaluation before its time.
def StopsAlike (stop : Stop) (printer : Printer) : Outcome α → Prop
  | .error (.panic v) m =>
      (∃ f id, stop = .panic f ∧ v = .error ⟨id, f.message, true⟩) ∧ m.printer = printer
  | .error (.fatal e) m =>
      stop = .overflow ∧ (∃ limit, e.cause = .stackOverflow limit) ∧ m.printer = printer
  | _ => False

section

variable {stop : Stop} {printer : Printer} {x : Exec α} {m m' : Machine} {u : Unwind}

theorem StopsAlike.error (h : StopsAlike stop printer (.error u m' : Outcome α)) :
    StopsAlike stop printer (.error u m' : Outcome β) := by
  cases u <;> exact h

theorem StopsAlike.bind (h : StopsAlike stop printer (x m)) (f : α → Exec β) :
    StopsAlike stop printer ((x >>= f) m) := by
  rw [bind_apply]
  cases hx : x m with
  | ok => simp [hx, StopsAlike] at h
  | error u m' =>
      rw [hx] at h
      exact h.error

theorem StopsAlike.annotated (h : StopsAlike stop printer (x m)) (span : Span) :
    StopsAlike stop printer (Program.annotated span x m) := by
  unfold Program.annotated
  cases hx : x m with
  | ok => simp [hx, StopsAlike] at h
  | error u m' =>
      rw [hx] at h
      cases u <;> exact h

theorem stops_raise (f : Fault) (m : Machine) :
    StopsAlike (.panic f) m.printer (Exec.raise (.fault f) m : Outcome α) :=
  ⟨⟨f, m.heap.errors, rfl, rfl⟩, rfl⟩

theorem IsExhausted.bind (h : IsExhausted (x m)) (f : α → Exec β) : IsExhausted ((x >>= f) m) := by
  obtain ⟨m', h⟩ := h
  exact ⟨m', bind_of_error h⟩

theorem IsExhausted.annotated (h : IsExhausted (x m)) (span : Span) :
    IsExhausted (Program.annotated span x m) := by
  obtain ⟨m', h⟩ := h
  refine ⟨m', ?_⟩
  unfold Program.annotated
  rw [h]

end

theorem SettlesFrom.imp {f : Nat → Outcome α} {g : Nat → Outcome β} {p : Outcome α → Prop}
    {q : Outcome β → Prop} (hf : SettlesFrom f p) (hexhausted : ∀ n, IsExhausted (f n) → IsExhausted (g n))
    (hgood : ∀ n, p (f n) → q (g n)) : SettlesFrom g q := by
  obtain ⟨t, ht⟩ := hf
  exact ⟨t, fun n => ⟨fun hn => hexhausted n ((ht n).1 hn), fun hn => hgood n ((ht n).2 hn)⟩⟩

-- One more than the bound of another run.
theorem SettlesFrom.succ {f : Nat → Outcome α} {g : Nat → Outcome β} {p : Outcome α → Prop}
    {q : Outcome β → Prop} (hf : SettlesFrom f p) (hzero : IsExhausted (g 0))
    (hexhausted : ∀ n, IsExhausted (f n) → IsExhausted (g (n + 1)))
    (hgood : ∀ n, p (f n) → q (g (n + 1))) : SettlesFrom g q := by
  obtain ⟨t, ht⟩ := hf
  refine ⟨t + 1, fun n => ?_⟩
  cases n with
  | zero => exact ⟨fun _ => hzero, fun hn => absurd hn (by simp)⟩
  | succ n =>
      exact ⟨fun hn => hexhausted n ((ht n).1 (Nat.lt_of_succ_lt_succ hn)),
        fun hn => hgood n ((ht n).2 (Nat.le_of_succ_le_succ hn))⟩

section

variable (p : Program) (steps : Array Step)

-- A run goes on from one step and machine to others, in `cost` steps. With a bound that is too low
-- it does not get there.
def Moves (cost : Nat) (k : Option StepId) (m : Machine) (k' : Option StepId) (m' : Machine) :
    Prop :=
  ∃ t, cost ≤ t ∧ ∀ n, (n < t → IsExhausted (p.run n steps k m)) ∧
    (t ≤ n → p.run n steps k m = p.run (n - cost) steps k' m')

-- The run of the steps from `k` on does what the evaluation does: it comes to a step and a machine
-- for which `good` holds, or it stops as the evaluation stops. Where a loop of the evaluation
-- has been given too few rounds, a run of no more than `bound` steps is stopped.
def Sim (bound : Nat) (x : Eval α) (k : Option StepId) (m : Machine)
    (good : α → Option StepId → Machine → Prop) : Prop :=
  match x m.printer with
  | .ok a printer =>
      ∃ cost k' m', Moves p steps cost k m k' m' ∧ m'.printer = printer ∧ good a k' m'
  | .error .timeout _ => ∀ n ≤ bound, IsExhausted (p.run n steps k m)
  | .error stop printer => SettlesFrom (fun n => p.run n steps k m) (StopsAlike stop printer)

variable {p steps} {k k' k'' : Option StepId} {m m' m'' : Machine}

theorem Moves.refl : Moves p steps 0 k m k m :=
  ⟨0, Nat.le_refl 0, fun _ => ⟨fun hn => absurd hn (Nat.not_lt_zero _), fun _ => rfl⟩⟩

theorem Moves.exhausted {cost bound : Nat} (hm : Moves p steps cost k m k' m')
    (hrest : ∀ n ≤ bound, IsExhausted (p.run n steps k' m')) :
    ∀ n ≤ bound + cost, IsExhausted (p.run n steps k m) := by
  obtain ⟨t, ht, hrun⟩ := hm
  intro n hn
  by_cases hlt : n < t
  · exact (hrun n).1 hlt
  · rw [(hrun n).2 (Nat.le_of_not_lt hlt)]
    exact hrest _ (by omega)

theorem Moves.settles {cost : Nat} {good : Outcome Unit → Prop}
    (hm : Moves p steps cost k m k' m')
    (hrest : SettlesFrom (fun n => p.run n steps k' m') good) :
    SettlesFrom (fun n => p.run n steps k m) good := by
  obtain ⟨t, ht, hrun⟩ := hm
  obtain ⟨t', hrest⟩ := hrest
  refine ⟨max t (t' + cost), fun n => ⟨fun hn => ?_, fun hn => ?_⟩⟩
  · by_cases hlt : n < t
    · exact (hrun n).1 hlt
    · have hexhausted := (hrest (n - cost)).1 (by omega)
      change IsExhausted (p.run n steps k m)
      rwa [(hrun n).2 (Nat.le_of_not_lt hlt)]
  · have hgood := (hrest (n - cost)).2 (by omega)
    change good (p.run n steps k m)
    rwa [(hrun n).2 (by omega)]

theorem Moves.trans {c c' : Nat} (h₁ : Moves p steps c k m k' m')
    (h₂ : Moves p steps c' k' m' k'' m'') : Moves p steps (c + c') k m k'' m'' := by
  obtain ⟨t, ht, hrun⟩ := h₁
  obtain ⟨t', ht', hrun'⟩ := h₂
  refine ⟨max t (t' + c), by omega, fun n => ⟨fun hn => ?_, fun hn => ?_⟩⟩
  · by_cases hlt : n < t
    · exact (hrun n).1 hlt
    · rw [(hrun n).2 (Nat.le_of_not_lt hlt)]
      exact (hrun' (n - c)).1 (by omega)
  · rw [(hrun n).2 (by omega), (hrun' (n - c)).2 (by omega), Nat.sub_sub]

variable {bound : Nat} {x : Eval α} {good : α → Option StepId → Machine → Prop}

theorem Sim.pure {a : α} (h : good a k m) : Sim p steps bound (Pure.pure a : Eval α) k m good :=
  ⟨0, k, m, Moves.refl, rfl, h⟩

theorem Sim.mono {bound' : Nat} (hx : Sim p steps bound x k m good) (hb : bound' ≤ bound) :
    Sim p steps bound' x k m good := by
  unfold Sim at hx ⊢
  split
  · next h => simpa only [h] using hx
  · next h =>
      simp only [h] at hx
      exact fun n hn => hx n (Nat.le_trans hn hb)
  · next h => simpa only [h] using hx

theorem Sim.imp {good' : α → Option StepId → Machine → Prop} (hx : Sim p steps bound x k m good)
    (himp : ∀ a k' m', good a k' m' → good' a k' m') : Sim p steps bound x k m good' := by
  unfold Sim at hx ⊢
  split
  · next h =>
      simp only [h] at hx
      obtain ⟨cost, k', m', hmoves, hprinter, hgood⟩ := hx
      exact ⟨cost, k', m', hmoves, hprinter, himp _ _ _ hgood⟩
  · next h => simpa only [h] using hx
  · next h => simpa only [h] using hx

-- The run has made some steps and goes on as the evaluation does.
theorem Sim.after {cost : Nat} (hm : Moves p steps cost k m k' m')
    (hprinter : m'.printer = m.printer) (hx : Sim p steps bound x k' m' good) :
    Sim p steps (bound + cost) x k m good := by
  unfold Sim at hx ⊢
  rw [hprinter] at hx
  split
  · next h =>
      simp only [h] at hx
      obtain ⟨cost', k'', m'', hmoves, hprinter', hgood⟩ := hx
      exact ⟨_, k'', m'', hm.trans hmoves, hprinter', hgood⟩
  · next h =>
      simp only [h] at hx
      exact hm.exhausted hx
  · next stop printer hne h =>
      simp only [h] at hx
      exact hm.settles hx

theorem Sim.bind {f : α → Eval β} {good' : β → Option StepId → Machine → Prop}
    (hx : Sim p steps bound x k m good)
    (hf : ∀ a k' m', good a k' m' → Sim p steps bound (f a) k' m' good') :
    Sim p steps bound (x >>= f) k m good' := by
  unfold Sim at hx
  cases hr : x m.printer with
  | ok a printer =>
      simp only [hr] at hx
      obtain ⟨cost, k', m', hmoves, rfl, hgood⟩ := hx
      have hrest := hf a k' m' hgood
      have happly : (x >>= f) m.printer = f a m'.printer := by
        change EStateM.bind x f m.printer = _
        unfold EStateM.bind
        rw [hr]
      unfold Sim at hrest ⊢
      rw [happly]
      split
      · next h =>
          simp only [h] at hrest
          obtain ⟨cost', k'', m'', hmoves', hprinter', hgood'⟩ := hrest
          exact ⟨_, k'', m'', hmoves.trans hmoves', hprinter', hgood'⟩
      · next h =>
          simp only [h] at hrest
          exact fun n hn => hmoves.exhausted hrest n (Nat.le_trans hn (Nat.le_add_right _ _))
      · next h =>
          simp only [h] at hrest
          exact hmoves.settles hrest
  | error stop printer =>
      have happly : (x >>= f) m.printer = .error stop printer := by
        change EStateM.bind x f m.printer = _
        unfold EStateM.bind
        rw [hr]
      unfold Sim
      rw [happly]
      rw [hr] at hx
      cases stop <;> exact hx

-- Steps that have no part in the evaluation come first.
theorem Sim.shift {good' : Unit → Option StepId → Machine → Prop}
    (hshift : Sim p steps bound (Pure.pure () : Eval Unit) k m good')
    (hx : ∀ k' m', good' () k' m' → Sim p steps bound x k' m' good) :
    Sim p steps bound x k m good :=
  hshift.bind (f := fun _ => x) fun _ => hx

-- What comes of an evaluation that stops.
theorem Sim.throw {stop : Stop} (hstop : stop ≠ .timeout)
    (h : SettlesFrom (fun n => p.run n steps k m) (StopsAlike stop m.printer)) :
    Sim p steps bound (MonadExcept.throw stop : Eval α) k m good := by
  cases stop with
  | timeout => exact absurd rfl hstop
  | _ => exact h

end

-- A step with this operation, which leads to `k`.
def Op (steps : Array Step) (id : StepId) (op : StepOp) (k : Option StepId) : Prop :=
  ∃ s, steps[id]? = some s ∧ s.op = op ∧ s.next = k

section

variable {p : Program} {steps : Array Step} {id : StepId} {op : StepOp} {k k' : Option StepId}
  {m m' : Machine} {bound : Nat} {x : Eval α} {good : α → Option StepId → Machine → Prop}

-- One step decides about a run of which it is the first.
theorem Moves.of_settles
    (h : SettlesFrom (fun n => p.advance n steps id m) (· = .ok (some k) m')) :
    Moves p steps 1 (some id) m k m' := by
  obtain ⟨t, ht⟩ := h
  refine ⟨t + 1, by omega, fun n => ?_⟩
  cases n with
  | zero => exact ⟨fun _ => ⟨m, Program.run_zero p steps id m⟩, fun hn => absurd hn (by simp)⟩
  | succ n =>
      rw [Program.run_succ]
      refine ⟨fun hn => ?_, fun hn => ?_⟩
      · obtain ⟨m₁, hm₁⟩ : IsExhausted (p.advance n steps id m) :=
          (ht n).1 (Nat.lt_of_succ_lt_succ hn)
        rw [hm₁]
        exact ⟨m₁, rfl⟩
      · have hadvance : p.advance n steps id m = .ok (some k) m' :=
          (ht n).2 (Nat.le_of_succ_le_succ hn)
        rw [hadvance]
        rfl

theorem SettlesFrom.of_advance {stop : Stop} {printer : Printer}
    (h : SettlesFrom (fun n => p.advance n steps id m) (StopsAlike stop printer)) :
    SettlesFrom (fun n => p.run n steps (some id) m) (StopsAlike stop printer) := by
  refine h.succ ⟨m, Program.run_zero p steps id m⟩ (fun n hn => ?_) (fun n hn => ?_)
  · obtain ⟨m₁, hm₁⟩ := hn
    rw [Program.run_succ, hm₁]
    exact ⟨m₁, rfl⟩
  · rw [Program.run_succ]
    cases ha : p.advance n steps id m with
    | ok => simp [ha, StopsAlike] at hn
    | error u m' =>
        rw [ha] at hn
        exact hn.error

theorem exhausted_of_advance (h : ∀ n ≤ bound, IsExhausted (p.advance n steps id m)) :
    ∀ n ≤ bound, IsExhausted (p.run n steps (some id) m) := by
  intro n hn
  cases n with
  | zero => exact ⟨m, Program.run_zero p steps id m⟩
  | succ n =>
      obtain ⟨m₁, hm₁⟩ := h n (Nat.le_of_succ_le hn)
      rw [Program.run_succ, hm₁]
      exact ⟨m₁, rfl⟩

theorem Moves.of_advance (h : ∀ n, p.advance n steps id m = .ok (some k) m') :
    Moves p steps 1 (some id) m k m' :=
  .of_settles ⟨0, fun n => ⟨fun hn => absurd hn (Nat.not_lt_zero n), fun _ => h n⟩⟩

theorem Moves.next (hop : Op steps id op k) (hstep : p.step op m = .ok .next m') :
    Moves p steps 1 (some id) m k m' := by
  obtain ⟨s, hs, rfl, rfl⟩ := hop
  exact .of_advance fun n => Program.advance_next p n hs hstep

theorem Moves.goto (hop : Op steps id op k) (hstep : p.step op m = .ok (.goto k') m') :
    Moves p steps 1 (some id) m k' m' := by
  obtain ⟨s, hs, rfl, rfl⟩ := hop
  exact .of_advance fun n => Program.advance_goto p n hs hstep

-- A return leads to the end of the run.
theorem Moves.ret (hop : Op steps id op k) (hstep : p.step op m = .ok .ret m') :
    Moves p steps 1 (some id) m none m' := by
  obtain ⟨s, hs, rfl, rfl⟩ := hop
  refine ⟨1, Nat.le_refl 1, fun n => ⟨fun hn => ?_, fun hn => ?_⟩⟩
  · obtain rfl : n = 0 := by omega
    exact ⟨m, Program.run_zero p steps id m⟩
  · obtain ⟨j, rfl⟩ := Nat.exists_eq_add_of_le' hn
    rw [Program.run_succ, Program.advance_ret p j hs hstep, Program.run_none]

-- A step that stops ends the run.
theorem SettlesFrom.of_stops (hop : Op steps id op k) {stop : Stop}
    (hstep : StopsAlike stop m.printer (p.step op m)) :
    SettlesFrom (fun n => p.run n steps (some id) m) (StopsAlike stop m.printer) := by
  obtain ⟨s, hs, rfl, rfl⟩ := hop
  refine .of_advance ⟨0, fun n => ⟨fun hn => absurd hn (Nat.not_lt_zero n), fun _ => ?_⟩⟩
  unfold Program.advance
  simp only [hs]
  exact (hstep.annotated s.span).bind _

theorem Sim.next (hop : Op steps id op k) (hstep : p.step op m = .ok .next m')
    (hprinter : m'.printer = m.printer) (hrest : Sim p steps bound x k m' good) :
    Sim p steps bound x (some id) m good :=
  (Sim.after (.next hop hstep) hprinter hrest).mono (Nat.le_add_right _ _)

theorem Sim.goto (hop : Op steps id op k) (hstep : p.step op m = .ok (.goto k') m')
    (hprinter : m'.printer = m.printer) (hrest : Sim p steps bound x k' m' good) :
    Sim p steps bound x (some id) m good :=
  (Sim.after (.goto hop hstep) hprinter hrest).mono (Nat.le_add_right _ _)

theorem Sim.stops (hop : Op steps id op k) {stop : Stop} (hne : stop ≠ .timeout)
    (hstep : StopsAlike stop m.printer (p.step op m)) :
    Sim p steps bound (MonadExcept.throw stop : Eval α) (some id) m good :=
  .throw hne (.of_stops hop hstep)

end

end StepGraph.Structured

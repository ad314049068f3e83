import StepGraph.Proofs.Machine.Defers
import StepGraph.Proofs.Machine.Tacit

open EStateM (bind_apply bind_of_ok)

namespace StepGraph

variable {α β : Type}

-- The steps of expressions that may change what is there.
def StepOp.acts : StepOp → Bool
  | call .. | recv _ => true
  | callBuiltin b .. => !b.isTacit
  | compose _ (.fields names) => !decide names.Nodup
  | unary op => decide (op = .recv)
  | _ => false

-- The steps that bind names to new variables.
def StepOp.binds : StepOp → Bool
  | declare .. | declareZero .. => true
  | _ => false

-- The steps of one declaration of a package. They evaluate expressions, and the last one binds
-- the names.
def AreOfUnit (steps : Array Step) : Prop :=
  ∀ (i : Nat) s, steps[i]? = some s →
    s.op.isTacit = true ∨ s.op.acts = true ∨ s.op.binds = true ∧ s.next = none

namespace Exec

-- An operation that always comes to its end.
def Sure (x : Exec α) : Prop := ∀ m, ∃ a m', x m = .ok a m'

namespace Sure

theorem pure (a : α) : Sure (pure a) := fun m => ⟨a, m, rfl⟩

theorem bind {x : Exec α} {f : α → Exec β} (hx : Sure x) (hf : ∀ a, Sure (f a)) :
    Sure (x >>= f) := by
  intro m
  obtain ⟨a, m₁, h₁⟩ := hx m
  rw [bind_of_ok h₁]
  exact hf a m₁

theorem lift (x : HeapM α) : Sure (liftM x : Exec α) := fun m => ⟨(x m.heap).1, _, rfl⟩

theorem currentScope : Sure currentScope := fun m => ⟨_, m, rfl⟩

theorem forM {l : List α} {f : α → Exec PUnit} (hf : ∀ a, Sure (f a)) : Sure (l.forM f) :=
  Compositional.forM ⟨pure, bind⟩ hf

end Sure

-- An operation that leaves everything untouched where it fails.
def Cautious (x : Exec α) : Prop := ∀ m u m', x m = .error u m' → Untouched m m'

theorem Sure.cautious {x : Exec α} (hx : Sure x) : Cautious x := by
  intro m u m' h
  obtain ⟨a, m₁, h₁⟩ := hx m
  rw [h₁] at h
  cases h

theorem Cautious.bind {x : Exec α} {f : α → Exec β} (hx : Tacit x) (hf : ∀ a, Cautious (f a)) :
    Cautious (x >>= f) := by
  intro m u m' h
  have hm := hx m
  unfold TacitAt at hm
  rw [bind_apply] at h
  cases hr : x m with
  | error u₁ m₁ =>
      rw [hr] at h hm
      cases h
      exact hm
  | ok a m₁ =>
      rw [hr] at h hm
      exact hm.trans (hf a m₁ u m' h)

theorem Cautious.bind_sure {x : Exec α} {f : α → Exec β} (hx : Cautious x)
    (hf : ∀ a, Sure (f a)) : Cautious (x >>= f) := by
  intro m u m' h
  rw [bind_apply] at h
  cases hr : x m with
  | error u₁ m₁ =>
      rw [hr] at h
      cases h
      exact hx m u m' hr
  | ok a m₁ =>
      obtain ⟨b, m₂, h₂⟩ := hf a m₁
      rw [hr] at h
      change f a m₁ = _ at h
      rw [h₂] at h
      cases h

end Exec

namespace Program

open Exec (Tacit Sure Cautious TacitAt)

variable (p : Program)

theorem sure_declareValue (ty : Option Ty) (name : String) (v : Value) :
    Sure (p.declareValue ty name v) := by
  have hdeclare : ∀ v, Sure (do Heap.declare (← Exec.currentScope) name v : Exec Unit) :=
    fun v => .bind .currentScope fun _ => .lift _
  unfold declareValue
  split
  · exact .pure _
  · refine .bind (.lift _) fun v => ?_
    dsimp only
    split
    · exact .bind (.lift _) fun v => hdeclare v
    · exact .bind (.pure _) fun v => hdeclare v

theorem sure_declareZero (ty : Ty) (name : String) : Sure (p.declareZero ty name) := by
  unfold declareZero
  split
  · exact .pure _
  · exact .bind .currentScope fun _ => .bind (.lift _) fun _ => .lift _

theorem cautious_step {op : StepOp} (hop : op.binds = true) : Cautious (p.step op) := by
  cases op with
  | declare names ty arity =>
      have hall : ∀ {f : String × Value → Exec Unit}, (∀ x v, Sure (f (x, v))) →
          ∀ values, Cautious ((names.zip values).forM f) :=
        fun hf _ => (Sure.forM fun xv : String × Value => hf xv.1 xv.2).cautious
      have hvalue := p.sure_declareValue ty
      have hwork : Cautious (p.work (.declare names ty arity)) := by
        refine .bind (Tacit.operands.take arity) fun values => ?_
        dsimp only
        split
        · exact .bind (holds_mismatch Tacit.trait _ _) fun _ => hall hvalue values
        · exact hall hvalue values
      exact hwork.bind_sure fun _ => .pure _
  | declareZero names ty =>
      exact (Sure.bind (.forM fun x => p.sure_declareZero ty x) fun _ => .pure _).cautious
  | _ => cases hop

theorem cautious_annotated (span : Span) {x : Exec α} (hx : Cautious x) :
    Cautious (annotated span x) := by
  intro m u m' h
  unfold annotated at h
  cases hr : x m with
  | ok a m₁ =>
      rw [hr] at h
      cases h
  | error u₁ m₁ =>
      have hm := hx m u₁ m₁ hr
      rw [hr] at h
      cases u₁ with
      | panic v =>
          cases h
          exact ⟨hm.heap, hm.printer⟩
      | _ =>
          cases h
          exact hm

-- The last step of a unit ends its run, and where it fails it has bound nothing.
theorem advance_binds (n : Nat) {steps : Array Step} {id : StepId} {s : Step} {m : Machine}
    (hs : steps[id]? = some s) (hop : s.op.binds = true) :
    match p.advance n steps id m with
    | .ok k _ => k = some s.next
    | .error _ m' => Untouched m m' := by
  have hcautious := cautious_annotated s.span (p.cautious_step hop) m
  have hyields : Exec.Yields (· = .next) (annotated s.span (p.step s.op)) := by
    intro m a m' h
    rw [annotated_eq_ok] at h
    revert m a m'
    cases hs : s.op with
    | declare | declareZero => exact Exec.Yields.bind fun _ => .pure rfl
    | _ =>
        rw [hs] at hop
        cases hop
  unfold advance
  simp only [hs]
  rw [bind_apply]
  cases hr : annotated s.span (p.step s.op) m with
  | error u m₁ => exact hcautious u m₁ hr
  | ok a m₁ =>
      obtain rfl := hyields m a m₁ hr
      rfl

-- A run of the steps of a unit that fails has changed and printed nothing but what calls, receive
-- operations and literals that fill a field twice have.
theorem untouched_of_run {steps : Array Step} (hunit : AreOfUnit steps) {n : Nat}
    {k : Option StepId} {m m' : Machine} {u : Unwind}
    (hacts : ∀ n' id s m₁, RunLeads p steps n k m (n' + 1) (some id) m₁ → steps[id]? = some s →
      s.op.acts = true → TacitAt m₁ (p.advance n' steps id))
    (hrun : p.run n steps k m = .error u m') : Untouched m m' := by
  induction n generalizing k m with
  | zero =>
      cases k with
      | none =>
          rw [run_none] at hrun
          cases hrun
      | some id =>
          rw [run_zero] at hrun
          cases hrun
          exact .refl _
  | succ n ih =>
      cases k with
      | none =>
          rw [run_none] at hrun
          cases hrun
      | some id =>
          rw [run_succ] at hrun
          cases hs : steps[id]? with
          | none =>
              unfold advance at hrun
              rw [hs] at hrun
              cases hrun
              exact .refl _
          | some s =>
              have hrest : ∀ k₁ m₁, p.advance n steps id m = .ok (some k₁) m₁ →
                  p.run n steps k₁ m₁ = .error u m' → Untouched m₁ m' :=
                fun k₁ m₁ hstep => ih fun n' id' s' m₂ hleads => hacts n' id' s' m₂ (.step hstep hleads)
              have htacit : TacitAt m (p.advance n steps id) → Untouched m m' := by
                intro hm
                unfold TacitAt at hm
                cases hr : p.advance n steps id m with
                | error u₁ m₁ =>
                    rw [hr] at hrun hm
                    cases hrun
                    exact hm
                | ok k₁ m₁ =>
                    rw [hr] at hrun hm
                    cases k₁ with
                    | none => cases hrun
                    | some k₁ => exact hm.trans (hrest k₁ m₁ hr hrun)
              rcases hunit id s hs with hop | hop | ⟨hop, hnext⟩
              · exact htacit (p.tacit_advance n hs hop m)
              · exact htacit (hacts n id s m (.refl _ _ _) hs hop)
              · have hbinds := p.advance_binds n (m := m) hs hop
                cases hr : p.advance n steps id m with
                | error u₁ m₁ =>
                    rw [hr] at hrun hbinds
                    cases hrun
                    exact hbinds
                | ok k₁ m₁ =>
                    rw [hr] at hrun hbinds
                    subst hbinds
                    rw [hnext] at hrun
                    simp only [run_none] at hrun
                    cases hrun

-- What a run of a unit that fails leaves is what the run of its steps leaves.
theorem runUnit_error {fuel : Nat} {f : Function} {scope : ScopeId} {m m' : Machine} {u : Unwind}
    (h : p.runUnit fuel f scope m = .error u m') :
    ∃ m₁, p.run fuel f.steps (entry f.steps) { m with frame := .start scope } = .error u m₁ ∧
      m'.heap = m₁.heap ∧ m'.printer = m₁.printer := by
  unfold runUnit inFrame body at h
  dsimp only at h
  unfold entry
  cases hr : p.run fuel f.steps (if f.steps.isEmpty then none else some 0)
      { m with frame := .start scope } with
  | ok a m₁ =>
      rw [hr] at h
      simp only [unwindTo_apply] at h
      cases h
  | error u₁ m₁ =>
      rw [hr] at h
      simp only [unwindTo_apply] at h
      cases h
      exact ⟨m₁, rfl, rfl, rfl⟩

-- A unit that fails has changed and printed nothing but what its calls, receive operations and
-- literals that fill a field twice have.
theorem untouched_of_runUnit {fuel : Nat} {f : Function} {scope : ScopeId} {m m' : Machine}
    {u : Unwind} (hunit : AreOfUnit f.steps)
    (hacts : ∀ n id s m₁,
      RunLeads p f.steps fuel (entry f.steps) { m with frame := .start scope } (n + 1)
        (some id) m₁ →
      f.steps[id]? = some s → s.op.acts = true → TacitAt m₁ (p.advance n f.steps id))
    (h : p.runUnit fuel f scope m = .error u m') : Untouched m m' := by
  obtain ⟨m₁, hrun, hheap, hprinter⟩ := p.runUnit_error h
  obtain ⟨hspares, hprinted⟩ := p.untouched_of_run hunit hacts hrun
  exact ⟨hheap ▸ hspares, hprinter.trans hprinted⟩

end Program

end StepGraph

import StepGraph.Proofs.Machine.Trace
import StepGraph.Proofs.Stack.Effects

open EStateM (bind_of_ok bind_of_error)

namespace StepGraph

variable {α β : Type}

-- An operation that no bound on the number of steps stops.
def Exec.Prompt (x : Exec α) : Prop := ∀ m m', x m ≠ .error .exhausted m'

namespace Exec.Prompt

theorem iff_fails {x : Exec α} : Prompt x ↔ Fails (· ≠ .exhausted) x :=
  ⟨fun h m _ m' hr he => h m m' (he ▸ hr), fun h m m' hr => h m _ m' hr rfl⟩

def trait : Exec.ScopeTrait where
  Holds := Prompt
  pure _ _ _ := nofun
  bind_yields hx hpost hf := iff_fails.mpr
    ((iff_fails.mp hx).bind hpost fun a ha => iff_fails.mp (hf a ha))
  throw hu _ _ _ h := hu (by cases h; rfl)
  heap _ _ := nofun
  currentScope _ _ := nofun
  gentle _ _ _ := nofun
  apart _ _ _ := nofun
  quiet _ _ _ := nofun

theorem modifyFrame (f : Frame → Frame) : Prompt (modifyFrame f) := fun _ _ => nofun

theorem operands : trait.Operands where
  frame _ _ := nofun
  setOperands _ := modifyFrame _
  setResults _ := modifyFrame _
  underflow _ _ := nofun

theorem unwindTo (depth : Nat) : Prompt (unwindTo depth) := by
  refine trait.bind operands.frame fun f => ?_
  split
  · exact trait.bind trait.heap fun h => modifyFrame _
  · exact trait.pure _

end Exec.Prompt

namespace Program

open Exec

variable (p : Program)

theorem prompt_step (op : StepOp) : Prompt (p.step op) := by
  by_cases hop : Moving op
  · cases op with
    | jump depth => exact Prompt.trait.bind (Prompt.unwindTo depth) fun _ => Prompt.trait.pure _
    | popScope =>
        exact Prompt.trait.bind (Prompt.trait.bind Prompt.operands.frame fun _ => Prompt.unwindTo _)
          fun _ => Prompt.trait.pure _
    | pushScope =>
        refine Prompt.trait.bind (Prompt.trait.bind Prompt.trait.currentScope fun s => ?_)
          fun _ => Prompt.trait.pure _
        exact Prompt.trait.bind (Prompt.trait.quiet (Heap.quiet_newScope _)) fun _ =>
          Prompt.modifyFrame _
    | _ => exact hop.elim
  · exact holds_step Prompt.operands p hop

theorem prompt_keepDeferred (args : Arity) (spread : Bool) (builtin : Option (Builtin × Option Ty))
    (span : Span) : Prompt (keepDeferred args spread builtin span) := by
  have hkeep : ∀ target, Prompt (do
      let values ← (← take args).mapM fun v => (Heap.copy v : HeapM Value)
      modifyFrame fun f => { f with deferred := ⟨target, values, spread, span⟩ :: f.deferred }) :=
    fun _ => Prompt.trait.bind (Prompt.operands.take args) fun _ =>
      Prompt.trait.bind (Prompt.trait.mapM fun v => Prompt.trait.gentle (Heap.gentle_copy v)) fun _ =>
        Prompt.modifyFrame _
  cases builtin with
  | none => exact Prompt.trait.bind Prompt.operands.pop fun _ => hkeep _
  | some b => exact hkeep _

end Program

theorem Program.annotated_congr {x y : Exec α} {m : Machine} (span : Span) (h : x m = y m) :
    Program.annotated span x m = Program.annotated span y m := by
  unfold Program.annotated
  rw [h]

-- However high a bound is from some number on, the outcome is the same, and it is not the bound that
-- stopped it.
def Terminates (f : Nat → EStateM.Result Unwind Machine α) : Prop :=
  ∃ t r, (∀ m, r ≠ .error .exhausted m) ∧ ∀ n, t ≤ n → f n = r

-- With a high bound, this is the outcome.
def Finally (f : Nat → EStateM.Result Unwind Machine α) (a : α) (m : Machine) : Prop :=
  ∃ t, ∀ n, t ≤ n → f n = .ok a m

theorem Exec.Prompt.terminates {x : Exec α} (hx : Prompt.trait.Holds x) (m : Machine) :
    Terminates fun _ => x m :=
  ⟨0, x m, hx m, fun _ _ => rfl⟩

namespace Terminates

variable {m : Machine}

theorem bind {x : Nat → Exec α} {f : Nat → α → Exec β} (hx : Terminates fun n => x n m)
    (hf : ∀ a m', Finally (fun n => x n m) a m' → Terminates fun n => f n a m') :
    Terminates fun n => (x n >>= f n) m := by
  obtain ⟨t, r, hr, hx⟩ := hx
  cases r with
  | error u m' =>
      refine ⟨t, .error u m', fun m'' h => hr m'' (by cases h; rfl), fun n hn => ?_⟩
      exact bind_of_error (hx n hn)
  | ok a m' =>
      obtain ⟨t', r, hr, hf⟩ := hf a m' ⟨t, hx⟩
      refine ⟨max t t', r, hr, fun n hn => ?_⟩
      dsimp only
      rw [bind_of_ok (hx n (by omega))]
      exact hf n (by omega)

theorem annotated {x : Nat → Exec α} (span : Span) (hx : Terminates fun n => x n m) :
    Terminates fun n => Program.annotated span (x n) m := by
  obtain ⟨t, r, hr, hx⟩ := hx
  refine ⟨t, Program.annotated span (fun _ => r) m, fun m' h => ?_, fun n hn => ?_⟩
  · unfold Program.annotated at h
    split at h <;> cases h
    next hexhausted => exact hr _ hexhausted
  · exact Program.annotated_congr span (hx n hn)

end Terminates

def StepOp.isCall : StepOp → Bool
  | call .. | callBuiltin .. => true
  | _ => false

namespace Program

variable {p : Program} {steps : Array Step} {id : StepId} {m : Machine}

-- Whatever a step calls comes to an end.
structure CallsTerminate (p : Program) (s : Step) (m : Machine) : Prop where
  call : ∀ callee args spread results m₁,
    p.step s.op m = .ok (.call callee args spread results) m₁ →
      Terminates fun n => p.call n callee args spread s.span m₁
  builtin : ∀ b ty args spread results m₁,
    p.step s.op m = .ok (.builtin b ty args spread results) m₁ →
      Terminates fun n => p.callBuiltin (p.services n) b ty args spread m₁

def Next.calls : Next → Bool
  | call .. | builtin .. => true
  | _ => false

-- Only the steps of calls call something.
theorem yields_calls {op : StepOp} (hop : op.isCall = false) :
    Exec.Yields (fun after => after.calls = false) (p.step op) := by
  cases op with
  | call | callBuiltin => cases hop
  | branch other =>
      refine .bind fun v => ?_
      unfold branch
      split
      · exact .pure rfl
      · exact .pure rfl
      · exact .notDefined _ _
  | shortCircuit stop other =>
      refine .bind fun v => ?_
      split
      · exact .notDefined _ _
      · split
        · exact .pure rfl
        · exact .bind fun _ => .pure rfl
  | ret arity =>
      unfold step
      dsimp only
      split
      · exact .bind fun _ => .bind fun _ => .pure rfl
      · exact .pure rfl
  | rangeNext cursor value exit =>
      refine .bind fun h => .bind fun scope => ?_
      split
      · refine .bind fun r => ?_
        split
        · refine .bind fun _ => ?_
          dsimp only
          split
          · exact .bind fun _ => .pure rfl
          · exact .pure rfl
        · exact .pure rfl
      · exact yields_undefined _
  | defer => exact .pure rfl
  | _ => exact .bind fun _ => .pure rfl

theorem callsTerminate_of_isCall {s : Step} (hop : s.op.isCall = false) (m : Machine) :
    p.CallsTerminate s m where
  call _ _ _ _ m₁ h := by cases yields_calls hop m _ m₁ h
  builtin _ _ _ _ _ m₁ h := by cases yields_calls hop m _ m₁ h

-- So does the step, if it defers no call or the evaluation of the operands ends.
theorem terminates_advance {s : Step} (hs : steps[id]? = some s) (hcalls : p.CallsTerminate s m)
    (hchain : ∀ entry args spread builtin, s.op = .defer entry args spread builtin →
      Terminates fun n => p.run n steps (some entry) m) : Terminates fun n => p.advance n steps id m := by
  unfold advance
  rw [hs]
  refine (Exec.Prompt.terminates (p.prompt_step s.op) m |>.annotated s.span).bind fun after m₁ hafter => ?_
  obtain ⟨t, hafter⟩ := hafter
  have hstep := annotated_eq_ok.mp (hafter t (Nat.le_refl t))
  cases after with
  | next | goto | ret => exact Exec.Prompt.terminates (Exec.Prompt.trait.pure _) m₁
  | call callee args spread results =>
      refine .bind (.annotated s.span ?_) fun _ m₂ _ =>
        Exec.Prompt.terminates (Exec.Prompt.trait.pure _) m₂
      exact (hcalls.call callee args spread results m₁ hstep).bind fun vs m₂ _ =>
        Exec.Prompt.terminates (Exec.Prompt.operands.pushResults vs results) m₂
  | builtin b ty args spread results =>
      refine .bind (.annotated s.span ?_) fun _ m₂ _ =>
        Exec.Prompt.terminates (Exec.Prompt.trait.pure _) m₂
      exact (hcalls.builtin b ty args spread results m₁ hstep).bind fun vs m₂ _ =>
        Exec.Prompt.terminates (Exec.Prompt.operands.pushResults vs results) m₂
  | defer entry args spread builtin =>
      have hop : s.op = .defer entry args spread builtin := next_of_step hstep
      rw [hop] at hstep
      cases hstep
      refine .bind (.annotated s.span ?_) fun _ m₂ _ =>
        Exec.Prompt.terminates (Exec.Prompt.trait.pure _) m₂
      exact (hchain entry args spread builtin hop).bind fun _ m₂ _ =>
        Exec.Prompt.terminates (prompt_keepDeferred args spread builtin s.span) m₂

-- A run ends if its first step does, and if it does so from wherever that step leads.
theorem terminates_run (hstep : Terminates fun n => p.advance n steps id m)
    (hrest : ∀ k m₁, Finally (fun n => p.advance n steps id m) (some (some k)) m₁ →
      Terminates fun n => p.run n steps (some k) m₁) : Terminates fun n => p.run n steps (some id) m := by
  obtain ⟨t, r, hr, hstep⟩ := hstep
  have hsucc : ∀ n, t + 1 ≤ n → ∃ k, n = k + 1 ∧ t ≤ k ∧ p.advance k steps id m = r :=
    fun n hn => ⟨n - 1, by omega, by omega, hstep (n - 1) (by omega)⟩
  cases r with
  | error u m₁ =>
      refine ⟨t + 1, .error u m₁, fun m' h => hr m' (by cases h; rfl), fun n hn => ?_⟩
      obtain ⟨k, rfl, -, hk⟩ := hsucc n hn
      simp only [run_succ, hk]
  | ok next m₁ =>
      match next, hr, hstep, hsucc with
      | none, _, _, hsucc =>
          refine ⟨t + 1, .ok () m₁, nofun, fun n hn => ?_⟩
          obtain ⟨k, rfl, -, hk⟩ := hsucc n hn
          simp only [run_succ, hk]
      | some none, _, _, hsucc =>
          refine ⟨t + 1, .ok () m₁, nofun, fun n hn => ?_⟩
          obtain ⟨k, rfl, -, hk⟩ := hsucc n hn
          simp only [run_succ, hk, run_none]
      | some (some j), _, hstep, hsucc =>
          obtain ⟨t', r, hr, hrest⟩ := hrest j m₁ ⟨t, hstep⟩
          refine ⟨max (t + 1) (t' + 1), r, hr, fun n hn => ?_⟩
          obtain ⟨k, rfl, -, hk⟩ := hsucc n (by omega)
          simp only [run_succ, hk]
          exact hrest k (by omega)

end Program

end StepGraph

import StepGraph.Proofs.Compile.BackEdges
import StepGraph.Proofs.Machine.Terminates

namespace StepGraph

namespace Program

variable {p : Program} {steps : Array Step} {n n' : Nat} {e d id i k : StepId} {m m' : Machine}

-- The steps that a run executes, in their order. A step that defers a call executes those that
-- compute its operands.
def executed (p : Program) (steps : Array Step) : Nat → Option StepId → Machine → List StepId
  | n + 1, some id, m =>
      match steps[id]? with
      | some s =>
          id :: ((match p.step s.op m with
            | .ok (.defer entry ..) m₁ => executed p steps n (some entry) m₁
            | _ => []) ++
          match p.advance n steps id m with
            | .ok (some k) m₁ => executed p steps n k m₁
            | _ => [])
      | none => []
  | _, _, _ => []

-- A run comes from one step and machine to another, however many steps it may take as long as they
-- are enough. It may do so on its way or while it computes the operands of a deferred call.
inductive Visits (p : Program) (steps : Array Step) :
    StepId → Machine → StepId → Machine → Prop
  | here (id : StepId) (m : Machine) : Visits p steps id m id m
  | next {id k id' : StepId} {m m₁ m' : Machine}
      (hstep : Finally (fun n => p.advance n steps id m) (some (some k)) m₁)
      (hrest : Visits p steps k m₁ id' m') : Visits p steps id m id' m'
  | deferred {id entry id' : StepId} {m m' : Machine} (hdefers : DefersFrom steps entry id)
      (hrest : Visits p steps entry m id' m') : Visits p steps id m id' m'

-- Wherever a run comes to, there is a step.
theorem lt_size_of_reaches (hdetached : Detached steps)
    (hbound : ∀ x j, LeadsTo steps x (some j) → j < steps.size)
    (hr : p.Reaches steps n id m n' i m') (hid : id < steps.size) : i < steps.size := by
  induction hr with
  | here => exact hid
  | next hstep _ ih =>
      obtain ⟨edge, hedge⟩ := leadsTo_of_advance hstep
      exact ih (hbound _ _ hedge)
  | deferred hs hop _ ih =>
      have hdefers : DefersFrom steps _ _ := ⟨_, hs, by rw [hop]; rfl⟩
      exact ih (Nat.lt_trans (hdetached.entry _ _ hdefers).2 hdefers.lt_size)

theorem defers_of_step {s : Step} {args : Arity} {spread : Bool} {entry : StepId}
    {builtin : Option (Builtin × Option Ty)} (hs : steps[id]? = some s)
    (h : p.step s.op m = .ok (.defer entry args spread builtin) m') :
    DefersFrom steps entry id := by
  have hop : s.op = .defer entry args spread builtin := next_of_step h
  exact ⟨s, hs, by rw [hop]; rfl⟩

-- A chain goes forward, and executes no other one.
theorem executed_chain (hdetached : Detached steps) (hd : DefersFrom steps e d)
    (hk : InChain e d k) :
    (p.executed steps n (some k) m).Pairwise (· < ·) ∧
      ∀ i ∈ p.executed steps n (some k) m, k ≤ i ∧ InChain e d i := by
  induction n generalizing k m with
  | zero =>
      unfold executed
      exact ⟨.nil, nofun⟩
  | succ n ih =>
      unfold executed
      cases hs : steps[k]? with
      | none => exact ⟨.nil, nofun⟩
      | some s =>
          dsimp only
          have hplain := hdetached.plain e d hd k s hk hs
          split
          · next entry args spread builtin m₁ hstep =>
              have hop : s.op = .defer entry args spread builtin := next_of_step hstep
              rw [hop] at hplain
              cases hplain
          · rw [List.nil_append]
            split
            · next next m₁ hadvance =>
                obtain ⟨edge, hedge⟩ := leadsTo_of_advance hadvance
                cases next with
                | none =>
                    have hnil : p.executed steps n none m₁ = [] := by cases n <;> rfl
                    rw [hnil, List.forall_mem_singleton]
                    exact ⟨List.pairwise_singleton _ _, Nat.le_refl k, hk⟩
                | some j =>
                    have hlt := hdetached.forward e d hd _ j hedge hk
                    obtain ⟨hpairwise, hall⟩ := ih ((hdetached.edge e d hd _ j hedge).mp hk)
                    have hbehind := fun i hi => Nat.lt_of_lt_of_le hlt (hall i hi).1
                    refine ⟨.cons hbehind hpairwise, fun i hi => ?_⟩
                    rcases List.mem_cons.mp hi with rfl | hi
                    · exact ⟨Nat.le_refl _, hk⟩
                    · exact ⟨Nat.le_of_lt (hbehind i hi), (hall i hi).2⟩
            · rw [List.forall_mem_singleton]
              exact ⟨List.pairwise_singleton _ _, Nat.le_refl k, hk⟩

-- Where a step is executed in the course of a run: at its own place, or for the step that defers the
-- call for which it computes operands.
def IsBehind (steps : Array Step) (k i : StepId) : Prop :=
  OutsideChains steps i ∧ k ≤ i ∨ ∃ e d, DefersFrom steps e d ∧ InChain e d i ∧ k ≤ d

theorem IsBehind.mono (h : IsBehind steps k i) {j : StepId} (hj : j ≤ k) : IsBehind steps j i :=
  h.imp (.imp_right (Nat.le_trans hj)) fun ⟨e, d, hd, hin, hk⟩ =>
    ⟨e, d, hd, hin, Nat.le_trans hj hk⟩

-- Without edges back no step is executed twice.
theorem executed_run (hdetached : Detached steps)
    (hforward : ∀ x j, LeadsTo steps x (some j) → x.step < j) (hk : OutsideChains steps k) :
    (p.executed steps n (some k) m).Nodup ∧
      ∀ i ∈ p.executed steps n (some k) m, IsBehind steps k i := by
  induction n generalizing k m with
  | zero =>
      unfold executed
      exact ⟨.nil, nofun⟩
  | succ n ih =>
      unfold executed
      cases hs : steps[k]? with
      | none => exact ⟨.nil, nofun⟩
      | some s =>
          dsimp only
          generalize hchain : (match p.step s.op m with
            | .ok (.defer entry _ _ _) m₁ => p.executed steps n (some entry) m₁
            | _ => []) = chain
          generalize hrest : (match p.advance n steps k m with
            | .ok (some j) m₁ => p.executed steps n j m₁
            | _ => []) = rest
          have hchain : chain.Nodup ∧ ∀ i ∈ chain, ∃ e, DefersFrom steps e k ∧ InChain e k i := by
            split at hchain
            · next entry args spread builtin m₁ hstep =>
                have hd := defers_of_step hs hstep
                obtain ⟨hpairwise, hall⟩ := executed_chain (p := p) (n := n) (m := m₁) hdetached hd
                  ⟨Nat.le_refl _, (hdetached.entry _ _ hd).2⟩
                subst hchain
                exact ⟨hpairwise.imp Nat.ne_of_lt, fun i hi => ⟨entry, hd, (hall i hi).2⟩⟩
            · subst hchain
              exact ⟨.nil, nofun⟩
          have hrest : rest.Nodup ∧ ∀ i ∈ rest, IsBehind steps (k + 1) i := by
            split at hrest
            · next next m₁ hadvance =>
                obtain ⟨edge, hedge⟩ := leadsTo_of_advance hadvance
                subst hrest
                cases next with
                | none =>
                    have hnil : p.executed steps n none m₁ = [] := by cases n <;> rfl
                    rw [hnil]
                    exact ⟨.nil, nofun⟩
                | some j =>
                    have hout : OutsideChains steps j := fun e d hd hin =>
                      hk e d hd ((hdetached.edge e d hd _ j hedge).mpr hin)
                    obtain ⟨hnodup, hall⟩ := ih (m := m₁) hout
                    exact ⟨hnodup, fun i hi => (hall i hi).mono (hforward _ j hedge)⟩
            · subst hrest
              exact ⟨.nil, nofun⟩
          refine ⟨List.nodup_cons.mpr ⟨fun hmem => ?_, ?_⟩, fun i hi => ?_⟩
          · rcases List.mem_append.mp hmem with hmem | hmem
            · obtain ⟨e, -, hin⟩ := hchain.2 k hmem
              exact Nat.lt_irrefl k hin.2
            · rcases hrest.2 k hmem with ⟨-, hlt⟩ | ⟨e, d, hd, hin, -⟩
              · exact Nat.lt_irrefl k hlt
              · exact hk e d hd hin
          · refine List.nodup_append.mpr ⟨hchain.1, hrest.1, fun i hi j hj => ?_⟩
            rintro rfl
            obtain ⟨e, hd, hin⟩ := hchain.2 i hi
            rcases hrest.2 i hj with ⟨hout, -⟩ | ⟨e', d', hd', hin', hlt⟩
            · exact hout e k hd hin
            · exact hdetached.disjoint hd hd' (Nat.ne_of_lt hlt) hin hin'
          · rcases List.mem_cons.mp hi with rfl | hi
            · exact .inl ⟨hk, Nat.le_refl _⟩
            · rcases List.mem_append.mp hi with hi | hi
              · obtain ⟨e, hd, hin⟩ := hchain.2 i hi
                exact .inr ⟨e, k, hd, hin, Nat.le_refl k⟩
              · exact (hrest.2 i hi).mono (Nat.le_succ k)

-- A chain comes to its end if the calls in it do.
theorem terminates_chain (hdetached : Detached steps) (hd : DefersFrom steps e d)
    (hk : InChain e d k)
    (hcalls : ∀ i m', p.Visits steps k m i m' → ∀ s, steps[i]? = some s → p.CallsTerminate s m') :
    Terminates fun n => p.run n steps (some k) m := by
  induction hsize : d - k using Nat.strongRecOn generalizing k m with
  | ind size ih =>
      refine terminates_run ?_ fun j m₁ hfinally => ?_
      · cases hs : steps[k]? with
        | none =>
            obtain ⟨u, hu⟩ : ∃ u, ∀ n, p.advance n steps k m = .error (.fatal u) m := by
              unfold advance
              rw [hs]
              exact ⟨_, fun n => rfl⟩
            exact ⟨0, .error (.fatal u) m, nofun, fun n _ => hu n⟩
        | some s =>
            refine terminates_advance hs (hcalls k m (.here k m) s hs) fun _ _ _ _ hop => ?_
            have hplain := hdetached.plain e d hd k s hk hs
            rw [hop] at hplain
            cases hplain
      · obtain ⟨t, ht⟩ := hfinally
        obtain ⟨edge, hedge⟩ := leadsTo_of_advance (ht t (Nat.le_refl t))
        have hlt : k < j := hdetached.forward e d hd _ j hedge hk
        refine ih (d - j) (hsize ▸ Nat.sub_lt_sub_left hk.2 hlt)
          ((hdetached.edge e d hd _ j hedge).mp hk)
          (fun i m' hvisits => hcalls i m' (.next ⟨t, ht⟩ hvisits)) rfl

-- So does a run without edges back.
theorem terminates_forward (hdetached : Detached steps)
    (hbound : ∀ x j, LeadsTo steps x (some j) → j < steps.size)
    (hforward : ∀ x j, LeadsTo steps x (some j) → x.step < j) (hk : k < steps.size)
    (hcalls : ∀ i m', p.Visits steps k m i m' → ∀ s, steps[i]? = some s → p.CallsTerminate s m') :
    Terminates fun n => p.run n steps (some k) m := by
  induction hsize : steps.size - k using Nat.strongRecOn generalizing k m with
  | ind size ih =>
      have hs := Array.getElem?_eq_getElem hk
      refine terminates_run ?_ fun j m₁ hfinally => ?_
      · refine terminates_advance hs (hcalls k m (.here k m) _ hs) fun entry _ _ _ hop => ?_
        have hd : DefersFrom steps entry k := ⟨_, hs, by rw [hop]; rfl⟩
        exact terminates_chain hdetached hd ⟨Nat.le_refl _, (hdetached.entry _ _ hd).2⟩
          fun i m' hvisits => hcalls i m' (.deferred hd hvisits)
      · obtain ⟨t, ht⟩ := hfinally
        obtain ⟨edge, hedge⟩ := leadsTo_of_advance (ht t (Nat.le_refl t))
        refine ih (steps.size - j) (hsize ▸ Nat.sub_lt_sub_left hk (hforward _ j hedge))
          (hbound _ j hedge) (fun i m' hvisits => hcalls i m' (.next ⟨t, ht⟩ hvisits)) rfl

end Program

-- No statement of a body goes back to steps that ran before: it has neither a loop nor a `goto`.
def GoesForward (body : List Stmt) : Prop := ∀ mark ∈ marksOf body 0, mark.isBackward = false

instance (body : List Stmt) : Decidable (GoesForward body) :=
  inferInstanceAs (Decidable (∀ mark ∈ marksOf body 0, mark.isBackward = false))

-- The graph of a function with this body.
structure Shaped (body : List Stmt) (f : Function) : Prop where
  bound : ∀ x j, LeadsTo f.steps x (some j) → j < f.steps.size
  entries : ∀ e d, DefersFrom f.steps e d → e < f.steps.size
  -- Wherever a run comes to, there is a step.
  reached : ∀ (p : Program) n m n' i m', 0 < f.steps.size → p.Reaches f.steps n 0 m n' i m' →
    i < f.steps.size
  -- There are as many jumps as marks of jumps, and each edge back is due to its own.
  jumps : jumpsBefore f.steps f.steps.size = ((marksOf body 0).filter (·.isJump)).length
  returns : ReturnsByMarks (marksOf body 0) f.steps
  once : GoesForward body → ∀ (p : Program) n m,
    (p.executed f.steps n (Program.entry f.steps) m).Nodup
  terminates : GoesForward body → ∀ (p : Program) m,
    (∀ i m', p.Visits f.steps 0 m i m' → ∀ s, f.steps[i]? = some s → p.CallsTerminate s m') →
      Terminates fun n => p.run n f.steps (Program.entry f.steps) m

theorem Origin.Makes.shaped {o : Origin} {names : Names} {code : Array Function} {types : TypeTable}
    {f : Function} (h : o.Makes names code types f) : Shaped o.body f := by
  obtain ⟨hdetached, hbound⟩ := h.detached
  obtain ⟨hjumps, hreturns, hbackward⟩ := h.told
  have hforward : GoesForward o.body → ∀ x j, LeadsTo f.steps x (some j) → x.step < j := by
    intro hbody x j hx
    by_contra hle
    obtain ⟨mark, hmem, hback⟩ := hbackward x j hx (Nat.le_of_not_lt hle)
    rw [hbody mark hmem] at hback
    cases hback
  have hfirst : OutsideChains f.steps 0 := fun e d hd hin =>
    absurd (hdetached.entry e d hd).1 (Nat.not_lt.mpr hin.1)
  refine ⟨hbound, fun e d hd => Nat.lt_trans (hdetached.entry e d hd).2 hd.lt_size,
    fun p n m n' i m' hpos hr => p.lt_size_of_reaches hdetached hbound hr hpos, hjumps, hreturns,
    fun hbody p n m => ?_, fun hbody p m hcalls => ?_⟩
  · unfold Program.entry
    split
    · rw [show p.executed f.steps n none m = [] by cases n <;> rfl]
      exact .nil
    · exact (Program.executed_run hdetached (hforward hbody) hfirst).1
  · unfold Program.entry
    split
    · exact ⟨0, .ok () m, nofun, fun n _ => Program.run_none ..⟩
    · next hempty =>
        refine Program.terminates_forward hdetached hbound (hforward hbody) ?_ hcalls
        exact Nat.pos_of_ne_zero fun hzero => hempty (Array.isEmpty_iff_size_eq_zero.mpr hzero)

-- The graph of every function that is built is of this shape, and so are those of the function
-- literals in it, each for its own body.
theorem graphs_are_shaped {o : Origin} {names : Names} {code : Array Function} {ref : CodeRef}
    {b : Builder} (h : o.build (.start names code o.sig) = .ok ref b) :
    (∃ f, b.code[ref.id]? = some f ∧ Shaped o.body f) ∧
      ∀ (i : Nat) f, b.code[i]? = some f → code.size ≤ i →
        ∃ (o' : Origin) (names' : Names) (code' : Array Function),
          o'.Makes names' code' b.names.types f ∧ Shaped o'.body f := by
  refine ⟨?_, fun i f hf hi => ?_⟩
  · obtain ⟨f, hf⟩ : ∃ f, b.code[ref.id]? = some f := by
      obtain ⟨b₁, steps, -, -, rfl, rfl⟩ := Origin.build_ok h
      exact ⟨_, Array.getElem?_push_size⟩
    have hmakes : o.Makes names code b.names.types f := ⟨ref, b, h, hf, .refl _⟩
    exact ⟨f, hf, hmakes.shaped⟩
  · obtain ⟨o', names', code', hmakes⟩ := (Origin.code_build h).2 i f hf hi
    exact ⟨o', names', code', hmakes, hmakes.shaped⟩

-- `for range "a" { continue }`
def skipAll : List Stmt :=
  [.range Span.none none none false (.lit Note.empty (.str "a")) [.cont Span.none none]]

-- `if true { return }`
def leaveEarly : List Stmt :=
  [.cond Span.none none (.ident Note.empty "true") [.ret Span.none []] none]

-- The successors of the steps of a function with this body, built on its own, and whether they call
-- something.
def successors? (body : List Stmt) : Option (Array (Option StepId × Bool)) :=
  match (Origin.literal .empty body).build (.start ⟨.empty, .initial, []⟩ #[] .empty) with
  | .ok ref b => b.code[ref.id]?.map fun f => f.steps.map fun s => (s.next, s.op.isCall)
  | .error .. => none

theorem exists_of_successors {body : List Stmt} {next : Array (Option StepId × Bool)}
    (h : successors? body = some next) : ∃ ref b f,
      (Origin.literal .empty body).build (.start ⟨.empty, .initial, []⟩ #[] .empty) = .ok ref b ∧
      b.code[ref.id]? = some f ∧
      ∀ i : Nat, f.steps[i]?.map (fun s : Step => (s.next, s.op.isCall)) = next[i]? := by
  unfold successors? at h
  split at h
  · next ref b hb =>
      obtain ⟨f, hf, rfl⟩ := Option.map_eq_some_iff.mp h
      exact ⟨ref, b, f, hb, hf, fun i => Array.getElem?_map.symm⟩
  · cases h

-- In the one function a jump goes back to where the loop takes the next element. In the other one
-- there is nothing to go back to, and every run of it ends.
theorem skipAll_goes_back_and_leaveEarly_ends :
    (∃ ref b f, (Origin.literal .empty skipAll).build (.start ⟨.empty, .initial, []⟩ #[] .empty) =
        .ok ref b ∧ b.code[ref.id]? = some f ∧ LeadsTo f.steps ⟨6, .next⟩ (some 3) ∧
      ∃ mark, markAt? (marksOf skipAll 0) f.steps 6 = some mark ∧ mark.MayReturn f.steps 3) ∧
    ∃ ref b f, (Origin.literal .empty leaveEarly).build (.start ⟨.empty, .initial, []⟩ #[] .empty) =
        .ok ref b ∧ b.code[ref.id]? = some f ∧ f.steps[0]?.isSome ∧
      ∀ (p : Program) m, Terminates fun n => p.run n f.steps (Program.entry f.steps) m := by
  constructor
  · have hskip : successors? skipAll = some #[(some 1, false), (some 2, false), (some 3, false),
        (some 4, false), (some 5, false), (some 6, false), (some 3, false), (some 8, false),
        (some 3, false), (none, false)] := by decide +kernel
    obtain ⟨ref, b, f, hb, hf, hnext⟩ := exists_of_successors hskip
    obtain ⟨⟨f', hf', hshaped⟩, -⟩ := graphs_are_shaped hb
    cases hf.symm.trans hf'
    have hleads : LeadsTo f.steps ⟨6, .next⟩ (some 3) := by
      obtain ⟨s, hs, hsix⟩ := Option.map_eq_some_iff.mp (hnext 6)
      exact ⟨s, hs, congrArg Prod.fst hsix⟩
    exact ⟨ref, b, f, hb, hf, hleads, (hshaped.returns _ _ hleads (by decide)).2⟩
  · have hleave : successors? leaveEarly = some #[(some 1, false), (some 2, false), (none, false)] :=
      by decide +kernel
    obtain ⟨ref, b, f, hb, hf, hnext⟩ := exists_of_successors hleave
    obtain ⟨⟨f', hf', hshaped⟩, -⟩ := graphs_are_shaped hb
    cases hf.symm.trans hf'
    obtain ⟨first, hfirst, -⟩ := Option.map_eq_some_iff.mp (hnext 0)
    refine ⟨ref, b, f, hb, hf, by rw [hfirst]; rfl, fun p m =>
      hshaped.terminates (by decide) p m fun i m' _ s hs => ?_⟩
    have hcall := hnext i
    rw [hs] at hcall
    refine Program.callsTerminate_of_isCall ?_ m'
    match i, hcall with
    | 0, hcall | 1, hcall | 2, hcall => exact congrArg Prod.snd (Option.some.inj hcall)
    | i + 3, hcall => cases hcall

end StepGraph

import StepGraph.Proofs.Compile.Chains

open EStateM (bind_eq_ok)

namespace StepGraph

theorem GotosResolve.detached {labels : List (String × LabelTarget)} {gotos : List PendingGoto}
    {steps steps' : Array Step} (h : GotosResolve labels gotos steps steps') (hd : Detached steps)
    (hgotos : ∀ g ∈ gotos, OutsideChains steps g.jump)
    (hlabels : ∀ l ∈ labels, OutsideChains steps l.2.step) :
    Detached steps' := by
  refine hd.mono (fun e d hd => ?_) (fun i u _ hu => ?_) fun x j hx => ?_
  · have ⟨u, hu, hentry⟩ := hd
    obtain ⟨w, hw, hbare | ⟨_, _, _, _, _, hjump⟩⟩ := h.step hu
    · exact hd.of_bare hw hu hbare
    · rw [hjump] at hentry
      cases hentry
  · obtain ⟨w, hw, hbare | ⟨g, hg, rfl, -⟩⟩ := h.step hu
    · exact ⟨w, hw, .inl hbare⟩
    · exact ⟨w, hw, .inr (hgotos g hg)⟩
  · refine (h.edge hx).imp_right fun ⟨g, hg, hx, target, htarget, hj⟩ => ?_
    obtain ⟨l₁, l₂, rfl, -⟩ := List.lookup_eq_some_iff.mp htarget
    subst hx hj
    exact ⟨hgotos g hg, hlabels (g.label, target) (by simp)⟩

-- A function at the end of the work on it: its chains are on their own, and no edge leads out of it.
theorem Origin.Makes.detached {o : Origin} {names : Names} {code : Array Function}
    {types : TypeTable} {f : Function} (h : o.Makes names code types f) :
    Detached f.steps ∧ ∀ x j, LeadsTo f.steps x (some j) → j < f.steps.size := by
  obtain ⟨b, hprogress, hresolves, -, -⟩ := h.work
  have hempty : Chained .start (.start names code o.sig) := by
    refine ⟨detached_empty, fun x j hx => ?_, nofun, nofun, nofun⟩
    exact absurd hx.lt_size (Nat.not_lt_zero _)
  have hchained := hprogress.chained (Build.linear_start ..) hempty
  have hgotos : ∀ g ∈ b.gotos, FreeStep b.steps g.jump := fun g hg =>
    hchained.slots ⟨g.jump, .next⟩
      (Site.mem_listed.mpr (.inr (.inr (.inl (List.mem_map_of_mem hg)))))
  refine ⟨hresolves.detached hchained.detached (fun g hg => (hgotos g hg).outside)
    fun l hl => (hchained.labels l hl).outside, fun x j hx => ?_⟩
  rw [hresolves.size]
  rcases hresolves.edge hx with hx | ⟨g, -, -, target, htarget, rfl⟩
  · exact hchained.bound x j hx
  · obtain ⟨l₁, l₂, hlabels, -⟩ := List.lookup_eq_some_iff.mp htarget
    exact (hchained.labels (g.label, target) (hlabels ▸ by simp)).lt_size

namespace Program

variable {p : Program} {steps : Array Step} {n n' : Nat} {id i : StepId} {k k' : Option StepId}
  {m m' : Machine}

-- A run follows the edges of the graph.
theorem leadsTo_of_advance (h : p.advance n steps id m = .ok (some k) m') :
    ∃ edge, LeadsTo steps ⟨id, edge⟩ k := by
  unfold advance at h
  cases hs : steps[id]? with
  | none =>
      rw [hs] at h
      cases h
  | some s =>
      rw [hs] at h
      obtain ⟨after, m₁, hstep, h⟩ := bind_eq_ok.mp h
      have hof := next_of_step (annotated_eq_ok.mp hstep)
      cases after with
      | ret => cases h
      | goto target =>
          cases h
          exact ⟨.other, s, hs, hof.2.symm⟩
      | next =>
          cases h
          exact ⟨.next, s, hs, rfl⟩
      | call | builtin | defer =>
          obtain ⟨_, m₂, -, h⟩ := bind_eq_ok.mp h
          cases h
          exact ⟨.next, s, hs, rfl⟩

-- Only a return ends a run without an edge.
theorem ret_of_advance (h : p.advance n steps id m = .ok none m') :
    ∃ s arity, steps[id]? = some s ∧ s.op = .ret arity := by
  obtain ⟨s, hs⟩ := exists_step_of_advance h
  unfold advance at h
  rw [hs] at h
  obtain ⟨after, m₁, hstep, h⟩ := bind_eq_ok.mp h
  have hof := next_of_step (annotated_eq_ok.mp hstep)
  cases after with
  | ret =>
      obtain ⟨arity, hop⟩ := hof
      exact ⟨s, arity, hs, hop⟩
  | next | goto => cases h
  | call | builtin | defer =>
      obtain ⟨_, m₂, -, h⟩ := bind_eq_ok.mp h
      cases h

-- A run that comes to its end made a last step.
theorem exists_last_of_run (h : p.run n steps (some id) m = .ok () m') :
    ∃ n' i m₁ k, p.RunLeads steps n (some id) m (n' + 1) (some i) m₁ ∧
      p.advance n' steps i m₁ = .ok k m' ∧ (k = none ∨ k = some none) := by
  induction n generalizing id m with
  | zero =>
      rw [run_zero] at h
      cases h
  | succ n ih =>
      rw [run_succ] at h
      cases hr : p.advance n steps id m with
      | error u m₁ =>
          rw [hr] at h
          cases h
      | ok k m₁ =>
          rw [hr] at h
          match k, hr, h with
          | none, hr, h =>
              cases h
              exact ⟨n, id, m, none, .refl .., hr, .inl rfl⟩
          | some none, hr, h =>
              dsimp only at h
              rw [run_none] at h
              cases h
              exact ⟨n, id, m, some none, .refl .., hr, .inr rfl⟩
          | some (some j), hr, h =>
              obtain ⟨n', i, m₂, k, hleads, hlast⟩ := ih h
              exact ⟨n', i, m₂, k, .step hr hleads, hlast⟩

section detached

variable {e d : StepId}

-- From a step of a chain, a run does not leave it, and goes forward.
theorem RunLeads.inChain (hl : p.RunLeads steps n k m n' k' m') (hdetached : Detached steps)
    (hdefers : DefersFrom steps e d) (hk : k = some id) (hid : InChain e d id) :
    ∀ i, k' = some i → InChain e d i ∧ n + id ≤ n' + i := by
  induction hl generalizing id with
  | refl =>
      rintro i rfl
      cases hk
      exact ⟨hid, Nat.le_refl _⟩
  | @step n n' id' k k' m m₁ m' hstep hrest ih =>
      cases hk
      rintro i rfl
      obtain ⟨edge, hedge⟩ := leadsTo_of_advance hstep
      cases k with
      | none => cases hrest
      | some j =>
          obtain ⟨hin, hle⟩ := ih rfl ((hdetached.edge e d hdefers _ j hedge).mp hid) i rfl
          have hlt : id' < j := hdetached.forward e d hdefers _ j hedge hid
          refine ⟨hin, ?_⟩
          calc n + 1 + id' = n + (id' + 1) := by omega
            _ ≤ n + j := Nat.add_le_add_left hlt n
            _ ≤ n' + i := hle

-- From any other step, it does not enter one.
theorem RunLeads.outside (hl : p.RunLeads steps n k m n' k' m') (hdetached : Detached steps)
    (hk : k = some id) (hid : OutsideChains steps id) : ∀ i, k' = some i →
    OutsideChains steps i := by
  induction hl generalizing id with
  | refl =>
      rintro i rfl
      cases hk
      exact hid
  | @step n n' id' k k' m m₁ m' hstep hrest ih =>
      cases hk
      rintro i rfl
      obtain ⟨edge, hedge⟩ := leadsTo_of_advance hstep
      cases k with
      | none => cases hrest
      | some j =>
          refine ih rfl (fun e d hdefers hin => ?_) i rfl
          exact hid e d hdefers ((hdetached.edge e d hdefers _ j hedge).mpr hin)

-- The run of a chain ends where a step of the chain leads nowhere.
theorem run_chain (hdetached : Detached steps) (hdefers : DefersFrom steps e d)
    (h : p.run n steps (some e) m = .ok () m') :
    ∃ n' i m₁, p.RunLeads steps n (some e) m (n' + 1) (some i) m₁ ∧ InChain e d i ∧
      p.advance n' steps i m₁ = .ok (some none) m' := by
  obtain ⟨n', i, m₁, k, hleads, hlast, hk⟩ := exists_last_of_run h
  have hentry : InChain e d e := ⟨Nat.le_refl _, (hdetached.entry e d hdefers).2⟩
  have hin := (hleads.inChain hdetached hdefers rfl hentry i rfl).1
  refine ⟨n', i, m₁, hleads, hin, ?_⟩
  rcases hk with rfl | rfl
  · obtain ⟨s, arity, hs, hop⟩ := ret_of_advance hlast
    have hplain := hdetached.plain e d hdefers i s hin hs
    rw [hop] at hplain
    cases hplain
  · exact hlast

end detached

end Program

-- In every function that is built, with those of the literals in it, the steps that compute the
-- operands of a deferred call are on their own. Where the call is deferred, a run of them stops
-- among them, and any other run passes them by.
theorem deferred_calls_are_detached {o : Origin} {names : Names} {code : Array Function}
    {ref : CodeRef} {b : Builder} (h : o.build (.start names code o.sig) = .ok ref b) {i : Nat}
    {f : Function} (hf : b.code[i]? = some f) (hi : code.size ≤ i) :
    (∀ e d, DefersFrom f.steps e d → e < d ∧ ¬ InChain e d 0 ∧
      ∀ x j, LeadsTo f.steps x (some j) → (InChain e d x.step ↔ InChain e d j)) ∧
    (∀ e d e' d', DefersFrom f.steps e d → DefersFrom f.steps e' d' → d ≠ d' → ∀ i, InChain e d i →
      ¬ InChain e' d' i) ∧
    ∀ p : Program,
      (∀ e d, DefersFrom f.steps e d → ∀ n m,
        (∀ n' i m', p.RunLeads f.steps n (some e) m n' (some i) m' → InChain e d i ∧
          n + e ≤ n' + i) ∧
        ∀ m', p.run n f.steps (some e) m = .ok () m' → ∃ n' i m₁,
          p.RunLeads f.steps n (some e) m (n' + 1) (some i) m₁ ∧ InChain e d i ∧
          p.advance n' f.steps i m₁ = .ok (some none) m') ∧
      ∀ n m n' i m', p.RunLeads f.steps n (some 0) m n' (some i) m' → OutsideChains f.steps i := by
  obtain ⟨o', names', around, hmakes⟩ := (Origin.code_build h).2 i f hf hi
  obtain ⟨hdetached, -⟩ := hmakes.detached
  have hfirst : OutsideChains f.steps 0 := fun e d hd hin =>
    absurd (hdetached.entry e d hd).1 (Nat.not_lt.mpr hin.1)
  refine ⟨fun e d hd => ⟨(hdetached.entry e d hd).2, hfirst e d hd, hdetached.edge e d hd⟩,
    fun e d e' d' hd hd' hne i hin => hdetached.disjoint hd hd' hne hin, fun p =>
      ⟨fun e d hd n m => ⟨fun n' i m' hl => ?_,
      fun m' hrun => Program.run_chain hdetached hd hrun⟩,
      fun n m n' i m' hl => hl.outside hdetached rfl hfirst i rfl⟩⟩
  exact hl.inChain hdetached hd rfl ⟨Nat.le_refl _, (hdetached.entry e d hd).2⟩ i rfl

-- `defer println(text)`
def printLater (text : String) : Stmt :=
  .defer Span.none (.call Note.empty (.ident Note.empty "println")
    [.lit Note.empty (.str text)] false)

-- Two calls are deferred, with one step for the operand of each. No run comes to these steps from
-- the first one.
def entriesOfDefers : Option (Array (Option StepId)) :=
  match (Origin.literal .empty [printLater "a", printLater "b"]).build
      (.start ⟨.empty, .initial, []⟩ #[] .empty) with
  | .ok _ b => b.code[0]?.map fun f => f.steps.map fun s => s.op.entry?
  | .error _ _ => none

theorem two_chains_are_detached : ∃ (ref : CodeRef) (b : Builder) (f : Function),
    (Origin.literal .empty [printLater "a", printLater "b"]).build
      (.start ⟨.empty, .initial, []⟩ #[] .empty) = .ok ref b ∧
    b.code[0]? = some f ∧ DefersFrom f.steps 1 2 ∧ DefersFrom f.steps 3 4 ∧
    ∀ (p : Program) n m n' i m', p.RunLeads f.steps n (some 0) m n' (some i) m' → i ≠ 1 ∧
    i ≠ 3 := by
  have hentries : entriesOfDefers = some #[none, none, some 1, none, some 3] := by decide +kernel
  unfold entriesOfDefers at hentries
  split at hentries
  · next ref b hb =>
      obtain ⟨f, hf, hentries⟩ := Option.map_eq_some_iff.mp hentries
      have hdefers : ∀ e d, (f.steps.map fun s => s.op.entry?)[d]? = some (some e) →
          DefersFrom f.steps e d := by
        intro e d h
        rw [Array.getElem?_map, Option.map_eq_some_iff] at h
        exact h
      rw [hentries] at hdefers
      have hfirst := hdefers 1 2 rfl
      have hsecond := hdefers 3 4 rfl
      obtain ⟨-, -, hruns⟩ := deferred_calls_are_detached hb hf (Nat.zero_le 0)
      refine ⟨ref, b, f, hb, hf, hfirst, hsecond, fun p n m n' i m' hl => ?_⟩
      have hout := (hruns p).2 n m n' i m' hl
      constructor
      · rintro rfl
        exact hout 1 2 hfirst (by decide)
      · rintro rfl
        exact hout 3 4 hsecond (by decide)
  · cases hentries

end StepGraph

namespace StepGraph

def StepOp.isJump : StepOp → Bool
  | jump _ => true
  | _ => false

@[simp] theorem StepOp.isJump_bare (op : StepOp) : op.bare.isJump = op.isJump := by cases op <;> rfl

@[simp] theorem StepOp.isRangeNext_bare (op : StepOp) : op.bare.isRangeNext = op.isRangeNext := by
  cases op <;> rfl

-- The number of jumps before a step.
def jumpsBefore (steps : Array Step) (i : StepId) : Nat :=
  (steps.toList.take i).countP (·.op.isJump)

-- The mark for which a jump was emitted. The jumps of a function stand in the order of its marks.
def markAt? (marks : List Mark) (steps : Array Step) (i : StepId) : Option Mark :=
  if steps[i]?.any (·.op.isJump) then (marks.filter (·.isJump))[jumpsBefore steps i]? else none

-- A jump with this mark may lead to a step that is not behind it.
def Mark.MayReturn (steps : Array Step) (j : StepId) : Mark → Prop
  | round | goto .. => True
  | again => ∃ s, steps[j]? = some s ∧ s.op.isRangeNext = true
  | label .. | leave => False

-- Whatever leads to a step that is not behind it is the jump of a loop back to its head, of a
-- `continue` to where a loop takes the next element, or of a `goto`.
def ReturnsByMarks (marks : List Mark) (steps : Array Step) : Prop :=
  ∀ x j, LeadsTo steps x (some j) → j ≤ x.step → x.edge = .next ∧
    ∃ mark, markAt? marks steps x.step = some mark ∧ mark.MayReturn steps j

section steps

variable {steps steps' : Array Step} {i n : Nat} {s : Step} {marks : List Mark} {mark : Mark}

theorem jumpsBefore_succ (hs : steps[i]? = some s) :
    jumpsBefore steps (i + 1) = jumpsBefore steps i + if s.op.isJump then 1 else 0 := by
  have hlist : steps.toList[i]? = some s := by rw [Array.getElem?_toList, hs]
  unfold jumpsBefore
  rw [List.take_add_one, hlist, List.countP_append]
  cases hjump : s.op.isJump <;> simp [hjump]

theorem jumpsBefore_congr (hn : n ≤ steps.size) (h : ∀ (i : StepId) (s : Step), steps[i]? = some s →
    ∃ s' : Step, steps'[i]? = some s' ∧ s'.op.isJump = s.op.isJump) :
    jumpsBefore steps' n = jumpsBefore steps n := by
  induction n with
  | zero => rfl
  | succ n ih =>
      have hs := Array.getElem?_eq_getElem (show n < steps.size from hn)
      obtain ⟨s', hs', hsame⟩ := h n _ hs
      rw [jumpsBefore_succ hs, jumpsBefore_succ hs', hsame, ih (Nat.le_of_succ_le hn)]

theorem markAt_eq_some (h : markAt? marks steps i = some mark) :
    (∃ s, steps[i]? = some s ∧ s.op.isJump = true) ∧
      (marks.filter (·.isJump))[jumpsBefore steps i]? = some mark := by
  unfold markAt? at h
  split at h
  · next hany => exact ⟨by simpa [Option.any_eq_true] using hany, h⟩
  · cases h

theorem markAt_of_jump (hs : steps[i]? = some s) (hjump : s.op.isJump = true) :
    markAt? marks steps i = (marks.filter (·.isJump))[jumpsBefore steps i]? := by
  unfold markAt?
  rw [hs, Option.any_some, hjump, if_pos rfl]

-- Later jumps and marks do not matter.
theorem markAt_mono (h : markAt? marks steps i = some mark) (more : List Mark)
    (hkeeps : ∀ (i : StepId) (s : Step), steps[i]? = some s →
      ∃ s' : Step, steps'[i]? = some s' ∧ s'.op.isJump = s.op.isJump) :
    markAt? (marks ++ more) steps' i = some mark := by
  obtain ⟨⟨s, hs, hjump⟩, hmark⟩ := markAt_eq_some h
  obtain ⟨s', hs', hsame⟩ := hkeeps i s hs
  have hlt := (Array.getElem?_eq_some_iff.mp hs).1
  rw [markAt_of_jump hs' (hsame.trans hjump), jumpsBefore_congr (Nat.le_of_lt hlt) hkeeps,
    List.filter_append, List.getElem?_append_left (List.getElem?_eq_some_iff.mp hmark).1, hmark]

theorem StepsExtend.keeps_isJump (h : StepsExtend steps steps') (i : StepId) (s : Step)
    (hs : steps[i]? = some s) : ∃ s' : Step, steps'[i]? = some s' ∧ s'.op.isJump = s.op.isJump := by
  obtain ⟨s', hs', hbelow⟩ := h i s hs
  exact ⟨s', hs', by rw [← StepOp.isJump_bare, hbelow.bare, StepOp.isJump_bare]⟩

theorem Mark.MayReturn.mono {j : StepId} (h : mark.MayReturn steps j)
    (hkeeps : ∀ (i : StepId) (s : Step), steps[i]? = some s → ∃ s' : Step, steps'[i]? = some s' ∧
      (s.op.isRangeNext = true → s'.op.isRangeNext = true)) : mark.MayReturn steps' j := by
  cases mark with
  | again =>
      obtain ⟨s, hs, hrange⟩ := h
      obtain ⟨s', hs', hkept⟩ := hkeeps j s hs
      exact ⟨s', hs', hkept hrange⟩
  | _ => exact h

theorem StepsExtend.keeps_isRangeNext (h : StepsExtend steps steps') (i : StepId) (s : Step)
    (hs : steps[i]? = some s) : ∃ s' : Step, steps'[i]? = some s' ∧
      (s.op.isRangeNext = true → s'.op.isRangeNext = true) := by
  obtain ⟨s', hs', hbelow⟩ := h i s hs
  refine ⟨s', hs', fun hrange => ?_⟩
  rw [← StepOp.isRangeNext_bare, hbelow.bare, StepOp.isRangeNext_bare, hrange]

end steps

open Build

-- The successors of jumps to the next round of a loop.
def Site.rounds (s : Site) (b : Builder) : List Slot :=
  (s.held.filter (·.again)).map (·.slot) ++ b.contexts.flatMap (·.continues)

theorem Site.mem_rounds {s : Site} {b : Builder} {x : Slot} : x ∈ s.rounds b ↔
    (∃ y ∈ s.held, y.again = true ∧ y.slot = x) ∨ x ∈ b.contexts.flatMap (·.continues) := by
  simp only [rounds, List.mem_append, List.mem_map, List.mem_filter, and_assoc]

-- Part of what was set aside is still there.
theorem Site.rounds_subset {s s' : Site} {b b' : Builder} (hheld : s'.held ⊆ s.held)
    (hcontexts : b'.contexts = b.contexts) : s'.rounds b' ⊆ s.rounds b := by
  intro x hx
  rw [mem_rounds] at hx ⊢
  rw [hcontexts] at hx
  exact hx.imp_left fun ⟨y, hy, hagain, hslot⟩ => ⟨y, hheld hy, hagain, hslot⟩

-- The jumps so far are those of the marks, and so are the edges back.
structure JumpsTold (marks : List Mark) (s : Site) (b : Builder) : Prop where
  jumps : jumpsBefore b.steps b.steps.size = (marks.filter (·.isJump)).length
  returns : ReturnsByMarks marks b.steps
  backward : ∀ x j, LeadsTo b.steps x (some j) → j ≤ x.step → ∃ mark ∈ marks, mark.isBackward
  rounds : ∀ x ∈ s.rounds b, x.edge = .next ∧ markAt? marks b.steps x.step = some .again
  gotos : ∀ g ∈ b.gotos, ∃ l n, markAt? marks b.steps g.jump = some (.goto l n)
  heads : ∀ x ∈ s.heads, x.ranges = true → ∃ u, b.steps[x.step]? = some u ∧ u.op.isRangeNext = true

namespace JumpsTold

variable {marks ms : List Mark} {s s' : Site} {b b' b₁ : Builder} {op : StepOp} {id : StepId}

theorem of_subset (h : JumpsTold marks s b) (hsteps : b'.steps = b.steps)
    (hrounds : s'.rounds b' ⊆ s.rounds b) (hgotos : b'.gotos = b.gotos)
    (hheads : s'.heads ⊆ s.heads) : JumpsTold marks s' b' := by
  refine ⟨hsteps ▸ h.jumps, hsteps ▸ h.returns, hsteps ▸ h.backward, fun x hx => ?_,
    fun g hg => ?_, fun x hx => ?_⟩
  · exact hsteps ▸ h.rounds x (hrounds hx)
  · exact hsteps ▸ h.gotos g (hgotos ▸ hg)
  · exact hsteps ▸ h.heads x (hheads hx)

-- What is known of earlier steps is not lost.
theorem extended (h : JumpsTold marks s b) (he : StepsExtend b.steps b'.steps)
    (hjumps : jumpsBefore b'.steps b'.steps.size = (marks.filter (·.isJump)).length)
    (hreturns : ReturnsByMarks marks b'.steps)
    (hbackward : ∀ x j, LeadsTo b'.steps x (some j) → j ≤ x.step → ∃ mark ∈ marks, mark.isBackward)
    (hrounds : s'.rounds b' ⊆ s.rounds b) (hgotos : b'.gotos = b.gotos)
    (hheads : s'.heads ⊆ s.heads) : JumpsTold marks s' b' := by
  have hmark : ∀ {i mark}, markAt? marks b.steps i = some mark →
      markAt? marks b'.steps i = some mark := fun h => by
    have hmono := markAt_mono h [] he.keeps_isJump
    rwa [List.append_nil] at hmono
  refine ⟨hjumps, hreturns, hbackward, fun x hx => ?_, fun g hg => ?_, fun x hx hranges => ?_⟩
  · obtain ⟨hedge, hmark'⟩ := h.rounds x (hrounds hx)
    exact ⟨hedge, hmark hmark'⟩
  · obtain ⟨l, n, hmark'⟩ := h.gotos g (hgotos ▸ hg)
    exact ⟨l, n, hmark hmark'⟩
  · obtain ⟨u, hu, hrange⟩ := h.heads x (hheads hx) hranges
    obtain ⟨u', hu', hkept⟩ := he.keeps_isRangeNext _ u hu
    exact ⟨u', hu', hkept hrange⟩

theorem jumps_emitted (h : JumpsTold marks s b) (he : Emitted op b id b₁) :
    jumpsBefore b₁.steps id = (marks.filter (·.isJump)).length ∧
      jumpsBefore b₁.steps b₁.steps.size =
        (marks.filter (·.isJump)).length + if op.isJump then 1 else 0 := by
  obtain ⟨u, hu, hbare⟩ := he.step
  have hjump : u.op.isJump = op.isJump := by
    rw [← StepOp.isJump_bare, hbare, StepOp.isJump_bare]
  have hbefore : jumpsBefore b₁.steps id = (marks.filter (·.isJump)).length := by
    rw [he.id_eq, jumpsBefore_congr (Nat.le_refl _) he.extend.keeps_isJump, h.jumps]
  refine ⟨hbefore, ?_⟩
  rw [he.size_eq, ← he.id_eq, jumpsBefore_succ hu, hbefore, hjump]

-- A new jump has the new mark.
theorem markAt_emitted (h : JumpsTold marks s b) (he : Emitted op b id b₁)
    (hjump : op.isJump = true) {mark : Mark} (hmark : mark.isJump = true) :
    markAt? (marks ++ [mark]) b₁.steps id = some mark := by
  obtain ⟨u, hu, hbare⟩ := he.step
  rw [← StepOp.isJump_bare, ← hbare, StepOp.isJump_bare] at hjump
  rw [markAt_of_jump hu hjump, (h.jumps_emitted he).1, List.filter_append,
    List.getElem?_append_right (Nat.le_refl _), Nat.sub_self]
  simp [hmark]

theorem emitted (h : JumpsTold marks s b) (hl : Linear s b) (he : Emitted op b id b₁)
    (hother : op.other? = none)
    (hms : (ms.filter (·.isJump)).length = if op.isJump then 1 else 0)
    (hsteps : b'.steps = b₁.steps)
    (hrounds : ∀ x ∈ s'.rounds b', x ∈ s.rounds b ∨ x = ⟨id, .next⟩ ∧ ms = [.again])
    (hgotos : ∀ g ∈ b'.gotos, g ∈ b.gotos ∨ g.jump = id ∧ ∃ l n, ms = [.goto l n])
    (hheads : ∀ x ∈ s'.heads, x ∈ s.heads ∨
      x.step = id ∧ (x.ranges = true → op.isRangeNext = true)) : JumpsTold (marks ++ ms) s' b' := by
  have hjumps := h.jumps_emitted he
  have hmark : ∀ {mark}, ms = [mark] → mark.isJump = true →
      markAt? (marks ++ ms) b₁.steps id = some mark := by
    rintro mark rfl hmark
    refine h.markAt_emitted he ?_ hmark
    by_contra hjump
    rw [if_neg hjump, List.filter_cons_of_pos hmark] at hms
    cases hms
  -- What comes to the new step was there before it.
  have hback : ∀ x j, LeadsTo b₁.steps x (some j) → j ≤ x.step →
      LeadsTo b.steps x (some j) := by
    intro x j hx hle
    rcases he.edge hother hx with hold | ⟨hpending, rfl⟩
    · exact hold
    · have hlt := hl.lt_size (List.mem_append_left _ hpending)
      rw [← he.id_eq] at hlt
      exact absurd hle (Nat.not_le.mpr hlt)
  refine ⟨?_, fun x j hx hle => ?_, fun x j hx hle => ?_, fun x hx => ?_, fun g hg => ?_,
    fun x hx hranges => ?_⟩
  · rw [hsteps, hjumps.2, List.filter_append, List.length_append, hms]
  · rw [hsteps] at hx ⊢
    obtain ⟨hedge, mark, hmark, hreturn⟩ := h.returns x j (hback x j hx hle) hle
    exact ⟨hedge, mark, markAt_mono hmark ms he.extend.keeps_isJump,
      hreturn.mono he.extend.keeps_isRangeNext⟩
  · rw [hsteps] at hx
    obtain ⟨mark, hmem, hbackward⟩ := h.backward x j (hback x j hx hle) hle
    exact ⟨mark, List.mem_append_left _ hmem, hbackward⟩
  · rw [hsteps]
    rcases hrounds x hx with hx | ⟨rfl, hagain⟩
    · obtain ⟨hedge, hmark⟩ := h.rounds x hx
      exact ⟨hedge, markAt_mono hmark ms he.extend.keeps_isJump⟩
    · exact ⟨rfl, hmark hagain rfl⟩
  · rw [hsteps]
    rcases hgotos g hg with hg | ⟨rfl, l, n, hgoto⟩
    · obtain ⟨l, n, hmark⟩ := h.gotos g hg
      exact ⟨l, n, markAt_mono hmark ms he.extend.keeps_isJump⟩
    · exact ⟨l, n, hmark hgoto rfl⟩
  · rw [hsteps]
    rcases hheads x hx with hx | ⟨hid, hrange⟩
    · obtain ⟨u, hu, hrange⟩ := h.heads x hx hranges
      obtain ⟨u', hu', hkept⟩ := he.extend.keeps_isRangeNext _ u hu
      exact ⟨u', hu', hkept hrange⟩
    · obtain ⟨u, hu, hbare⟩ := he.step
      refine ⟨u, hid ▸ hu, ?_⟩
      rw [← StepOp.isRangeNext_bare, hbare, StepOp.isRangeNext_bare, hrange hranges]

-- Jumps are linked to a step to which they may return.
theorem linked {slots : List Slot} {t : StepId} {steps : Array Step} (h : JumpsTold marks s b)
    (hl : Linked b.steps slots t steps) (hmarks : ∃ mark ∈ marks, mark.isBackward = true)
    (hslots : ∀ x ∈ slots, x.edge = .next ∧
      ∃ mark, markAt? marks b.steps x.step = some mark ∧ mark.MayReturn b.steps t)
    (hsteps : b'.steps = steps) (hrounds : s'.rounds b' ⊆ s.rounds b) (hgotos : b'.gotos = b.gotos)
    (hheads : s'.heads ⊆ s.heads) : JumpsTold marks s' b' := by
  subst hsteps
  have hmono : ∀ {i mark}, markAt? marks b.steps i = some mark →
      markAt? marks b'.steps i = some mark := fun h => by
    have hmono := markAt_mono h [] hl.extend.keeps_isJump
    rwa [List.append_nil] at hmono
  refine h.extended hl.extend ?_ (fun x j hx hle => ?_) (fun _ _ _ _ => hmarks) hrounds hgotos hheads
  · rw [hl.size, jumpsBefore_congr (Nat.le_refl _) hl.extend.keeps_isJump, h.jumps]
  · obtain ⟨hedge, mark, hmark, hreturn⟩ : x.edge = .next ∧
        ∃ mark, markAt? marks b.steps x.step = some mark ∧ mark.MayReturn b.steps j := by
      rcases hl.edge hx with hx | ⟨hx, rfl⟩
      · exact h.returns x j hx hle
      · exact hslots x hx
    exact ⟨hedge, mark, hmono hmark, hreturn.mono hl.extend.keeps_isRangeNext⟩

end JumpsTold

theorem flatMap_continues_leaving {p : JumpContext → Bool} {contexts : List JumpContext} (slot : Slot) :
    (modifyContext p (.leaving slot) contexts).flatMap (·.continues) =
      contexts.flatMap (·.continues) := by
  induction contexts with
  | nil => rfl
  | cons c rest ih =>
      unfold modifyContext
      split
      · rfl
      · rw [List.flatMap_cons, List.flatMap_cons, ih]

theorem mem_continues_repeating {p : JumpContext → Bool} {contexts : List JumpContext} {slot x : Slot}
    (hx : x ∈ (modifyContext p (.repeating slot) contexts).flatMap (·.continues)) :
    x ∈ contexts.flatMap (·.continues) ∨ x = slot := by
  induction contexts with
  | nil => cases hx
  | cons c rest ih =>
      unfold modifyContext at hx
      rw [List.flatMap_cons, List.mem_append]
      split at hx
      · rw [List.flatMap_cons, JumpContext.repeating, List.append_assoc, List.mem_append,
          List.mem_append, List.mem_singleton] at hx
        tauto
      · rw [List.flatMap_cons, List.mem_append] at hx
        exact hx.elim (.inl ∘ .inl) fun hx => (ih hx).imp_left .inr

theorem StepOp.isJump_of_isPlain {op : StepOp} (h : op.isPlain = true) : op.isJump = false := by
  cases op <;> first | rfl | cases h

namespace JumpsTold

variable {marks : List Mark} {s s' : Site} {b b' b₁ : Builder} {op : StepOp} {id : StepId}

-- Nothing is marked.
theorem unmarked (h : JumpsTold marks s b) : JumpsTold (marks ++ []) s b :=
  (List.append_nil marks).symm ▸ h

theorem taken (h : JumpsTold marks s b) :
    JumpsTold marks { s with held := b.pending.map s.loose ++ s.held } { b with pending :=
  [] } := by
  refine h.of_subset rfl (fun x hx => ?_) rfl (List.Subset.refl _)
  simpa [Site.rounds, Site.loose] using hx

theorem pushed {c : JumpContext} (h : JumpsTold marks s b) (hcontinues : c.continues = []) :
    JumpsTold marks { s with contexts := c :: s.contexts } { b with contexts :=
  c :: b.contexts } := by
  refine h.of_subset rfl (fun x hx => ?_) rfl (List.Subset.refl _)
  simpa [Site.rounds, hcontinues] using hx

theorem popped {c : JumpContext} {rest : List JumpContext} (h : JumpsTold marks s b)
    (hcontexts : b.contexts = c :: rest) : JumpsTold marks
      { s with
        contexts := s.contexts.tail
        held := c.breaks.map (.exit c.breakDepth) ++
          (c.continues.map (.round c.continueDepth) ++ s.held) }
      { b with contexts := rest } := by
  refine h.of_subset rfl (fun x hx => ?_) rfl (List.Subset.refl _)
  simp only [Site.rounds, hcontexts, List.filter_append, List.map_append, List.filter_map,
    List.map_map, Function.comp_def, Loose.exit, Loose.round, List.filter_false,
    List.filter_true, List.map_nil, List.map_id', List.nil_append, List.flatMap_cons,
    List.mem_append] at hx ⊢
  tauto

theorem emitted_plain {rest : List Item} (h : JumpsTold marks s b) (hl : Linear s b)
    (hop : op.isPlain = true) (he : Emitted op b id b₁) :
    JumpsTold (marks ++ []) (s.emitted op rest id)
      { b₁ with depth := op.depthEmitted b.depth } := by
  refine h.emitted hl he (StepOp.other?_of_isPlain hop) ?_ rfl (fun x hx => .inl ?_)
    (fun g hg => .inl (he.gotos ▸ hg)) fun x hx => ?_
  · rw [StepOp.isJump_of_isPlain hop]
    rfl
  · rw [Site.mem_rounds] at hx ⊢
    rw [he.contexts] at hx
    refine hx.imp_left ?_
    rintro ⟨y, hy, hagain, hslot⟩
    rcases List.mem_append.mp hy with hy | hy
    · rw [Option.mem_toList, Option.map_eq_some_iff] at hy
      obtain ⟨given, -, rfl⟩ := hy
      cases hagain
    · exact ⟨y, hy, hagain, hslot⟩
  · rcases List.mem_cons.mp hx with rfl | hx
    · exact .inr ⟨rfl, fun h => h⟩
    · exact .inl hx

-- A step that changes nothing else that jumps may come back to.
theorem emitted_quiet {ms : List Mark} (h : JumpsTold marks s b) (hl : Linear s b)
    (he : Emitted op b id b₁) (hother : op.other? = none)
    (hms : (ms.filter (·.isJump)).length = if op.isJump then 1 else 0) (hsteps : b'.steps = b₁.steps)
    (hcontexts : b'.contexts.flatMap (·.continues) = b₁.contexts.flatMap (·.continues))
    (hheld : s'.held = s.held) (hheads : s'.heads = s.heads)
    (hgotos : ∀ g ∈ b'.gotos, g ∈ b₁.gotos ∨ g.jump = id ∧ ∃ l n, ms = [.goto l n]) :
    JumpsTold (marks ++ ms) s' b' := by
  refine h.emitted hl he hother hms hsteps (fun x hx => .inl ?_)
    (fun g hg => he.gotos ▸ hgotos g hg) fun x hx => .inl (hheads ▸ hx)
  rw [Site.mem_rounds] at hx ⊢
  rwa [hcontexts, he.contexts, hheld] at hx

-- The jump back is emitted, then it and the other jumps are linked to the head.
theorem rounded {d : Nat} {head : Head} {moved held : List Loose} {steps steps' : Array Step}
    (h : JumpsTold marks s b) (hl : Linear s b) (hhead : head ∈ s.heads)
    (he : Emitted (.jump d) b id b₁)
    (hlinked : Linked b₁.steps [⟨id, .next⟩] head.step steps) (hheld : s.held.Perm (moved ++ held))
    (hmoved : ∀ x ∈ moved, head.ranges = true ∧ x.again = true)
    (hrounds : Linked steps (moved.map (·.slot)) head.step steps') :
    JumpsTold (marks ++ [.round]) { s with held } { b₁ with pending := [], steps := steps' } := by
  have hjumped : JumpsTold (marks ++ [.round]) s { b₁ with pending := [] } :=
    h.emitted_quiet hl he rfl rfl rfl rfl rfl rfl fun _ => .inl
  have hmarks : ∃ mark ∈ marks ++ [Mark.round], mark.isBackward = true :=
    ⟨.round, List.mem_append_right _ List.mem_cons_self, rfl⟩
  have hback : JumpsTold (marks ++ [.round]) s { b₁ with pending := [], steps } := by
    refine hjumped.linked hlinked hmarks (fun x hx => ?_) rfl (fun _ hx => hx) rfl fun _ hx => hx
    obtain rfl := List.mem_singleton.mp hx
    exact ⟨rfl, .round, h.markAt_emitted he rfl rfl, trivial⟩
  refine hback.linked hrounds hmarks (fun x hx => ?_) rfl (Site.rounds_subset (fun x hx => ?_) rfl) rfl
    fun _ hx => hx
  · obtain ⟨y, hy, rfl⟩ := List.mem_map.mp hx
    obtain ⟨hranges, hagain⟩ := hmoved y hy
    obtain ⟨hedge, hmark⟩ := hback.rounds y.slot <| Site.mem_rounds.mpr <|
      .inl ⟨y, hheld.mem_iff.mpr (List.mem_append_left _ hy), hagain, rfl⟩
    exact ⟨hedge, .again, hmark, hback.heads head hhead hranges⟩
  · exact hheld.mem_iff.mpr (List.mem_append_right _ hx)

end JumpsTold

theorem Progress.told {stage : Stage} {s s' : Site} {b b' : Builder} {marks : List Mark}
    {starts : List StepId} (h : Progress stage s b marks starts s' b') {before : List Mark}
    (hl : Linear s b) (ht : JumpsTold before s b) : JumpsTold (before ++ marks) s' b' := by
  induction h generalizing before with
  | refl | start => exact ht.unmarked
  | names | flag | literal =>
      exact .unmarked (ht.of_subset rfl (List.Subset.refl _) rfl (List.Subset.refl _))
  | trans hfirst _ ih₁ ih₂ =>
      rw [← List.append_assoc]
      exact ih₂ (hfirst.linear hl) (ih₁ hl ht)
  | forget heads hheads => exact .unmarked (ht.of_subset rfl (List.Subset.refl _) rfl hheads)
  | take => exact ht.taken.unmarked
  | put moved held hheld _ | drop moved held hheld _ =>
      refine .unmarked (ht.of_subset rfl (Site.rounds_subset (fun x hx => ?_) rfl) rfl
        (List.Subset.refl _))
      exact hheld.mem_iff.mpr (List.mem_append_right _ hx)
  | push c hbreaks hcontinues => exact (ht.pushed hcontinues).unmarked
  | pop hcontexts => exact (ht.popped hcontexts).unmarked
  | emit hop he => exact ht.emitted_plain hl hop.plain he
  | ret _ he => exact ht.emitted_quiet hl he rfl rfl rfl rfl rfl rfl fun _ => .inl
  | leave _ _ _ he =>
      exact ht.emitted_quiet hl he rfl rfl rfl (flatMap_continues_leaving _) rfl rfl fun _ => .inl
  | @again s b b₁ p c id _ _ _ he =>
      refine ht.emitted hl he rfl rfl rfl (fun x hx => ?_) (fun g hg => .inl (he.gotos ▸ hg))
        fun x hx => .inl hx
      rw [Site.mem_rounds] at hx ⊢
      rcases hx with hx | hx
      · exact .inl (.inl hx)
      · exact (mem_continues_repeating hx).imp (fun hx => .inr (he.contexts ▸ hx)) fun hx => ⟨hx, rfl⟩
  | @goto s b b₁ id l span _ he =>
      refine ht.emitted_quiet hl he rfl rfl rfl rfl rfl rfl fun g hg => ?_
      exact (List.mem_append.mp hg).imp_right fun hg =>
        ⟨congrArg (·.jump) (List.mem_singleton.mp hg), l, s.depth, rfl⟩
  | label _ _ _ he => exact ht.emitted_quiet hl he rfl rfl rfl rfl rfl rfl fun _ => .inl
  | round hhead _ _ _ he hlinked hheld hmoved hrounds =>
      exact ht.rounded hl hhead he hlinked hheld
        (fun x hx => ⟨(hmoved x hx).1, (hmoved x hx).2.2.2⟩) hrounds
  | @defer s b b₁ b₂ args spread builtin id hpos _ hchain hsome he ih =>
      have hinner : JumpsTold before { s with held := [], heads := [] } { b with pending := [] } :=
        ht.of_subset rfl (Site.rounds_subset (List.nil_subset _) rfl) rfl (List.nil_subset _)
      have hafter := ih hl.inner hinner
      rw [List.append_nil] at hafter
      obtain ⟨-, hapart⟩ := hchain.since (by simp) (.apart (Nat.le_refl b.steps.size) rfl)
      have haround : JumpsTold before s { b₁ with pending := b.pending } :=
        ht.extended hchain.extend hafter.jumps hafter.returns hafter.backward
          (Site.rounds_subset (List.Subset.refl _) hapart.contexts) hapart.gotos (List.Subset.refl _)
      exact haround.emitted_quiet (hchain.linear_around hl) he rfl rfl rfl rfl rfl rfl fun _ => .inl

theorem StepOp.isRangeNext_of_isJump {op : StepOp} (h : op.isJump = true) :
    op.isRangeNext = false := by
  cases op <;> first | rfl | cases h

-- The jumps to labels stay jumps.
theorem GotosResolve.keeps {labels : List (String × LabelTarget)} {gotos : List PendingGoto}
    {steps steps' : Array Step} (h : GotosResolve labels gotos steps steps')
    (hgotos : ∀ g ∈ gotos, ∃ s, steps[g.jump]? = some s ∧ s.op.isJump = true) {i : StepId} {s : Step}
    (hs : steps[i]? = some s) : ∃ s', steps'[i]? = some s' ∧ s'.op.isJump = s.op.isJump ∧
      (s.op.isRangeNext = true → s'.op.isRangeNext = true) := by
  have hlt : i < steps'.size := h.size ▸ (Array.getElem?_eq_some_iff.mp hs).1
  refine ⟨_, Array.getElem?_eq_getElem hlt, ?_⟩
  obtain ⟨s₁, hs₁, hbare | ⟨g, hg, rfl, target, -, hop⟩⟩ := h.step (Array.getElem?_eq_getElem hlt)
  · cases hs.symm.trans hs₁
    rw [← StepOp.isJump_bare, hbare, StepOp.isJump_bare, ← StepOp.isRangeNext_bare steps'[i].op,
      hbare, StepOp.isRangeNext_bare]
    exact ⟨rfl, id⟩
  · obtain ⟨s₂, hs₂, hjump⟩ := hgotos g hg
    cases hs.symm.trans hs₂
    rw [hop, hjump, StepOp.isRangeNext_of_isJump hjump]
    exact ⟨rfl, nofun⟩

-- A function at the end of the work on it: its jumps are those of its marks, and so are the edges
-- back.
theorem Origin.Makes.told {o : Origin} {names : Names} {code : Array Function} {types : TypeTable}
    {f : Function} (h : o.Makes names code types f) :
    jumpsBefore f.steps f.steps.size = ((marksOf o.body 0).filter (·.isJump)).length ∧
      ReturnsByMarks (marksOf o.body 0) f.steps ∧
      ∀ x j, LeadsTo f.steps x (some j) → j ≤ x.step →
        ∃ mark ∈ marksOf o.body 0, mark.isBackward = true := by
  obtain ⟨b, hprogress, hresolves, -, -⟩ := h.work
  have hempty : JumpsTold [] .start (.start names code o.sig) := by
    refine ⟨rfl, fun x j hx => ?_, fun x j hx => ?_, nofun, nofun, nofun⟩ <;>
      exact absurd hx.lt_size (Nat.not_lt_zero _)
  have htold : JumpsTold (marksOf o.body 0) .start b :=
    hprogress.told (Build.linear_start ..) hempty
  have hkeeps : ∀ (i : StepId) (s : Step), b.steps[i]? = some s → ∃ s', f.steps[i]? = some s' ∧
      s'.op.isJump = s.op.isJump ∧ (s.op.isRangeNext = true → s'.op.isRangeNext = true) := by
    refine fun i s hs => hresolves.keeps (fun g hg => ?_) hs
    obtain ⟨l, n, hmark⟩ := htold.gotos g hg
    exact (markAt_eq_some hmark).1
  have hjumps : ∀ (i : StepId) (s : Step), b.steps[i]? = some s → ∃ s', f.steps[i]? = some s' ∧
      s'.op.isJump = s.op.isJump := fun i s hs =>
    (hkeeps i s hs).imp fun _ h => ⟨h.1, h.2.1⟩
  have hmark : ∀ {i mark}, markAt? (marksOf o.body 0) b.steps i = some mark →
      markAt? (marksOf o.body 0) f.steps i = some mark := fun h => by
    have hmono := markAt_mono h [] hjumps
    rwa [List.append_nil] at hmono
  refine ⟨?_, fun x j hx hle => ?_, fun x j hx hle => ?_⟩
  · rw [hresolves.size, jumpsBefore_congr (Nat.le_refl _) hjumps, htold.jumps]
  · rcases hresolves.edge hx with hx | ⟨g, hg, rfl, -⟩
    · obtain ⟨hedge, mark, hmark', hreturn⟩ := htold.returns x j hx hle
      refine ⟨hedge, mark, hmark hmark', hreturn.mono fun i s hs => ?_⟩
      exact (hkeeps i s hs).imp fun _ h => ⟨h.1, h.2.2⟩
    · obtain ⟨l, n, hgoto⟩ := htold.gotos g hg
      exact ⟨rfl, .goto l n, hmark hgoto, trivial⟩
  · rcases hresolves.edge hx with hx | ⟨g, hg, rfl, -⟩
    · exact htold.backward x j hx hle
    · obtain ⟨l, n, hgoto⟩ := htold.gotos g hg
      obtain ⟨hmem, -⟩ := List.mem_filter.mp (List.mem_of_getElem? (markAt_eq_some hgoto).2)
      exact ⟨.goto l n, hmem, rfl⟩

end StepGraph

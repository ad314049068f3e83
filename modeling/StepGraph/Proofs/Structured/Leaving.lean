import StepGraph.Proofs.Structured.Nested

open EStateM (bind_eq_ok discard_eq_ok)

namespace StepGraph.Structured

open Build

variable {funcs : Funcs} {result : Option Base} {vars vars' inner : Vars} {w : World}
  {exits : List Exit} {b b' b₁ b₂ : Builder} {k : Option StepId} {declares declares' : Bool}
  {typed : Env × Signal → Prop} {id : StepId} {span : Span} {u : Unit} {label l : Option String}
  {x y : World → Env → Eval (Env × Signal)} {p : JumpContext → Bool} {q : Exit → Bool}
  {f : JumpContext → JumpContext} {steps : Array Step} {c : JumpContext} {slot : Slot}
  {contexts : List JumpContext}

-- A change of the innermost context that a jump concerns.

theorem grow_modifyContext (hf : ∀ c, JumpContext.GainsJumps c (f c))
    (contexts : List JumpContext) :
    ContextsGrow contexts (modifyContext p f contexts) := by
  induction contexts with
  | nil => exact .nil
  | cons c rest ih =>
      unfold modifyContext
      split
      · exact .cons (hf c) (ContextsGrow.refl rest)
      · exact .cons (.refl c) ih

-- The jump leads where the jumps of the loop or switch lead that it concerns.
theorem meets_modifyContext
    (hpq : ∀ c e, c.kind = Exit.kind e → c.label = e.label → p c = q e)
    (hf : ∀ c, JumpContext.GainsJumps c (f c))
    (hm : AllMeet steps (modifyContext p f contexts) exits)
    (hc : contexts.find? p = some c) : ∃ e, exits.find? q = some e ∧
    ContextMeets steps (f c) e := by
  induction contexts generalizing exits with
  | nil => cases hc
  | cons c' rest ih =>
      unfold modifyContext at hm
      by_cases hp : p c' = true
      · rw [if_pos hp] at hm
        rw [List.find?_cons_of_pos hp] at hc
        cases hc
        cases hm with
        | @cons _ e _ _ h _ =>
            have hq : q e = true :=
              (hpq c e ((hf c).kind.symm.trans h.kind) ((hf c).label.symm.trans h.label)) ▸ hp
            exact ⟨e, List.find?_cons_of_pos hq, h⟩
      · rw [if_neg hp] at hm
        rw [List.find?_cons_of_neg hp] at hc
        cases hm with
        | @cons _ e _ _ h hrest =>
            obtain ⟨e', he', hmeets⟩ := ih hrest hc
            have hq : ¬ q e = true := (hpq c' e h.kind h.label) ▸ hp
            exact ⟨e', by rw [List.find?_cons_of_neg hq, he'], hmeets⟩

-- The open successors with that of a new jump.
theorem count_jumps_modifyContext
    (hf : ∀ c x, ((f c).breaks ++ (f c).continues).count x =
      (c.breaks ++ c.continues).count x + [slot].count x)
    (hc : contexts.find? p = some c) (x : Slot) :
    (jumps (modifyContext p f contexts)).count x = (jumps contexts).count x + [slot].count x := by
  induction contexts with
  | nil => cases hc
  | cons c' rest ih =>
      unfold modifyContext
      by_cases hp : p c' = true
      · rw [if_pos hp]
        simp only [jumps_cons, List.count_append] at hf ⊢
        rw [hf c' x]
        omega
      · rw [if_neg hp]
        rw [List.find?_cons_of_neg hp] at hc
        simp only [jumps_cons, List.count_append, ih hc]
        omega

-- The parts of a jump to the end of a loop or switch, or to the next round of a loop.

theorem breakOut_ok (h : breakOut l span b = .ok u b') :
    ∃ c id b₁, b.contexts.find? (fun c => concerns c.label l) = some c ∧
      Emitted (.jump c.breakDepth) b id b₁ ∧
      b' = { b₁ with
        pending := []
        contexts := modifyContext (fun c => concerns c.label l)
          (fun c => { c with breaks := c.breaks ++ [⟨id, .next⟩] }) b₁.contexts } := by
  cases hc : b.contexts.find? (fun c => concerns c.label l) with
  | none =>
      obtain ⟨found, _, hfind, h⟩ := bind_eq_ok.mp h
      cases hfind
      cases l with
      | none => rw [show b.contexts.find? (fun _ => true) = none from hc] at h; cases h
      | some l => rw [show b.contexts.find? (hasLabel l) = none from hc] at h; cases h
  | some c =>
      have hmain : (do
          let slot ← jump c.breakDepth span
          updateContext (fun c => concerns c.label l)
            fun c => { c with breaks := c.breaks ++ [slot] } : Build Unit) b = .ok u b' := by
        obtain ⟨found, _, hfind, h⟩ := bind_eq_ok.mp h
        cases hfind
        cases l with
        | none => rwa [show b.contexts.find? (fun _ => true) = some c from hc] at h
        | some l => rwa [show b.contexts.find? (hasLabel l) = some c from hc] at h
      obtain ⟨slot, _, hjump, h⟩ := bind_eq_ok.mp hmain
      obtain ⟨id, b₁, hemit, rfl, rfl⟩ := jump_ok hjump
      cases h
      exact ⟨c, id, b₁, rfl, hemit, rfl⟩

-- The contexts that a jump to the next round looks for.
def goesOn (l : Option String) (c : JumpContext) : Bool :=
  match l with
  | none => c.kind == .loop
  | some l => c.label == some l

theorem goesOn_eq_continues {c : JumpContext} {e : Exit} (hkind : c.kind = e.kind)
    (hlabel : c.label = e.label) : goesOn l c = Exit.continues l e := by
  cases l with
  | none => exact congrArg (· == JumpKind.loop) hkind
  | some l => exact congrArg (· == some l) hlabel

theorem continueLoop_ok (h : continueLoop l span b = .ok u b') :
    ∃ c id b₁, b.contexts.find? (goesOn l) = some c ∧ c.kind = .loop ∧
      Emitted (.jump c.continueDepth) b id b₁ ∧
      b' = { b₁ with
        pending := []
        contexts := modifyContext (goesOn l)
          (fun c => { c with continues := c.continues ++ [⟨id, .next⟩] }) b₁.contexts } := by
  cases hc : b.contexts.find? (goesOn l) with
  | none =>
      obtain ⟨found, _, hfind, h⟩ := bind_eq_ok.mp h
      cases hfind
      cases l with
      | none => rw [show b.contexts.find? (fun c => c.kind == .loop) = none from hc] at h; cases h
      | some l => rw [show b.contexts.find? (hasLabel l) = none from hc] at h; cases h
  | some c =>
      have hmain : (if c.kind ≠ .loop then (fail (.misplacedContinue span) : Build PUnit) >>= fun _ => do
            let slot ← jump c.continueDepth span
            updateContext (goesOn l) fun c => { c with continues := c.continues ++ [slot] }
          else do
            let slot ← jump c.continueDepth span
            updateContext (goesOn l) fun c => { c with continues := c.continues ++ [slot] } :
          Build Unit) b = .ok u b' := by
        obtain ⟨found, _, hfind, h⟩ := bind_eq_ok.mp h
        cases hfind
        cases l with
        | none => rwa [show b.contexts.find? (fun c => c.kind == .loop) = some c from hc] at h
        | some l => rwa [show b.contexts.find? (hasLabel l) = some c from hc] at h
      by_cases hkind : c.kind = .loop
      · rw [if_neg (by simp [hkind])] at hmain
        obtain ⟨slot, _, hjump, h⟩ := bind_eq_ok.mp hmain
        obtain ⟨id, b₁, hemit, rfl, rfl⟩ := jump_ok hjump
        cases h
        exact ⟨c, id, b₁, rfl, hkind, hemit, rfl⟩
      · rw [if_pos hkind] at hmain
        cases hmain

-- A jump keeps what is open, with its own successor in the context that it concerns.
theorem grown_jump {d : Nat} (hemit : Emitted (.jump d) b id b₁)
    (hf : ∀ c, JumpContext.GainsJumps c (f c))
    (hcount : ∀ c x, ((f c).breaks ++ (f c).continues).count x =
      (c.breaks ++ c.continues).count x + [Slot.mk id .next].count x)
    (hc : b.contexts.find? p = some c)
    (hb : b' = { b₁ with pending := [], contexts := modifyContext p f b₁.contexts }) :
    Grown b b' ∧ b'.names = b.names := by
  have hbuilt := onlyBuilds_emitted hemit rfl
  have hcontexts : b₁.contexts = b.contexts := by rw [hbuilt.state]
  have hpending : b₁.pending = [⟨id, .next⟩] := by rw [hemit.state]
  subst hb
  refine ⟨⟨hbuilt.grown.setting, hbuilt.grown.depth, hbuilt.grown.tail, ?_, hbuilt.extend,
    fun held ho => ?_⟩, hbuilt.names_eq⟩
  · change ContextsGrow b.contexts (modifyContext p f b₁.contexts)
    rw [hcontexts]
    exact grow_modifyContext hf _
  · have hopen := hbuilt.opened held ho
    unfold Builder.Open at hopen ⊢
    refine hopen.mono fun x => ?_
    have hjumps := count_jumps_modifyContext hcount (hcontexts ▸ hc) x
    simp only [hpending, List.count_append, List.count_nil] at hjumps ⊢
    omega

section

variable {d : Nat} {k' : Option StepId}

-- The step of a jump in the world, if its successor leads to `k`.
theorem WorldHasBuilder.jump (hs : WorldHasBuilder funcs result w exits b' k)
    (hemit : Emitted (.jump d) b id b₁) (hf : ∀ c, JumpContext.GainsJumps c (f c))
    (hb : b' = { b₁ with pending := [], contexts := modifyContext p f b₁.contexts })
    (hlead : LeadsTo w.steps ⟨id, .next⟩ k') :
    WorldHasBuilder funcs result w exits b (b.entry b' k) ∧ b.entry b' k = some id ∧
      w.Op id (.jump d) k' := by
  have hbuilt := onlyBuilds_emitted hemit rfl
  have hcontexts : b₁.contexts = b.contexts := by rw [hbuilt.state]
  subst hb
  have hentry : b.entry { b₁ with pending := [], contexts := modifyContext p f b₁.contexts } k =
      some id := by
    unfold Builder.entry
    exact (if_pos hemit.size_lt).trans (congrArg some hemit.id_eq.symm)
  obtain ⟨s, hstep, hnext, hop⟩ := hemit.follow hs.extend hlead
  rw [hentry]
  refine ⟨⟨⟨hs.sound, hs.funcs, hemit.extend.trans hs.extend, hemit.leads hs.extend⟩, hs.result, ?_⟩,
    rfl, s, hstep, hop, hnext⟩
  exact hcontexts ▸ hs.meets.grow (grow_modifyContext hf _)

end

theorem compiled_brk (hs : BuilderSuits funcs result vars b) (h : breakOut l span b = .ok u b') :
    Compiled funcs result vars vars false (KeepsTypes vars) b b' fun _ env =>
      pure (env, .brk l) := by
  obtain ⟨c, id, b₁, hc, hemit, hb⟩ := breakOut_ok h
  have hgrows : ∀ c : JumpContext,
      c.GainsJumps { c with breaks := c.breaks ++ [⟨id, .next⟩] } :=
    fun c => ⟨rfl, rfl, rfl, rfl, List.subset_append_left _ _, fun _ h => h⟩
  obtain ⟨hgrown, hnames⟩ := grown_jump hemit hgrows
    (fun c x => by simp only [List.count_append]; omega) hc hb
  refine ⟨hgrown, hs.of_names hgrown hnames, fun _ => hnames,
    fun w exits shapes k hl hstands => ?_⟩
  have hcontexts : b₁.contexts = b.contexts := by rw [(onlyBuilds_emitted hemit rfl).state]
  have hmeets := hstands.meets
  rw [hb] at hmeets
  obtain ⟨e, he, hmeet⟩ := meets_modifyContext (q := Exit.breaks l)
    (fun c e _ hlabel => congrArg (concerns · l) hlabel) hgrows hmeets (hcontexts ▸ hc)
  obtain ⟨hstands₀, hentry, hop⟩ := hstands.jump hemit hgrows hb (hmeet.breaks _ (by simp))
  refine ⟨hstands₀, ?_⟩
  rw [hentry]
  exact runs_brk he hl.inside (hmeet.breakDepth ▸ hop)

theorem compiled_cont (hs : BuilderSuits funcs result vars b)
    (h : continueLoop l span b = .ok u b') :
    Compiled funcs result vars vars false (KeepsTypes vars) b b' fun _ env =>
      pure (env, .cont l) := by
  obtain ⟨c, id, b₁, hc, hkind, hemit, hb⟩ := continueLoop_ok h
  have hgrows : ∀ c : JumpContext,
      c.GainsJumps { c with continues := c.continues ++ [⟨id, .next⟩] } :=
    fun c => ⟨rfl, rfl, rfl, rfl, fun _ h => h, List.subset_append_left _ _⟩
  obtain ⟨hgrown, hnames⟩ := grown_jump hemit hgrows
    (fun c x => by simp only [List.count_append]; omega) hc hb
  refine ⟨hgrown, hs.of_names hgrown hnames, fun _ => hnames,
    fun w exits shapes k hl hstands => ?_⟩
  have hcontexts : b₁.contexts = b.contexts := by rw [(onlyBuilds_emitted hemit rfl).state]
  have hmeets := hstands.meets
  rw [hb] at hmeets
  obtain ⟨e, he, hmeet⟩ := meets_modifyContext (q := Exit.continues l)
    (fun c e => goesOn_eq_continues) hgrows hmeets (hcontexts ▸ hc)
  obtain ⟨hstands₀, hentry, hop⟩ := hstands.jump hemit hgrows hb (hmeet.continues hkind _ (by simp))
  refine ⟨hstands₀, ?_⟩
  rw [hentry]
  exact runs_cont he (hmeet.kind.symm.trans hkind) hl.inside (hmeet.continueDepth hkind ▸ hop)

-- A return. Nothing that comes behind it is reached from there.

theorem compiled_unreached (hs : BuilderSuits funcs result vars b)
    (hc : Coded funcs b b₁ fun w k _ => w.result = result → ∀ exits shapes k₁,
      RunsStmt w exits shapes vars (KeepsTypes vars) k k₁ (x w))
    (hsize : b.steps.size < b₁.steps.size)
    (hfollow : ∀ w : World, StepsExtend b₁.steps w.steps → ∃ k, AllLead w.steps b₁.pending k)
    (hb : b' = { b₁ with pending := [] }) :
    Compiled funcs result vars vars false (KeepsTypes vars) b b' x := by
  have hgrown : Grown b b' := by
    subst hb
    have hg := hc.built.grown
    exact ⟨hg.setting, hg.depth, hg.tail, hg.contexts, hg.extend, fun held ho =>
      (hg.opened held ho).mono fun x => by
        simp only [List.count_append, List.count_nil]
        omega⟩
  have hnames : b'.names = b.names := hb ▸ hc.built.names_eq
  refine ⟨hgrown, hs.of_names hgrown hnames, fun _ => hnames,
    fun w exits shapes k hl hstands => ?_⟩
  subst hb
  obtain ⟨k', hk'⟩ := hfollow w hstands.extend
  have hstands₁ : WorldHasBuilder funcs result w exits b₁ k' :=
    ⟨⟨hstands.sound, hstands.funcs, hstands.extend, hk'⟩, hstands.result, hstands.meets⟩
  obtain ⟨hstands₀, hruns⟩ := hstands₁.coded hc
  have hentry : b.entry b₁ k' = b.entry { b₁ with pending := [] } k := by
    unfold Builder.entry
    rw [if_pos hsize, if_pos hsize]
  rw [hentry] at hstands₀ hruns
  exact ⟨hstands₀, hruns hstands.result exits shapes k⟩

theorem emit'_follow {op : StepOp} (h : emit' op span b = .ok u b') (w : World)
    (he : StepsExtend b'.steps w.steps) : ∃ k, AllLead w.steps b'.pending k := by
  obtain ⟨id, h⟩ := discard_eq_ok.mp h
  have hemit := emit_ok h
  have hlt : id < b'.steps.size := by
    rw [hemit.id_eq]
    exact hemit.size_lt
  obtain ⟨s, hs, -⟩ := he id _ (Array.getElem?_eq_getElem hlt)
  refine ⟨s.next, ?_⟩
  rw [hemit.state]
  intro slot hslot
  obtain rfl := List.mem_singleton.mp hslot
  exact ⟨s, hs, rfl⟩

theorem emit'_size_lt {op : StepOp} (h : emit' op span b = .ok u b') :
    b.steps.size < b'.steps.size := by
  obtain ⟨id, h⟩ := discard_eq_ok.mp h
  exact (emit_ok h).size_lt

-- The parts of a return in a function whose results have no names.
theorem ret_ok (hs : BuilderSuits funcs result vars b) {values : List Expr}
    (h : compileStmt (.ret span values) label b = .ok u b') :
    ∃ arity b₁ b₂, compileValues values b.sig.results.length
        (b.sig.results.map fun p => some p.ty) b = .ok arity b₁ ∧
      emit' (.ret arity) span b₁ = .ok () b₂ ∧ b' = { b₂ with pending := [] } := by
  obtain ⟨b₀, _, hget, h⟩ := bind_eq_ok.mp h
  cases hget
  simp only [hs.unnamed, Bool.false_eq_true, if_false] at h
  obtain ⟨arity, b₁, hvalues, h⟩ := bind_eq_ok.mp h
  obtain ⟨_, b₂, hemit, h⟩ := bind_eq_ok.mp h
  cases h
  exact ⟨arity, b₁, b₂, hvalues, hemit, rfl⟩

theorem compiled_ret (hs : BuilderSuits funcs result vars b) (hresult : result = none)
    (h : compileStmt (.ret span []) label b = .ok u b') :
    Compiled funcs result vars vars false (KeepsTypes vars) b b' fun _ env =>
      pure (env, .ret none) := by
  obtain ⟨arity, b₁, b₂, hvalues, hemit, hb⟩ := ret_ok hs h
  cases hvalues
  refine compiled_unreached hs ((coded_emit' hemit fun _ => rfl).imp ?_) (emit'_size_lt hemit)
    (emit'_follow hemit) hb
  rintro w k _ - - ⟨id, rfl, hop⟩ hw exits shapes k₁
  exact runs_ret (hw.trans hresult) hop

theorem compiled_retValue {e : Expr} {t : Base} (hs : BuilderSuits funcs result vars b)
    (hresult : result = some t) (he : HasType funcs vars e t)
    (h : compileStmt (.ret span [e]) label b = .ok u b') :
    Compiled funcs result vars vars false (KeepsTypes vars) b b' fun w env => do
      let v ← expr w.calls env e
      return (env, .ret (some v)) := by
  obtain ⟨arity, b₁, b₂, hvalues, hemit, hb⟩ := ret_ok hs h
  obtain ⟨r, hr, hty⟩ : ∃ r, b.sig.results = [r] ∧ r.ty = t.ty := by
    have hresults := hs.results
    rw [hresult] at hresults
    cases hr : b.sig.results with
    | nil => simp [hr] at hresults
    | cons r rest =>
        rw [hr] at hresults
        obtain ⟨hty, hrest⟩ := List.cons.inj hresults
        exact ⟨r, by rw [List.map_eq_nil_iff.mp hrest], hty⟩
  rw [hr] at hvalues
  obtain ⟨rfl, a, he'⟩ := compileValues_ok hvalues
  have hvalue := compile_expr hs.fits he (.inr (congrArg some hty)) he'
  refine compiled_unreached hs (hvalue.seq (coded_emit' hemit fun _ => rfl) ?_)
    (Nat.lt_of_le_of_lt hvalue.built.extend.size_le (emit'_size_lt hemit)) (emit'_follow hemit) hb
  rintro w k k₁ k' - - hyields ⟨id, rfl, hop⟩ hw exits shapes k₂
  exact runs_retValue (hw.trans hresult) (hyields shapes) hop

-- A label is a step that does nothing.
theorem compiled_labeled {s : Stmt} {name : String} (hs : BuilderSuits funcs result vars b)
    (hlabel : s.takesLabel) 
    (hbody : ∀ b b', BuilderSuits funcs result vars b → compileStmt s (some name) b = .ok u b' →
      Compiled funcs result vars vars' declares typed b b' x)
    (h : compileStmt (.labeled span name s) label b = .ok u b') :
    Compiled funcs result vars vars' declares typed b b' x := by
  obtain ⟨_, b₂, hplace, hrest⟩ := bind_eq_ok.mp h
  rw [if_pos hlabel] at hrest
  obtain ⟨b₀, _, hget, hplace⟩ := bind_eq_ok.mp hplace
  cases hget
  cases hlookup : (b.labels.lookup name).isSome with
  | true =>
      rw [hlookup] at hplace
      cases hplace
  | false =>
      rw [hlookup] at hplace
      obtain ⟨id, b₁, hemit, hplaced⟩ := bind_eq_ok.mp hplace
      cases hplaced
      have hcoded : Coded funcs b b₁ _ := coded_emitted (emit_ok hemit) fun _ => rfl
      have hgrown := hcoded.built.grown
      have hplaced : Grown b { b₁ with labels := (name, ⟨id, b₁.depth⟩) :: b₁.labels } :=
        ⟨hgrown.setting, hgrown.depth, hgrown.tail, hgrown.contexts, hgrown.extend, hgrown.opened⟩
      have hx := hbody _ _ (hs.of_names hplaced hcoded.built.names_eq) hrest
      refine ⟨hplaced.trans hx.grown, hx.suits, fun hd => (hx.still hd).trans hcoded.built.names_eq,
        fun w exits shapes k hl hstands => ?_⟩
      obtain ⟨hstands₂, hruns⟩ := hx.code w exits shapes k (hl.of_grown hplaced) hstands
      have hstands₁ : WorldHasBuilder funcs result w exits b₁
          (Builder.entry { b₁ with labels := (name, ⟨id, b₁.depth⟩) :: b₁.labels } b' k) :=
        ⟨⟨hstands₂.sound, hstands₂.funcs, hstands₂.extend, hstands₂.leads⟩, hstands₂.result,
          hstands₂.meets⟩
      obtain ⟨hstands₀, hentry, hop⟩ := hstands₁.coded hcoded
      have hsame := entry_before (k := k) (b := b) (.refl _) (emit_ok hemit) hx.grown.extend
      rw [b.entry_self] at hsame
      rw [hentry] at hstands₀
      rw [← hsame]
      exact ⟨hstands₀, fun env m he hat =>
        .performs hop hat.nop fun m₁ hat₁ => hruns env m₁ he hat₁⟩

-- One statement after the other.
theorem compiled_seq (hx : Compiled funcs result vars vars' declares (KeepsTypes vars') b b₁ x)
    (hy : Compiled funcs result vars' inner declares' (LeavesBlock inner) b₁ b' y)
    (htail : inner.tail = vars'.tail) :
    Compiled funcs result vars inner (declares || declares') (LeavesBlock inner) b b' (fun w env =>
      do
      let (env, signal) ← x w env
      match signal with
      | .done => y w env
      | signal => return (env, signal)) := by
  refine ⟨hx.grown.trans hy.grown, hy.suits, fun h => ?_, fun w exits shapes k hl hs => ?_⟩
  · rw [Bool.or_eq_false_iff] at h
    rw [hy.still h.2, hx.still h.1]
  · obtain ⟨hs₁, hruns₂⟩ := hy.code w exits shapes k
      ((hl.of_grown hx.grown).mono fun h => by simp [h]) hs
    obtain ⟨hs₀, hruns₁⟩ := hx.code w exits shapes _ (hl.mono fun h => by simp [h]) hs₁
    rw [entry_trans hx.grown.extend hy.grown.extend] at hs₀ hruns₁
    exact ⟨hs₀, hruns₁.seq hruns₂ htail⟩

theorem compiled_nil (hs : BuilderSuits funcs result vars b) :
    Compiled funcs result vars vars false (LeavesBlock vars) b b fun _ env => pure (env, .done) :=
  .of_coded hs (.nil fun _ _ _ _ _ => runs_done.imp fun _ h => h.keeps.leaves)

end StepGraph.Structured

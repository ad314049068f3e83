import StepGraph.Proofs.Structured.Statements

open EStateM (bind_eq_ok)

namespace StepGraph.Structured

open Build

variable {funcs : Funcs} {result : Option Base} {vars outer inner : Vars} {w : World}
  {b b' b₁ b₂ : Builder} {k : Option StepId} {span : Span} {u : Unit} {label : Option String}
  {entries : List (List Slot)} {carried exits exits' : List Slot} {c : Clause} {cs rest : List Clause}
  {init : Option Stmt} {body : List Stmt}

-- The bodies of the clauses of a switch. Paths to the bodies and to the first of them were open,
-- and paths out of the switch; in the end only those are.
structure Bodies (funcs : Funcs) (result : Option Base) (outer : Vars) (entries : List (List Slot))
    (carried exits exits' : List Slot) (b b' : Builder)
    (x : World → Nat → Env → Eval (Env × Signal)) : Prop where
  grown : Grown { b with pending := entries.flatten ++ carried ++ exits }
    { b' with pending := exits' }
  names : b'.names = b.names
  code : ∀ w out shapes kend, b.depth = depth (.scope :: shapes) →
    ExitsInside out (.scope :: shapes) →
    WorldHasBuilder funcs result w out { b' with pending := [] } kend →
      AllLead w.steps exits' kend →
    WorldHasBuilder funcs result w out { b with pending := [] } kend ∧ AllLead w.steps exits kend ∧
      ∃ entry : Nat → Option StepId, entry 0 = b.entry b' kend ∧
        AllLead w.steps carried (entry 0) ∧
        (∀ i, AllLead w.steps (entries[i]?.getD []) (entry i)) ∧
        ∀ i, RunsStmt w out (.scope :: shapes) outer (KeepsTypes outer) (entry i) kend (x w i)

theorem bodies_nil : Bodies funcs result outer [] [] exits exits b b
    fun w i env => clauses w.calls w.rounds [] i env where
  grown := .refl _
  names := rfl
  code w out shapes kend _ _ hs hexits :=
    ⟨hs, hexits, fun _ => kend, (b.entry_self kend).symm, nofun, fun i => by simp [AllLead],
      fun _ => runs_clauses_nil⟩

theorem fallsThrough_eq (body : List Stmt) : (fallthrough? body).isSome = fallsThrough body := by
  unfold fallthrough? fallsThrough
  cases body.getLast? with
  | none => rfl
  | some s => cases s <;> rfl

-- A clause in front of others. Its end leads into the next one or out of the switch.
theorem bodies_cons {slots carried' exits₁ : List Slot}
    (hbody : Compiled funcs result outer outer false (KeepsTypes outer)
      { b with pending := slots ++ carried } b₁
      fun w => inBlock fun env => stmts w.calls w.rounds c.body env)
    (hsize : b.steps.size < b₁.steps.size)
    (hrest : Bodies funcs result outer entries carried' exits₁ exits' b₁ b'
      fun w i env => clauses w.calls w.rounds rest i env)
    (hcarried : carried' = if fallsThrough c.body then b₁.pending else [])
    (hexits : exits₁ = if fallsThrough c.body then exits else exits ++ b₁.pending) :
    Bodies funcs result outer (slots :: entries) carried exits exits' b b'
      fun w i env => clauses w.calls w.rounds (c :: rest) i env := by
  have hg := hbody.grown
  have hg' := hrest.grown
  refine ⟨⟨hg'.setting.trans hg.setting, hg'.depth.trans hg.depth, hg'.tail.trans hg.tail,
    hg.contexts.trans hg'.contexts, hg.extend.trans hg'.extend, fun held ho => ?_⟩,
    hrest.names.trans (hbody.still rfl), fun w out shapes kend hdepth hin hs hlead => ?_⟩
  · have hentered : Builder.Open { b with pending := slots ++ carried }
        (entries.flatten ++ exits ++ held) := AreOpen.mono ho fun x => by
      simp only [List.flatten_cons, List.count_append]
      omega
    refine hg'.opened held (AreOpen.mono (hg.opened _ hentered) fun x => ?_)
    rw [hcarried, hexits]
    split <;> simp only [List.count_append, List.count_nil] <;> omega
  · obtain ⟨hs₁, hexits₁, entry, -, hcarried', hentries, hruns⟩ :=
      hrest.code w out shapes kend (hg.depth.trans hdepth) hin hs hlead
    obtain ⟨k₁, hpending, hout, hnext⟩ : ∃ k₁, AllLead w.steps b₁.pending k₁ ∧
        AllLead w.steps exits kend ∧ if fallsThrough c.body then
          RunsStmt w out (.scope :: shapes) outer (KeepsTypes outer) k₁ kend
            (fun env => clauses w.calls w.rounds rest 0 env) else k₁ = kend := by
      rw [hcarried] at hcarried'
      rw [hexits] at hexits₁
      split
      · next h =>
          rw [if_pos h] at hcarried' hexits₁
          exact ⟨entry 0, hcarried', hexits₁, hruns 0⟩
      · next h =>
          rw [if_neg h] at hexits₁
          exact ⟨kend, fun slot hslot => hexits₁ slot (List.mem_append_right _ hslot),
            fun slot hslot => hexits₁ slot (List.mem_append_left _ hslot), rfl⟩
    obtain ⟨hs₀, hfirst⟩ := hbody.code w out (.scope :: shapes) k₁ ⟨hdepth, hin, nofun⟩
      (hs₁.reopen hpending)
    refine ⟨hs₀.reopen nofun, hout, fun i => Nat.casesOn i
      (Builder.entry { b with pending := slots ++ carried } b₁ k₁) entry, ?_, fun slot h =>
        hs₀.leads slot (List.mem_append_right _ h), fun i => ?_,
      fun i => ?_⟩
    · have hsize' := hg'.extend.size_le
      change b.entry b₁ k₁ = b.entry b' kend
      unfold Builder.entry
      rw [if_pos hsize, if_pos (Nat.lt_of_lt_of_le hsize hsize')]
    · cases i with
      | zero => exact fun slot h => hs₀.leads slot (List.mem_append_left _ h)
      | succ i => exact hentries i
    · cases i with
      | zero => exact runs_clauses_cons hfirst hnext
      | succ i => exact hruns i

-- The parts of the body of a clause that stands in front of others.
theorem bodies_ok {values : List Expr} {isDefault : Bool}
    (h : compileBodies (⟨values, isDefault, body⟩ :: rest) entries carried exits b = .ok exits' b') :
    (fallsThrough body = true → rest ≠ []) ∧ ∃ b₁ b₂ b₃,
      enterScope Span.none { b with pending := entries.headD [] ++ carried } = .ok () b₁ ∧
      compileClause body b₁ = .ok () b₂ ∧ leaveScope Span.none b₂ = .ok () b₃ ∧
      compileBodies rest entries.tail (if fallsThrough body then b₃.pending else [])
        (if fallsThrough body then exits else exits ++ b₃.pending)
        { b₃ with pending := [] } = .ok exits' b' := by
  have hmain : ∀ {b₀ : Builder}, (do
      setPending (entries.headD [] ++ carried)
      enterScope Span.none
      compileClause body
      leaveScope Span.none
      let out ← takePending
      if (fallthrough? body).isSome then compileBodies rest entries.tail out exits
      else compileBodies rest entries.tail [] (exits ++ out) : Build (List Slot)) b₀ =
        .ok exits' b' → ∃ b₁ b₂ b₃,
      enterScope Span.none { b₀ with pending := entries.headD [] ++ carried } = .ok () b₁ ∧
      compileClause body b₁ = .ok () b₂ ∧ leaveScope Span.none b₂ = .ok () b₃ ∧
      compileBodies rest entries.tail (if fallsThrough body then b₃.pending else [])
        (if fallsThrough body then exits else exits ++ b₃.pending)
        { b₃ with pending := [] } = .ok exits' b' := by
    intro b₀ h
    obtain ⟨_, _, hset, h⟩ := bind_eq_ok.mp h
    cases hset
    obtain ⟨_, b₁, henter, h⟩ := bind_eq_ok.mp h
    obtain ⟨_, b₂, hclause, h⟩ := bind_eq_ok.mp h
    obtain ⟨_, b₃, hleave, h⟩ := bind_eq_ok.mp h
    obtain ⟨_, _, htake, h⟩ := bind_eq_ok.mp h
    cases htake
    refine ⟨b₁, b₂, b₃, henter, hclause, hleave, ?_⟩
    rw [fallsThrough_eq] at h
    split at h
    · next hf =>
        rw [if_pos hf, if_pos hf]
        exact h
    · next hf =>
        rw [if_neg hf, if_neg hf]
        exact h
  unfold compileBodies at h
  cases hf : fallthrough? body with
  | none =>
      have hfalls : fallsThrough body = false := by rw [← fallsThrough_eq, hf]; rfl
      rw [hf] at h
      simp only at h
      rw [← hf] at h
      exact ⟨by simp [hfalls], hmain h⟩
  | some s =>
      rw [hf] at h
      simp only at h
      by_cases hrest : rest.isEmpty = true
      · rw [if_pos hrest] at h
        cases h
      · rw [if_neg hrest, ← hf] at h
        exact ⟨fun _ he => hrest (by rw [he]; rfl), hmain h⟩

theorem enterScope_size_lt (h : enterScope span b = .ok u b') :
    b.steps.size < b'.steps.size := by
  obtain ⟨_, b₁, hemit, h⟩ := bind_eq_ok.mp h
  cases h
  exact show b.steps.size < b₁.steps.size from emit'_size_lt hemit

-- All bodies of a switch. What a body that comes last leads to is not looked for.
theorem compileBodies_ok (hs : BuilderSuits funcs result outer b)
    (hlen : entries.length = cs.length) (hcarried : cs = [] → carried = [])
    (hbodies : ∀ c ∈ cs, ∃ inner declares, inner.tail = outer ∧ ∀ b b',
      BuilderSuits funcs result ([] :: outer) b → compileClause c.body b = .ok () b' →
      Compiled funcs result ([] :: outer) inner declares (LeavesBlock inner) b b'
        fun w env => stmts w.calls w.rounds c.body env)
    (h : compileBodies cs entries carried exits b = .ok exits' b') :
    Bodies funcs result outer entries carried exits exits' b b'
      fun w i env => clauses w.calls w.rounds cs i env := by
  induction cs generalizing b entries carried exits with
  | nil =>
      obtain rfl := List.length_eq_zero_iff.mp hlen
      obtain rfl := hcarried rfl
      unfold compileBodies at h
      cases h
      exact bodies_nil
  | cons c cs ih =>
      obtain ⟨values, isDefault, body⟩ := c
      cases entries with
      | nil => cases hlen
      | cons slots entries =>
          obtain ⟨hlast, b₁, b₂, b₃, henter, hclause, hleave, hrest⟩ := bodies_ok h
          obtain ⟨inner, declares, hinner, hcompile⟩ := hbodies _ List.mem_cons_self
          have hs₀ : BuilderSuits funcs result outer { b with pending := slots ++ carried } :=
            ⟨hs.fits, hs.unnamed, hs.results⟩
          have hfirst := Compiled.within hs₀ henter (hcompile _ _ (hs₀.enter henter) hclause) hinner
            hleave
          have hlater := ih (b := { b₃ with pending := [] })
            ⟨hfirst.suits.fits, hfirst.suits.unnamed, hfirst.suits.results⟩ (by simpa using hlen)
            (fun hnil => if_neg fun hf => hlast hf hnil) (fun c hc => hbodies c (by simp [hc])) hrest
          have hsize : b.steps.size < b₃.steps.size :=
            Nat.lt_of_lt_of_le (enterScope_size_lt (b := { b with pending := slots ++ carried }) henter)
              (Nat.le_trans (hcompile _ _ (hs₀.enter henter) hclause).grown.extend.size_le
                (leaveScope_ok hleave).extend.size_le)
          exact bodies_cons (c := ⟨values, isDefault, body⟩) hfirst hsize
            ⟨hlater.grown, hlater.names, hlater.code⟩ rfl rfl

-- The choice of a clause and the bodies, inside the scope of the switch.
theorem confined_switch {entries' : List (List Slot)} {choose : World → Env → Eval (Option Nat)}
    {body : World → Nat → Env → Eval (Env × Signal)} {context : JumpContext}
    {contexts : List JumpContext} (htests : Sorts funcs outer entries b b₁ choose)
    (hlen : entries.length = cs.length)
    (hunmatched : addUnmatched (cs.map (·.isDefault)) b₁.pending entries = (entries', exits))
    (hbodies : Bodies funcs result outer entries' [] exits exits' { b₁ with
      pending := [], contexts := ⟨.switch, label, b₁.depth, b₁.depth, [], []⟩ :: b₁.contexts } b₂ body)
    (hcontexts : b₂.contexts = context :: contexts)
    (hentry : ∀ k (entry : Nat → Option StepId), entry 0 = b₁.entry b₂ k →
      b.entry b₁ ((cs.findIdx? (·.isDefault)).elim k entry) = b.entry b₂ k)
    (hb : b' = { b₂ with contexts, pending := exits' ++ context.breaks }) :
    Confined funcs result outer outer b b' (fun w env => do
      match (← choose w env).or (cs.findIdx? (·.isDefault)) with
      | some i => do
          let (env, signal) ← body w i env
          return (env, signal.atSwitch label)
      | none => return (env, .done)) := by
  have hlen' : entries.length = (cs.map (·.isDefault)).length := by simpa using hlen
  obtain ⟨hgrows, hgrow⟩ : JumpContext.GainsJumps ⟨.switch, label, b₁.depth, b₁.depth, [], []⟩
    context ∧
      ContextsGrow b₁.contexts contexts := by
    have h := hbodies.grown.contexts
    change ContextsGrow (_ :: _) b₂.contexts at h
    rw [hcontexts] at h
    cases h with
    | cons h hrest => exact ⟨h, hrest⟩
  refine ⟨⟨?_, ?_, ?_, ?_, ?_, fun held ho => ?_⟩, fun w out shapes k hdepth hin hs => ?_⟩
  all_goals subst hb
  · exact hbodies.grown.setting.trans htests.grown.setting
  · exact hbodies.grown.depth.trans htests.grown.depth
  · exact hbodies.grown.tail.trans htests.grown.tail
  · exact htests.grown.contexts.trans hgrow
  · exact htests.grown.extend.trans hbodies.grown.extend
  · have hopened := hbodies.grown.opened held (AreOpen.mono (htests.opened held ho) fun x => by
      have hcount := addUnmatched_count hlen' hunmatched x
      simp only [jumps_cons, List.count_append, List.count_nil]
      omega)
    unfold Builder.Open at hopened
    simp only [hcontexts, jumps_cons] at hopened
    refine hopened.mono fun x => ?_
    simp only [List.count_append]
    omega
  · have hdepth₁ : b₁.depth = depth (.scope :: shapes) := htests.grown.depth.trans hdepth
    have hin' : ExitsInside (⟨.switch, label, shapes, k, none⟩ :: out) (.scope :: shapes) := by
      intro e he
      rcases List.mem_cons.mp he with rfl | he
      · exact ⟨[], rfl⟩
      · exact hin.cons .scope e he
    have hs₂ : WorldHasBuilder funcs result w (⟨.switch, label, shapes, k, none⟩ :: out)
        { b₂ with pending := [] } k := by
      refine ⟨⟨hs.sound, hs.funcs, hs.extend, nofun⟩, hs.result, ?_⟩
      change AllMeet _ b₂.contexts _
      rw [hcontexts]
      refine .cons ⟨hgrows.kind, hgrows.label, hgrows.breakDepth.trans hdepth₁, fun hloop => ?_,
        fun slot h => hs.leads slot (List.mem_append_right _ h), fun hloop => ?_⟩ hs.meets
      all_goals
        rw [hgrows.kind] at hloop
        cases hloop
    obtain ⟨hs₁, hexits, entry, hfirst, -, hentries, hruns⟩ := hbodies.code w _ shapes k hdepth₁ hin' hs₂
      fun slot h => hs.leads slot (List.mem_append_left _ h)
    obtain ⟨hentries', hmiss⟩ := addUnmatched_leads hlen' hunmatched hentries hexits
    have hs₁' : WorldHasBuilder funcs result w out b₁
        ((cs.findIdx? (·.isDefault)).elim k entry) := by
      rw [List.findIdx?_map] at hmiss
      refine ⟨⟨hs₁.sound, hs₁.funcs, hs₁.extend, hmiss⟩, hs₁.result, ?_⟩
      cases hs₁.meets with
      | cons _ hmeets => exact hmeets
    obtain ⟨hs₀, hchooses⟩ := htests.code result w out _ entry hs₁' hentries'
    rw [hentry k entry hfirst] at hs₀ hchooses
    exact ⟨hs₀, fun env m he hat => sim_switch (hchooses _) rfl hruns hin env m he hat⟩

-- Where no test stands in front of the bodies, the first clause is the one that is marked.
theorem entry_switch (hle : b.steps.size ≤ b₁.steps.size) (hle' : b₁.steps.size ≤ b₂.steps.size)
    (hdefault : ∀ c ∈ cs, c.values = [] → c.isDefault = true)
    (htests : (∀ c ∈ cs, c.values = []) ∨ b.steps.size < b₁.steps.size)
    (hnil : cs = [] → b₂.steps.size = b₁.steps.size) (k : Option StepId)
    (entry : Nat → Option StepId) (hentry : entry 0 = b₁.entry b₂ k) :
    b.entry b₁ ((cs.findIdx? (·.isDefault)).elim k entry) = b.entry b₂ k := by
  by_cases hlt : b.steps.size < b₁.steps.size
  · unfold Builder.entry
    rw [if_pos hlt, if_pos (Nat.lt_of_lt_of_le hlt hle')]
  · have hsize : b.steps.size = b₁.steps.size := Nat.le_antisymm hle (Nat.not_lt.mp hlt)
    have hvalues := htests.resolve_right hlt
    have hsame : b.entry b₁ ((cs.findIdx? (·.isDefault)).elim k entry) =
        (cs.findIdx? (·.isDefault)).elim k entry := if_neg hlt
    have hlater : b.entry b₂ k = b₁.entry b₂ k := by
      unfold Builder.entry
      rw [hsize]
    rw [hsame, hlater]
    cases cs with
    | nil => exact (if_neg (by rw [hnil rfl]; exact Nat.lt_irrefl _)).symm
    | cons c cs =>
        have hmarked : c.isDefault = true := hdefault c (by simp) (hvalues c (by simp))
        simp [List.findIdx?_cons, hmarked, hentry]

theorem clauses_typed {funcs : Funcs} {result : Option Base} {outer : Vars} {cs : List Clause}
    (h : Clauses funcs result outer cs) (c : Clause) (hc : c ∈ cs) :
    (∀ e ∈ c.values, HasType funcs outer e .bool) ∧ (c.values = [] → c.isDefault = true) :=
  match h with
  | .nil _ => nomatch hc
  | .cons _ _ _ _ _ _ hdefault hvalues _ hrest => by
      rcases List.mem_cons.mp hc with rfl | hc
      · exact ⟨hvalues, hdefault⟩
      · exact clauses_typed hrest c hc

-- The parts of a switch without a tag.
theorem switch_ok (h : compileStmt (.switch span init none cs) label b = .ok u b') :
    ∃ b₁ b₂ entries b₃ exits b₄ slots b₅,
      enterScope span b = .ok () b₁ ∧ compileOptional init b₁ = .ok () b₂ ∧
      compileTests cs none b₂ = .ok entries b₃ ∧
      compileBodies cs (addUnmatched (cs.map (·.isDefault)) b₃.pending entries).1 []
        (addUnmatched (cs.map (·.isDefault)) b₃.pending entries).2 { b₃ with
          pending := [], contexts := ⟨.switch, label, b₃.depth, b₃.depth, [], []⟩ :: b₃.contexts } =
        .ok exits b₄ ∧
      popContext b₄ = .ok slots b₅ ∧
      leaveScope span { b₅ with pending := exits ++ slots.1 } = .ok () b' := by
  unfold compileStmt at h
  obtain ⟨_, b₁, henter, h₁⟩ := bind_eq_ok.mp h
  obtain ⟨_, b₂, hinit, h₂⟩ := bind_eq_ok.mp h₁
  obtain ⟨tag, _, htag, h₃⟩ := bind_eq_ok.mp h₂
  cases htag
  obtain ⟨entries, b₃, htests, h₄⟩ := bind_eq_ok.mp h₃
  obtain ⟨_, _, htake, h₅⟩ := bind_eq_ok.mp h₄
  cases htake
  obtain ⟨_, _, hget, h₆⟩ := bind_eq_ok.mp h₅
  cases hget
  obtain ⟨_, _, hpush, h₇⟩ := bind_eq_ok.mp h₆
  cases hpush
  obtain ⟨exits, b₄, hbodies, h₈⟩ := bind_eq_ok.mp h₇
  obtain ⟨slots, b₅, hpop, h₉⟩ := bind_eq_ok.mp h₈
  obtain ⟨_, _, hset, hleave⟩ := bind_eq_ok.mp h₉
  cases hset
  exact ⟨b₁, b₂, entries, b₃, exits, b₄, slots, b₅, henter, hinit, htests, hbodies, hpop, hleave⟩

theorem compiled_switch (hs : BuilderSuits funcs result vars b)
    (hinit : SimpleOption funcs ([] :: vars) init outer)
    (hvalues : ∀ c ∈ cs, ∀ e ∈ c.values, HasType funcs outer e .bool)
    (hdefault : ∀ c ∈ cs, c.values = [] → c.isDefault = true)
    (hbodies : ∀ c ∈ cs, ∃ inner declares, inner.tail = outer ∧ ∀ b b',
      BuilderSuits funcs result ([] :: outer) b → compileClause c.body b = .ok () b' →
      Compiled funcs result ([] :: outer) inner declares (LeavesBlock inner) b b'
        fun w env => stmts w.calls w.rounds c.body env)
    (hok : compileStmt (.switch span init none cs) label b = .ok u b') :
    Compiled funcs result vars vars false (KeepsTypes vars) b b' fun w env =>
      stmt w.calls w.rounds (.switch span init none cs) label env := by
  obtain ⟨b₁, b₂, entries, b₃, exits, b₄, slots, b₅, henter, hinit', htests, hbodies', hpop, hleave⟩ :=
    switch_ok hok
  have hfirst := compile_optional (hs.enter henter) hinit hinit'
  obtain ⟨htested, hlen, hlarger⟩ := compileTests_ok hfirst.suits.fits hvalues htests
  have hs₃ := hfirst.suits.of_names htested.grown htested.names
  have hlen' : (addUnmatched (cs.map (·.isDefault)) b₃.pending entries).1.length = cs.length := by
    rw [addUnmatched_length (by rfl), hlen]
  have hrest := compileBodies_ok (b := { b₃ with
    pending := [], contexts := ⟨.switch, label, b₃.depth, b₃.depth, [], []⟩ :: b₃.contexts })
    ⟨hs₃.fits, hs₃.unnamed, hs₃.results⟩ hlen' (fun _ => rfl) hbodies hbodies'
  obtain ⟨context, contexts, hcontexts⟩ : ∃ c rest, b₄.contexts = c :: rest := by
    have hgrow := hrest.grown.contexts
    change ContextsGrow (_ :: _) b₄.contexts at hgrow
    generalize b₄.contexts = contexts at hgrow
    cases hgrow with
    | cons => exact ⟨_, _, rfl⟩
  obtain ⟨rfl, rfl⟩ := popContext_ok hcontexts hpop
  have hconfined := confined_switch htested hlen rfl hrest hcontexts
    (entry_switch htested.grown.extend.size_le hrest.grown.extend.size_le hdefault hlarger
      fun hnil => by subst hnil; unfold compileBodies at hbodies'; cases hbodies'; rfl) rfl
  have hinside := Confined.within hs henter (Confined.after hfirst hconfined)
    (simpleOption_tail hinit) hleave
  unfold stmt
  exact hinside

-- A statement has its variables in the block that it stands in.

theorem declare_tail (x : String) (t : Base) : (vars.declare x t).tail = vars.tail := by
  unfold Vars.declare
  split
  · rfl
  · cases vars <;> rfl

theorem structuredStmt_tail {s : Stmt} (h : StructuredStmt funcs result vars s inner) :
    inner.tail = vars.tail := by
  cases h with
  | simple vars vars' s hs =>
      cases hs with
      | define => exact declare_tail _ _
      | var => exact declare_tail _ _
      | _ => rfl
  | _ => rfl

theorem structuredStmts_tail {funcs : Funcs} {result : Option Base} {vars inner : Vars}
    {body : List Stmt} (h : StructuredStmts funcs result vars body inner) :
    inner.tail = vars.tail :=
  match h with
  | .nil _ => rfl
  | .cons _ _ _ _ _ hs hrest => (structuredStmts_tail hrest).trans (structuredStmt_tail hs)

theorem stmts_cons {calls : Calls} {n : Nat} {s : Stmt} {rest : List Stmt} :
    stmts calls n (s :: rest) = fun env => do
      let (env, signal) ← stmt calls n s none env
      match signal with
      | .done => stmts calls n rest env
      | signal => return (env, signal) := by
  funext env
  exact stmts.eq_2 _ _ _ _ _

mutual

-- A statement is compiled to steps that do what its evaluation does.
theorem compile_stmt {funcs : Funcs} {result : Option Base} {vars vars' : Vars} {s : Stmt}
    {label : Option String} {b b' : Builder} (hst : StructuredStmt funcs result vars s vars')
    (hs : BuilderSuits funcs result vars b) (hok : compileStmt s label b = .ok () b') :
    Compiled funcs result vars vars' s.declares (KeepsTypes vars') b b' fun w env =>
      stmt w.calls w.rounds s label env := by
  match hst with
  | .simple vars vars' s hst => exact (compile_simple hs hst hok).imp fun _ h => h.keeps
  | .block vars inner span body hbody =>
      unfold stmt
      exact compiled_inScope hs hok (structuredStmts_tail hbody) fun _ _ hs h =>
        compile_stmts hbody hs h
  | .cond vars outer inner span init test yes no hinit htest hyes hno =>
      exact compiled_cond hs hinit (structuredStmts_tail hyes) htest
        (fun _ _ hs h => compile_stmts hyes hs h) (fun _ _ hs h => compile_else hno hs h) hok
  | .loop vars outer inner span init test post body hinit htest hpost hkeep hbody =>
      exact compiled_loop hs hinit htest hpost hkeep (structuredStmts_tail hbody)
        (fun _ _ hs h => compile_stmts hbody hs h) hok
  | .switch vars outer span init cs hinit hcs =>
      exact compiled_switch hs hinit (fun c hc => (clauses_typed hcs c hc).1)
        (fun c hc => (clauses_typed hcs c hc).2) (compile_clauses hcs) hok
  | .labeled vars span l body hlabel hbody =>
      have hdeclares : body.declares = false := by cases body <;> first | rfl | cases hlabel
      have hcompiled := compiled_labeled hs hlabel
        (fun _ _ hs h => hdeclares ▸ compile_stmt hbody hs h) hok
      unfold stmt
      exact hcompiled
  | .brk vars span l =>
      unfold stmt
      exact compiled_brk hs hok
  | .cont vars span l =>
      unfold stmt
      exact compiled_cont hs hok
  | .fallthrough _ _ => cases hok
  | .ret vars span hresult =>
      unfold stmt
      exact compiled_ret hs hresult hok
  | .retValue vars span e t hresult he =>
      unfold stmt
      exact compiled_retValue hs hresult he hok

theorem compile_stmts {funcs : Funcs} {result : Option Base} {vars inner : Vars}
    {body : List Stmt} {b b' : Builder} (hbody : StructuredStmts funcs result vars body inner)
    (hs : BuilderSuits funcs result vars b) (hok : compileStmts body b = .ok () b') :
    Compiled funcs result vars inner (body.any (·.declares)) (LeavesBlock inner) b b' fun w env =>
      stmts w.calls w.rounds body env := by
  match hbody with
  | .nil _ =>
      cases hok
      unfold stmts
      exact compiled_nil hs
  | .cons vars vars' inner s rest hst hrest =>
      obtain ⟨_, b₁, hfirst, hlater⟩ := bind_eq_ok.mp hok
      have hx := compile_stmt hst hs hfirst
      have hy := compile_stmts hrest hx.suits hlater
      simp only [stmts_cons]
      exact compiled_seq hx hy (structuredStmts_tail hrest)

theorem compile_else {funcs : Funcs} {result : Option Base} {vars : Vars} {no : Option Stmt}
    {b b' : Builder} (hno : Else funcs result vars no) (hs : BuilderSuits funcs result vars b)
    (hok : compileOptional no b = .ok () b') :
    Compiled funcs result vars vars false (KeepsTypes vars) b b' fun w env =>
      optional w.calls w.rounds no env := by
  match hno with
  | .none _ =>
      cases hok
      unfold optional
      exact .of_coded hs (.nil fun _ _ _ _ _ => runs_done.imp fun _ h => h.keeps)
  | .block vars span body hst =>
      unfold optional
      exact compile_stmt hst hs hok
  | .cond vars span init test yes no hst =>
      unfold optional
      exact compile_stmt hst hs hok

theorem compile_clause {funcs : Funcs} {result : Option Base} {vars inner : Vars}
    {body : List Stmt} {b b' : Builder} (hbody : StructuredStmts funcs result vars body inner)
    (hs : BuilderSuits funcs result vars b) (hok : compileClause body b = .ok () b') :
    Compiled funcs result vars inner (body.any (·.declares)) (LeavesBlock inner) b b' fun w env =>
      stmts w.calls w.rounds body env := by
  match hbody with
  | .nil _ =>
      cases hok
      unfold stmts
      exact compiled_nil hs
  | .cons vars vars' inner s rest hst hrest =>
      unfold compileClause at hok
      split at hok
      · next hlast =>
          simp only [Bool.and_eq_true, List.isEmpty_iff] at hlast
          obtain ⟨rfl, hfall⟩ := hlast
          cases hok
          cases hrest
          cases hst with
          | simple vars vars' s hst => cases hst <;> cases hfall
          | fallthrough =>
              simp only [stmt, stmts, pure_bind]
              exact compiled_nil hs
          | _ => cases hfall
      · obtain ⟨_, b₁, hfirst, hlater⟩ := bind_eq_ok.mp hok
        have hx := compile_stmt hst hs hfirst
        have hy := compile_clause hrest hx.suits hlater
        simp only [stmts_cons]
        exact compiled_seq hx hy (structuredStmts_tail hrest)

theorem compile_clauses {funcs : Funcs} {result : Option Base} {vars : Vars} {cs : List Clause}
    (hcs : Clauses funcs result vars cs) :
    ∀ c ∈ cs, ∃ inner declares, inner.tail = vars ∧ ∀ b b',
      BuilderSuits funcs result ([] :: vars) b → compileClause c.body b = .ok () b' →
      Compiled funcs result ([] :: vars) inner declares (LeavesBlock inner) b b'
        fun w env => stmts w.calls w.rounds c.body env := by
  match hcs with
  | .nil _ => nofun
  | .cons vars inner values isDefault body rest hdefault hvalues hbody hrest =>
      refine List.forall_mem_cons.mpr ⟨?_, compile_clauses hrest⟩
      exact ⟨inner, _, structuredStmts_tail hbody, fun _ _ hs h => compile_clause hbody hs h⟩

end

end StepGraph.Structured

import StepGraph.Proofs.Structured.Leaving
import StepGraph.Proofs.Structured.Rounds

open EStateM (bind_eq_ok discard_eq_ok)

namespace StepGraph.Structured

open Build

variable {funcs : Funcs} {result : Option Base} {vars vars' outer inner : Vars} {w : World}
  {b b' b₁ b₂ b₃ b₄ : Builder} {k : Option StepId} {span : Span} {u : Unit}
  {hits hits' : List Slot} {e : Expr} {es : List Expr} {cs : List Clause}
  {x y : World → Env → Eval Bool}

-- Steps that test something, with those that lead on where a test succeeds. What is open then
-- leads on where all tests fail.
structure TriesTests (funcs : Funcs) (outer : Vars) (hits : List Slot) (b b' : Builder)
    (x : World → Env → Eval Bool) : Prop where
  grown : Grown b b'
  names : b'.names = b.names
  contexts : b'.contexts = b.contexts
  opened : ∀ held, b.Open held → b'.Open (hits ++ held)
  code : ∀ result w exits k yes, WorldHasBuilder funcs result w exits b' k →
    AllLead w.steps hits yes →
    WorldHasBuilder funcs result w exits b (b.entry b' k) ∧
      ∀ shapes, TestsTo w shapes outer (b.entry b' k) yes k (x w)

theorem tries_nil : TriesTests funcs outer [] b b fun w env => anyHolds w.calls env [] where
  grown := .refl b
  names := rfl
  contexts := rfl
  opened _ ho := ho
  code result w exits k yes hs _ := by
    rw [b.entry_self]
    exact ⟨hs, fun _ => tests_anyHolds_nil⟩

theorem tries_cons {id : StepId} (he : Computes funcs outer .bool e b b₁)
    (hemit : Emitted (.branch none) b₁ id b₂)
    (hes : TriesTests funcs outer hits { b₂ with pending := [⟨id, .other⟩] } b'
      fun w env => anyHolds w.calls env es) :
    TriesTests funcs outer (⟨id, .next⟩ :: hits) b b' fun w env =>
      anyHolds w.calls env (e :: es) := by
  have hbuilt := he.built.trans (onlyBuilds_emitted hemit rfl)
  have hpending : b₂.pending = [⟨id, .next⟩] := by rw [hemit.state]
  have hopened : ∀ held, b.Open held → b'.Open (⟨id, .next⟩ :: hits ++ held) := by
    intro held ho
    have hfork := hemit.opened_fork rfl (he.built.opened held ho)
    have hmiss : Builder.Open { b₂ with pending := [⟨id, .other⟩] } (⟨id, .next⟩ :: held) := by
      refine AreOpen.mono hfork fun y => ?_
      simp only [hpending, List.count_append, List.count_cons, List.count_nil]
      omega
    refine (hes.opened _ hmiss).mono fun y => ?_
    simp only [List.count_append, List.count_cons]
    omega
  refine ⟨⟨?_, ?_, ?_, ?_, hbuilt.extend.trans hes.grown.extend, fun held ho => ?_⟩, ?_, ?_, hopened,
    fun result w exits k yes hs hyes => ?_⟩
  · exact hes.grown.setting.trans hbuilt.grown.setting
  · exact hes.grown.depth.trans hbuilt.grown.depth
  · exact hes.grown.tail.trans hbuilt.grown.tail
  · exact hbuilt.grown.contexts.trans hes.grown.contexts
  · refine (hopened held ho).mono fun y => ?_
    simp only [List.count_append]
    omega
  · exact hes.names.trans hbuilt.names_eq
  · exact hes.contexts.trans (by rw [hbuilt.state])
  · obtain ⟨hs₃, htests⟩ := hes.code result w exits k yes hs
      fun slot h => hyes slot (List.mem_cons_of_mem _ h)
    have hs₂ : WorldHasBuilder funcs result w exits b₂ yes := by
      refine ⟨⟨hs₃.sound, hs₃.funcs, hs₃.extend, fun slot h => ?_⟩, hs₃.result, hs₃.meets⟩
      rw [hpending] at h
      obtain rfl := List.mem_singleton.mp h
      exact hyes _ List.mem_cons_self
    obtain ⟨hs₁, hop⟩ := hs₂.fork hemit (hs₃.leads _ (List.mem_singleton_self _))
    obtain ⟨hs₀, hyields⟩ := hs₁.coded he
    rw [entry_before he.built.extend hemit hes.grown.extend] at hs₀ hyields
    exact ⟨hs₀, fun shapes => tests_anyHolds_cons (hyields shapes) hop (htests shapes)⟩

theorem compileCases_ok (hf : NamesFit b.names funcs outer)
    (hes : ∀ e ∈ es, HasType funcs outer e .bool) (h : compileCases es none b = .ok hits b') :
    TriesTests funcs outer hits b b' (fun w env => anyHolds w.calls env es) ∧
      (es ≠ [] → b.steps.size < b'.steps.size) := by
  induction es generalizing b hits with
  | nil =>
      unfold compileCases at h
      cases h
      exact ⟨tries_nil, fun hne => absurd rfl hne⟩
  | cons e es ih =>
      unfold compileCases at h
      obtain ⟨_, b₁, he, h⟩ := bind_eq_ok.mp h
      obtain ⟨_, he⟩ := discard_eq_ok.mp he
      obtain ⟨slot, b₂, hbranch, h⟩ := bind_eq_ok.mp h
      obtain ⟨id, hemit, rfl⟩ := emitFork_ok hbranch
      obtain ⟨hit, _, htake, h⟩ := bind_eq_ok.mp h
      cases htake
      obtain ⟨_, _, hset, h⟩ := bind_eq_ok.mp h
      cases hset
      obtain ⟨rest, b₃, hrest, hlast⟩ := bind_eq_ok.mp h
      cases hlast
      have hvalue := compile_expr hf (hes e (by simp)) Base.bool.hints_ty he
      have hnames := (hvalue.built.trans (onlyBuilds_emitted hemit rfl)).names_eq
      obtain ⟨htries, -⟩ := ih (b := { b₂ with pending := [⟨id, .other⟩] }) (hnames ▸ hf)
        (fun e he => hes e (by simp [he])) hrest
      have hpending : b₂.pending = [⟨id, .next⟩] := by rw [hemit.state]
      change TriesTests funcs outer (b₂.pending ++ rest) b b' _ ∧ _
      rw [hpending]
      exact ⟨tries_cons hvalue hemit htries, fun _ => Nat.lt_of_lt_of_le
        (Nat.lt_of_le_of_lt hvalue.built.extend.size_le hemit.size_lt) htries.grown.extend.size_le⟩

-- The clauses that the tests of a switch lead to, in the order of the source.
structure Sorts (funcs : Funcs) (outer : Vars) (entries : List (List Slot)) (b b' : Builder)
    (x : World → Env → Eval (Option Nat)) : Prop where
  grown : Grown b b'
  names : b'.names = b.names
  contexts : b'.contexts = b.contexts
  opened : ∀ held, b.Open held → b'.Open (entries.flatten ++ held)
  code : ∀ result w exits k entry, WorldHasBuilder funcs result w exits b' k →
    (∀ i, AllLead w.steps (entries[i]?.getD []) (entry i)) →
    WorldHasBuilder funcs result w exits b (b.entry b' k) ∧
      ∀ shapes, ChoosesClause w shapes outer (b.entry b' k) entry k (x w)

theorem compileTests_ok {entries : List (List Slot)} (hf : NamesFit b.names funcs outer)
    (hcs : ∀ c ∈ cs, ∀ e ∈ c.values, HasType funcs outer e .bool)
    (h : compileTests cs none b = .ok entries b') :
    Sorts funcs outer entries b b' (fun w env => firstClause w.calls env cs) ∧
      entries.length = cs.length ∧ ((∀ c ∈ cs, c.values = []) ∨ b.steps.size < b'.steps.size) := by
  induction cs generalizing b entries with
  | nil =>
      unfold compileTests at h
      cases h
      refine ⟨⟨.refl _, rfl, rfl, fun _ ho => ho, fun result w exits k entry hs _ => ?_⟩, rfl,
        .inl (by simp)⟩
      rw [Builder.entry_self]
      exact ⟨hs, fun _ => chooses_nil⟩
  | cons c cs ih =>
      obtain ⟨values, isDefault, body⟩ := c
      unfold compileTests at h
      obtain ⟨hits, b₁, hcases, h⟩ := bind_eq_ok.mp h
      obtain ⟨rest, b₂, hrest, hlast⟩ := bind_eq_ok.mp h
      cases hlast
      obtain ⟨hfirst, hsome⟩ := compileCases_ok hf (hcs _ List.mem_cons_self) hcases
      obtain ⟨hlater, hlen, hlarger⟩ :=
        ih (hfirst.names ▸ hf) (fun c hc => hcs c (by simp [hc])) hrest
      have hle := hfirst.grown.extend.size_le
      have hle' := hlater.grown.extend.size_le
      refine ⟨⟨hfirst.grown.trans hlater.grown, hlater.names.trans hfirst.names,
        hlater.contexts.trans hfirst.contexts, fun held ho => ?_,
        fun result w exits k entry hs hentries => ?_⟩, by simp [hlen], ?_⟩
      · refine (hlater.opened _ (hfirst.opened held ho)).mono fun y => ?_
        simp only [List.flatten_cons, List.count_append]
        omega
      · obtain ⟨hs₁, hchooses⟩ := hlater.code result w exits k (fun i => entry (i + 1)) hs
          fun i => hentries (i + 1)
        obtain ⟨hs₀, htests⟩ := hfirst.code result w exits _ (entry 0) hs₁ (hentries 0)
        rw [entry_trans hfirst.grown.extend hlater.grown.extend] at hs₀ htests
        exact ⟨hs₀, fun shapes => chooses_cons (htests shapes) (hchooses shapes)⟩
      · by_cases hnil : values = []
        · exact hlarger.imp (fun hall c hc => (List.mem_cons.mp hc).elim (· ▸ hnil) (hall c))
            fun hlt => Nat.lt_of_le_of_lt hle hlt
        · exact .inr (Nat.lt_of_lt_of_le (hsome hnil) hle')

-- The paths that no test took lead to the clause that is marked, or out of the switch.

theorem addUnmatched_none {defaults : List Bool} {unmatched : List Slot}
    {entries : List (List Slot)} (h : defaults.findIdx? id = none) :
    addUnmatched defaults unmatched entries = (entries, unmatched) := by
  unfold addUnmatched
  rw [h]

theorem addUnmatched_some {defaults : List Bool} {unmatched : List Slot}
    {entries : List (List Slot)} {i : Nat} (h : defaults.findIdx? id = some i) :
    addUnmatched defaults unmatched entries = (entries.modify i (· ++ unmatched), []) := by
  unfold addUnmatched
  rw [h]

theorem count_flatten_modify {entries : List (List Slot)} {unmatched : List Slot} {i : Nat}
    (hi : i < entries.length) (y : Slot) :
    (entries.modify i (· ++ unmatched)).flatten.count y =
      entries.flatten.count y + unmatched.count y := by
  induction entries generalizing i with
  | nil => cases hi
  | cons slots rest ih =>
      cases i with
      | zero =>
          simp only [List.modify_zero_cons, List.flatten_cons, List.count_append]
          omega
      | succ i =>
          simp only [List.modify_succ_cons, List.flatten_cons, List.count_append,
            ih (Nat.lt_of_succ_lt_succ hi)]
          omega

-- Where the paths to the clauses lead, with those that no test took.
theorem addUnmatched_leads {steps : Array Step} {defaults : List Bool} {unmatched exits : List Slot}
    {entries entries' : List (List Slot)} {entry : Nat → Option StepId} {kend : Option StepId}
    (hlen : entries.length = defaults.length)
    (h : addUnmatched defaults unmatched entries = (entries', exits))
    (hentries : ∀ i, AllLead steps (entries'[i]?.getD []) (entry i))
    (hexits : AllLead steps exits kend) :
    (∀ i, AllLead steps (entries[i]?.getD []) (entry i)) ∧
      AllLead steps unmatched ((defaults.findIdx? id).elim kend entry) := by
  cases hd : defaults.findIdx? id with
  | none =>
      rw [addUnmatched_none hd] at h
      cases h
      exact ⟨hentries, hexits⟩
  | some i =>
      rw [addUnmatched_some hd] at h
      cases h
      have hi : i < entries.length := by
        rw [hlen]
        exact (List.findIdx?_eq_some_iff_getElem.mp hd).1
      have hmodified := hentries i
      rw [List.getElem?_modify_eq, List.getElem?_eq_getElem hi] at hmodified
      refine ⟨fun j slot hslot => ?_, fun slot hslot => hmodified slot (by simp [hslot])⟩
      by_cases hj : i = j
      · subst hj
        rw [List.getElem?_eq_getElem hi] at hslot
        exact hmodified slot (List.mem_append_left _ hslot)
      · have hother := hentries j
        rw [List.getElem?_modify_ne _ _ hj] at hother
        exact hother slot hslot

theorem addUnmatched_count {defaults : List Bool} {unmatched exits : List Slot}
    {entries entries' : List (List Slot)} (hlen : entries.length = defaults.length)
    (h : addUnmatched defaults unmatched entries = (entries', exits)) (y : Slot) :
    entries'.flatten.count y + exits.count y = entries.flatten.count y + unmatched.count y := by
  cases hd : defaults.findIdx? id with
  | none =>
      rw [addUnmatched_none hd] at h
      cases h
      rfl
  | some i =>
      rw [addUnmatched_some hd] at h
      cases h
      have hi : i < entries.length := by
        rw [hlen]
        exact (List.findIdx?_eq_some_iff_getElem.mp hd).1
      rw [count_flatten_modify hi, List.count_nil, Nat.add_zero]

theorem addUnmatched_length {defaults : List Bool} {unmatched exits : List Slot}
    {entries entries' : List (List Slot)}
    (h : addUnmatched defaults unmatched entries = (entries', exits)) :
    entries'.length = entries.length := by
  cases hd : defaults.findIdx? id with
  | none =>
      rw [addUnmatched_none hd] at h
      cases h
      rfl
  | some i =>
      rw [addUnmatched_some hd] at h
      cases h
      simp

end StepGraph.Structured

namespace StepGraph.Structured

open Build

variable {funcs : Funcs} {result : Option Base} {vars vars' outer inner : Vars} {w : World}
  {exits : List Exit} {shapes : List Shape} {b b' b₁ b₂ b₃ : Builder} {k k' : Option StepId}
  {declares : Bool} {span : Span} {u : Unit} {label : Option String} {init post no : Option Stmt}
  {e : Expr} {test : Option Expr} {body yes : List Stmt}

theorem compile_optional (hs : BuilderSuits funcs result vars b)
    (hst : SimpleOption funcs vars init vars') (hok : compileOptional init b = .ok u b') :
    Compiled funcs result vars vars' (init.any (·.declares)) (Finishes vars') b b' fun w env =>
      optional w.calls w.rounds init env := by
  cases hst with
  | none =>
      cases hok
      exact .of_coded hs (.nil fun _ _ _ _ _ => runs_done)
  | some vars' s hst => exact compile_simple hs hst hok

-- The parts of an `if` inside its scope, if it has one.
theorem cond_ok (h : compileStmt (.cond span init e yes no) label b = .ok u b') :
    ∃ b₀ b₁ a b₂ id b₃ b₄ b₅,
      (init.isSome = true → enterScope span b = .ok () b₀ ∧
        leaveScope span { b₅ with pending := b₅.pending ++ b₄.pending } = .ok () b') ∧
      (init.isSome = false → b₀ = b ∧ b' = { b₅ with pending := b₅.pending ++ b₄.pending }) ∧
      compileOptional init b₀ = .ok () b₁ ∧ compile e (.value (some .bool)) b₁ = .ok a b₂ ∧
      Emitted (.branch none) b₂ id b₃ ∧ inScope yes Span.none (compileStmts yes) b₃ = .ok () b₄ ∧
      compileOptional no { b₄ with pending := [⟨id, .other⟩] } = .ok () b₅ := by
  have hrest : ∀ (f : Build Unit) {b₀ b₆ : Builder}, (do
      compileOptional init
      discard (compile e (.value (some .bool)))
      let other ← branch span
      inScope yes Span.none (compileStmts yes)
      let exits ← takePending
      setPending [other]
      compileOptional no
      addPending exits
      f : Build Unit) b₀ = .ok u b₆ → ∃ b₁ a b₂ id b₃ b₄ b₅,
        f { b₅ with pending := b₅.pending ++ b₄.pending } = .ok u b₆ ∧
        compileOptional init b₀ = .ok () b₁ ∧ compile e (.value (some .bool)) b₁ = .ok a b₂ ∧
        Emitted (.branch none) b₂ id b₃ ∧
        inScope yes Span.none (compileStmts yes) b₃ = .ok () b₄ ∧
        compileOptional no { b₄ with pending := [⟨id, .other⟩] } = .ok () b₅ := by
    intro f b₀ b₆ h
    obtain ⟨_, b₁, hinit, h⟩ := bind_eq_ok.mp h
    obtain ⟨_, b₂, htest, h⟩ := bind_eq_ok.mp h
    obtain ⟨slot, b₃, hfork, h⟩ := bind_eq_ok.mp h
    obtain ⟨_, b₄, hyes, h⟩ := bind_eq_ok.mp h
    obtain ⟨_, _, htake, htaken⟩ := bind_eq_ok.mp h
    cases htake
    obtain ⟨_, _, hset, h⟩ := bind_eq_ok.mp htaken
    cases hset
    obtain ⟨_, b₅, hno, hdone⟩ := bind_eq_ok.mp h
    obtain ⟨_, _, hadd, hlast⟩ := bind_eq_ok.mp hdone
    cases hadd
    obtain ⟨a, htest⟩ := discard_eq_ok.mp htest
    obtain ⟨id, hemit, rfl⟩ := emitFork_ok hfork
    exact ⟨b₁, a, b₂, id, b₃, b₄, b₅, hlast, hinit, htest, hemit, hyes, hno⟩
  unfold compileStmt at h
  cases hsome : init.isSome with
  | true =>
      simp only [hsome, if_true] at h
      obtain ⟨_, b₀, henter, h⟩ := bind_eq_ok.mp h
      obtain ⟨b₁, a, b₂, id, b₃, b₄, b₅, hleave, hparts⟩ := hrest (leaveScope span) h
      exact ⟨b₀, b₁, a, b₂, id, b₃, b₄, b₅, fun _ => ⟨henter, hleave⟩, (by simp), hparts⟩
  | false =>
      simp only [hsome, Bool.false_eq_true, if_false] at h
      obtain ⟨b₁, a, b₂, id, b₃, b₄, b₅, hdone, hparts⟩ := hrest (pure ()) h
      cases hdone
      exact ⟨b, b₁, a, b₂, id, b₃, b₄, b₅, (by simp), fun _ => ⟨rfl, rfl⟩, hparts⟩

theorem simpleOption_tail (h : SimpleOption funcs ([] :: vars) init outer) : outer.tail = vars := by
  obtain ⟨vb, rfl, -⟩ := loopVariables_cases h
  rfl

theorem compiled_cond (hs : BuilderSuits funcs result vars b)
    (hinit : SimpleOption funcs ([] :: vars) init outer) (hinner : inner.tail = outer)
    (htest : HasType funcs outer e .bool)
    (hyes : ∀ b b', BuilderSuits funcs result ([] :: outer) b → compileStmts yes b = .ok () b' →
      Compiled funcs result ([] :: outer) inner (yes.any (·.declares)) (LeavesBlock inner) b b'
        fun w env => stmts w.calls w.rounds yes env)
    (hno : ∀ b b', BuilderSuits funcs result outer b → compileOptional no b = .ok () b' →
      Compiled funcs result outer outer false (KeepsTypes outer) b b'
        fun w env => optional w.calls w.rounds no env)
    (hok : compileStmt (.cond span init e yes no) label b = .ok u b') :
    Compiled funcs result vars vars false (KeepsTypes vars) b b' fun w env =>
      stmt w.calls w.rounds (.cond span init e yes no) label env := by
  obtain ⟨b₀, b₁, a, b₂, id, b₃, b₄, b₅, hscope, hbare, hinit', htest', hemit, hyes', hno'⟩ :=
    cond_ok hok
  have hbranch : BuilderSuits funcs result ([] :: vars) b₀ →
      Compiled funcs result ([] :: vars) outer (init.any (·.declares)) (LeavesBlock outer) b₀
        { b₅ with pending := b₅.pending ++ b₄.pending } (fun w env => do
          let env := (← optional w.calls w.rounds init env).1
          let v ← expr w.calls env e
          if ← Structured.test v then inBlock (fun env => stmts w.calls w.rounds yes env) env
          else optional w.calls w.rounds no env) := by
    intro hs₀
    have hfirst := compile_optional hs₀ hinit hinit'
    have hvalue := compile_expr hfirst.suits.fits htest Base.bool.hints_ty htest'
    have htested := hvalue.built.trans (onlyBuilds_emitted hemit rfl)
    have hs₃ := hfirst.suits.of_names htested.grown htested.names_eq
    have hthen := compiled_inScope hs₃ hyes' hinner hyes
    refine (compiled_branch hfirst hvalue hemit hthen ?_ rfl).imp fun r hr => hr.leaves
    exact hno _ _ ⟨hthen.suits.fits, hthen.suits.unnamed, hthen.suits.results⟩ hno'
  cases hsome : init.isSome with
  | true =>
      obtain ⟨henter, hleave⟩ := hscope hsome
      exact .within hs henter (hbranch (hs.enter henter)) (simpleOption_tail hinit) hleave
  | false =>
      obtain ⟨rfl, rfl⟩ := hbare hsome
      obtain rfl : init = none := Option.isNone_iff_eq_none.mp (by simpa using hsome)
      exact .bare hs (hbranch ⟨hs.fits.enterBare, hs.unnamed, hs.results⟩) (simpleOption_tail hinit)

-- The parts of a loop.
theorem loop_ok (h : compileStmt (.loop span init test post body) label b = .ok u b') :
    ∃ b₁ b₂ head b₃ misses b₄ b₅ b₆ b₇ slots b₈ b₉ b₁₀ b₁₁ j b₁₂ steps b₁₃,
      enterScope span b = .ok () b₁ ∧ compileOptional init b₁ = .ok () b₂ ∧
      Emitted .nop b₂ head b₃ ∧ compileTest test span b₃ = .ok misses b₄ ∧
      enterScope span { b₄ with
        contexts := ⟨.loop, label, b₁.depth, b₁.depth + 1, [], []⟩ :: b₄.contexts } = .ok () b₅ ∧
      (loopVariables init).forM (refresh span) b₅ = .ok () b₆ ∧
      inScope body Span.none (compileStmts body) b₆ = .ok () b₇ ∧
      popContext b₇ = .ok slots b₈ ∧
      (if (loopVariables init).isEmpty then pure ()
        else emit' (.carryOut (loopVariables init)) span)
          { b₈ with pending := b₈.pending ++ slots.2 } = .ok () b₉ ∧
      leaveScope span b₉ = .ok () b₁₀ ∧ compileOptional post b₁₀ = .ok () b₁₁ ∧
      Emitted (.jump b₁.depth) b₁₁ j b₁₂ ∧ Linked b₁₂.steps [⟨j, .next⟩] head steps ∧
      b₁₃ = { b₁₂ with steps, pending := misses ++ slots.1 } ∧
      leaveScope span b₁₃ = .ok () b' := by
  unfold compileStmt at h
  obtain ⟨_, b₁, henter, h₁⟩ := bind_eq_ok.mp h
  obtain ⟨_, _, hget, h₂⟩ := bind_eq_ok.mp h₁
  cases hget
  obtain ⟨_, b₂, hinit, h₃⟩ := bind_eq_ok.mp h₂
  obtain ⟨head, b₃, hhead, h₄⟩ := bind_eq_ok.mp h₃
  obtain ⟨misses, b₄, htest, h₅⟩ := bind_eq_ok.mp h₄
  obtain ⟨_, _, hpush, h₆⟩ := bind_eq_ok.mp h₅
  cases hpush
  obtain ⟨_, b₅, hround, h₇⟩ := bind_eq_ok.mp h₆
  obtain ⟨_, b₆, hrefresh, h₈⟩ := bind_eq_ok.mp h₇
  obtain ⟨_, b₇, hbody, h₉⟩ := bind_eq_ok.mp h₈
  obtain ⟨slots, b₈, hpop, h₁₀⟩ := bind_eq_ok.mp h₉
  obtain ⟨_, _, hadd, h₁₁⟩ := bind_eq_ok.mp h₁₀
  cases hadd
  obtain ⟨b₉, hcarry, h₁₂⟩ := unless_ok h₁₁
  obtain ⟨_, b₁₀, hleave, h₁₃⟩ := bind_eq_ok.mp h₁₂
  obtain ⟨_, b₁₁, hpost, h₁₄⟩ := bind_eq_ok.mp h₁₃
  obtain ⟨slot, _, hjump, h₁₅⟩ := bind_eq_ok.mp h₁₄
  obtain ⟨j, b₁₂, hemit, rfl, rfl⟩ := jump_ok hjump
  obtain ⟨_, _, hlink, h₁₆⟩ := bind_eq_ok.mp h₁₅
  obtain ⟨steps, rfl, hlinked⟩ := link_ok hlink
  obtain ⟨_, b₁₃, hadd₂, hlast⟩ := bind_eq_ok.mp h₁₆
  cases hadd₂
  exact ⟨b₁, b₂, head, b₃, misses, b₄, b₅, b₆, b₇, slots, b₈, b₉, b₁₀, b₁₁, j, b₁₂, steps, _,
    henter, hinit, emit_ok hhead, htest, hround, hrefresh, hbody, hpop, hcarry, hleave, hpost, hemit,
    hlinked, rfl, hlast⟩

theorem compiled_loop (hs : BuilderSuits funcs result vars b)
    (hinit : SimpleOption funcs ([] :: vars) init outer)
    (htest : ∀ e ∈ test, HasType funcs outer e .bool) (hpost : SimpleOption funcs outer post outer)
    (hkeep : ∀ s ∈ post, s.declares = false) (hinner : inner.tail = outer)
    (hbody : ∀ b b', BuilderSuits funcs result ([] :: outer) b → compileStmts body b = .ok () b' →
      Compiled funcs result ([] :: outer) inner (body.any (·.declares)) (LeavesBlock inner) b b'
        fun w env => stmts w.calls w.rounds body env)
    (hok : compileStmt (.loop span init test post body) label b = .ok u b') :
    Compiled funcs result vars vars false (KeepsTypes vars) b b' fun w env =>
      stmt w.calls w.rounds (.loop span init test post body) label env := by
  obtain ⟨b₁, b₂, head, b₃, misses, b₄, b₅, b₆, b₇, slots, b₈, b₉, b₁₀, b₁₁, j, b₁₂, steps, b₁₃,
    henter, hinit', hhead, htest', hround, hrefresh, hbody', hpop, hcarry, hleave, hpost', hjump,
    hlink, hb, hlast⟩ := loop_ok hok
  have hfirst := compile_optional (hs.enter henter) hinit hinit'
  have hnop := onlyBuilds_emitted hhead rfl
  have hs₃ := hfirst.suits.of_names hnop.grown hnop.names_eq
  have htested := compileTest_ok hs₃.fits htest htest'
  have hs₄ := hs₃.of_names htested.grown htested.names
  rw [← hfirst.grown.depth] at hround hjump
  obtain ⟨vb, rfl, hvars⟩ := loopVariables_cases hinit
  have hs₅ : BuilderSuits funcs result (vb :: vars) { b₄ with
      contexts := ⟨.loop, label, b₂.depth, b₂.depth + 1, [], []⟩ :: b₄.contexts } :=
    ⟨hs₄.fits, hs₄.unnamed, hs₄.results⟩
  obtain ⟨hopens, hs₆⟩ : OpensScope { b₄ with
      contexts := ⟨.loop, label, b₂.depth, b₂.depth + 1, [], []⟩ :: b₄.contexts } b₆
      (OpensRound (vb :: vars)) ∧ BuilderSuits funcs result (vb :: vars) b₆ := by
    rcases hvars with ⟨hnone, hfree⟩ | ⟨x, t, hone, hblank, hx, honly⟩
    · rw [hnone] at hrefresh
      cases hrefresh
      exact opens_still hfree hs₅ hround
    · rw [hone] at hrefresh
      obtain ⟨_, b₅', hrefresh, hlast⟩ := bind_eq_ok.mp hrefresh
      cases hlast
      exact opens_refresh hx honly hblank hs₅ hround hrefresh
  have hclosed : ClosesScope { b₈ with pending := b₈.pending ++ slots.2 } b₁₀
      (ClosesRound (vb :: vars)) := by
    rcases hvars with ⟨hnone, hfree⟩ | ⟨x, t, hone, hblank, hx, honly⟩
    · rw [hnone] at hcarry
      cases hcarry
      exact closes_still hfree hleave
    · rw [hone] at hcarry
      exact closes_carry hx honly hcarry hleave
  have hrun := compiled_inScope hs₆ hbody' hinner hbody
  obtain ⟨c, rest, hcontexts⟩ : ∃ c rest, b₇.contexts = c :: rest := by
    have hgrow := hrun.grown.contexts
    rw [hopens.contexts] at hgrow
    generalize b₇.contexts = contexts at hgrow
    cases hgrow with
    | cons => exact ⟨_, _, rfl⟩
  obtain ⟨rfl, rfl⟩ := popContext_ok hcontexts hpop
  have hnames : b₁₀.names = b₄.names := by
    refine names_eq_of_setting ?_ ?_
    · exact hclosed.setting.trans (hrun.grown.setting.trans hopens.setting)
    · rw [hclosed.blocks]
      exact (congrArg List.tail rfl).trans (hrun.grown.tail.trans hopens.tail)
  have hs₁₀ : BuilderSuits funcs result (vb :: vars) b₁₀ := by
    have hsig : b₁₀.sig = b₄.sig := congrArg (fun s => s.2.1)
      (hclosed.setting.trans (hrun.grown.setting.trans hopens.setting))
    exact ⟨hnames ▸ hs₄.fits, hsig ▸ hs₄.unnamed, hsig ▸ hs₄.results⟩
  have hnone : post.any (·.declares) = false := by
    cases post with
    | none => rfl
    | some s => exact hkeep s rfl
  have hlater := compile_optional hs₁₀ hpost hpost'
  rw [hnone] at hlater
  have hconfined := confined_loop hhead htested hopens hrun hcontexts hclosed hlater
    hjump hlink hb
  have hall := Confined.after hfirst hconfined
  have hinside := Confined.within hs henter hall rfl hlast
  unfold stmt
  exact hinside

end StepGraph.Structured

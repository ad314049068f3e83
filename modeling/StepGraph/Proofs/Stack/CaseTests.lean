import StepGraph.Proofs.Stack.Parts
import StepGraph.Proofs.Structured.Clauses

open EStateM (bind_eq_ok discard_eq_ok)

namespace StepGraph

open Build

namespace Build

variable {s : Site} {b b' : Builder} {span : Span} {u : Unit}

-- Some of what is set aside is given up.
theorem AtSite.sheds (given held : List Loose) (hat : AtSite s b)
    (h : s.held.Perm (given ++ held)) : AtSite { s with held } b :=
  (hat.after (.drop given held h (.inl rfl))).site

theorem enterScope_leads (h : enterScope span b = .ok u b') :
    AllLead b'.steps b.pending (some b.steps.size) := by
  obtain ⟨_, b₁, hemit, h⟩ := bind_eq_ok.mp h
  cases h
  obtain ⟨id, hemit⟩ := discard_eq_ok.mp hemit
  have he := emit_ok hemit
  exact he.id_eq ▸ he.leads (.refl _)

theorem leaveScope_ok (h : leaveScope span b = .ok u b') : ∃ b₁,
    Emitted .popScope b b.steps.size b₁ ∧ b'.steps = b₁.steps ∧ b'.names.types = b.names.types := by
  obtain ⟨_, b₁, hemit, h⟩ := bind_eq_ok.mp h
  cases h
  obtain ⟨id, hemit⟩ := discard_eq_ok.mp hemit
  have he := emit_ok hemit
  exact ⟨b₁, he.id_eq ▸ he, rfl, show b₁.names.types = b.names.types by rw [he.names]⟩

-- The parts of a test of a tag.
theorem compileCases_ok {e : Expr} {es : List Expr} {x : String} {ty : Option Ty} {hits : List Slot}
    (h : compileCases (e :: es) (some (x, ty)) b = .ok hits b') :
    ∃ b₁ b₂ b₃ b₄ id others, emit' (.load x) e.span b = .ok () b₁ ∧
      discard (compile e (.value ty)) b₁ = .ok () b₂ ∧
      emit' (.binary .eq (resolved? .eq ty ((b.names.staticType e).or ty))) e.span b₂ = .ok () b₃ ∧
      branch e.span b₃ = .ok ⟨id, .other⟩ b₄ ∧ Emitted (.branch none) b₃ id b₄ ∧
      compileCases es (some (x, ty)) { b₄ with pending := [⟨id, .other⟩] } = .ok others b' ∧
      hits = b₄.pending ++ others := by
  unfold compileCases at h
  obtain ⟨n, _, hn, h⟩ := bind_eq_ok.mp h
  cases hn
  obtain ⟨_, b₁, hload, h⟩ := bind_eq_ok.mp h
  obtain ⟨_, b₂, hvalue, h⟩ := bind_eq_ok.mp h
  obtain ⟨_, b₃, hcompare, h⟩ := bind_eq_ok.mp h
  obtain ⟨miss, b₄, hbranch, h⟩ := bind_eq_ok.mp h
  obtain ⟨hit, _, htake, h⟩ := bind_eq_ok.mp h
  cases htake
  obtain ⟨_, _, hset, h⟩ := bind_eq_ok.mp h
  cases hset
  obtain ⟨others, b₅, hrest, hlast⟩ := bind_eq_ok.mp h
  cases hlast
  obtain ⟨id, he, rfl⟩ := emitFork_ok hbranch
  exact ⟨b₁, b₂, b₃, b₄, id, others, hload, hvalue, hcompare, hbranch, he, hrest, rfl⟩

theorem compileTests_length {cs : List Clause} {tag : Option (String × Option Ty)}
    {entries : List (List Slot)} (h : compileTests cs tag b = .ok entries b') :
    entries.length = cs.length := by
  induction cs generalizing b entries with
  | nil =>
      unfold compileTests at h
      cases h
      rfl
  | cons c cs ih =>
      obtain ⟨values, isDefault, body⟩ := c
      unfold compileTests at h
      obtain ⟨hits, b₁, -, h⟩ := bind_eq_ok.mp h
      obtain ⟨rest, b₂, hrest, hlast⟩ := bind_eq_ok.mp h
      cases hlast
      rw [List.length_cons, List.length_cons, ih hrest]

-- The clauses of a switch, from their tests on.
def compileClauses (cs : List Clause) (tag : Option (String × Option Ty)) (label : Option String)
    (span : Span) : Build Unit := do
  let entries ← compileTests cs tag
  let (entries, exits) := addUnmatched (cs.map fun c => c.isDefault) (← takePending) entries
  let depth := (← get).depth
  pushContext .switch label depth depth
  let exits ← compileBodies cs entries [] exits
  let (breaks, _) ← popContext
  setPending (exits ++ breaks)
  leaveScope span

theorem compileStmt_switch (span : Span) (init : Option Stmt) (tag : Option Expr) (cs : List Clause)
    (label : Option String) : compileStmt (.switch span init tag cs) label = (do
      enterScope span
      compileOptional init
      let tag ← compileTag tag span
      compileClauses cs tag label span) := by
  unfold compileStmt
  rfl

theorem compileClauses_ok {cs : List Clause} {tag : Option (String × Option Ty)}
    {label : Option String} (h : compileClauses cs tag label span b = .ok u b') :
    ∃ entries entries' exits exits' slots b₁ b₂ b₃ b₄, compileTests cs tag b = .ok entries b₁ ∧
      addUnmatched (cs.map (·.isDefault)) b₁.pending entries = (entries', exits) ∧
      pushContext .switch label b₁.depth b₁.depth { b₁ with pending := [] } = .ok () b₂ ∧
      compileBodies cs entries' [] exits b₂ = .ok exits' b₃ ∧ popContext b₃ = .ok slots b₄ ∧
      leaveScope span { b₄ with pending := exits' ++ slots.1 } = .ok u b' := by
  obtain ⟨entries, b₁, htests, h⟩ := bind_eq_ok.mp h
  obtain ⟨_, _, htake, h⟩ := bind_eq_ok.mp h
  cases htake
  obtain ⟨_, _, hget, h⟩ := bind_eq_ok.mp h
  cases hget
  obtain ⟨_, b₂, hpush, h⟩ := bind_eq_ok.mp h
  obtain ⟨exits', b₃, hbodies, h⟩ := bind_eq_ok.mp h
  obtain ⟨slots, b₄, hpop, h⟩ := bind_eq_ok.mp h
  obtain ⟨_, _, hset, hleave⟩ := bind_eq_ok.mp h
  cases hset
  exact ⟨entries, _, _, exits', slots, b₁, b₂, b₃, b₄, htests, rfl, hpush, hbodies, hpop, hleave⟩

theorem compileTag_ok {e : Expr} {span : Span} {tag : Option (String × Option Ty)}
    (h : compileTag (some e) span b = .ok tag b') : ∃ x, tag = some (x, b.names.inferType e) := by
  unfold compileTag at h
  obtain ⟨n, _, hn, h⟩ := bind_eq_ok.mp h
  cases hn
  obtain ⟨_, b₁, -, h⟩ := bind_eq_ok.mp h
  obtain ⟨x, b₂, -, h⟩ := bind_eq_ok.mp h
  obtain ⟨_, b₃, -, h⟩ := bind_eq_ok.mp h
  obtain ⟨_, b₄, -, h⟩ := bind_eq_ok.mp h
  cases h
  exact ⟨x, rfl⟩

end Build

-- A value that a tag is compared with: its clause, the names around it, the step that reads the tag,
-- and the one that compares.
structure CaseTest where
  value : Expr
  clause : Nat
  names : Names
  first : StepId
  compare : StepId

-- The operator of a test takes a value of no static type for one of the type of the tag.
def CaseTest.resolved (t : CaseTest) (ty : Option Ty) : Option Family :=
  resolved? .eq ty ((t.names.staticType t.value).or ty)

-- The value of a test is an expression of the function.
def CaseTest.IsEvaluated (t : CaseTest) (p : Program) (steps : Array Step) (ty : Option Ty) :
    Prop :=
  p.Evaluates steps (discard (compile t.value (.value ty))) () t.names [.one] (t.first + 1) t.compare

namespace Program

variable {p : Program} {steps : Array Step} {s : Site} {b b' : Builder} {x : String}
  {ty : Option Ty} {goal : Option Nat → Option StepId} {values values' : List (Expr × Nat)}
  {k k' last : Option StepId}

-- One test after the other, until one succeeds. The goal tells where each clause begins, and where
-- one comes to without any.
def search (p : Program) (steps : Array Step) (x : String) (ty : Option Ty)
    (goal : Option Nat → Option StepId) : List CaseTest → Stretch (Option StepId)
  | [] => return goal none
  | t :: rest => do
      p.does steps t.first (.load x)
      p.across steps (t.first + 1) t.compare
      applies steps t.compare .eq (t.resolved ty)
      if ← tests steps (t.compare + 1) then return goal (some t.clause)
      else p.search steps x ty goal rest

-- Whoever comes to a place searches these values for the tag, and then as it is done from the other
-- place.
def SearchesCases (p : Program) (steps : Array Step) (x : String) (ty : Option Ty)
    (goal : Option Nat → Option StepId) (values : List (Expr × Nat)) (k last : Option StepId) :
    Prop :=
  ∃ ts : List CaseTest, ts.map (fun t => (t.value, t.clause)) = values ∧
    (∀ t ∈ ts, t.IsEvaluated p steps ty) ∧
    ∀ rest, p.Follows steps last (p.search steps x ty goal rest) →
      p.Follows steps k (p.search steps x ty goal (ts ++ rest))

theorem SearchesCases.nil (k : Option StepId) : p.SearchesCases steps x ty goal [] k k :=
  ⟨[], rfl, List.forall_mem_nil _, fun _ h => h⟩

theorem SearchesCases.append (h : p.SearchesCases steps x ty goal values k k')
    (h' : p.SearchesCases steps x ty goal values' k' last) :
    p.SearchesCases steps x ty goal (values ++ values') k last := by
  obtain ⟨ts, hvalues, hstands, hfollows⟩ := h
  obtain ⟨ts', hvalues', hstands', hfollows'⟩ := h'
  refine ⟨ts ++ ts', by rw [List.map_append, hvalues, hvalues'],
    List.forall_mem_append.mpr ⟨hstands, hstands'⟩, fun rest hrest => ?_⟩
  rw [List.append_assoc]
  exact hfollows _ (hfollows' rest hrest)

theorem searches_compileCases (hp : p.HasSteps steps) {es : List Expr} {hits : List Slot} {i : Nat}
    (hat : AtSite s b) (hitems : s.items = [])
    (h : compileCases es (some (x, ty)) b = .ok hits b') (hkept : StepsKept b'.steps steps)
    (htypes : b'.names.types.KeepsStructs p.types) (hmiss : AllLead steps b'.pending last)
    (hhits : AllLead steps hits (goal (some i))) :
    ∃ k, AllLead steps b.pending k ∧ p.SearchesCases steps x ty goal (es.map (·, i)) k last := by
  induction es generalizing s b hits with
  | nil =>
      unfold compileCases at h
      cases h
      exact ⟨last, hmiss, .nil last⟩
  | cons e rest ih =>
      obtain ⟨b₁, b₂, b₃, b₄, id, others, hload, hvalue, hcompare, hbranch, e₄, hrest, rfl⟩ :=
        compileCases_ok h
      obtain ⟨depth, items, held, heads, contexts⟩ := s
      obtain rfl : items = [] := hitems
      obtain ⟨e₁, c₁⟩ := hat.emits [] rfl rfl hload
      have c₂ := c₁.site.performs (performs_value (compiles e) _) hvalue
      obtain ⟨e₃, c₃⟩ := c₂.site.emits [] rfl rfl hcompare
      have c₄ := c₃.site.performs (performs_branch rfl e.span) hbranch
      have hat₅ : AtSite ⟨depth, [], b₄.pending.map (.exit depth) ++ held, heads, contexts⟩
          { b₄ with pending := [⟨id, .other⟩] } := by
        have htaken := c₄.site.performs performs_takePending (a := b₄.pending) rfl
        exact (htaken.site.performs (performs_setPending [] _ List.perm_middle) rfl).site
      have c₅ := hat₅.performs (performs_compileCases (compiles_list rest) (some (x, ty)) rfl) hrest
      have k₄ := hkept.of_extends c₅.extend
      obtain ⟨k, hpending, hothers⟩ := ih hat₅ rfl hrest
        fun slot hslot => hhits slot (List.mem_append_right _ hslot)
      have k₃ := k₄.of_extends c₄.extend
      have k₂ := k₃.of_extends c₃.extend
      have k₁ := k₂.of_extends c₂.extend
      have htypes₂ := c₃.types.trans (c₄.types.trans (c₅.types.trans htypes))
      have hleads := (Begins.refl b₂).allLead e₃ k₃
      have hvalue₂ := hp.evaluates_value c₁.site hvalue k₂ hleads htypes₂
      have hstart := ((leadsOff e).value _ _ _ _ hvalue).allLead e₃ k₃
      obtain ⟨s, hs, hop⟩ := e₄.kept k₄ rfl
      obtain ⟨s', hs', hhit⟩ := hhits ⟨id, .next⟩
        (List.mem_append_left _ (e₄.pending ▸ List.mem_singleton_self _))
      obtain rfl := Option.some.inj (hs.symm.trans hs')
      obtain ⟨s', hs', hmissed⟩ := hpending ⟨id, .other⟩ (List.mem_singleton_self _)
      obtain rfl := Option.some.inj (hs.symm.trans hs')
      rw [e₁.size_eq] at hstart hvalue₂
      have hnext : p.Follows steps s.next (pure (goal (some i))) := by
        rw [show s.next = goal (some i) from hhit]
        exact .done _
      let t : CaseTest := ⟨e, i, b₁.names, b.steps.size, b₂.steps.size⟩
      have htest : p.SearchesCases steps x ty goal [(e, i)] (some b.steps.size) k := by
        refine ⟨[t], rfl, List.forall_mem_singleton.mpr hvalue₂, fun more hmore => ?_⟩
        have hbranch := Follows.tests hs (hop.trans (congrArg StepOp.branch hmissed)) hnext hmore
        rw [e₄.id_eq] at hbranch
        have happly := Follows.applies e₃ k₃ ((Begins.refl b₃).allLead e₄ k₄) hbranch
        rw [e₃.size_eq, ← e₁.names] at happly
        rw [List.singleton_append]
        unfold search
        exact .emitted e₁ k₁ rfl (fun _ => rfl) rfl hstart
          (.across hvalue₂.part hvalue₂.le happly)
      exact ⟨some b.steps.size, (Begins.refl b).allLead e₁ k₁, htest.append hothers⟩

theorem searches_compileTests (hp : p.HasSteps steps) {cs : List Clause}
    {entries : List (List Slot)} {n : Nat} (hat : AtSite s b) (hitems : s.items = [])
    (h : compileTests cs (some (x, ty)) b = .ok entries b') (hkept : StepsKept b'.steps steps)
    (htypes : b'.names.types.KeepsStructs p.types) (hmiss : AllLead steps b'.pending last)
    (hhits : ∀ i, AllLead steps (entries[i]?.getD []) (goal (some (n + i)))) :
    ∃ k, AllLead steps b.pending k ∧
      p.SearchesCases steps x ty goal ((cs.zipIdx n).flatMap fun c => c.1.values.map (·, c.2)) k last := by
  induction cs generalizing s b entries n with
  | nil =>
      unfold compileTests at h
      cases h
      exact ⟨last, hmiss, .nil last⟩
  | cons c cs ih =>
      obtain ⟨values, isDefault, body⟩ := c
      unfold compileTests at h
      obtain ⟨hits, b₁, hcases, h⟩ := bind_eq_ok.mp h
      obtain ⟨rest, b₂, hrest, hlast⟩ := bind_eq_ok.mp h
      cases hlast
      have c₁ := hat.performs (performs_compileCases (compiles_list values) (some (x, ty)) hitems)
        hcases
      have c₂ := c₁.site.performs (performs_compileTests (builds_clauses cs) (some (x, ty)) hitems) hrest
      obtain ⟨k', hpending, hothers⟩ := ih c₁.site hitems hrest (n := n + 1) fun i => by
        rw [Nat.add_right_comm]
        exact hhits (i + 1)
      obtain ⟨k, hfirst, hvalues⟩ := searches_compileCases hp hat hitems hcases
        (hkept.of_extends c₂.extend) (c₂.types.trans htypes) hpending (hhits 0)
      exact ⟨k, hfirst, hvalues.append hothers⟩

-- The body of a clause, in a scope of its own, begins at a step of a function.
def BodyAt (p : Program) (steps : Array Step) (body : List Stmt) (first : StepId) : Prop :=
  ∃ s b b', AtSite s b ∧ Ready s ∧ b.steps.size = first ∧
    (do enterScope Span.none; compileClause body; leaveScope Span.none) b = .ok () b' ∧
    StepsKept b'.steps steps ∧ b'.names.types.KeepsStructs p.types

-- Where the paths to the clauses lead, with those that leave the switch before any body does.
theorem bodies_compileBodies {cs : List Clause} {depth : Nat} {held : List Loose}
    {heads : List Head} {contexts : List JumpContext} {entries : List (List Slot)}
    {carried exits exits' : List Slot} (hs : Ready ⟨depth, [], held, heads, contexts⟩)
    (hat : AtSite ⟨depth, [], (entries.flatten ++ carried ++ exits).map (.exit depth) ++ held, heads,
      contexts⟩ b) (h : compileBodies cs entries carried exits b = .ok exits' b')
    (hlen : entries.length = cs.length) (hkept : StepsKept b'.steps steps)
    (htypes : b'.names.types.KeepsStructs p.types) :
    exits ⊆ exits' ∧ ∃ entry : Nat → Option StepId,
      (∀ i, AllLead steps (entries[i]?.getD []) (entry i)) ∧
      ∀ i c, cs[i]? = some c → ∃ j, entry i = some j ∧ p.BodyAt steps c.body j := by
  induction cs generalizing b entries carried exits with
  | nil =>
      unfold compileBodies at h
      cases h
      obtain rfl : entries = [] := List.eq_nil_of_length_eq_zero hlen
      exact ⟨fun _ hx => hx, fun _ => none, fun i slot hslot => absurd hslot (by simp),
        fun i c hc => absurd hc (by simp)⟩
  | cons c cs ih =>
      obtain ⟨values, isDefault, body⟩ := c
      obtain ⟨slots, entries, rfl⟩ := List.exists_cons_of_length_eq_add_one hlen
      obtain ⟨-, b₁, b₂, b₃, henter, hclause, hleave, hrest⟩ := Structured.bodies_ok h
      have c₀ := hat.performs (performs_setPending [] _
        (entries_perm depth (slots :: entries) carried exits held)) rfl
      have c₁ := c₀.site.performs (performs_enterScope _ _) henter
      have c₂ := c₁.site.performs (performs_compileClause (fun stmt _ => builds stmt)
        (hs.deeper (Nat.le_succ depth) _ heads)) hclause
      have c₃ := c₂.site.performs (performs_leaveScope ⟨depth, [], _, heads, contexts⟩ _) hleave
      have c₄ := c₃.site.performs performs_takePending (a := b₃.pending) rfl
      have hat₄ : AtSite ⟨depth, [], (entries.flatten ++
            (if Structured.fallsThrough body then b₃.pending else []) ++
            if Structured.fallsThrough body then exits else exits ++ b₃.pending).map (.exit depth) ++
          held, heads, contexts⟩ { b₃ with pending := [] } := by
        have hsite := c₄.site
        change AtSite ⟨depth, [], b₃.pending.map (.exit depth) ++
          ((entries.flatten ++ exits).map (.exit depth) ++ held), heads, contexts⟩ _ at hsite
        rw [← List.append_assoc, ← List.map_append] at hsite
        refine hsite.sheds [] _ (exits_perm (List.perm_iff_count.mpr fun x => ?_) held)
        split <;> simp only [List.count_append, List.count_nil] <;> omega
      obtain ⟨hexits, entry, hentries, hbodies⟩ := ih hat₄ hrest (Nat.succ.inj hlen)
      have c₅ := hat₄.performs (performs_compileBodies (builds_clauses cs) hs entries _ _) hrest
      have k₃ := hkept.of_extends c₅.extend
      have k₁ := (k₃.of_extends c₃.extend).of_extends c₂.extend
      have hbody : p.BodyAt steps body b.steps.size :=
        ⟨_, _, b₃, c₀.site, hs.deeper (Nat.le_refl depth) _ heads, rfl,
          bind_eq_ok.mpr ⟨_, _, henter, bind_eq_ok.mpr ⟨_, _, hclause, hleave⟩⟩, k₃,
          c₅.types.trans htypes⟩
      have hfirst : AllLead steps slots (some b.steps.size) := fun slot hslot =>
        k₁.leads slot _ (enterScope_leads henter slot (List.mem_append_left _ hslot))
      refine ⟨fun slot hslot => hexits ?_, fun i => Nat.casesOn i (some b.steps.size) entry,
        ?_, ?_⟩
      · split
        · exact hslot
        · exact List.mem_append_left _ hslot
      · rintro (_ | i)
        · exact hfirst
        · exact hentries i
      · rintro (_ | i) c hc
        · cases hc
          exact ⟨_, rfl, hbody⟩
        · exact hbodies i c hc

-- What the tag gives is bound to a variable, and then it is gone on from what is open.
theorem follows_compileTag (hp : p.HasSteps steps) {e : Expr} {span : Span} (hat : AtSite s b)
    (h : compileTag (some e) span b = .ok (some (x, ty)) b') (hkept : StepsKept b'.steps steps)
    (htypes : b'.names.types.KeepsStructs p.types) :
    ∃ bind : StepId,
      p.Evaluates steps (discard (compile e (.value none))) () b.names [.one] b.steps.size bind ∧
      ∀ k y, AllLead steps b'.pending k → p.Follows steps k y →
        p.Follows steps (some b.steps.size) (do
          p.across steps b.steps.size bind
          p.does steps bind (.declare [x] none (.fixed 1))
          y) := by
  unfold compileTag at h
  obtain ⟨n, _, hn, h⟩ := bind_eq_ok.mp h
  cases hn
  obtain ⟨_, b₁, hvalue, h⟩ := bind_eq_ok.mp h
  obtain ⟨x, _, htemp, h⟩ := bind_eq_ok.mp h
  cases htemp
  obtain ⟨_, b₂, hbind, h⟩ := bind_eq_ok.mp h
  obtain ⟨_, b₃, hdeclare, h⟩ := bind_eq_ok.mp h
  cases h
  have c₁ := hat.performs (performs_value (compiles e) _) hvalue
  have c₂ := c₁.site.performs (performs_temp "tag") rfl
  obtain ⟨e₃, c₃⟩ := c₂.site.emits s.items rfl rfl hbind
  have c₄ := c₃.site.performs (performs_declare _ _) hdeclare
  cases hdeclare
  have k₂ := hkept.of_extends c₄.extend
  have hleads := (Begins.refl _).allLead e₃ k₂
  have htag := hp.evaluates_value hat hvalue ((k₂.of_extends c₃.extend).of_extends c₂.extend)
    hleads (c₂.types.trans (c₃.types.trans (c₄.types.trans htypes)))
  exact ⟨_, htag, fun k y hnext hy =>
    .across htag.part htag.le (.emitted e₃ k₂ rfl (fun _ => rfl) rfl hnext hy)⟩

-- Where a switch goes on: at the clause that was found, else at the default clause, else behind all
-- of them.
def reached (cs : List Clause) (entry : Nat → Option StepId) (out : StepId) (found : Option Nat) :
    Option StepId :=
  (found.or (cs.findIdx? (·.isDefault))).elim (some out) entry

theorem searches_clauses (hp : p.HasSteps steps) {cs : List Clause} {label : Option String}
    {span : Span} {depth : Nat} {held : List Loose} {heads : List Head} {contexts : List JumpContext}
    (hs : Ready ⟨depth, [], held, heads, contexts⟩)
    (hat : AtSite ⟨depth + 1, [], held, heads, contexts⟩ b)
    (h : compileClauses cs (some (x, ty)) label span b = .ok () b')
    (hkept : StepsKept b'.steps steps) (htypes : b'.names.types.KeepsStructs p.types) :
    StepsKept b.steps steps ∧ b.names.types.KeepsStructs p.types ∧
    ∃ (entry : Nat → Option StepId) (out : StepId) (k : Option StepId),
      (∀ i c, cs[i]? = some c → ∃ j, entry i = some j ∧ p.BodyAt steps c.body j) ∧
      (∃ s, steps[out]? = some s ∧ s.op = .popScope) ∧ AllLead steps b.pending k ∧
      p.SearchesCases steps x ty (reached cs entry out)
        (cs.zipIdx.flatMap fun c => c.1.values.map (·, c.2)) k (reached cs entry out none) := by
  obtain ⟨entries, entries', exits, exits', slots, b₁, b₂, b₃, b₄, htests, hreached, hpush, hbodies,
    hpop, hleave⟩ := compileClauses_ok h
  obtain ⟨b₅, he, hsteps, hnames⟩ := leaveScope_ok hleave
  have c₁ := hat.performs (performs_compileTests (builds_clauses cs) (some (x, ty)) rfl) htests
  have c₂ := c₁.site.performs performs_takePending (a := b₁.pending) rfl
  have c₃ := c₂.site.performs (performs_pushContext .switch label b₁.depth b₁.depth) hpush
  obtain ⟨given, hgiven⟩ := addUnmatched_perm (cs.map (·.isDefault)) b₁.pending entries
  rw [hreached] at hgiven
  have hat₂ : AtSite ⟨depth + 1, [],
      (entries'.flatten ++ [] ++ exits).map (.exit (depth + 1)) ++ held, heads,
      ⟨.switch, label, depth + 1, depth + 1, [], []⟩ :: contexts⟩ b₂ := by
    have hsite := c₃.site
    rw [← show depth + 1 = b₁.depth from c₁.site.fits.depth] at hsite
    rw [List.append_nil]
    exact hsite.sheds _ _ (unmatched_perm hgiven held)
  have hready := ready_switch hs label
  have c₄ := hat₂.performs (performs_compileBodies (builds_clauses cs) hready entries' [] exits)
    hbodies
  have c₅ := c₄.site.performs (performs_popContext rfl) hpop
  have k₅ : StepsKept b₅.steps steps := hsteps ▸ hkept
  have k₃ := (k₅.of_extends he.extend).of_extends c₅.extend
  have k₁ := (k₃.of_extends c₄.extend).of_extends c₃.extend
  have htypes₃ := c₅.types.trans (hnames ▸ htypes)
  have htypes₁ := c₃.types.trans (c₄.types.trans htypes₃)
  have hlen := compileTests_length htests
  obtain ⟨hexits, entry, hentries, hstand⟩ := bodies_compileBodies (p := p) hready hat₂ hbodies
    ((Structured.addUnmatched_length hreached).trans hlen) k₃ htypes₃
  have hout : AllLead steps exits (some b₄.steps.size) := fun slot hslot =>
    k₅.leads slot _ (he.leads (.refl _) slot (List.mem_append_left _ (hexits hslot)))
  obtain ⟨hhits, hmiss⟩ := Structured.addUnmatched_leads
    (hlen.trans (List.length_map _).symm) hreached hentries hout
  rw [List.findIdx?_map] at hmiss
  have hsearch : ∃ k, AllLead steps b.pending k ∧
      p.SearchesCases steps x ty (reached cs entry b₄.steps.size)
        (cs.zipIdx.flatMap fun c => c.1.values.map (·, c.2)) k
        (reached cs entry b₄.steps.size none) :=
    searches_compileTests hp hat rfl htests k₁ htypes₁ hmiss
      fun i => by rw [Nat.zero_add]; exact hhits i
  obtain ⟨k, hpending, hsearch⟩ := hsearch
  exact ⟨k₁.of_extends c₁.extend, c₁.types.trans htypes₁, entry, _, k, hstand, he.kept k₅ rfl,
    hpending, hsearch⟩

-- `switch tag { ... }` from the operands of the tag on: the tag is bound to a variable, and its
-- clause searched.
def switchOn (p : Program) (steps : Array Step) (x : String) (ty : Option Ty)
    (goal : Option Nat → Option StepId) (ts : List CaseTest) (first bind : StepId) :
    Stretch (Option StepId) := do
  p.across steps first bind
  p.does steps bind (.declare [x] none (.fixed 1))
  p.search steps x ty goal ts

end Program

-- The operator of the binary expression that compares the value with a tag.
def CaseTest.compared (t : CaseTest) (tag : Expr) : Option Family :=
  let hints := operandHints t.names .eq tag t.value none
  resolved? .eq (operandType t.names tag hints.1) (operandType t.names t.value hints.2)

-- A test has the operator of the binary expression, unless nothing is known of a value that is no
-- literal.
theorem CaseTest.resolved_eq (t : CaseTest) {note : Note} {tag : String} {ty : Option Ty}
    (htag : t.names.staticType (.ident note tag) = ty)
    (hvalue : t.names.staticType t.value = none → ty = none ∨ ∃ note v, t.value = .lit note v) :
    t.resolved ty = t.compared (.ident note tag) := by
  have hl : ∀ hint, operandType t.names (.ident note tag) hint = ty := fun hint =>
    (Option.or_none).trans htag
  have hhint : (operandHints t.names .eq (.ident note tag) t.value none).2 =
      (ty.or (t.names.staticType t.value)).or none := by
    unfold operandHints
    rw [htag]
    rfl
  unfold CaseTest.compared CaseTest.resolved
  dsimp only
  rw [hl, hhint, Option.or_none]
  unfold operandType
  cases hstatic : t.names.staticType t.value with
  | some ty' => rfl
  | none =>
      cases ty with
      | none => rfl
      | some ty =>
          rcases hvalue hstatic with hnone | ⟨note', v, hlit⟩
          · cases hnone
          · rw [hlit]
            rfl

-- A switch binds its tag once and compares it with the values of the clauses in turn until one is
-- equal. It goes on with the body of that one's clause, else with that of the default clause, else
-- behind. A test has the outcome of the comparison if the tag and the value have the type of the tag,
-- and it has the operator of the binary expression unless nothing is known of the value.
theorem switch_tests_in_order {p : Program} (hhosts : p.hosts.Behaves) (hb : p.Bounded)
    (hp : p.Compiled) {steps : Array Step} (hfits : ∀ s ∈ steps, s.op.LiteralFits p.types) {s : Site}
    {b b' : Builder} (hat : AtSite s b) (hs : Ready s) (hkept : StepsKept b'.steps steps)
    (htypes : b'.names.types.KeepsStructs p.types) {span : Span} {init : Option Stmt} {tag : Expr}
    {cs : List Clause} {label : Option String}
    (h : compileStmt (.switch span init (some tag) cs) label b = .ok () b') :
    ∃ (b₁ : Builder) (x : String) (bind out : StepId) (entry : Nat → Option StepId)
      (ts : List CaseTest),
      (do enterScope span; compileOptional init) b = .ok () b₁ ∧
      p.Evaluates steps (discard (compile tag (.value none))) () b₁.names [.one] b₁.steps.size bind ∧
      ts.map (fun t => (t.value, t.clause)) =
        cs.zipIdx.flatMap (fun c => c.1.values.map (·, c.2)) ∧
      (∀ i c, cs[i]? = some c → ∃ j, entry i = some j ∧ p.BodyAt steps c.body j) ∧
      (∃ s, steps[out]? = some s ∧ s.op = .popScope) ∧
      p.Follows steps (some b₁.steps.size) (p.switchOn steps x (b₁.names.inferType tag)
        (Program.reached cs entry out) ts b₁.steps.size bind) ∧
      ∀ t ∈ ts, t.IsEvaluated p steps (b₁.names.inferType tag) ∧
        (∀ h l r, BinaryOp.eq.OperandsMeetType (b₁.names.inferType tag) l r →
          applied h .eq (t.resolved (b₁.names.inferType tag)) l r = evaluateBinary h .eq l r) ∧
        ∀ note y, t.names.staticType (.ident note y) = b₁.names.inferType tag →
          (t.names.staticType t.value = none →
            b₁.names.inferType tag = none ∨ ∃ note v, t.value = .lit note v) →
          t.resolved (b₁.names.inferType tag) = t.compared (.ident note y) := by
  have hruns : p.HasSteps steps := ⟨hb, Program.calls_of_verified hhosts hb hp.verified, hfits⟩
  obtain ⟨depth, items, held, heads, contexts⟩ := s
  obtain rfl : items = [] := hs.items
  rw [compileStmt_switch] at h
  obtain ⟨_, b₀, henter, h⟩ := bind_eq_ok.mp h
  obtain ⟨_, b₁, hinit, h⟩ := bind_eq_ok.mp h
  obtain ⟨subject, b₂, htag, hclauses⟩ := bind_eq_ok.mp h
  have c₀ := hat.performs (performs_enterScope _ _) henter
  have c₁ := c₀.site.performs (builds_optional (builds_option init) _
    (hs.deeper (Nat.le_succ depth) held heads)) hinit
  have c₂ := c₁.site.performs (performs_compileTag (compiles_option (some tag)) span) htag
  obtain ⟨x, rfl⟩ := compileTag_ok htag
  obtain ⟨k₂, htypes₂, entry, out, k, hbodies, hout, hpending, hsearch⟩ :=
    Program.searches_clauses hruns hs c₂.site hclauses hkept htypes
  obtain ⟨bind, htagged, hfollows⟩ := Program.follows_compileTag hruns c₁.site htag k₂ htypes₂
  obtain ⟨ts, hvalues, hstands, hsearch⟩ := hsearch
  have htests := hsearch [] (.done _)
  rw [List.append_nil] at htests
  exact ⟨b₁, x, bind, out, entry, ts, bind_eq_ok.mpr ⟨_, _, henter, hinit⟩, htagged, hvalues, hbodies,
    hout, hfollows k _ hpending htests, fun t ht => ⟨hstands t ht, fun h l r hmeets =>
      applied_eq_dispatched h _ hmeets, fun _ _ => t.resolved_eq⟩⟩

-- `switch 1 { case 1: default: }`.
def oneOrDefault : Stmt :=
  .switch Span.none none (some (.lit Note.empty (.int 1)))
    [⟨[.lit Note.empty (.int 1)], false, []⟩, ⟨[], true, []⟩]

-- Whether it is built, with operands that all have a place.
def oneIsSearched : Bool :=
  match compileStmt oneOrDefault none (.start ⟨.empty, .initial, [[]]⟩ #[] .empty) with
  | .ok _ b => b.steps.all (·.op.hasPlaces b.names.types)
  | .error _ _ => false

theorem one_is_tested_first : ∃ (p : Program) (b : Builder) (ty : Option Ty) (x : String)
    (first bind out : StepId) (entry : Nat → Option StepId) (t : CaseTest),
    compileStmt oneOrDefault none (.start ⟨.empty, .initial, [[]]⟩ #[] .empty) = .ok () b ∧
    t.clause = 0 ∧ p.Follows b.steps (some first) (p.switchOn b.steps x ty
      (Program.reached [⟨[t.value], false, []⟩, ⟨[], true, []⟩] entry out) [t] first bind) ∧
    applied .empty .eq (t.resolved ty) (.plainInt 1) (.plainInt 1) = .ok (.bool true) := by
  have hbuilt : oneIsSearched = true := by decide +kernel
  unfold oneIsSearched at hbuilt
  split at hbuilt
  · next b hb =>
      let types := b.names.types
      have hfits : ∀ s ∈ b.steps, s.op.LiteralFits types := fun s hs =>
        StepOp.literalFits_of_hasPlaces (Array.all_eq_true'.mp hbuilt s hs)
      have hready : Ready .start := ⟨rfl, List.forall_mem_nil _⟩
      obtain ⟨b₁, x, bind, out, entry, ts, -, -, hvalues, -, -, hfollows, hts⟩ :=
        switch_tests_in_order (Program.behaves_bare types) (Program.bounded_bare types)
          (Program.compiled_bare types) hfits (.start _ _ _) hready (.refl b.steps) (.refl _) hb
      obtain ⟨t, rest, rfl, ht, hrest⟩ := List.map_eq_cons_iff.mp hvalues
      obtain rfl := List.map_eq_nil_iff.mp hrest
      obtain ⟨-, hequal, -⟩ := hts t List.mem_cons_self
      obtain ⟨value, clause, names, start, compare⟩ := t
      cases ht
      have hty : b₁.names.inferType (.lit Note.empty (.int 1)) = some .plainInt := rfl
      have hint : (Value.plainInt 1).MeetsType .plainInt := fun _ => .int _ rfl
      have hmeets : BinaryOp.eq.OperandsMeetType (b₁.names.inferType (.lit Note.empty (.int 1)))
        (.plainInt 1)
          (.plainInt 1) := by
        rw [hty]
        exact ⟨fun ty hty => by cases hty; exact hint, fun _ ty hty => by cases hty; exact hint⟩
      exact ⟨.bare types, b, _, x, _, bind, out, entry, _, hb, rfl, hfollows,
        (hequal .empty _ _ hmeets).trans rfl⟩
  · cases hbuilt

-- With a tag of type `int` and a call that no static type is known of, the test takes the comparison
-- of integers, which is not defined on its result. The binary expression looks at the operands.
theorem test_of_recover_takes_ints : ∃ (t : CaseTest) (f : Family),
    t.names.staticType (.ident .empty "x") = some .plainInt ∧
    t.resolved (some .plainInt) = some f ∧ t.compared (.ident .empty "x") = none ∧
    (∃ e, applied .empty .eq (some f) (.plainInt 1) .nil = .error e) ∧
    applied .empty .eq none (.plainInt 1) .nil = .ok (.bool false) := by
  refine ⟨⟨.call .empty (.ident .empty "recover") [] false, 0,
    ⟨.empty, .initial, [[("x", some .plainInt)]]⟩, 0, 0⟩, .int, rfl, by decide, by decide, ⟨_, rfl⟩,
    rfl⟩

end StepGraph

import StepGraph.Proofs.Compile.BackEdges
import StepGraph.Proofs.Compile.Spots

open EStateM (bind_eq_ok discard_eq_ok)

namespace StepGraph

open Names (isTemp)

namespace Build

variable {around : List String}

section loops

variable {p : Spot} {body : List Stmt}

theorem movesSpot_compileTest {test : Option Expr} (htest : ∀ e ∈ test, ExprKeepsScope e)
    (span : Span) :
    MovesSpot around p (compileTest test span) fun exit =>
      { p with slots := exit.map (p.depth, ·) ++ p.slots } := by
  unfold compileTest
  cases test with
  | none => exact .pure _ (.refl p)
  | some e =>
      refine .bind (.closes ((htest e rfl).value _)) fun _ =>
        .bind (movesSpot_branch span) fun other => ?_
      exact .pure _ (.refl _)

theorem keepsScope_refresh {name : String} (hname : isTemp name = false) (span : Span) :
    KeepsScope False around (refresh span name) := by
  unfold refresh declareTop
  refine .bind (keepsScope_load hname span) fun _ =>
    .bind (keepsScope_declare (by simpa using hname)) fun _ => ?_
  exact .names fun n => .modifyNames _

-- The variables of a loop have names of their own.
theorem isTemp_loopVariables {init : Option Stmt} (h : stmtVisible init = true) :
    ∀ x ∈ loopVariables init, isTemp x = false := by
  intro x hx
  cases init with
  | none => cases hx
  | some s =>
      cases s with
      | define _ names _ =>
          have hmem := List.mem_of_mem_filter hx
          simp only [stmtVisible, Stmt.isVisible, Bool.and_eq_true, List.all_eq_true] at h
          simpa using h.1 x hmem
      | var _ spec =>
          obtain ⟨names, ty, values⟩ := spec
          have hmem := List.mem_of_mem_filter hx
          simp only [stmtVisible, Stmt.isVisible, Bool.and_eq_true, List.all_eq_true] at h
          simpa using h.1 x hmem
      | _ => cases hx

theorem keepsScope_carryOut {vars : List String} (hvars : ∀ x ∈ vars, isTemp x = false)
    (span : Span) :
    KeepsScope False around (if vars.isEmpty then pure () else emit' (.carryOut vars) span) := by
  split
  · exact .pure _
  · refine .emit' ?_ rfl rfl nofun span
    simpa [StepOp.isVisible, StepOp.isDiscreet, StepOp.bindings, StepOp.reads] using hvars

-- The rounds of a loop. They start at its head, which stands in the scope around it.
theorem movesSpot_rounds {p₁ : Spot} {post : Option Stmt} {vars : List String} {head : StepId}
    {exit : List Slot} (hw : p.InsideDepth p.depth) (hp : { p with depth := p.depth + 1 }.Sub p₁)
    (hw₁ : p₁.InsideDepth (p.depth + 1)) (hhead : p₁.Head (p.depth + 1) head)
    (hexit : ∀ slot ∈ exit, (p.depth + 1, slot) ∈ p₁.slots)
    (hvars : ∀ x ∈ vars, isTemp x = false) (hpost : ∀ x ∈ post, StmtKeepsSpots around x)
    (hbody : ∀ s ∈ body, StmtKeepsSpots (labelsOf body ++ around) s) (label : Option String)
    (span : Span) : MovesSpot around p₁ (do
      pushContext .loop label (p.depth + 1) (p.depth + 1 + 1)
      enterScope span
      vars.forM (refresh span)
      inScope body Span.none (compileStmts body)
      let (breaks, continues) ← popContext
      addPending continues
      unless vars.isEmpty do emit' (.carryOut vars) span
      leaveScope span
      compileOptional post
      link (← jump (p.depth + 1) span) head
      addPending (exit ++ breaks)
      leaveScope span) fun _ => p := by
  have hdepth : p.depth + 1 = p₁.depth := hp.depth
  refine movesSpot_enterLoop .loop label (Nat.le_of_eq hdepth)
    (Nat.le_of_eq (congrArg Nat.succ hdepth)) span ?_
  rw [← hdepth]
  refine .bind (.closes (.forM fun x hx => keepsScope_refresh (hvars x hx) span)) fun _ => ?_
  refine .bind (movesSpot_inScope hbody) fun _ =>
    .bind (movesSpot_popContext (p := { p₁ with depth := _ }) _)
    fun (breaks, continues) => ?_
  refine .bind (movesSpot_addPending fun slot hslot => ?_) fun _ => ?_
  · simp [hslot]
  refine .unlessThen <| .bind (.closes (keepsScope_carryOut hvars span)) fun _ => ?_
  -- The jumps out of the loop are still of use, those to its next round are not.
  have hdeep : ∀ x ∈ breaks.map (p.depth + 1, ·), x.1 ≤ p.depth + 1 := by simp
  refine .bind ((movesSpot_leaveScope (hw₁.withSlots hdeep) span).given ?_) fun _ => ?_
  · exact .of_subset rfl rfl rfl (fun x hx => by
      rcases List.mem_append.mp hx with hx | hx <;> simp [hx])
        (List.Subset.refl _) (List.Subset.refl _)
  refine .bind (movesSpot_optional hpost) fun _ =>
    .bind (movesSpot_jump around (Nat.le_refl _) span) fun back => ?_
  refine .bind (movesSpot_link (n := p.depth + 1) ?_ List.mem_cons_self) fun _ => ?_
  · obtain ⟨edge, hedge⟩ := hhead.slot
    exact ⟨hhead.place, edge, by simp [hedge]⟩
  refine .bind (movesSpot_addPending fun slot hslot => ?_) fun _ => ?_
  · rcases List.mem_append.mp hslot with hslot | hslot <;> simp [hslot, hexit]
  refine (movesSpot_leaveScope hw span).given
    ⟨rfl, hp.contexts, fun x hx => ?_, hp.places, hp.temps, hp.base⟩
  obtain ⟨n, hle, hmem⟩ := hp.slots x hx
  exact ⟨n, hle, by simp [hmem]⟩

theorem keepsSpots_loop {init post : Option Stmt} {test : Option Expr}
    (hinit : ∀ x ∈ init, StmtKeepsSpots around x)
    (hvars : ∀ x ∈ loopVariables init, isTemp x = false)
    (htest : ∀ e ∈ test, ExprKeepsScope e) (hpost : ∀ x ∈ post, StmtKeepsSpots around x)
    (hbody : ∀ s ∈ body, StmtKeepsSpots (labelsOf body ++ around) s) (span : Span) :
    StmtKeepsSpots around (.loop span init test post body) := by
  intro label
  refine .of_works fun p => .within fun hw => ?_
  unfold compileStmt
  refine .bind (movesSpot_enterScope span) fun _ => .get fun outer hdepth _ => ?_
  rw [hdepth]
  refine .bind (movesSpot_optional hinit) fun _ => ?_
  refine .bind (movesSpot_emit ⟨rfl, rfl, rfl, fun _ => rfl, nofun⟩ nofun) fun head => ?_
  refine .bind (movesSpot_compileTest htest span) fun exit => .within fun hround => ?_
  refine movesSpot_rounds hw ?_ hround ⟨List.mem_cons_self, .other, ?_⟩ (fun slot hslot => ?_) hvars
    hpost hbody label span
  · exact .of_subset rfl rfl rfl (fun x hx => by simp [hx]) (List.subset_cons_self _ _)
      (List.Subset.refl _)
  · simp
  · simp [hslot]

theorem isTemp_nameOr {e : Option Expr} (he : optionVisible e = true) :
    isTemp (nameOr e) = false := by
  have hblank : isTemp Names.blank = false := rfl
  cases e with
  | none => exact hblank
  | some e =>
      cases e with
      | ident _ x => simpa [optionVisible, Expr.isVisible, nameOr, Expr.ident?] using he
      | _ => simpa [nameOr, Expr.ident?] using hblank

-- The values of a round go to their places.
theorem movesSpot_assignLoads {key value : Option Expr} {temps : List String} {count : Nat}
    (hkey : ∀ e ∈ key, TargetKeepsScope e) (hvalue : ∀ e ∈ value, TargetKeepsScope e)
    (htemps : ∀ x ∈ temps, (p.depth, x) ∈ p.temps) (span : Span) : MovesSpot around p (do
      let keyTarget ← compileRangeTarget key
      let valueTarget ← compileRangeTarget value
      temps.forM fun x => emit' (.load x) span
      emit' (.assign ([keyTarget, valueTarget].take count) (.fixed count)) span) fun _ => p := by
  obtain ⟨hkeyCloses, hkeyVisible⟩ := keepsScope_compileRangeTarget False around hkey
  obtain ⟨hvalueCloses, hvalueVisible⟩ := keepsScope_compileRangeTarget False around hvalue
  refine .bindOf (.closes hkeyCloses) fun b k b' h =>
    .bindOf (.closes hvalueCloses) fun c v c' h' => ?_
  refine .bind (movesSpot_loads htemps span) fun _ =>
    .closes (keepsScope_assignTo (fun t ht => ?_) _ _)
  have hboth : ∀ t ∈ [k, v], t.isVisible = true := by
    simpa using ⟨hkeyVisible b k b' h, hvalueVisible c v c' h'⟩
  exact hboth t (List.mem_of_mem_take ht)

-- The values of a round are bound in its scope.
theorem movesSpot_rangeAssign {key value : Option Expr} {n : Nat}
    (hkey : ∀ e ∈ key, TargetKeepsScope e)
    (hvalue : ∀ e ∈ value, TargetKeepsScope e) (hw : p.InsideDepth n) (hn : n < p.depth)
    (span : Span) :
    MovesSpot around p (rangeAssign span key value) fun _ => p := by
  intro b u b' hb h
  unfold rangeAssign at h
  obtain ⟨k, b₁, h₁, hnext⟩ := bind_eq_ok.mp h
  obtain ⟨v, b₂, h₂, hbind⟩ := bind_eq_ok.mp hnext
  obtain ⟨_, b₃, h₃, hrest⟩ := bind_eq_ok.mp hbind
  obtain ⟨id, hid⟩ := discard_eq_ok.mp h₃
  obtain ⟨rfl, -, hk⟩ := temp_ok (by simp) hb.tidy h₁
  obtain ⟨hb₁, hfirst⟩ := hb.minted around
  obtain ⟨rfl, -, hv⟩ := temp_ok (by simp) hb₁.tidy h₂
  obtain ⟨hb₂, hsecond⟩ := hb₁.minted around
  have hspares : ∀ x ∈ k :: (if value.isSome then [v] else []),
      Builder.LeavesFree { b with temps := b.temps + 1 + 1 } x := by
    obtain ⟨⟨m, hm, hnumbered⟩, hunbound⟩ := hk
    refine List.forall_mem_cons.mpr ⟨⟨⟨m, Nat.le_succ_of_le hm, hnumbered⟩, hunbound⟩, ?_⟩
    split
    · simpa using hv
    · exact nofun
  obtain ⟨hbound, hthird⟩ := hb₂.bindTemps around (emit_ok hid)
    ⟨rfl, rfl, rfl, fun _ => rfl, nofun⟩ hw hn hspares
  obtain ⟨hafter, hlast⟩ := movesSpot_assignLoads hkey hvalue
    (fun x hx => List.mem_append_left _ (List.mem_map_of_mem hx)) span b₃ u b' hbound hrest
  exact ⟨hafter.sub (.add [] [] _), ((hfirst.trans hsecond).trans hthird).trans hlast⟩

-- The head of a range loop stands where its cursor is bound, in the scope around it.
theorem movesSpot_rangeHead {key value : Option Expr} {subject : Expr} {n : Nat}
    (hkey : ∀ e ∈ key, TargetKeepsScope e) (hvalue : ∀ e ∈ value, TargetKeepsScope e)
    (hkey' : optionVisible key = true) (hvalue' : optionVisible value = true)
    (hsubject : ExprKeepsScope subject) (hw : p.InsideDepth n) (hn : n < p.depth) (define : Bool)
    (label : Option String) (span : Span) :
    MovesSpot around p (rangeHead span key value define subject label p.depth) fun head => { p with
      depth := p.depth + 1
      slots := [(p.depth, ⟨head, .next⟩), (p.depth, ⟨head, .other⟩)] ++ p.slots
      places := (p.depth, head) :: p.places
      contexts := ⟨.loop, label, p.depth, p.depth, [], []⟩ :: p.contexts } := by
  unfold rangeHead
  refine .names fun n => .bind (.closes (hsubject.value _)) fun _ => ?_
  refine movesSpot_bindTemp (.rangeInit _) (by simp) (fun x => ⟨rfl, rfl, rfl, fun _ => rfl, nofun⟩)
    (fun _ => rfl) hw hn fun cursor hcursor => ?_
  have htakes : Spot.AllowsStep { p with temps := (p.depth, cursor) :: p.temps }
      (.rangeNext cursor value.isSome none) :=
    ⟨rfl, rfl, rfl, fun _ => rfl, fun y hy _ =>
      ⟨p.depth, List.mem_singleton.mp hy ▸ List.mem_cons_self⟩⟩
  refine .bind (movesSpot_emit htakes nofun) fun head => .within fun hw₁ => ?_
  refine movesSpot_enterLoop .loop label (Nat.le_refl _) (Nat.le_succ _) span ?_
  dsimp only
  split
  · refine .bind (.closes (.operation rfl rfl rfl _)) fun _ => .pure _ ?_
    exact .add [] [] [(p.depth, cursor)]
  · split
    · refine .bind (.closes (keepsScope_declare fun x hx => ?_)) fun _ => ?_
      · rcases List.mem_cons.mp hx with rfl | hx
        · exact isTemp_nameOr hkey'
        · split at hx
          · exact List.mem_singleton.mp hx ▸ isTemp_nameOr hvalue'
          · cases hx
      · exact .bind (.closes (.modifyNames _)) fun _ => .pure _ (.add [] [] [(p.depth, cursor)])
    · refine .bind (movesSpot_rangeAssign hkey hvalue ?_ (Nat.lt_succ_self p.depth) span) fun _ =>
        .pure _ (.add [] [] [(p.depth, cursor)])
      exact
        { hw₁ with
          contexts := List.forall_mem_cons.mpr ⟨⟨Nat.le_refl _, Nat.le_refl _⟩, hw₁.contexts⟩ }

-- Behind its body a range loop goes back to its head, and the ways out of it come together.
theorem movesSpot_rangeTail {p₁ : Spot} {head : StepId} (hw : p.InsideDepth p.depth)
    (hp : { p with depth := p.depth + 1 }.Sub p₁) (hw₁ : p₁.InsideDepth (p.depth + 1))
    (hhead : (p.depth + 1, head) ∈ p₁.places)
    (hother : (p.depth + 1, ⟨head, .other⟩) ∈ p₁.slots) (label : Option String) (span : Span) :
    MovesSpot around { p₁ with
        depth := p.depth + 1 + 1
        contexts := ⟨.loop, label, p.depth + 1, p.depth + 1, [], []⟩ :: p₁.contexts }
      (rangeTail span (p.depth + 1) head) fun _ => p := by
  unfold rangeTail
  refine .bind (movesSpot_popContext (p := { p₁ with depth := _ }) _) fun (breaks, continues) => ?_
  have hdeep : ∀ x ∈ breaks.map (p.depth + 1, ·) ++ continues.map (p.depth + 1, ·),
      x.1 ≤ p.depth + 1 := by
    intro x hx
    rcases List.mem_append.mp hx with hx | hx <;> obtain ⟨_, -, rfl⟩ := List.mem_map.mp hx <;>
      exact Nat.le_refl _
  refine .bind (movesSpot_leaveScope (hw₁.withSlots hdeep) span) fun _ => ?_
  refine .bind (movesSpot_jump around (Nat.le_refl _) span) fun back => ?_
  refine .bind (movesSpot_link (n := p.depth + 1) ⟨hhead, .other, ?_⟩ List.mem_cons_self)
    fun _ => ?_
  · simp [hother]
  refine .bind (movesSpot_linkAll (n := p.depth + 1) ⟨hhead, .other, ?_⟩
    fun slot hslot => ?_) fun _ => ?_
  · simp [hother]
  · simp [hslot]
  refine .bind (movesSpot_addPending fun slot hslot => ?_) fun _ => ?_
  · rcases List.mem_cons.mp hslot with rfl | hslot <;> simp [*]
  refine (movesSpot_leaveScope hw span).given
    ⟨rfl, hp.contexts, fun x hx => ?_, hp.places, hp.temps, hp.base⟩
  obtain ⟨n, hle, hmem⟩ := hp.slots x hx
  exact ⟨n, hle, by simp [hmem]⟩

theorem keepsSpots_range {key value : Option Expr} {subject : Expr}
    (hkey : ∀ e ∈ key, TargetKeepsScope e)
    (hvalue : ∀ e ∈ value, TargetKeepsScope e) (hkey' : optionVisible key = true)
    (hvalue' : optionVisible value = true) (hsubject : ExprKeepsScope subject)
    (hbody : ∀ s ∈ body, StmtKeepsSpots (labelsOf body ++ around) s) (span : Span) (define : Bool) :
    StmtKeepsSpots around (.range span key value define subject body) := by
  intro label
  rw [compileStmt_range]
  refine .of_works fun p => .within fun hw => ?_
  refine .bind (movesSpot_enterScope span) fun _ => .get fun outer hdepth _ => ?_
  dsimp only
  rw [hdepth]
  refine .bind (movesSpot_rangeHead hkey hvalue hkey' hvalue' hsubject (hw.moved _)
    (Nat.lt_succ_self _) define label span) fun head => .bind (movesSpot_inScope hbody) fun _ => ?_
  have hdeep : ∀ x ∈ [(p.depth + 1, (⟨head, .next⟩ : Slot)), (p.depth + 1, ⟨head, .other⟩)],
      x.1 ≤ p.depth + 1 := by simp
  have hdeeper := hw.mono (Nat.le_succ p.depth)
  have hround : Spot.InsideDepth { p with
      depth := p.depth + 1
      slots := [(p.depth + 1, ⟨head, .next⟩), (p.depth + 1, ⟨head, .other⟩)] ++ p.slots
      places := (p.depth + 1, head) :: p.places } (p.depth + 1) :=
    { (hdeeper.withSlots hdeep).moved (p.depth + 1) with
      places := List.forall_mem_cons.mpr ⟨Nat.le_refl _, hdeeper.places⟩ }
  exact movesSpot_rangeTail hw (.add _ [_] []) hround List.mem_cons_self
    (List.mem_cons_of_mem _ List.mem_cons_self) label span

end loops

section switches

variable {p : Spot} {n : Nat}

theorem movesSpot_compileTag {tag : Option Expr} (htag : ∀ e ∈ tag, ExprKeepsScope e)
    (hw : p.InsideDepth n) (hn : n < p.depth) (span : Span) :
    MovesSpot around p (compileTag tag span) fun tag =>
      { p with temps := tag.toList.map (fun x => (p.depth, x.1)) ++ p.temps } := by
  unfold compileTag
  cases tag with
  | none => exact .pure _ (.refl p)
  | some e =>
      refine .names fun _ => .bind (.closes ((htag e rfl).value _)) fun _ => ?_
      refine movesSpot_bindTemp (fun x => .declare [x] none (.fixed 1)) (by simp)
        (fun x => ⟨rfl, rfl, rfl, fun _ => rfl, fun _ h => absurd h List.not_mem_nil⟩)
        (fun _ => rfl) hw hn fun x _ => ?_
      exact .bind (.closes (.modifyNames _)) fun _ => .pure _ (.refl _)

-- The paths to a clause are set aside, and the other path goes on.
theorem movesSpot_tested (rest : Build (List Slot)) (hrest : ∀ p' : Spot, p'.depth = p.depth →
      p.temps ⊆ p'.temps → MovesSpot around p' rest fun hits =>
        { p' with slots := hits.map (p.depth, ·) ++ p'.slots }) (span : Span) :
    MovesSpot around p (do
      let miss ← branch span
      let hit ← takePending
      setPending [miss]
      return hit ++ (← rest)) fun hits => { p with slots := hits.map (p.depth, ·) ++ p.slots } := by
  refine .bind (movesSpot_branch span) fun miss => .bind movesSpot_takePending fun hit => ?_
  refine .bind (movesSpot_setPending (by simp)) fun _ => ?_
  refine .bind (hrest _ rfl (List.Subset.refl _)) fun hits => .pure _ ?_
  refine .of_subset rfl rfl rfl (fun x hx => ?_) (List.Subset.refl _) (List.Subset.refl _)
  simp only [List.map_append, List.mem_append, List.mem_cons] at hx ⊢
  tauto

theorem movesSpot_compileCases {es : List Expr} (hes : ∀ e ∈ es, ExprKeepsScope e)
    {tag : Option (String × Option Ty)} (htag : ∀ x ∈ tag, (p.depth, x.1) ∈ p.temps) :
    MovesSpot around p (compileCases es tag) fun hits =>
      { p with slots := hits.map (p.depth, ·) ++ p.slots } := by
  induction es generalizing p with
  | nil =>
      unfold compileCases
      exact .pure _ (.refl p)
  | cons e rest ih =>
      obtain ⟨he, hrest⟩ := List.forall_mem_cons.mp hes
      have htested : MovesSpot around p _ _ := movesSpot_tested (compileCases rest tag)
        (fun p' hdepth htemps => hdepth ▸ ih hrest fun x hx => htemps (hdepth ▸ htag x hx)) e.span
      unfold compileCases
      cases tag with
      | none => exact .bind (.closes (he.value _)) fun _ => htested
      | some tag =>
          refine .names fun n => .bind (movesSpot_load (htag _ rfl) _) fun _ => ?_
          refine .bind (.closes (he.value _)) fun _ => ?_
          exact .bind (.closes (.operation rfl rfl rfl _)) fun _ => htested

-- The values of a clause, and its body, which may jump to its own labels.
def ClauseKeepsSpots (around : List String) (c : Clause) : Prop :=
  (∀ e ∈ c.values, ExprKeepsScope e) ∧ ∀ s ∈ c.body, StmtKeepsSpots (labelsOf c.body ++ around) s

theorem movesSpot_compileTests {clauses : List Clause}
    (hclauses : ∀ c ∈ clauses, ClauseKeepsSpots around c)
    {tag : Option (String × Option Ty)} (htag : ∀ x ∈ tag, (p.depth, x.1) ∈ p.temps) :
    MovesSpot around p (compileTests clauses tag) fun entries =>
      { p with slots := entries.flatten.map (p.depth, ·) ++ p.slots } := by
  induction clauses generalizing p with
  | nil =>
      unfold compileTests
      exact .pure _ (.refl p)
  | cons c rest ih =>
      obtain ⟨values, isDefault, body⟩ := c
      obtain ⟨hc, hrest⟩ := List.forall_mem_cons.mp hclauses
      unfold compileTests
      refine .bind (movesSpot_compileCases hc.1 htag) fun matched =>
        .bind (ih hrest htag) fun entries => ?_
      refine .pure _ (.of_subset rfl rfl rfl (fun x hx => ?_) (List.Subset.refl _)
        (List.Subset.refl _))
      simp only [List.flatten_cons, List.map_append, List.mem_append] at hx ⊢
      tauto

theorem keepsSpots_clause {body : List Stmt} (h : ∀ s ∈ body, StmtKeepsSpots around s) :
    KeepsSpots around (labelsOf body) (compileClause body) := by
  induction body with
  | nil =>
      unfold compileClause
      exact .of_closes (.pure _)
  | cons s rest ih =>
      obtain ⟨hs, hrest⟩ := List.forall_mem_cons.mp h
      unfold compileClause
      split
      · next hlast =>
          rw [Bool.and_eq_true, List.isEmpty_iff] at hlast
          obtain ⟨rfl, hs⟩ := hlast
          cases s with
          | «fallthrough» _ => exact .of_closes (.pure _)
          | _ => cases hs
      · exact (hs none).seq (ih hrest)

theorem movesSpot_unlessLast {x : Unit → Build α} {q : α → Spot} (stop : Option Span) (last : Bool)
    (h : MovesSpot around p (x ()) q) : MovesSpot around p (match stop with
      | some span => if last then fail (.misplacedFallthrough span) >>= x else x ()
      | none => x ()) q := by
  split
  · split
    · exact fun _ _ _ _ hfail => by cases hfail
    · exact h
  · exact h

theorem movesSpot_compileBodies {clauses : List Clause}
    (hclauses : ∀ c ∈ clauses, ClauseKeepsSpots around c) {entries : List (List Slot)}
    {carried exits : List Slot} (hentries : ∀ slot ∈ entries.flatten, (p.depth, slot) ∈ p.slots)
    (hcarried : ∀ slot ∈ carried, (p.depth, slot) ∈ p.slots)
    (hexits : ∀ slot ∈ exits, (p.depth, slot) ∈ p.slots) :
    MovesSpot around p (compileBodies clauses entries carried exits) fun exits =>
      { p with slots := exits.map (p.depth, ·) ++ p.slots } := by
  induction clauses generalizing p entries carried exits with
  | nil =>
      unfold compileBodies
      refine .pure _ (.of_subset rfl rfl rfl (fun x hx => ?_) (List.Subset.refl _)
        (List.Subset.refl _))
      rcases List.mem_append.mp hx with hx | hx
      · obtain ⟨slot, hslot, rfl⟩ := List.mem_map.mp hx
        exact hexits slot hslot
      · exact hx
  | cons c rest ih =>
      obtain ⟨values, isDefault, body⟩ := c
      obtain ⟨hc, hrest⟩ := List.forall_mem_cons.mp hclauses
      rw [flatten_eq] at hentries
      unfold compileBodies
      refine movesSpot_unlessLast (x := fun _ => _) _ _ ?_
      refine .bind (movesSpot_setPending fun slot hslot => ?_) fun _ => ?_
      · exact (List.mem_append.mp hslot).elim
          (fun hslot => hentries slot (List.mem_append_left _ hslot)) (hcarried slot)
      refine .within fun hw => .bind (movesSpot_enterScope _) fun _ => ?_
      refine .bind ((keepsSpots_clause hc.2).inside _) fun _ =>
        .bind (movesSpot_leaveScope hw _) fun _ => ?_
      refine .bind movesSpot_takePending fun out => ?_
      have hkept : ∀ {slot : Slot} {n}, (n, slot) ∈ p.slots →
          (n, slot) ∈ out.map (p.depth, ·) ++ p.slots := fun h => List.mem_append_right _ h
      have hout : ∀ slot ∈ out, (p.depth, slot) ∈ out.map (p.depth, ·) ++ p.slots := fun slot h =>
        List.mem_append_left _ (List.mem_map_of_mem h)
      have hothers : ∀ slot ∈ entries.tail.flatten,
          (p.depth, slot) ∈ out.map (p.depth, ·) ++ p.slots := fun slot h =>
        hkept (hentries slot (List.mem_append_right _ h))
      have hforget : ∀ exits : List Slot, Spot.Sub
          { p with slots := exits.map (p.depth, ·) ++ p.slots }
          { p with slots := exits.map (p.depth, ·) ++ (out.map (p.depth, ·) ++ p.slots) } :=
        fun exits => .of_subset rfl rfl rfl (List.append_subset.mpr ⟨List.subset_append_left _ _,
          fun x hx => by simp [hx]⟩) (List.Subset.refl _) (List.Subset.refl _)
      split
      · refine .drop (ih hrest hothers hout fun slot h => hkept (hexits slot h)) hforget
      · refine .drop (ih hrest hothers (fun _ h => absurd h List.not_mem_nil)
          fun slot h => ?_) hforget
        exact (List.mem_append.mp h).elim (fun h => hkept (hexits slot h)) (hout slot)

-- A switch ends where its clauses end and where one leaves it.
theorem movesSpot_switchTail {exits : List Slot} (hw : p.InsideDepth n) (label : Option String)
    (span : Span) : MovesSpot around { p with
        depth := n + 1
        slots := exits.map (n + 1, ·) ++ p.slots
        contexts := ⟨.switch, label, n + 1, n + 1, [], []⟩ :: p.contexts } (do
      let (breaks, _) ← popContext
      setPending (exits ++ breaks)
      leaveScope span) fun _ => { p with depth := n } := by
  refine .bind (movesSpot_popContext (p := { p with depth := _, slots := _ }) _)
    fun (breaks, continues) => ?_
  refine .bind (movesSpot_setPending fun slot hslot => ?_) fun _ => ?_
  · rcases List.mem_append.mp hslot with hslot | hslot <;> simp [hslot]
  · refine (movesSpot_leaveScope hw span).given ?_
    exact .of_subset rfl rfl rfl (fun x hx => by simp [hx]) (List.Subset.refl _)
      (List.Subset.refl _)

-- The paths that no test took lead to the default clause or behind the switch.
theorem addUnmatched_subset (defaults : List Bool) (unmatched : List Slot)
    (entries : List (List Slot)) : ∀ slot,
      slot ∈ (addUnmatched defaults unmatched entries).1.flatten ∨
      slot ∈ (addUnmatched defaults unmatched entries).2 →
        slot ∈ entries.flatten ∨ slot ∈ unmatched := by
  obtain ⟨given, hperm⟩ := addUnmatched_perm defaults unmatched entries
  intro slot hslot
  have hmem := hperm.mem_iff (a := slot)
  simp only [List.mem_append] at hmem
  tauto

theorem keepsSpots_switch {init : Option Stmt} {tag : Option Expr} {clauses : List Clause}
    (hinit : ∀ x ∈ init, StmtKeepsSpots around x) (htag : ∀ e ∈ tag, ExprKeepsScope e)
    (hclauses : ∀ c ∈ clauses, ClauseKeepsSpots around c) (span : Span) :
    StmtKeepsSpots around (.switch span init tag clauses) := by
  intro label
  refine .of_works fun p => .within fun hw => ?_
  unfold compileStmt
  refine .bind (movesSpot_enterScope span) fun _ => .bind (movesSpot_optional hinit) fun _ => ?_
  refine .bind (movesSpot_compileTag htag (hw.moved _) (Nat.lt_succ_self _) span) fun tag => ?_
  refine .bind (movesSpot_compileTests hclauses fun x hx => ?_) fun entries => ?_
  · exact List.mem_append_left _ (List.mem_map_of_mem (Option.mem_toList.mpr hx))
  refine .bind movesSpot_takePending fun pending => ?_
  dsimp only
  have hmem := addUnmatched_subset (clauses.map fun c => c.isDefault) pending entries
  generalize addUnmatched (clauses.map fun c => c.isDefault) pending entries = reached at hmem ⊢
  obtain ⟨entries', exits⟩ := reached
  refine .get fun outer hdepth _ => ?_
  dsimp only at hdepth ⊢
  rw [hdepth]
  refine .bind (movesSpot_pushContext .switch label (Nat.le_refl _) (Nat.le_refl _)) fun _ => ?_
  have hslots : ∀ slot, slot ∈ entries'.flatten ∨ slot ∈ exits → (p.depth + 1, slot) ∈
      pending.map (p.depth + 1, ·) ++ (entries.flatten.map (p.depth + 1, ·) ++ p.slots) := by
    intro slot hslot
    rcases hmem slot hslot with h | h
    · exact List.mem_append_right _ (List.mem_append_left _ (List.mem_map_of_mem h))
    · exact List.mem_append_left _ (List.mem_map_of_mem h)
  refine .bind (movesSpot_compileBodies hclauses (fun slot h => hslots slot (.inl h)) nofun
    fun slot h => hslots slot (.inr h)) fun exits' => ?_
  refine (movesSpot_switchTail hw label span).given <| .of_subset rfl rfl rfl (fun x hx => ?_)
    (List.Subset.refl _) (List.subset_append_right _ _)
  simp only [List.mem_append] at hx ⊢
  tauto

-- The tests of a clause of a type switch.
theorem movesSpot_typeTests {x : String} (hx : (n, x) ∈ p.temps) (types : List Ty) :
    MovesSpot around p (typeTests x types) fun hits =>
      { p with slots := hits.map (p.depth, ·) ++ p.slots } := by
  induction types generalizing p with
  | nil => exact .pure _ (.refl p)
  | cons ty rest ih =>
      refine .bind (movesSpot_load hx _) fun _ =>
        .bind (.closes (.step rfl rfl rfl (fun _ => rfl) nofun _))
        fun _ => ?_
      exact movesSpot_tested _ (fun p' hdepth htemps => hdepth ▸ ih (htemps hx)) _

theorem movesSpot_typeTestsAll {x : String} (hx : (n, x) ∈ p.temps) (clauses : List TypeClause) :
    MovesSpot around p (clauses.mapM fun c => typeTests x c.types) fun entries =>
      { p with slots := entries.flatten.map (p.depth, ·) ++ p.slots } := by
  induction clauses generalizing p with
  | nil => exact .pure _ (.refl p)
  | cons c rest ih =>
      rw [List.mapM_cons]
      refine .bind (movesSpot_typeTests hx c.types) fun hits => .bind (ih hx) fun entries => ?_
      refine .pure _ (.of_subset rfl rfl rfl (fun x hx => ?_) (List.Subset.refl _)
        (List.Subset.refl _))
      simp only [List.flatten_cons, List.map_append, List.mem_append] at hx ⊢
      tauto

theorem movesSpot_typeSwitchHead {subject : Expr} (hsubject : ExprKeepsScope subject)
    (hw : p.InsideDepth n)
    (hn : n < p.depth) (clauses : List TypeClause) (label : Option String) (span : Span) :
    MovesSpot around p (typeSwitchHead span subject clauses label) fun r => { p with
      slots := (r.2.1.flatten ++ r.2.2).map (p.depth, ·) ++ p.slots
      temps := (p.depth, r.1.1) :: p.temps
      contexts := ⟨.switch, label, p.depth, p.depth, [], []⟩ :: p.contexts } := by
  unfold typeSwitchHead
  refine .names fun _ => .bind (.closes (hsubject.value _)) fun _ => ?_
  refine movesSpot_bindTemp (fun x => .declare [x] none (.fixed 1)) (by simp)
    (fun x => ⟨rfl, rfl, rfl, fun _ => rfl, nofun⟩) (fun _ => rfl) hw hn fun x _ => ?_
  refine .bind (.closes (.modifyNames _)) fun _ => ?_
  refine .bind (movesSpot_typeTestsAll List.mem_cons_self clauses) fun entries => ?_
  refine .bind movesSpot_takePending fun pending => ?_
  dsimp only
  have hmem := addUnmatched_subset (clauses.map fun c => c.isDefault) pending entries
  generalize addUnmatched (clauses.map fun c => c.isDefault) pending entries = reached at hmem ⊢
  obtain ⟨entries', exits⟩ := reached
  refine .get fun outer hdepth _ => ?_
  dsimp only at hdepth ⊢
  rw [hdepth]
  refine .bind (movesSpot_pushContext .switch label (Nat.le_refl _) (Nat.le_refl _)) fun _ => ?_
  refine .pure _ (.of_subset rfl rfl rfl (fun y hy => ?_) (List.Subset.refl _) (List.Subset.refl _))
  rcases List.mem_append.mp hy with hy | hy
  · obtain ⟨slot, hslot, rfl⟩ := List.mem_map.mp hy
    rcases hmem slot (List.mem_append.mp hslot) with h | h
    · exact List.mem_append_right _ (List.mem_append_left _ (List.mem_map_of_mem h))
    · exact List.mem_append_left _ (List.mem_map_of_mem h)
  · exact List.mem_append_right _ (List.mem_append_right _ hy)

theorem movesSpot_bindSubject {binding : Option String} (hbinding : ∀ y ∈ binding, isTemp y = false)
    {x : String} (hx : (n, x) ∈ p.temps) (ty : Option Ty) (types : List Ty) :
    MovesSpot around p (bindSubject binding x ty types) fun _ => p := by
  unfold bindSubject
  cases binding with
  | none => exact .pure _ (.refl p)
  | some name =>
      have hdeclare : ∀ bound, MovesSpot around p (do
          declareTop name Span.none
          declare name bound) fun _ => p := fun bound => by
        have hname : ∀ y ∈ [name], isTemp y = false := by simpa using hbinding name rfl
        exact .bind (.closes (keepsScope_declare hname)) fun _ => .closes (.modifyNames _)
      refine .bind (movesSpot_load hx _) fun _ => ?_
      dsimp only
      split
      · exact .bind (.closes (.operation rfl rfl rfl _)) fun _ => hdeclare _
      · exact hdeclare _

theorem movesSpot_compileTypeBodies {bind : List Ty → Build Unit} {clauses : List TypeClause}
    (hbind : ∀ types (p' : Spot), p.temps ⊆ p'.temps → MovesSpot around p' (bind types) fun _ => p')
    (hclauses : ∀ c ∈ clauses, ∀ s ∈ c.body, StmtKeepsSpots (labelsOf c.body ++ around) s)
    {entries : List (List Slot)} {exits : List Slot}
    (hentries : ∀ slot ∈ entries.flatten, (p.depth, slot) ∈ p.slots)
    (hexits : ∀ slot ∈ exits, (p.depth, slot) ∈ p.slots) :
    MovesSpot around p (compileTypeBodies bind clauses entries exits) fun exits =>
      { p with slots := exits.map (p.depth, ·) ++ p.slots } := by
  induction clauses generalizing p entries exits with
  | nil =>
      unfold compileTypeBodies
      refine .pure _ (.of_subset rfl rfl rfl (fun x hx => ?_) (List.Subset.refl _)
        (List.Subset.refl _))
      rcases List.mem_append.mp hx with hx | hx
      · obtain ⟨slot, hslot, rfl⟩ := List.mem_map.mp hx
        exact hexits slot hslot
      · exact hx
  | cons c rest ih =>
      obtain ⟨types, isDefault, body⟩ := c
      obtain ⟨hc, hrest⟩ := List.forall_mem_cons.mp hclauses
      rw [flatten_eq] at hentries
      unfold compileTypeBodies
      refine .bind (movesSpot_setPending fun slot h => hentries slot (List.mem_append_left _ h))
        fun _ => ?_
      refine .within fun hw => .bind (movesSpot_enterScope _) fun _ => ?_
      refine .bind (hbind types _ (List.Subset.refl _)) fun _ =>
        .bind (movesSpot_block hc _) fun _ => ?_
      refine .bind (movesSpot_leaveScope hw _) fun _ => .bind movesSpot_takePending fun out => ?_
      have hkept : ∀ {slot : Slot}, (p.depth, slot) ∈ p.slots →
          (p.depth, slot) ∈ out.map (p.depth, ·) ++ p.slots := fun h => List.mem_append_right _ h
      refine .drop (ih (p := { p with slots := out.map (p.depth, ·) ++ p.slots }) hbind hrest
        (fun slot h => hkept (hentries slot (List.mem_append_right _ h))) fun slot h => ?_)
        fun exits => .of_subset rfl rfl rfl (fun x hx => ?_) (List.Subset.refl _)
          (List.Subset.refl _)
      · exact (List.mem_append.mp h).elim (fun h => hkept (hexits slot h)) fun h =>
          List.mem_append_left _ (List.mem_map_of_mem h)
      · simp only [List.mem_append] at hx ⊢
        tauto

theorem keepsSpots_typeSwitch {init : Option Stmt} {subject : Expr} {clauses : List TypeClause}
    {binding : Option String} (hinit : ∀ x ∈ init, StmtKeepsSpots around x)
    (hsubject : ExprKeepsScope subject) (hbinding : ∀ y ∈ binding, isTemp y = false)
    (hclauses : ∀ c ∈ clauses, ∀ s ∈ c.body, StmtKeepsSpots (labelsOf c.body ++ around) s)
    (span : Span) : StmtKeepsSpots around (.typeSwitch span init binding subject clauses) := by
  intro label
  rw [compileStmt_typeSwitch]
  refine .of_works fun p => .within fun hw => ?_
  refine .bind (movesSpot_enterScope span) fun _ => .bind (movesSpot_optional hinit) fun _ => ?_
  refine .bind (movesSpot_typeSwitchHead hsubject (hw.moved _) (Nat.lt_succ_self _) clauses label
    span) fun ((x, ty), entries, exits) => ?_
  have hslot : ∀ slot ∈ entries.flatten ++ exits,
      (p.depth + 1, slot) ∈ (entries.flatten ++ exits).map (p.depth + 1, ·) ++ p.slots :=
    fun slot h => List.mem_append_left _ (List.mem_map_of_mem h)
  refine .bind (movesSpot_compileTypeBodies
    (fun types p' htemps => movesSpot_bindSubject hbinding (htemps List.mem_cons_self) ty types)
      hclauses
    (fun slot h => hslot slot (List.mem_append_left _ h))
    fun slot h => hslot slot (List.mem_append_right _ h)) fun exits' => ?_
  refine (movesSpot_switchTail hw label span).given <| .of_subset rfl rfl rfl (fun y hy => ?_)
    (List.Subset.refl _) (List.subset_cons_self _ _)
  simp only [List.mem_append] at hy ⊢
  tauto

end switches

mutual

-- A statement of a program keeps to its scopes if its names are those of the program and its jumps
-- lead out of statements only.
theorem stmtKeepsSpots : ∀ (s : Stmt) (around : List String), s.isVisible = true →
    s.gotosLeave around = true → StmtKeepsSpots around s
  | .empty _, _, _, _ => fun _ => by
      unfold compileStmt
      exact .of_closes (.pure _)
  | .expr _ e, _, h, _ => fun _ => by
      unfold compileStmt
      exact .of_closes ((exprKeepsScope e h _ _ _).discard)
  | .define _ names values, _, h, _ => fun label => by
      simp only [Stmt.isVisible, Bool.and_eq_true, List.all_eq_true, Bool.not_eq_true'] at h
      exact .of_closes (keepsScope_define (exprKeepsScope_list values h.2) h.1 label)
  | .var _ ⟨names, ty, values⟩, _, h, _ => fun label => by
      simp only [Stmt.isVisible, Bool.and_eq_true, List.all_eq_true, Bool.not_eq_true'] at h
      exact .of_closes (keepsScope_var (exprKeepsScope_list values h.2) h.1 ty label)
  | .const _ specs, _, h, _ => fun _ => by
      unfold compileStmt
      exact .of_closes (keepsScope_compileConsts (exprKeepsScope_specs h)
        (fun _ hl => by cases hl) 0)
  | .typeDecl span x ty, _, _, _ => fun label => .of_closes (keepsScope_typeDecl span x ty label)
  | .assign _ targets values, _, h, _ => fun label => by
      simp only [Stmt.isVisible, Bool.and_eq_true] at h
      exact .of_closes (keepsScope_assign (targetKeepsScope_list h.1)
        (exprKeepsScope_list values h.2) label)
  | .opAssign _ op target value, _, h, _ => fun label => by
      simp only [Stmt.isVisible, Bool.and_eq_true] at h
      exact .of_closes (keepsScope_opAssign (targetKeepsScope target h.1)
        (exprKeepsScope value h.2) op label)
  | .incDec _ target increment, _, h, _ => fun label =>
      .of_closes (keepsScope_incDec (targetKeepsScope target h) increment label)
  | .send _ chan value, _, h, _ => fun label => by
      simp only [Stmt.isVisible, Bool.and_eq_true] at h
      exact .of_closes (keepsScope_send (exprKeepsScope chan h.1) (exprKeepsScope value h.2) label)
  | .block span body, around, h, hgotos =>
      keepsSpots_blockStmt (keepsSpots_all body _ h hgotos) span
  | .cond span init test yes no, around, h, hgotos => by
      simp only [Stmt.isVisible, Bool.and_eq_true] at h
      simp only [Stmt.gotosLeave, Bool.and_eq_true] at hgotos
      exact keepsSpots_cond (keepsSpots_option init _ h.1 hgotos.1) (exprKeepsScope test h.2.1)
        (keepsSpots_all yes _ h.2.2.1 hgotos.2.1) (keepsSpots_option no _ h.2.2.2 hgotos.2.2) span
  | .loop span init test post body, around, h, hgotos => by
      simp only [Stmt.isVisible, Bool.and_eq_true] at h
      simp only [Stmt.gotosLeave, Bool.and_eq_true] at hgotos
      exact keepsSpots_loop (keepsSpots_option init _ h.1 hgotos.1) (isTemp_loopVariables h.1)
        (exprKeepsScope_option test h.2.1) (keepsSpots_option post _ h.2.2.1 hgotos.2.2)
        (keepsSpots_all body _ h.2.2.2 hgotos.2.1) span
  | .range span key value define subject body, around, h, hgotos => by
      simp only [Stmt.isVisible, Bool.and_eq_true] at h
      exact keepsSpots_range (targetKeepsScope_option h.1) (targetKeepsScope_option h.2.1) h.1 h.2.1
        (exprKeepsScope subject h.2.2.1) (keepsSpots_all body _ h.2.2.2 hgotos) span define
  | .switch span init tag clauses, around, h, hgotos => by
      simp only [Stmt.isVisible, Bool.and_eq_true] at h
      simp only [Stmt.gotosLeave, Bool.and_eq_true] at hgotos
      exact keepsSpots_switch (keepsSpots_option init _ h.1 hgotos.1)
        (exprKeepsScope_option tag h.2.1)
        (keepsSpots_clauses clauses _ h.2.2 hgotos.2) span
  | .typeSwitch span init binding subject clauses, around, h, hgotos => by
      simp only [Stmt.isVisible, Bool.and_eq_true] at h
      simp only [Stmt.gotosLeave, Bool.and_eq_true] at hgotos
      exact keepsSpots_typeSwitch (keepsSpots_option init _ h.1 hgotos.1)
        (exprKeepsScope subject h.2.2.1)
        (by simpa [Option.all_eq_true] using h.2.1)
        (keepsSpots_typeClauses clauses _ h.2.2.2 hgotos.2) span
  | .labeled span l body, around, h, hgotos =>
      keepsSpots_labeled (stmtKeepsSpots body around h hgotos) span l
  | .ret _ values, _, h, _ => fun label =>
      .of_closes (keepsScope_ret (exprKeepsScope_list values h) label)
  | .brk span l, _, _, _ => fun _ => by
      unfold compileStmt
      exact .of_works fun p => movesSpot_breakOut l span
  | .cont span l, _, _, _ => fun _ => by
      unfold compileStmt
      exact .of_works fun p => movesSpot_continueLoop l span
  | .goto span l, _, _, hgotos => fun _ => by
      unfold compileStmt
      exact .of_works fun p => movesSpot_gotoLabel (List.contains_iff_mem.mp hgotos) span
  | .fallthrough _, _, _, _ | .go .., _, _, _ => fun _ => by
      unfold compileStmt
      exact .of_closes (.fail _)
  | .defer span call, _, h, _ => fun label => .of_closes (keepsScope_deferOf span label call h)

theorem keepsSpots_all : ∀ (body : List Stmt) (around : List String), stmtsVisible body = true →
    gotosLeaveAll around body = true → ∀ s ∈ body, StmtKeepsSpots around s
  | [], _, _, _ => nofun
  | s :: rest, around, h, hgotos => by
      simp only [stmtsVisible, Bool.and_eq_true] at h
      simp only [gotosLeaveAll, Bool.and_eq_true] at hgotos
      exact List.forall_mem_cons.mpr ⟨stmtKeepsSpots s around h.1 hgotos.1,
        keepsSpots_all rest around h.2 hgotos.2⟩

theorem keepsSpots_option : ∀ (s : Option Stmt) (around : List String), stmtVisible s = true →
    gotosLeaveOptional around s = true → ∀ x ∈ s, StmtKeepsSpots around x
  | none, _, _, _ => nofun
  | some s, around, h, hgotos => fun _ hx =>
      Option.mem_some.mp hx ▸ stmtKeepsSpots s around h hgotos

theorem keepsSpots_clauses : ∀ (clauses : List Clause) (around : List String),
    clausesVisible clauses = true → gotosLeaveClauses around clauses = true →
      ∀ c ∈ clauses, ClauseKeepsSpots around c
  | [], _, _, _ => nofun
  | ⟨values, _, body⟩ :: rest, around, h, hgotos => by
      simp only [clausesVisible, Bool.and_eq_true] at h
      simp only [gotosLeaveClauses, Bool.and_eq_true] at hgotos
      exact List.forall_mem_cons.mpr
        ⟨⟨exprKeepsScope_list values h.1.1, keepsSpots_all body _ h.1.2 hgotos.1⟩,
        keepsSpots_clauses rest around h.2 hgotos.2⟩

theorem keepsSpots_typeClauses : ∀ (clauses : List TypeClause) (around : List String),
    typeClausesVisible clauses = true → gotosLeaveTypeClauses around clauses = true →
      ∀ c ∈ clauses, ∀ s ∈ c.body, StmtKeepsSpots (labelsOf c.body ++ around) s
  | [], _, _, _ => nofun
  | ⟨_, _, body⟩ :: rest, around, h, hgotos => by
      simp only [typeClausesVisible, Bool.and_eq_true] at h
      simp only [gotosLeaveTypeClauses, Bool.and_eq_true] at hgotos
      exact List.forall_mem_cons.mpr ⟨keepsSpots_all body _ h.1 hgotos.1,
        keepsSpots_typeClauses rest around h.2 hgotos.2⟩

end

-- What is built looks up no temporaries but those that it binds itself.
def OwnsTemps {α : Type} (x : Build α) : Prop :=
  ∀ b a b', b.Tidy → x b = .ok a b' → b'.Tidy ∧ ∀ i k x, isTemp x = true → b.steps.size ≤ i →
    ReadsAt b'.steps i x → BindsAt b'.steps k x → b.steps.size ≤ k

-- No statement looks up a temporary of another one around it or beside it.
theorem ownsTemps_compileStmt {stmt : Stmt} (h : stmt.isVisible = true)
    (hgotos : stmt.gotosLeave around = true) (label : Option String) :
    OwnsTemps (compileStmt stmt label) := by
  intro b u b' hb hbuild
  obtain ⟨hafter, -⟩ := (stmtKeepsSpots stmt around h hgotos label).works _ b u b'
    (Spot.describes_bare hb) hbuild
  refine ⟨hafter.tidy, fun i k x hx hi hread hbind => ?_⟩
  obtain ⟨k', hk', hbind'⟩ := hafter.owned i x hx hi hread
  rwa [hafter.tidy.unique k k' x hx hbind hbind']

end Build

section finished

open Build

variable {o : Origin} {names : Names} {code : Array Function} {types : TypeTable} {f : Function}

section resolved

variable {b : Builder} {steps : Array Step} (hres : GotosResolve b.labels b.gotos b.steps steps)
  (hjumps : ∀ g ∈ b.gotos, ∃ s, b.steps[g.jump]? = some s ∧ s.op = .jump 0)

include hres hjumps

-- When jumps to labels are resolved, all stays but the depths and the targets of the jumps.
theorem GotosResolve.same_of {α : Type} {φ : StepOp → α} (hbare : ∀ op, φ op.bare = φ op)
    (hjump : ∀ d d', φ (.jump d) = φ (.jump d')) {i : StepId} {s' : Step}
    (hs' : steps[i]? = some s') :
    ∃ s, b.steps[i]? = some s ∧ φ s'.op = φ s.op := by
  obtain ⟨s, hs, hcase⟩ := hres.step hs'
  refine ⟨s, hs, ?_⟩
  rcases hcase with hsame | ⟨g, hg, rfl, target, -, hop⟩
  · rw [← hbare, hsame, hbare]
  · obtain ⟨u, hu, hop'⟩ := hjumps g hg
    cases hs.symm.trans hu
    rw [hop, hop', hjump]

theorem GotosResolve.keepsScopes
    (hdepth : ∀ i ≤ b.steps.size, emissionDepth steps i = emissionDepth b.steps i) :
    KeepsScopes b.steps steps := by
  refine ⟨hdepth, fun k hk x => ?_⟩
  have hs' := Array.getElem?_eq_getElem (hres.size ▸ hk : k < steps.size)
  obtain ⟨s, hs, hsame⟩ := hres.same_of hjumps StepOp.bindings_bare (fun _ _ => rfl) hs'
  constructor
  · rintro ⟨u, hu, hx⟩
    cases hs'.symm.trans hu
    exact ⟨s, hs, hsame ▸ hx⟩
  · rintro ⟨u, hu, hx⟩
    cases hs.symm.trans hu
    exact ⟨_, hs', hsame ▸ hx⟩

theorem GotosResolve.orderly (hb : b.Tidy) (hdetached : Detached steps) : Orderly steps where
  discreet i s' hs' := by
    obtain ⟨s, hs, hsame⟩ := hres.same_of hjumps StepOp.isDiscreet_bare (fun _ _ => rfl) hs'
    rw [hsame]
    exact hb.discreet i s hs
  detached := hdetached
  calm e d hdefers i s' hin hs' := by
    obtain ⟨u', hu', hentry⟩ := hdefers
    obtain ⟨u, hu, hsame⟩ := hres.same_of hjumps StepOp.entry?_bare (fun _ _ => rfl) hu'
    obtain ⟨s, hs, hcalm⟩ := hres.same_of hjumps StepOp.isCalm_bare (fun _ _ => rfl) hs'
    rw [hcalm]
    exact hb.chains e d ⟨u, hu, hsame ▸ hentry⟩ i s hin hs

end resolved

-- What is known of the steps of a finished function: edges keep to the scopes around their ends, and
-- a temporary is bound by one step, in a scope inside of the function that is open where it is read.
structure Enclosed (steps : Array Step) : Prop extends Orderly steps where
  level : ∀ slot j, LeadsTo steps slot (some j) → LevelEdge steps slot.step j
  reads : ∀ i x, isTemp x = true → ReadsAt steps i x →
    ∃ k, BindsAt steps k x ∧ ScopeCovers steps k i
  unique : ∀ k k' x, isTemp x = true → BindsAt steps k x → BindsAt steps k' x → k = k'
  inner : ∀ k, BindsTemp steps k → 0 < emissionDepth steps k

theorem Origin.Makes.enclosed (h : o.Makes names code types f) (hvisible : o.isVisible = true)
    (hgotos : gotosLeave o.body = true) : Enclosed f.steps := by
  obtain ⟨b, hwork, hres, hland, hjumps, hdepth⟩ := h.finished
  obtain ⟨_, b₁, hhead, hbody⟩ := bind_eq_ok.mp hwork
  have hclean : (Builder.start names code o.sig).Tidy := tidy_start hvisible
  have hstart := (Spot.describes_bare hclean).withPlace (.here hclean rfl)
  have hstmts := keepsSpots_all o.body (labelsOf o.body ++ []) (stmtsVisible_body hvisible)
    (by rwa [List.append_nil])
  obtain ⟨hmid, hfirst⟩ := MovesSpot.closes (keepsScope_head hvisible) _ _ _ hstart hhead
  obtain ⟨hafter, hsecond⟩ := movesSpot_block hstmts _ b₁ () b hmid hbody
  have htidy := hafter.tidy
  have hkeeps := hres.keepsScopes hjumps hdepth
  refine ⟨hres.orderly hjumps htidy h.detached.1, fun slot j hj => ?_, fun i x hx hread => ?_,
    fun k k' x hx hbind hbind' => ?_, fun k ⟨x, hx, hbind⟩ => ?_⟩
  · rcases hres.edge hj with hold | ⟨g, hg, rfl, target, htarget, rfl⟩
    · obtain ⟨hlt, hlevel⟩ := htidy.edges slot j hold
      exact hlevel.keeps hkeeps hold.lt_size (Nat.le_of_lt hlt)
    · -- Every jump to a label was resolved to one that it may lead to.
      rcases (hfirst.trans hsecond).gotos g hg with hold | ⟨-, hnone | ⟨found, hfound, hlevel⟩⟩
      · cases hold
      · cases hnone
      · obtain rfl := hland.lookup hfound htarget
        exact hlevel.keeps hkeeps (htidy.gotos g hg) (Nat.le_of_lt (htidy.labels _ _ hfound))
  · obtain ⟨s', hs', hmem⟩ := hread
    obtain ⟨s, hs, hsame⟩ := hres.same_of hjumps StepOp.reads_bare (fun _ _ => rfl) hs'
    have hlt := (Array.getElem?_eq_some_iff.mp hs).1
    obtain ⟨k, hbind, hcov⟩ := htidy.reads i x hx ⟨s, hs, hsame ▸ hmem⟩
    exact ⟨k, (hkeeps.binds k hbind.lt_size x).mpr hbind, hcov.keeps hkeeps (Nat.le_of_lt hlt)⟩
  · have hlt : ∀ {k}, BindsAt f.steps k x → k < b.steps.size := fun hb => hres.size ▸ hb.lt_size
    exact htidy.unique k k' x hx ((hkeeps.binds k (hlt hbind) x).mp hbind)
      ((hkeeps.binds k' (hlt hbind') x).mp hbind')
  · have hlt : k < b.steps.size := hres.size ▸ hbind.lt_size
    rw [hdepth k (Nat.le_of_lt hlt)]
    exact (hafter.places _ List.mem_cons_self).floor.binds k (Nat.zero_le k) hlt
      ⟨x, hx, (hkeeps.binds k hlt x).mp hbind⟩

end finished

end StepGraph

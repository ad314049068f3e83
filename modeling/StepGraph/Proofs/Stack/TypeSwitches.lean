import StepGraph.Proofs.Stack.CaseTests
import StepGraph.Proofs.Stack.Rows
import StepGraph.Proofs.Store.Variables
import StepGraph.Proofs.Structured.Layout
import StepGraph.Types.Member

open EStateM (bind_apply bind_eq_ok)

namespace StepGraph

namespace Heap

-- A pointer points to no variable itself.
theorem load_scopes (h : Heap) (scopes : Array Scope) (a : Address) :
    load { h with scopes } a = h.load a := by
  have hcell : cell? { h with scopes } a = h.cell? a := rfl
  unfold load
  rw [hcell]
  cases h.cell? a with
  | none => rfl
  | some c => cases c <;> rfl

end Heap

namespace TypeTable

section scopes

variable (t : TypeTable) (h : Heap) (scopes : Array Scope)

theorem methodSetUpTo_scopes (name : String) (n : Nat) (pointer : Bool) (v : Value) :
    t.methodSetUpTo { h with scopes } name n pointer v = t.methodSetUpTo h name n pointer v := by
  induction n generalizing pointer v with
  | zero => rfl
  | succ n ih =>
      have hembedded : ∀ s, Heap.embeddedValues { h with scopes } s = h.embeddedValues s :=
        fun _ => rfl
      unfold methodSetUpTo
      simp only [ih, Heap.load_scopes, hembedded]

theorem hasMethods_scopes (v : Value) (names : List String) :
    t.hasMethods { h with scopes } v names = t.hasMethods h v names := by
  induction names with
  | nil => rfl
  | cons name names ih =>
      have hmethod : t.hasMethod { h with scopes } v name = t.hasMethod h v name := by
        have hreach : Heap.reach { h with scopes } = h.reach := rfl
        unfold hasMethod
        simp only [methodSetUpTo_scopes, Heap.load_scopes, hreach]
      unfold hasMethods
      simp only [hmethod, ih]

-- The type of a value does not depend on the scopes.
theorem holdsType_scopes (v : Value) (ty : Ty) :
    t.holdsType { h with scopes } v ty = t.holdsType h v ty := by
  have hmethods := t.hasMethods_scopes h scopes v
  have hliteral : ∀ ty, literalMatches { h with scopes } ty v = literalMatches h ty v := fun ty => by
    unfold literalMatches
    rfl
  cases ty with
  | pointer elem =>
      have ih := fun v => holdsType_scopes v elem
      unfold holdsType
      simp only [Heap.load_scopes, ih]
  | _ =>
      unfold holdsType
      simp only [hmethods, hliteral]

end scopes

-- The first of the types that the value has, told by the clause in which it stands.
def firstHeld (t : TypeTable) (h : Heap) (v : Value) : List (Ty × Nat) → Except Failure (Option Nat)
  | [] => .ok none
  | (ty, i) :: rest => do
      if ← t.holdsType h v ty then return some i else t.firstHeld h v rest

-- The clause is the first one with a type that the value has. Without a clause there is none.
def FirstHeld (t : TypeTable) (h : Heap) (v : Value) (cs : List TypeClause) : Option Nat → Prop
  | some i => (∃ c, cs[i]? = some c ∧ ∃ ty ∈ c.types, t.holdsType h v ty = .ok true) ∧
      ∀ j c, j < i → cs[j]? = some c → ∀ ty ∈ c.types, t.holdsType h v ty = .ok false
  | none => ∀ c ∈ cs, ∀ ty ∈ c.types, t.holdsType h v ty = .ok false

-- The types of the clauses in the order of the text, each with the number of its clause.
def listed (cs : List TypeClause) (n : Nat) : List (Ty × Nat) :=
  (cs.zipIdx n).flatMap fun c => c.1.types.map (·, c.2)

theorem mem_listed {cs : List TypeClause} {ty : Ty} {i : Nat} :
    (ty, i) ∈ listed cs 0 ↔ ∃ c, cs[i]? = some c ∧ ty ∈ c.types := by
  unfold listed
  simp only [List.mem_flatMap, List.mem_map, Prod.exists, Prod.mk.injEq]
  constructor
  · rintro ⟨c, j, hc, ty', hty, rfl, rfl⟩
    exact ⟨c, List.mem_zipIdx_iff_getElem?.mp hc, hty⟩
  · rintro ⟨c, hc, hty⟩
    exact ⟨c, i, List.mem_zipIdx_iff_getElem?.mpr hc, ty, hty, rfl, rfl⟩

theorem sorted_listed (cs : List TypeClause) (n : Nat) :
    (listed cs n).Pairwise fun e e' => e.2 ≤ e'.2 := by
  have hnumbers : (cs.zipIdx n).Pairwise fun c c' => c.2 < c'.2 := by
    refine List.Pairwise.of_map Prod.snd (fun _ _ h => h) ?_
    rw [List.zipIdx_map_snd]
    exact List.pairwise_lt_range'
  refine List.pairwise_flatMap.mpr ⟨fun c _ => ?_, hnumbers.imp fun {c c'} hlt e he e' he' => ?_⟩
  · exact List.pairwise_map.mpr (List.pairwise_of_forall fun _ _ => Nat.le_refl _)
  · obtain ⟨_, -, rfl⟩ := List.mem_map.mp he
    obtain ⟨_, -, rfl⟩ := List.mem_map.mp he'
    exact Nat.le_of_lt hlt

variable {t : TypeTable} {h : Heap} {v : Value} {values : List (Ty × Nat)} {found : Option Nat}

theorem firstHeld_eq_some {i : Nat} (hfound : t.firstHeld h v values = .ok (some i)) :
    ∃ front ty back, values = front ++ (ty, i) :: back ∧ t.holdsType h v ty = .ok true ∧
      ∀ e ∈ front, t.holdsType h v e.1 = .ok false := by
  induction values with
  | nil => cases hfound
  | cons e rest ih =>
      obtain ⟨ty, j⟩ := e
      unfold firstHeld at hfound
      cases hty : t.holdsType h v ty with
      | error e => rw [hty] at hfound; cases hfound
      | ok holds =>
          rw [hty] at hfound
          cases holds with
          | true =>
              cases hfound
              exact ⟨[], ty, rest, rfl, hty, List.forall_mem_nil _⟩
          | false =>
              obtain ⟨front, ty', back, rfl, hheld, hfront⟩ := ih hfound
              exact ⟨(ty, j) :: front, ty', back, rfl, hheld, List.forall_mem_cons.mpr ⟨hty, hfront⟩⟩

theorem firstHeld_eq_none (hfound : t.firstHeld h v values = .ok none) :
    ∀ e ∈ values, t.holdsType h v e.1 = .ok false := by
  induction values with
  | nil => exact List.forall_mem_nil _
  | cons e rest ih =>
      obtain ⟨ty, j⟩ := e
      unfold firstHeld at hfound
      cases hty : t.holdsType h v ty with
      | error e => rw [hty] at hfound; cases hfound
      | ok holds =>
          rw [hty] at hfound
          cases holds with
          | true => cases hfound
          | false => exact List.forall_mem_cons.mpr ⟨hty, ih hfound⟩

theorem firstHeld_listed {cs : List TypeClause} (hfound : t.firstHeld h v (listed cs 0) = .ok found) :
    t.FirstHeld h v cs found := by
  cases found with
  | none =>
      intro c hc ty hty
      obtain ⟨i, hi⟩ := List.mem_iff_getElem?.mp hc
      exact firstHeld_eq_none hfound (ty, i) (mem_listed.mpr ⟨c, hi, hty⟩)
  | some i =>
      obtain ⟨front, ty, back, hsplit, hheld, hfront⟩ := firstHeld_eq_some hfound
      have hmem : (ty, i) ∈ listed cs 0 := by simp [hsplit]
      obtain ⟨c, hc, hty⟩ := mem_listed.mp hmem
      refine ⟨⟨c, hc, ty, hty, hheld⟩, fun j c' hj hc' ty' hty' => ?_⟩
      have hmem' : (ty', j) ∈ front ++ (ty, i) :: back := hsplit ▸ mem_listed.mpr ⟨c', hc', hty'⟩
      rcases List.mem_append.mp hmem' with hin | hin
      · exact hfront _ hin
      · have hsorted := List.pairwise_append.mp (hsplit ▸ sorted_listed cs 0)
        rcases List.mem_cons.mp hin with heq | hback
        · cases heq
          exact absurd hj (Nat.lt_irrefl _)
        · have hle := (List.pairwise_cons.mp hsorted.2.1).1 _ hback
          exact absurd hj (Nat.not_lt_of_le hle)

end TypeTable

open Build

namespace Build

variable {b b₁ b' : Builder} {op : StepOp} {ops : List StepOp} {steps : Array Step}

-- The type that a clause gives its binding.
def boundType : List Ty → Option Ty
  | [ty] => if ty.isUntypedNil then none else some ty
  | _ => none

-- The steps that bind the subject in a clause.
def bindingOps (binding : Option String) (x : String) (types : List Ty) : List StepOp :=
  match binding with
  | none => []
  | some name => .load x :: ((boundType types).toList.map (.typeAssert · false) ++
      [.declare [name] none (.fixed 1)])

theorem declares_lays {name : String} {ty : Option Ty} {u : Unit}
    (h : (do declareTop name Span.none; declare name ty : Build Unit) b = .ok u b') :
    Lays b [.declare [name] none (.fixed 1)] b' := by
  obtain ⟨_, b₁, hemit, h⟩ := bind_eq_ok.mp h
  cases h
  refine .emit (emitted_of_emit' hemit) ?_ ?_ (.nil _) <;> rfl

theorem bindSubject_lays {binding : Option String} {x : String} {ty : Option Ty} {types : List Ty}
    {u : Unit} (h : bindSubject binding x ty types b = .ok u b') :
    Lays b (bindingOps binding x types) b' := by
  unfold bindSubject at h
  cases binding with
  | none =>
      cases h
      exact .nil b
  | some name =>
      obtain ⟨_, b₁, hload, h⟩ := bind_eq_ok.mp h
      refine .emit (emitted_of_emit' hload) rfl rfl ?_
      unfold boundType
      rcases types with _ | ⟨ty', _ | ⟨ty'', rest⟩⟩
      · exact declares_lays h
      · dsimp only at h ⊢
        cases hnil : ty'.isUntypedNil with
        | true =>
            simp only [hnil, if_true] at h ⊢
            exact declares_lays h
        | false =>
            simp only [hnil, Bool.false_eq_true, if_false] at h ⊢
            obtain ⟨_, b₂, hassert, h⟩ := bind_eq_ok.mp h
            exact .emit (emitted_of_emit' hassert) rfl rfl (declares_lays h)
      · exact declares_lays h

theorem enterScope_lays {span : Span} {u : Unit} (h : enterScope span b = .ok u b') :
    Lays b [.pushScope] b' := by
  obtain ⟨_, b₁, hemit, h⟩ := bind_eq_ok.mp h
  cases h
  refine .emit (emitted_of_emit' hemit) ?_ ?_ (.nil _) <;> rfl

theorem typeTests_ok {x : String} {ty : Ty} {types : List Ty} {hits : List Slot}
    (h : typeTests x (ty :: types) b = .ok hits b') : ∃ b₁ b₂ b₃ id others,
      emit' (.load x) Span.none b = .ok () b₁ ∧ emit' (.typeTest ty) Span.none b₁ = .ok () b₂ ∧
      branch Span.none b₂ = .ok ⟨id, .other⟩ b₃ ∧ Emitted (.branch none) b₂ id b₃ ∧
      typeTests x types { b₃ with pending := [⟨id, .other⟩] } = .ok others b' ∧
      hits = b₃.pending ++ others := by
  unfold typeTests at h
  obtain ⟨_, b₁, hload, h⟩ := bind_eq_ok.mp h
  obtain ⟨_, b₂, htest, h⟩ := bind_eq_ok.mp h
  obtain ⟨miss, b₃, hbranch, h⟩ := bind_eq_ok.mp h
  obtain ⟨hit, _, htake, h⟩ := bind_eq_ok.mp h
  cases htake
  obtain ⟨_, _, hset, h⟩ := bind_eq_ok.mp h
  cases hset
  obtain ⟨others, b₄, hrest, hlast⟩ := bind_eq_ok.mp h
  cases hlast
  obtain ⟨id, he, rfl⟩ := emitFork_ok hbranch
  exact ⟨b₁, b₂, b₃, id, others, hload, htest, hbranch, he, hrest, rfl⟩

theorem typeTestsAll_ok {x : String} {c : TypeClause} {cs : List TypeClause}
    {entries : List (List Slot)}
    (h : ((c :: cs).mapM fun c => typeTests x c.types) b = .ok entries b') : ∃ hits rest b₁,
      typeTests x c.types b = .ok hits b₁ ∧ (cs.mapM fun c => typeTests x c.types) b₁ = .ok rest b' ∧
      entries = hits :: rest := by
  rw [List.mapM_cons] at h
  obtain ⟨hits, b₁, hfirst, h⟩ := bind_eq_ok.mp h
  obtain ⟨rest, b₂, hrest, hlast⟩ := bind_eq_ok.mp h
  cases hlast
  exact ⟨hits, rest, b₁, hfirst, hrest, rfl⟩

theorem typeTestsAll_length {x : String} {cs : List TypeClause} {entries : List (List Slot)}
    (h : (cs.mapM fun c => typeTests x c.types) b = .ok entries b') : entries.length = cs.length := by
  induction cs generalizing b entries with
  | nil =>
      cases h
      rfl
  | cons c cs ih =>
      obtain ⟨hits, rest, b₁, -, hrest, rfl⟩ := typeTestsAll_ok h
      rw [List.length_cons, List.length_cons, ih hrest]

theorem typeBodies_ok {bind : List Ty → Build Unit} {c : TypeClause} {cs : List TypeClause}
    {entries : List (List Slot)} {exits exits' : List Slot}
    (h : compileTypeBodies bind (c :: cs) entries exits b = .ok exits' b') : ∃ b₁ b₂ b₃ b₄,
      enterScope Span.none { b with pending := entries.headD [] } = .ok () b₁ ∧
      bind c.types b₁ = .ok () b₂ ∧ compileStmts c.body b₂ = .ok () b₃ ∧
      leaveScope Span.none b₃ = .ok () b₄ ∧
      compileTypeBodies bind cs entries.tail (exits ++ b₄.pending) { b₄ with pending := [] } =
        .ok exits' b' := by
  obtain ⟨types, isDefault, body⟩ := c
  unfold compileTypeBodies at h
  obtain ⟨_, _, hset, h⟩ := bind_eq_ok.mp h
  cases hset
  obtain ⟨_, b₁, henter, h⟩ := bind_eq_ok.mp h
  obtain ⟨_, b₂, hbind, h⟩ := bind_eq_ok.mp h
  obtain ⟨_, b₃, hbody, h⟩ := bind_eq_ok.mp h
  obtain ⟨_, b₄, hleave, h⟩ := bind_eq_ok.mp h
  obtain ⟨out, _, htake, h⟩ := bind_eq_ok.mp h
  cases htake
  exact ⟨b₁, b₂, b₃, b₄, henter, hbind, hbody, hleave, h⟩

-- The clauses of a type switch, from their tests on.
def compileTypeClauses (cs : List TypeClause) (binding : Option String) (x : String) (ty : Option Ty)
    (label : Option String) (span : Span) : Build Unit := do
  let entries ← cs.mapM fun c => typeTests x c.types
  let (entries, exits) := addUnmatched (cs.map fun c => c.isDefault) (← takePending) entries
  let depth := (← get).depth
  pushContext .switch label depth depth
  let exits ← compileTypeBodies (bindSubject binding x ty) cs entries exits
  let (breaks, _) ← popContext
  setPending (exits ++ breaks)
  leaveScope span

-- Evaluates the subject of a type switch and binds it to a variable.
def compileSubject (subject : Expr) (span : Span) : Build (String × Option Ty) := do
  let ty := (← names).staticType subject
  discard (compile subject (.value none))
  let x ← temp "subj"
  declareTop x span
  declare x ty
  return (x, ty)

theorem performs_compileSubject {s : Site} {subject : Expr} (hsubject : Compiles subject) (span : Span) :
    Performs s (compileSubject subject span) (fun _ => s) [] noStarts := by
  unfold compileSubject
  refine .quiet performs_names fun n => .quiet (performs_value hsubject _) fun _ => ?_
  refine .quiet (performs_temp _) fun x => .quiet (performs_emit' s.items rfl rfl) fun _ => ?_
  exact .quiet (performs_declare _ _) fun _ => .pure _ rfl

theorem compileStmt_typeSwitch_clauses (span : Span) (init : Option Stmt) (binding : Option String)
    (subject : Expr) (cs : List TypeClause) (label : Option String) :
    compileStmt (.typeSwitch span init binding subject cs) label = (do
      enterScope span
      compileOptional init
      let (x, ty) ← compileSubject subject span
      compileTypeClauses cs binding x ty label span) := by
  rw [compileStmt_typeSwitch]
  unfold typeSwitchHead compileSubject compileTypeClauses
  simp only [bind_assoc, pure_bind]

theorem compileTypeClauses_ok {cs : List TypeClause} {binding : Option String} {x : String}
    {ty : Option Ty} {label : Option String} {span : Span} {u : Unit}
    (h : compileTypeClauses cs binding x ty label span b = .ok u b') :
    ∃ entries entries' exits exits' slots b₁ b₂ b₃ b₄,
      (cs.mapM fun c => typeTests x c.types) b = .ok entries b₁ ∧
      addUnmatched (cs.map (·.isDefault)) b₁.pending entries = (entries', exits) ∧
      pushContext .switch label b₁.depth b₁.depth { b₁ with pending := [] } = .ok () b₂ ∧
      compileTypeBodies (bindSubject binding x ty) cs entries' exits b₂ = .ok exits' b₃ ∧
      popContext b₃ = .ok slots b₄ ∧
      leaveScope span { b₄ with pending := exits' ++ slots.1 } = .ok u b' := by
  obtain ⟨entries, b₁, htests, h⟩ := bind_eq_ok.mp h
  obtain ⟨_, _, htake, h⟩ := bind_eq_ok.mp h
  cases htake
  obtain ⟨_, _, hget, h⟩ := bind_eq_ok.mp h
  cases hget
  obtain ⟨_, b₂, hpush, h⟩ := bind_eq_ok.mp h
  obtain ⟨exits', b₃, hbodies, h⟩ := bind_eq_ok.mp h
  obtain ⟨slots, b₄, hpop, h⟩ := bind_eq_ok.mp h
  obtain ⟨_, _, hset, hleave⟩ := bind_eq_ok.mp h
  cases hset
  exact ⟨entries, _, _, exits', slots, b₁, b₂, b₃, b₄, htests, rfl, hpush, hbodies, hpop, hleave⟩

end Build

namespace Program

variable {p : Program} {steps : Array Step} {i first : StepId} {x : String} {m m' : Machine}
  {v : Value} {op : StepOp} {goal : Option Nat → Option StepId}

theorem does_ok (h : p.work op m = .ok () m') (n : Nat) :
    p.does steps i op (n + 1) m = .ok ((), n) m' := by
  have hstep : annotated ((steps[i]?.map (·.span)).getD Span.none) (p.work op) m = .ok () m' := by
    unfold annotated
    rw [h]
  change (annotated _ (p.work op) >>= fun a => pure (a, n)) m = _
  rw [bind_apply, hstep]
  rfl

-- The machine with one more operand.
def holding (m : Machine) (v : Value) : Machine :=
  { m with frame := { m.frame with operands := v :: m.frame.operands } }

theorem work_load (hx : m.heap.lookup m.frame.scope x = some v) :
    p.work (.load x) m = .ok () (holding m v) := by
  unfold work
  simp only
  rw [bind_apply, Exec.heap_apply]
  simp only
  rw [bind_apply, Exec.currentScope_apply]
  simp only
  rw [hx]
  rfl

theorem work_typeTest (m : Machine) (v : Value) (ty : Ty) : p.work (.typeTest ty) (holding m v) =
    (do Exec.push (.bool (← Exec.ofExcept (p.types.holdsType m.heap v ty)))) m := by
  unfold work
  simp only
  rw [bind_apply, Exec.heap_apply]
  simp only
  rw [bind_apply, Exec.pop_of_operands rfl]
  rfl

theorem tests_bool (b : Bool) (n : Nat) :
    tests steps i (n + 1) (holding m (.bool b)) = .ok (b, n) m := by
  rfl

-- One test after the other, until one succeeds. The goal tells where each clause begins, and where
-- one comes to without any.
def searchTypes (p : Program) (steps : Array Step) (x : String) (goal : Option Nat → Option StepId) :
    List (Ty × Nat) → StepId → Stretch (Option StepId)
  | [], _ => return goal none
  | (ty, clause) :: rest, first => do
      p.does steps first (.load x)
      p.does steps (first + 1) (.typeTest ty)
      if ← tests steps (first + 2) then return goal (some clause)
      else p.searchTypes steps x goal rest (first + 3)

theorem bind_stretch {α β : Type} (y : Stretch α) (f : α → Stretch β) (n : Nat) (m : Machine) :
    (y >>= f) n m = match y n m with
      | .ok (a, n') m' => f a n' m'
      | .error u m' => .error u m' := by
  change (y n >>= fun r => f r.1 r.2) m = _
  rw [bind_apply]
  cases y n m <;> rfl

theorem raise_apply (e : Failure) (m : Machine) :
    ∃ u m', ∀ α : Type, (Exec.raise e : Exec α) m = .error u m' := by
  cases e with
  | fault f => exact ⟨_, _, fun _ => rfl⟩
  | fatal f => exact ⟨_, _, fun _ => rfl⟩

-- A step that raises a failure ends the stretch.
theorem does_of_raise {α : Type} {e : Failure} {y : Unit → Stretch α} {m₀ : Machine}
    (h : p.work op m = Exec.raise e m₀) (n : Nat) :
    ∃ span, (p.does steps i op >>= y) (n + 1) m = annotated span (Exec.raise e) m₀ := by
  obtain ⟨u, m', hraised⟩ := raise_apply e m₀
  have hstep : ∀ span, annotated span (p.work op) m = annotated span (Exec.raise e : Exec Unit) m₀ :=
    fun span => by
      unfold annotated
      rw [h]
  have hdoes : p.does steps i op (n + 1) m =
      annotated ((steps[i]?.map (·.span)).getD Span.none) (Exec.raise e) m₀ := by
    change (annotated _ (p.work op) >>= fun a => pure (a, n)) m = _
    rw [bind_apply, hstep]
    unfold annotated
    rw [hraised, hraised]
    cases u <;> rfl
  refine ⟨(steps[i]?.map (·.span)).getD Span.none, ?_⟩
  rw [bind_stretch, hdoes]
  unfold annotated
  rw [hraised, hraised]
  cases u <;> rfl

-- Searching leaves the machine as it is.
theorem searchTypes_ok (hx : m.heap.lookup m.frame.scope x = some v) {values : List (Ty × Nat)}
    {found : Option Nat} (hfound : p.types.firstHeld m.heap v values = .ok found) (n : Nat) :
    ∃ n', n ≤ n' ∧ p.searchTypes steps x goal values first (3 * values.length + n) m =
      .ok (goal found, n') m := by
  induction values generalizing first with
  | nil =>
      cases hfound
      exact ⟨n, Nat.le_refl n, by unfold searchTypes; rw [List.length_nil, Nat.zero_add]; rfl⟩
  | cons e rest ih =>
      obtain ⟨ty, clause⟩ := e
      unfold TypeTable.firstHeld at hfound
      cases hty : p.types.holdsType m.heap v ty with
      | error e => rw [hty] at hfound; cases hfound
      | ok holds =>
          rw [hty] at hfound
          have htest : p.work (.typeTest ty) (holding m v) = .ok () (holding m (.bool holds)) := by
            rw [work_typeTest, hty]
            rfl
          rw [show 3 * (List.length ((ty, clause) :: rest)) + n = 3 * rest.length + n + 3 by
            rw [List.length_cons]; omega]
          unfold searchTypes
          rw [bind_stretch, does_ok (work_load hx)]
          simp only
          rw [bind_stretch, does_ok htest]
          simp only
          rw [bind_stretch, tests_bool]
          cases holds with
          | true =>
              cases hfound
              exact ⟨_, Nat.le_add_left n _, rfl⟩
          | false => exact ih hfound

-- A test that fails ends the search as it would end any step.
theorem searchTypes_error (hx : m.heap.lookup m.frame.scope x = some v)
    {values : List (Ty × Nat)} {e : Failure}
    (hfailed : p.types.firstHeld m.heap v values = .error e) (n : Nat) :
    ∃ span, p.searchTypes steps x goal values first (3 * values.length + n) m =
      annotated span (Exec.raise e) m := by
  induction values generalizing first with
  | nil => cases hfailed
  | cons entry rest ih =>
      obtain ⟨ty, clause⟩ := entry
      unfold TypeTable.firstHeld at hfailed
      rw [show 3 * (List.length ((ty, clause) :: rest)) + n = 3 * rest.length + n + 3 by
        rw [List.length_cons]; omega]
      unfold searchTypes
      rw [bind_stretch, does_ok (work_load hx)]
      simp only
      cases hty : p.types.holdsType m.heap v ty with
      | error e' =>
          rw [hty] at hfailed
          cases hfailed
          have htest : p.work (.typeTest ty) (holding m v) = Exec.raise e m := by
            rw [work_typeTest, hty]
            obtain ⟨u, m', hraised⟩ := raise_apply e m
            change (Exec.raise e >>= _ : Exec Unit) m = _
            rw [bind_apply, hraised, hraised]
          exact does_of_raise htest _
      | ok holds =>
          rw [hty] at hfailed
          have htest : p.work (.typeTest ty) (holding m v) = .ok () (holding m (.bool holds)) := by
            rw [work_typeTest, hty]
            rfl
          rw [bind_stretch, does_ok htest]
          simp only
          rw [bind_stretch, tests_bool]
          cases holds with
          | true => cases hfailed
          | false => exact ih hfailed

-- Steps that do their work one after the other.
def inTurn (p : Program) (steps : Array Step) : StepId → List StepOp → Stretch Unit
  | _, [] => pure ()
  | i, op :: ops => do
      p.does steps i op
      p.inTurn steps (i + 1) ops

-- A step that does its work on the operands and goes on, as all but those that jump, call or return.
structure IsWorkStep (p : Program) (op : StepOp) : Prop where
  step : p.step op = do p.work op; return .next
  bare : ∀ other, op.bare.toOther other = op
  plain : op.bare.isPlain = true

theorem follows_inTurn {b b' : Builder} {ops : List StepOp} (h : Lays b ops b')
    (hkept : StepsKept b'.steps steps) (hworks : ∀ op ∈ ops, p.IsWorkStep op) {k : Option StepId}
    {y : Stretch (Option StepId)} (hleads : AllLead steps b'.pending k)
    (hy : p.Follows steps k y) : ∃ k₀, AllLead steps b.pending k₀ ∧
      (ops ≠ [] → k₀ = some b.steps.size) ∧
      p.Follows steps k₀ (do p.inTurn steps b.steps.size ops; y) := by
  induction h with
  | nil b => exact ⟨k, hleads, fun hne => absurd rfl hne, hy⟩
  | @emit b b₁ b₂ b' op ops he hsteps hpending hrest ih =>
      obtain ⟨k₁, hleads₁, -, hrest₁⟩ :=
        ih hkept (fun op hop => hworks op (List.mem_cons_of_mem _ hop)) hleads
      have hop := hworks op List.mem_cons_self
      have k₁' := hsteps ▸ hkept.of_extends hrest.extend
      rw [hpending] at hleads₁
      rw [show b₂.steps.size = b.steps.size + 1 by rw [hsteps, he.size_eq]] at hrest₁
      refine ⟨some b.steps.size, (Begins.refl b).allLead he k₁', fun _ => rfl, ?_⟩
      unfold inTurn
      rw [bind_assoc]
      exact .emitted he k₁' hop.step hop.bare hop.plain hleads₁ hrest₁

-- The machine in a new scope.
def deeper (m : Machine) : Machine :=
  { m with
    heap := (Heap.newScope (some m.frame.scope) m.heap).2
    frame := { m.frame with scope := m.heap.scopes.size, depth := m.frame.depth + 1 } }

theorem work_pushScope (m : Machine) : p.work .pushScope m = .ok () (deeper m) := rfl

theorem work_typeAssert {ty : Ty} (hty : p.types.holdsType m.heap v ty = .ok true) :
    p.work (.typeAssert ty false) (holding m v) = .ok () (holding m v) := by
  unfold work
  simp only
  unfold typeAssert
  rw [bind_apply, Exec.pop_of_operands rfl]
  simp only
  rw [bind_apply, Exec.heap_apply]
  simp only
  rw [bind_apply, show (holding m v).heap = m.heap from rfl, hty, Exec.ofExcept_ok]
  rfl

-- The machine with a variable of this name that has a copy of the value. The blank name stands for none.
def bound (m : Machine) (name : String) (v : Value) : Machine :=
  if name = Names.blank then m
  else
    { m with heap := (Heap.declare m.frame.scope name (Heap.copy v m.heap).1 (Heap.copy v m.heap).2).2 }

theorem work_declare (m : Machine) (name : String) (v : Value) :
    p.work (.declare [name] none (.fixed 1)) (holding m v) = .ok () (bound m name v) := by
  have htake : Exec.take (.fixed 1) (holding m v) = .ok [v] m := by
    change Exec.takeN 1 (holding m v) = _
    unfold Exec.takeN
    rw [bind_apply, Exec.frame_apply]
    simp only
    rw [if_neg (by simp [holding])]
    rfl
  have hdeclare : p.declareValue none name v m = .ok () (bound m name v) := by
    unfold declareValue bound
    split
    · rfl
    · rfl
  unfold work
  simp only
  rw [bind_apply, htake]
  simp only [List.length_singleton, ne_eq, not_true_eq_false, if_false]
  change (p.declareValue none name v >>= fun _ => pure ()) m = _
  rw [bind_apply, hdeclare]
  rfl

theorem frame_bound (m : Machine) (name : String) (v : Value) : (bound m name v).frame = m.frame := by
  unfold bound
  split <;> rfl

theorem lookup_bound {name : String} (hname : name ≠ Names.blank)
    (hscope : m.frame.scope < m.heap.scopes.size)
    (hplain : m.heap.isShared m.frame.scope name = false) (v : Value) :
    (bound m name v).heap.lookup (bound m name v).frame.scope name =
      some (Heap.copy v m.heap).1 := by
  have hg : m.heap.GrowsByBlocks (Heap.copy v m.heap).2 := Heap.grows_copyUpTo _ v m.heap
  have hlt : m.frame.scope < (Heap.copy v m.heap).2.scopes.size := by
    rw [hg.rest]
    exact hscope
  have hplain' : (Heap.copy v m.heap).2.isShared m.frame.scope name = false := by
    rw [hg.rest]
    exact hplain
  rw [frame_bound]
  unfold bound
  rw [if_neg hname]
  exact Heap.lookup_declare hlt hplain' _

-- A clause begins in a scope of its own, in which its binding has a copy of the subject.
def entered (m : Machine) (binding : Option String) (v : Value) : Machine :=
  binding.elim (deeper m) fun name => bound (deeper m) name v

-- These operations do their work one after the other.
inductive WorksThrough (p : Program) : List StepOp → Machine → Machine → Prop
  | nil (m : Machine) : WorksThrough p [] m m
  | cons {op : StepOp} {ops : List StepOp} {m m₁ m' : Machine} (hwork : p.work op m = .ok () m₁)
      (hrest : WorksThrough p ops m₁ m') : WorksThrough p (op :: ops) m m'

theorem WorksThrough.inTurn {ops : List StepOp} (h : p.WorksThrough ops m m') (steps : Array Step)
    (i : StepId) (n : Nat) : p.inTurn steps i ops (n + ops.length) m = .ok ((), n) m' := by
  induction h generalizing i with
  | nil m => rfl
  | cons hwork _ ih =>
      unfold Program.inTurn
      rw [List.length_cons, ← Nat.add_assoc, bind_stretch, does_ok hwork]
      exact ih (i + 1)

-- The assertion of a clause succeeds where its test has, although there is one more scope by then.
theorem worksThrough_entered {binding : Option String} {types : List Ty}
    (hx : m.heap.lookup m.frame.scope x = some v)
    (hheld : ∀ ty, boundType types = some ty → p.types.holdsType m.heap v ty = .ok true) :
    p.WorksThrough (.pushScope :: bindingOps binding x types) m (entered m binding v) := by
  have hx' : (deeper m).heap.lookup (deeper m).frame.scope x = some v := Heap.lookup_newScope hx
  refine .cons (work_pushScope m) ?_
  cases binding with
  | none => exact .nil _
  | some name =>
      have hdeclare := WorksThrough.cons (work_declare (p := p) (deeper m) name v) (.nil _)
      refine .cons (work_load hx') ?_
      cases hbound : boundType types with
      | none => exact hdeclare
      | some ty =>
          have hheld' : p.types.holdsType (deeper m).heap v ty = .ok true :=
            (p.types.holdsType_scopes m.heap _ v ty).trans (hheld ty hbound)
          exact .cons (work_typeAssert hheld') hdeclare

variable {s : Site} {b b' : Builder} {values values' : List (Ty × Nat)}

-- Whoever comes to the tests of these types searches them, and then as it is done behind them.
def Searched (p : Program) (steps : Array Step) (x : String) (goal : Option Nat → Option StepId)
    (b b' : Builder) (values : List (Ty × Nat)) : Prop :=
  ∀ last, AllLead steps b'.pending last → ∃ k, AllLead steps b.pending k ∧
    ∀ rest, p.Follows steps last (p.searchTypes steps x goal rest b'.steps.size) →
      p.Follows steps k (p.searchTypes steps x goal (values ++ rest) b.steps.size)

theorem Searched.refl (b : Builder) : p.Searched steps x goal b b [] :=
  fun last hleads => ⟨last, hleads, fun _ h => h⟩

theorem Searched.trans {b₁ : Builder} (h : p.Searched steps x goal b b₁ values)
    (h' : p.Searched steps x goal b₁ b' values') :
    p.Searched steps x goal b b' (values ++ values') := by
  intro last hleads
  obtain ⟨k₁, hleads₁, hrest⟩ := h' last hleads
  obtain ⟨k, hleads, hfirst⟩ := h k₁ hleads₁
  refine ⟨k, hleads, fun rest hlast => ?_⟩
  rw [List.append_assoc]
  exact hfirst _ (hrest rest hlast)

theorem searched_typeTests {types : List Ty} {hits : List Slot} {clause : Nat} (hat : AtSite s b)
    (hitems : s.items = []) (h : typeTests x types b = .ok hits b')
    (hkept : StepsKept b'.steps steps) (hhits : AllLead steps hits (goal (some clause))) :
    p.Searched steps x goal b b' (types.map (·, clause)) := by
  induction types generalizing s b hits with
  | nil =>
      unfold typeTests at h
      cases h
      exact .refl _
  | cons ty rest ih =>
      obtain ⟨b₁, b₂, b₃, id, others, hload, htest, hbranch, e₃, hrest, rfl⟩ := typeTests_ok h
      obtain ⟨depth, items, held, heads, contexts⟩ := s
      obtain rfl : items = [] := hitems
      obtain ⟨e₁, c₁⟩ := hat.emits [] rfl rfl hload
      obtain ⟨e₂, c₂⟩ := c₁.site.emits [] rfl rfl htest
      have c₃ := c₂.site.performs (performs_branch rfl Span.none) hbranch
      have hat₄ : AtSite ⟨depth, [], b₃.pending.map (.exit depth) ++ held, heads, contexts⟩
          { b₃ with pending := [⟨id, .other⟩] } := by
        have htaken := c₃.site.performs performs_takePending (a := b₃.pending) rfl
        exact (htaken.site.performs (performs_setPending [] _ List.perm_middle) rfl).site
      have c₄ := hat₄.performs (performs_typeTests x rest rfl) hrest
      have k₃ := hkept.of_extends c₄.extend
      have k₂ := k₃.of_extends c₃.extend
      have k₁ := k₂.of_extends c₂.extend
      have hothers := ih hat₄ rfl hrest fun slot hslot => hhits slot (List.mem_append_right _ hslot)
      have htested : p.Searched steps x goal b { b₃ with pending := [⟨id, .other⟩] } [(ty, clause)] := by
        intro last hmiss
        obtain ⟨s, hs, hop⟩ := e₃.kept k₃ rfl
        obtain ⟨s', hs', hhit⟩ := hhits ⟨id, .next⟩
          (List.mem_append_left _ (e₃.pending ▸ List.mem_singleton_self _))
        obtain rfl := Option.some.inj (hs.symm.trans hs')
        obtain ⟨s', hs', hmissed⟩ := hmiss ⟨id, .other⟩ (List.mem_singleton_self _)
        obtain rfl := Option.some.inj (hs.symm.trans hs')
        have hnext : p.Follows steps s.next (pure (goal (some clause))) := by
          rw [show s.next = goal (some clause) from hhit]
          exact .done _
        have hsize : b₃.steps.size = b.steps.size + 3 := by
          rw [e₃.size_eq, e₂.size_eq, e₁.size_eq]
        refine ⟨some b.steps.size, (Begins.refl b).allLead e₁ k₁, fun more hmore => ?_⟩
        have hfork := Follows.tests hs (hop.trans (congrArg StepOp.branch hmissed)) hnext hmore
        rw [e₃.id_eq] at hfork
        have hchecked := Follows.emitted e₂ k₂ rfl (fun _ => rfl) rfl
          ((Begins.refl b₂).allLead e₃ k₃) hfork
        have hloaded := Follows.emitted e₁ k₁ rfl (fun _ => rfl) rfl
          ((Begins.refl b₁).allLead e₂ k₂) hchecked
        rw [e₂.size_eq, e₁.size_eq] at hloaded
        rw [List.singleton_append]
        unfold searchTypes
        rw [← hsize]
        exact hloaded
      exact htested.trans hothers

theorem searched_typeTestsAll {cs : List TypeClause} {entries : List (List Slot)} {n : Nat}
    (hat : AtSite s b) (hitems : s.items = [])
    (h : (cs.mapM fun c => typeTests x c.types) b = .ok entries b')
    (hkept : StepsKept b'.steps steps)
    (hhits : ∀ i, AllLead steps (entries[i]?.getD []) (goal (some (n + i)))) :
    p.Searched steps x goal b b' (TypeTable.listed cs n) := by
  induction cs generalizing s b entries n with
  | nil =>
      cases h
      exact .refl _
  | cons c cs ih =>
      obtain ⟨hits, rest, b₁, hfirst, hrest, rfl⟩ := typeTestsAll_ok h
      have c₁ := hat.performs (performs_typeTests x c.types hitems) hfirst
      have c₂ := c₁.site.performs (performs_typeTestsAll x cs hitems) hrest
      have hothers := ih (n := n + 1) c₁.site hitems hrest fun i => by
        rw [Nat.add_right_comm]
        exact hhits (i + 1)
      exact (searched_typeTests hat hitems hfirst (hkept.of_extends c₂.extend) (hhits 0)).trans hothers

-- A clause begins at a step of a function: its scope is opened and its binding bound, and then its body
-- is run.
def TypeBodyAt (p : Program) (steps : Array Step) (binding : Option String) (x : String)
    (c : TypeClause) (first : StepId) : Prop :=
  ∃ (s : Site) (b b' : Builder) (k : Option StepId), AtSite s b ∧ Ready s ∧
    (do compileStmts c.body; leaveScope Span.none) b = .ok () b' ∧ StepsKept b'.steps steps ∧
    b'.names.types.KeepsStructs p.types ∧ AllLead steps b.pending k ∧
    p.Follows steps (some first) (do
      p.inTurn steps first (.pushScope :: bindingOps binding x c.types)
      return k)

theorem works_bindingOps (p : Program) (binding : Option String) (x : String) (types : List Ty) :
    ∀ op ∈ StepOp.pushScope :: bindingOps binding x types, p.IsWorkStep op := by
  have hdeclare : ∀ name, p.IsWorkStep (.declare [name] none (.fixed 1)) := fun _ =>
    ⟨rfl, fun _ => rfl, rfl⟩
  refine List.forall_mem_cons.mpr ⟨⟨rfl, fun _ => rfl, rfl⟩, ?_⟩
  cases binding with
  | none => exact List.forall_mem_nil _
  | some name =>
      refine List.forall_mem_cons.mpr ⟨⟨rfl, fun _ => rfl, rfl⟩, ?_⟩
      cases boundType types with
      | none => exact List.forall_mem_singleton.mpr (hdeclare name)
      | some ty =>
          exact List.forall_mem_cons.mpr ⟨⟨rfl, fun _ => rfl, rfl⟩,
            List.forall_mem_singleton.mpr (hdeclare name)⟩

-- Where the paths to the clauses lead, with those that leave the switch before any body does.
theorem bodies_compileTypeBodies {cs : List TypeClause} {binding : Option String} {ty : Option Ty}
    {depth : Nat} {held : List Loose} {heads : List Head} {contexts : List JumpContext}
    {entries : List (List Slot)} {exits exits' : List Slot}
    (hs : Ready ⟨depth, [], held, heads, contexts⟩)
    (hat : AtSite ⟨depth, [], (entries.flatten ++ exits).map (.exit depth) ++ held, heads, contexts⟩ b)
    (h : compileTypeBodies (bindSubject binding x ty) cs entries exits b = .ok exits' b')
    (hlen : entries.length = cs.length) (hkept : StepsKept b'.steps steps)
    (htypes : b'.names.types.KeepsStructs p.types) :
    exits ⊆ exits' ∧ ∃ entry : Nat → Option StepId,
      (∀ i, AllLead steps (entries[i]?.getD []) (entry i)) ∧
      ∀ i c, cs[i]? = some c → ∃ j, entry i = some j ∧ p.TypeBodyAt steps binding x c j := by
  induction cs generalizing b entries exits with
  | nil =>
      unfold compileTypeBodies at h
      cases h
      obtain rfl : entries = [] := List.eq_nil_of_length_eq_zero hlen
      exact ⟨fun _ hx => hx, fun _ => none, fun i slot hslot => absurd hslot (by simp),
        fun i c hc => absurd hc (by simp)⟩
  | cons c cs ih =>
      obtain ⟨slots, entries, rfl⟩ := List.exists_cons_of_length_eq_add_one hlen
      obtain ⟨b₁, b₂, b₃, b₄, henter, hbind, hbody, hleave, hrest⟩ := typeBodies_ok h
      have hentries := entries_perm depth (slots :: entries) [] exits held
      rw [List.append_nil, List.append_nil] at hentries
      have c₀ := hat.performs (performs_setPending [] _ hentries) rfl
      have c₁ := c₀.site.performs (performs_enterScope _ _) henter
      have c₂ := c₁.site.performs (performs_bindSubject binding x ty c.types) hbind
      have hready := hs.deeper (Nat.le_succ depth)
        ((entries.flatten ++ exits).map (.exit depth) ++ held) heads
      have c₃ := c₂.site.performs (builds_all (builds_list c.body) _ hready) hbody
      have c₄ := c₃.site.performs (performs_leaveScope ⟨depth, [], _, heads, contexts⟩ _) hleave
      have c₅ := c₄.site.performs performs_takePending (a := b₄.pending) rfl
      have hat₅ : AtSite ⟨depth, [], (entries.flatten ++ (exits ++ b₄.pending)).map (.exit depth) ++ held,
          heads, contexts⟩ { b₄ with pending := [] } := by
        have hsite := c₅.site
        change AtSite ⟨depth, [], b₄.pending.map (.exit depth) ++
          ((entries.flatten ++ exits).map (.exit depth) ++ held), heads, contexts⟩ _ at hsite
        rw [← List.append_assoc, ← List.map_append] at hsite
        refine hsite.sheds [] _ (exits_perm (List.perm_iff_count.mpr fun x => ?_) held)
        simp only [List.count_append]
        omega
      obtain ⟨hexits, entry, hentries, hbodies⟩ := ih hat₅ hrest (Nat.succ.inj hlen)
      have c₆ := hat₅.performs (performs_compileTypeBodies
        (fun types s => performs_bindSubject binding x ty types)
        (builds_typeClauses cs) hs entries (exits ++ b₄.pending)) hrest
      have k₄ := hkept.of_extends c₆.extend
      have k₂ := (k₄.of_extends c₄.extend).of_extends c₃.extend
      have hlays := (enterScope_lays henter).append (bindSubject_lays hbind)
      have hworks := p.works_bindingOps binding x c.types
      obtain ⟨k, hleads⟩ := hlays.exists_leads (List.cons_ne_nil _ _) k₂ fun op hop =>
        (hworks op hop).plain
      obtain ⟨k₀, hfirst, hk₀, hfollows⟩ := follows_inTurn hlays k₂ hworks hleads (.done k)
      obtain rfl := hk₀ (List.cons_ne_nil _ _)
      have hbodyAt : p.TypeBodyAt steps binding x c b.steps.size :=
        ⟨_, b₂, b₄, k, c₂.site, hready, bind_eq_ok.mpr ⟨_, _, hbody, hleave⟩, k₄,
          c₆.types.trans htypes, hleads, hfollows⟩
      refine ⟨fun slot hslot => hexits (List.mem_append_left _ hslot),
        fun i => Nat.casesOn i (some b.steps.size) entry, ?_, ?_⟩
      · rintro (_ | i)
        · exact hfirst
        · exact hentries i
      · rintro (_ | i) c' hc
        · cases hc
          exact ⟨_, rfl, hbodyAt⟩
        · exact hbodies i c' hc

-- Where a switch goes on: at this clause, or behind all of them.
def clauseAt (entry : Nat → Option StepId) (out : StepId) (i : Option Nat) : Option StepId :=
  i.elim (some out) entry

-- The clause that was found, else the default clause.
def chosen (cs : List TypeClause) (found : Option Nat) : Option Nat :=
  found.or (cs.findIdx? (·.isDefault))

theorem searched_clauses {cs : List TypeClause} {binding : Option String} {ty : Option Ty}
    {label : Option String} {span : Span} {depth : Nat} {held : List Loose} {heads : List Head}
    {contexts : List JumpContext} (hs : Ready ⟨depth, [], held, heads, contexts⟩)
    (hat : AtSite ⟨depth + 1, [], held, heads, contexts⟩ b)
    (h : compileTypeClauses cs binding x ty label span b = .ok () b')
    (hkept : StepsKept b'.steps steps) (htypes : b'.names.types.KeepsStructs p.types) :
    StepsKept b.steps steps ∧ b.names.types.KeepsStructs p.types ∧
    ∃ (entry : Nat → Option StepId) (out : StepId) (k : Option StepId),
      (∀ i c, cs[i]? = some c → ∃ j, entry i = some j ∧ p.TypeBodyAt steps binding x c j) ∧
      (∃ s, steps[out]? = some s ∧ s.op = .popScope) ∧ AllLead steps b.pending k ∧
      p.Follows steps k (p.searchTypes steps x (fun found => clauseAt entry out (chosen cs found))
        (TypeTable.listed cs 0) b.steps.size) := by
  obtain ⟨entries, entries', exits, exits', slots, b₁, b₂, b₃, b₄, htests, hreached, hpush, hbodies,
    hpop, hleave⟩ := compileTypeClauses_ok h
  obtain ⟨b₅, he, hsteps, hnames⟩ := leaveScope_ok hleave
  have c₁ := hat.performs (performs_typeTestsAll x cs rfl) htests
  have c₂ := c₁.site.performs performs_takePending (a := b₁.pending) rfl
  have c₃ := c₂.site.performs (performs_pushContext .switch label b₁.depth b₁.depth) hpush
  obtain ⟨given, hgiven⟩ := addUnmatched_perm (cs.map (·.isDefault)) b₁.pending entries
  rw [hreached] at hgiven
  have hat₂ : AtSite ⟨depth + 1, [], (entries'.flatten ++ exits).map (.exit (depth + 1)) ++ held, heads,
      ⟨.switch, label, depth + 1, depth + 1, [], []⟩ :: contexts⟩ b₂ := by
    have hsite := c₃.site
    rw [← show depth + 1 = b₁.depth from c₁.site.fits.depth] at hsite
    exact hsite.sheds _ _ (unmatched_perm hgiven held)
  have hready := ready_switch hs label
  have c₄ := hat₂.performs (performs_compileTypeBodies
    (fun types s => performs_bindSubject binding x ty types) (builds_typeClauses cs) hready entries'
    exits) hbodies
  have c₅ := c₄.site.performs (performs_popContext rfl) hpop
  have k₅ : StepsKept b₅.steps steps := hsteps ▸ hkept
  have k₃ := (k₅.of_extends he.extend).of_extends c₅.extend
  have k₁ := (k₃.of_extends c₄.extend).of_extends c₃.extend
  have htypes₃ := c₅.types.trans (hnames ▸ htypes)
  have hlen := typeTestsAll_length htests
  obtain ⟨hexits, entry, hentries, hstand⟩ := bodies_compileTypeBodies (p := p) hready hat₂ hbodies
    ((Structured.addUnmatched_length hreached).trans hlen) k₃ htypes₃
  have hout : AllLead steps exits (some b₄.steps.size) := fun slot hslot =>
    k₅.leads slot _ (he.leads (.refl _) slot (List.mem_append_left _ (hexits hslot)))
  obtain ⟨hhits, hmiss⟩ := Structured.addUnmatched_leads
    (hlen.trans (List.length_map _).symm) hreached hentries hout
  rw [List.findIdx?_map] at hmiss
  have hsearch : p.Searched steps x (fun found => clauseAt entry b₄.steps.size (chosen cs found)) b b₁
      (TypeTable.listed cs 0) :=
    searched_typeTestsAll hat rfl htests k₁ fun i => by rw [Nat.zero_add]; exact hhits i
  obtain ⟨k, hpending, hfollows⟩ := hsearch _ hmiss
  have hsearched := hfollows [] (.done _)
  rw [List.append_nil] at hsearched
  exact ⟨k₁.of_extends c₁.extend, c₁.types.trans (c₃.types.trans (c₄.types.trans htypes₃)), entry, _, k,
    hstand, he.kept k₅ rfl, hpending, hsearched⟩

-- The subject is evaluated and bound to a variable, and then it is gone on from what is open.
theorem follows_compileSubject (hp : p.HasSteps steps) {subject : Expr} {span : Span}
    {r : String × Option Ty} (hat : AtSite s b) (h : compileSubject subject span b = .ok r b')
    (hkept : StepsKept b'.steps steps) (htypes : b'.names.types.KeepsStructs p.types) :
    r.1 ≠ Names.blank ∧ ∃ bind : StepId, b'.steps.size = bind + 1 ∧
      p.Evaluates steps (discard (compile subject (.value none))) () b.names [.one] b.steps.size bind ∧
      ∀ k y, AllLead steps b'.pending k → p.Follows steps k y →
        p.Follows steps (some b.steps.size) (do
          p.across steps b.steps.size bind
          p.does steps bind (.declare [r.1] none (.fixed 1))
          y) := by
  unfold compileSubject at h
  obtain ⟨n, _, hn, h⟩ := bind_eq_ok.mp h
  cases hn
  obtain ⟨_, b₁, hvalue, h⟩ := bind_eq_ok.mp h
  obtain ⟨x, _, htemp, h⟩ := bind_eq_ok.mp h
  cases htemp
  obtain ⟨_, b₂, hbind, h⟩ := bind_eq_ok.mp h
  obtain ⟨_, b₃, hdeclare, h⟩ := bind_eq_ok.mp h
  cases h
  have c₁ := hat.performs (performs_value (compiles subject) _) hvalue
  have c₂ := c₁.site.performs (performs_temp "subj") rfl
  obtain ⟨e₃, c₃⟩ := c₂.site.emits s.items rfl rfl hbind
  have c₄ := c₃.site.performs (performs_declare _ _) hdeclare
  cases hdeclare
  have k₂ := hkept.of_extends c₄.extend
  have hleads := (Begins.refl _).allLead e₃ k₂
  have hsubject := hp.evaluates_value hat hvalue ((k₂.of_extends c₃.extend).of_extends c₂.extend)
    hleads (c₂.types.trans (c₃.types.trans (c₄.types.trans htypes)))
  refine ⟨?_, b₁.steps.size, e₃.size_eq, hsubject, fun k y hnext hy =>
    .across hsubject.part hsubject.le (.emitted e₃ k₂ rfl (fun _ => rfl) rfl hnext hy)⟩
  intro hblank
  have hlen := congrArg String.length hblank
  rw [String.length_append] at hlen
  change 5 + _ = 1 at hlen
  omega

-- `switch subject.(type) { ... }` from the operands of the subject on: it is bound to a variable, and its
-- clause searched.
def typeSwitchOn (p : Program) (steps : Array Step) (x : String) (goal : Option Nat → Option StepId)
    (values : List (Ty × Nat)) (first bind : StepId) : Stretch (Option StepId) := do
  p.across steps first bind
  p.does steps bind (.declare [x] none (.fixed 1))
  p.searchTypes steps x goal values (bind + 1)

theorem subject_bound (hx : x ≠ Names.blank) {rest : List Value}
    (hoperands : m.frame.operands = v :: rest) (hscope : m.frame.scope < m.heap.scopes.size)
    (hplain : m.heap.isShared m.frame.scope x = false) (n : Nat) : ∃ m₁,
      p.does steps i (.declare [x] none (.fixed 1)) (n + 1) m = .ok ((), n) m₁ ∧
      m₁.frame = { m.frame with operands := rest } ∧
      m₁.heap.lookup m₁.frame.scope x = some (Heap.copy v m.heap).1 := by
  let m₀ : Machine := { m with frame := { m.frame with operands := rest } }
  have hm : m = holding m₀ v := by
    unfold holding
    rw [← hoperands]
  have hlookup : (bound m₀ x v).heap.lookup (bound m₀ x v).frame.scope x =
      some (Heap.copy v m₀.heap).1 := lookup_bound (m := m₀) hx hscope hplain v
  refine ⟨bound m₀ x v, ?_, frame_bound m₀ x v, hlookup⟩
  rw [hm]
  exact does_ok (work_declare m₀ x v) n

-- With the subject in its variable a search comes to the clause that is chosen, and that clause binds
-- the subject whatever its type.
structure Selects (p : Program) (steps : Array Step) (x : String) (binding : Option String)
    (cs : List TypeClause) (entry : Nat → Option StepId) (out first : StepId) (m : Machine) (v : Value)
    (found : Option Nat) : Prop where
  isFirst : p.types.FirstHeld m.heap v cs found
  leads : ∀ n, ∃ n', n ≤ n' ∧
    p.searchTypes steps x (fun found => clauseAt entry out (chosen cs found)) (TypeTable.listed cs 0)
      first (3 * (TypeTable.listed cs 0).length + n) m = .ok (clauseAt entry out (chosen cs found), n') m
  enters : ∀ i c j n, chosen cs found = some i → cs[i]? = some c →
    p.inTurn steps j (.pushScope :: bindingOps binding x c.types)
      (n + (bindingOps binding x c.types).length + 1) m = .ok ((), n) (entered m binding v)
  binds : ∀ name ∈ binding, name ≠ Names.blank →
    (entered m binding v).heap.lookup (entered m binding v).frame.scope name =
      some (Heap.copy v (deeper m).heap).1

theorem lookup_entered {binding : Option String} (v : Value) :
    ∀ name ∈ binding, name ≠ Names.blank →
      (entered m binding v).heap.lookup (entered m binding v).frame.scope name =
        some (Heap.copy v (deeper m).heap).1 := by
  rintro name ⟨⟩ hname
  have hscope : (deeper m).heap.scopes[(deeper m).frame.scope]? = some ⟨[], some m.frame.scope, false⟩ :=
    Array.getElem?_push_size
  refine lookup_bound hname (Array.getElem?_eq_some_iff.mp hscope).1 ?_ v
  unfold Heap.isShared Heap.binding?
  rw [hscope]
  rfl

-- A clause that is chosen with one type to assert was found by it: the default clause has none.
theorem held_of_chosen {cs : List TypeClause} {found : Option Nat} {i : Nat} {c : TypeClause} {ty : Ty}
    (hdefault : ∀ c ∈ cs, c.isDefault = true → c.types = [])
    (hfirst : p.types.FirstHeld m.heap v cs found) (hi : chosen cs found = some i)
    (hc : cs[i]? = some c) (hbound : boundType c.types = some ty) :
    p.types.holdsType m.heap v ty = .ok true := by
  have htypes : c.types = [ty] := by
    unfold boundType at hbound
    split at hbound
    · next ty' heq =>
        split at hbound
        · cases hbound
        · cases hbound
          exact heq
    · cases hbound
  cases found with
  | some j =>
      obtain rfl : j = i := Option.some.inj hi
      obtain ⟨⟨c', hc', ty', hmem, hheld⟩, -⟩ := hfirst
      obtain rfl := Option.some.inj (hc.symm.trans hc')
      rw [htypes] at hmem
      obtain rfl := List.mem_singleton.mp hmem
      exact hheld
  | none =>
      obtain ⟨hlt, hmarked, -⟩ := List.findIdx?_eq_some_iff_getElem.mp hi
      obtain rfl : cs[i] = c := Option.some.inj ((List.getElem?_eq_getElem hlt).symm.trans hc)
      rw [hdefault _ (List.getElem_mem hlt) hmarked] at htypes
      cases htypes

end Program

-- A type switch evaluates its subject once and binds it to a variable, and tests it for the types of the
-- clauses in turn. It goes on with the clause of the first type that the subject has, else with the
-- default clause, else behind. A clause binds the subject, and the assertion for that never fails.
theorem type_switch_takes_first_match {p : Program} (hhosts : p.hosts.Behaves) (hb : p.Bounded)
    (hp : p.Compiled) {steps : Array Step} (hfits : ∀ s ∈ steps, s.op.LiteralFits p.types) {s : Site}
    {b b' : Builder} (hat : AtSite s b) (hs : Ready s) (hkept : StepsKept b'.steps steps)
    (htypes : b'.names.types.KeepsStructs p.types) {span : Span} {init : Option Stmt}
    {binding : Option String} {subject : Expr} {cs : List TypeClause} {label : Option String}
    (hdefault : ∀ c ∈ cs, c.isDefault = true → c.types = [])
    (h : compileStmt (.typeSwitch span init binding subject cs) label b = .ok () b') :
    ∃ (b₁ : Builder) (x : String) (bind out : StepId) (entry : Nat → Option StepId),
      (do enterScope span; compileOptional init) b = .ok () b₁ ∧
      p.Evaluates steps (discard (compile subject (.value none))) () b₁.names [.one] b₁.steps.size
        bind ∧
      (∀ i c, cs[i]? = some c → ∃ j, entry i = some j ∧ p.TypeBodyAt steps binding x c j) ∧
      (∃ s, steps[out]? = some s ∧ s.op = .popScope) ∧
      p.Follows steps (some b₁.steps.size) (p.typeSwitchOn steps x
        (fun found => Program.clauseAt entry out (Program.chosen cs found)) (TypeTable.listed cs 0)
        b₁.steps.size bind) ∧
      (∀ m v rest n, m.frame.operands = v :: rest → m.frame.scope < m.heap.scopes.size →
        m.heap.isShared m.frame.scope x = false → ∃ m₁,
          p.does steps bind (.declare [x] none (.fixed 1)) (n + 1) m = .ok ((), n) m₁ ∧
          m₁.frame = { m.frame with operands := rest } ∧
          m₁.heap.lookup m₁.frame.scope x = some (Heap.copy v m.heap).1) ∧
      ∀ m v, m.heap.lookup m.frame.scope x = some v →
        (∀ found, p.types.firstHeld m.heap v (TypeTable.listed cs 0) = .ok found →
          p.Selects steps x binding cs entry out (bind + 1) m v found) ∧
        ∀ e n, p.types.firstHeld m.heap v (TypeTable.listed cs 0) = .error e → ∃ span,
          p.searchTypes steps x (fun found => Program.clauseAt entry out (Program.chosen cs found))
            (TypeTable.listed cs 0) (bind + 1) (3 * (TypeTable.listed cs 0).length + n) m =
              Program.annotated span (Exec.raise e) m := by
  have hruns : p.HasSteps steps := ⟨hb, Program.calls_of_verified hhosts hb hp.verified, hfits⟩
  obtain ⟨depth, items, held, heads, contexts⟩ := s
  obtain rfl : items = [] := hs.items
  rw [compileStmt_typeSwitch_clauses] at h
  obtain ⟨_, b₀, henter, h⟩ := bind_eq_ok.mp h
  obtain ⟨_, b₁, hinit, h⟩ := bind_eq_ok.mp h
  obtain ⟨⟨x, ty⟩, b₂, hsubject, hclauses⟩ := bind_eq_ok.mp h
  have c₀ := hat.performs (performs_enterScope _ _) henter
  have c₁ := c₀.site.performs (builds_optional (builds_option init) _
    (hs.deeper (Nat.le_succ depth) held heads)) hinit
  have c₂ := c₁.site.performs (performs_compileSubject (compiles subject) span) hsubject
  obtain ⟨k₂, htypes₂, entry, out, k, hbodies, hout, hpending, hsearch⟩ :=
    Program.searched_clauses (p := p) hs c₂.site hclauses hkept htypes
  obtain ⟨hx, bind, hsize, hevaluates, hfollows⟩ :=
    Program.follows_compileSubject hruns c₁.site hsubject k₂ htypes₂
  rw [hsize] at hsearch
  refine ⟨b₁, x, bind, out, entry, bind_eq_ok.mpr ⟨_, _, henter, hinit⟩, hevaluates, hbodies, hout,
    hfollows k _ hpending hsearch, fun m v rest n hoperands hscope hplain =>
      Program.subject_bound hx hoperands hscope hplain n, fun m v hv => ⟨fun found hfound => ?_,
      fun e n hfailed => Program.searchTypes_error hv hfailed n⟩⟩
  have hfirst := TypeTable.firstHeld_listed hfound
  exact ⟨hfirst, Program.searchTypes_ok hv hfound, fun i c j n hi hc =>
    (Program.worksThrough_entered hv fun ty hbound =>
      Program.held_of_chosen hdefault hfirst hi hc hbound).inTurn steps j n,
    Program.lookup_entered v⟩

-- `switch n := 1.(type) { case string: case int: default: }`.
def kindOfOne : Stmt :=
  .typeSwitch Span.none none (some "n") (.lit Note.empty (.int 1))
    [⟨[.string], false, []⟩, ⟨[.plainInt], false, []⟩, ⟨[], true, []⟩]

-- Whether it is built, with operands that all have a place.
def kindIsSearched : Bool :=
  match compileStmt kindOfOne none (.start ⟨.empty, .initial, [[]]⟩ #[] .empty) with
  | .ok _ b => b.steps.all (·.op.hasPlaces b.names.types)
  | .error _ _ => false

-- The variable of the subject holds an integer.
def withOneIn (x : String) : Machine :=
  { Machine.start .silent with
    heap := { Heap.empty with scopes := #[⟨[(x, .plain (.plainInt 1))], none, true⟩] } }

theorem lookup_withOneIn (x : String) :
    (withOneIn x).heap.lookup (withOneIn x).frame.scope x = some (.plainInt 1) := by
  have hbinding : (withOneIn x).heap.binding? 0 x = some (.plain (.plainInt 1)) := by
    change List.lookup x [(x, Binding.plain (.plainInt 1))] = _
    rw [List.lookup_cons, beq_self_eq_true]
  change (withOneIn x).heap.lookup 0 x = _
  unfold Heap.lookup Heap.owner? Heap.ownerUpTo Heap.binds Heap.local?
  rw [hbinding, Option.isSome_some, if_pos rfl, Option.bind_some, hbinding]
  rfl

theorem one_is_found_to_be_int : ∃ (p : Program) (b : Builder) (x : String) (first out : StepId)
    (entry : Nat → Option StepId),
    compileStmt kindOfOne none (.start ⟨.empty, .initial, [[]]⟩ #[] .empty) = .ok () b ∧
    p.Selects b.steps x (some "n") [⟨[.string], false, []⟩, ⟨[.plainInt], false, []⟩, ⟨[], true, []⟩]
      entry out first (withOneIn x) (.plainInt 1) (some 1) := by
  have hbuilt : kindIsSearched = true := by decide +kernel
  unfold kindIsSearched at hbuilt
  split at hbuilt
  · next b hb =>
      let types := b.names.types
      have hfits : ∀ s ∈ b.steps, s.op.LiteralFits types := fun s hs =>
        StepOp.literalFits_of_hasPlaces (Array.all_eq_true'.mp hbuilt s hs)
      have hready : Ready .start := ⟨rfl, List.forall_mem_nil _⟩
      have hdefault : ∀ c ∈ [(⟨[.string], false, []⟩ : TypeClause), ⟨[.plainInt], false, []⟩,
          ⟨[], true, []⟩], c.isDefault = true → c.types = [] := by
        simp
      obtain ⟨b₁, x, bind, out, entry, -, -, -, -, -, -, hselects⟩ :=
        type_switch_takes_first_match (Program.behaves_bare types) (Program.bounded_bare types)
          (Program.compiled_bare types) hfits (.start _ _ _) hready (.refl b.steps) (.refl _) hdefault
          hb
      exact ⟨.bare types, b, x, bind + 1, out, entry, hb,
        (hselects _ _ (lookup_withOneIn x)).1 (some 1) rfl⟩
  · cases hbuilt

end StepGraph

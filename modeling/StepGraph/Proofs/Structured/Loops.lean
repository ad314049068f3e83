import StepGraph.Proofs.Structured.Jumps

namespace StepGraph.Structured

variable {w : World} {exits : List Exit} {shapes : List Shape} {vars outer : Vars}
  {label : Option String} {kend kcont : Option StepId}

-- A test leads to one of two places.
def TestsTo (w : World) (shapes : List Shape) (vars : Vars) (k yes no : Option StepId)
    (x : Env → Eval Bool) : Prop :=
  ∀ env m, EnvHas vars env → At w.act shapes env [] m →
    w.Sim (x env) k m fun b k₁ m₁ => k₁ = (if b then yes else no) ∧ At w.act shapes env [] m₁

-- Steps that only change how the blocks of the environment lie.
def ShiftsBlocks (w : World) (vars : Vars) (shapes shapes' : List Shape) (k k' : Option StepId) :
    Prop :=
  ∀ env m, EnvHas vars env → At w.act shapes env [] m →
    w.Sim (pure ()) k m fun _ k₁ m₁ => k₁ = k' ∧ At w.act shapes' env [] m₁

-- What stands behind a loop whose own scope is still open: the values there may be stale.
def LandsAfter (w : World) (exits : List Exit) (shapes : List Shape) (k' : Option StepId)
    (env : Env) (k : Option StepId) (m : Machine) (signal : Signal) : Prop :=
  match signal with
  | .done => k = k' ∧ ∃ stale, At w.act (.scope :: shapes) (stale :: env.tail) [] m
  | signal => LandsOn w exits shapes k' env.tail k m signal

-- A jump out of the body of a loop or switch, where that one is not concerned.
theorem LandsOn.pass {e : Exit} {k k' k₁ : Option StepId} {env : Env} {m : Machine}
    {signal : Signal}
    (h : LandsOn w (e :: exits) (e.inner :: shapes) k' env k m signal) (hne : signal ≠ .done)
    (hbrk : ∀ l, signal = .brk l → e.breaks l = false)
    (hcont : ∀ l, signal = .cont l → e.continues l = false) (hin : ExitsInside exits shapes)
    (hlen : env.tail.length = shapes.length + 1) :
    LandsOn w exits shapes k₁ env.tail k m signal := by
  have hpass : LandsOn w exits (e.inner :: shapes) k' env k m signal := by
    cases signal with
    | done => exact absurd rfl hne
    | brk l =>
        obtain ⟨x, stale, hx, hrest⟩ := h
        rw [List.find?_cons_of_neg (by simp [hbrk l rfl])] at hx
        exact ⟨x, stale, hx, hrest⟩
    | cont l =>
        obtain ⟨x, hx, hrest⟩ := h
        rw [List.find?_cons_of_neg (by simp [hcont l rfl])] at hx
        exact ⟨x, hx, hrest⟩
    | ret v => exact h
  exact hpass.around hne hin hlen

theorem behind_self {env : Env} (h : env.length = shapes.length + 1) : behind shapes env = env := by
  simp [behind, h]

-- What the end of the body means for the loop.
theorem LandsOn.atRound {k : Option StepId} {env : Env} {m : Machine} {signal : Signal}
    (h : LandsOn w (⟨.loop, label, shapes, kend, kcont⟩ :: exits) (.round :: shapes) kcont env k m
      signal) (k₁ : Option StepId) (hin : ExitsInside exits shapes)
    (hlen : env.tail.length = shapes.length + 1) :
    match signal.round label with
    | .again => k = kcont ∧ At w.act (.round :: shapes) env [] m
    | .ended => k = kend ∧ ∃ stale, At w.act (.scope :: shapes) (stale :: env.tail) [] m
    | .out signal => signal ≠ .done ∧ LandsOn w exits shapes k₁ env.tail k m signal := by
  have hlen' : env.length = (Shape.round :: shapes).length + 1 := by
    rw [List.length_tail] at hlen
    simp only [List.length_cons]
    omega
  cases signal with
  | done => exact h
  | ret v => exact ⟨by simp, h⟩
  | brk l =>
      have hbreaks : Exit.breaks l ⟨.loop, label, shapes, kend, kcont⟩ = concerns label l := rfl
      unfold Signal.round
      simp only
      by_cases hl : concerns label l = true
      · rw [if_pos hl]
        obtain ⟨x, stale, hx, hk, hat⟩ := h
        rw [List.find?_cons_of_pos (hbreaks.trans hl)] at hx
        obtain rfl := Option.some.inj hx
        have htail : behind shapes env = env.tail := by
          rw [← behind_tail (by omega), behind_self hlen]
        exact ⟨hk, stale, htail ▸ hat⟩
      · rw [if_neg hl]
        refine ⟨by simp, h.pass (by simp) (fun l' hl' => ?_) (fun _ h => nomatch h) hin hlen⟩
        obtain rfl : l = l' := Signal.brk.inj hl'
        rw [hbreaks]
        simpa using hl
  | cont l =>
      have hcontinues : Exit.continues l ⟨.loop, label, shapes, kend, kcont⟩ = concerns label l := by
        cases l <;> rfl
      unfold Signal.round
      simp only
      by_cases hl : concerns label l = true
      · rw [if_pos hl]
        obtain ⟨x, hx, hkind, hk, hat⟩ := h
        rw [List.find?_cons_of_pos (hcontinues.trans hl)] at hx
        obtain rfl := Option.some.inj hx
        exact ⟨hk, by rwa [behind_self hlen'] at hat⟩
      · rw [if_neg hl]
        refine ⟨by simp, h.pass (by simp) (fun _ h => nomatch h) (fun l' hl' => ?_) hin hlen⟩
        obtain rfl : l = l' := Signal.cont.inj hl'
        rw [hcontinues]
        simpa using hl

-- Each round of the loop is simulated, by induction on the number of rounds. A step at the head of
-- the loop is what a run of a loop with too few rounds is stopped by.
theorem sim_rounds {head : StepId} {ktest kround kbody kpost : Option StepId} {j : StepId}
    {test : Env → Eval Bool} {body : Env → Eval (Env × Signal)} {post : Env → Eval Env}
    (hhead : w.Op head .nop ktest)
    (htest : TestsTo w (.scope :: shapes) outer ktest kround kend test)
    (hround : ShiftsBlocks w outer (.scope :: shapes) (.round :: shapes) kround kbody)
    (hbody : RunsStmt w (⟨.loop, label, shapes, kend, kcont⟩ :: exits) (.round :: shapes) outer
      (KeepsTypes outer) kbody kcont body)
    (hcarry : ShiftsBlocks w outer (.round :: shapes) (.scope :: shapes) kcont kpost)
    (hpost : ∀ env m, EnvHas outer env → At w.act (.scope :: shapes) env [] m →
      w.Sim (post env) kpost m fun env k₁ m₁ =>
        k₁ = some j ∧ EnvHas outer env ∧ At w.act (.scope :: shapes) env [] m₁)
    (hjump : w.Op j (.jump (depth (.scope :: shapes))) (some head))
    (hin : ExitsInside exits shapes) (n : Nat) (hn : n ≤ w.rounds) (env : Env) (m : Machine)
    (he : EnvHas outer env) (hat : At w.act (.scope :: shapes) env [] m) :
    Sim w.program w.steps n (rounds label test body post n env) (some head) m
      fun r k₁ m₁ => EnvHas outer r.1 ∧ LandsAfter w exits shapes kend r.1 k₁ m₁ r.2 := by
  induction n generalizing env m with
  | zero =>
      intro n hn
      obtain rfl : n = 0 := by omega
      exact ⟨m, Program.run_zero _ _ _ _⟩
  | succ n ih =>
      obtain ⟨m₁, hnop, hprinter, hat₁⟩ := hat.nop (p := w.program)
      refine Sim.after (.next hhead hnop) hprinter ?_
      have hle : n ≤ w.rounds := Nat.le_of_succ_le hn
      refine ((htest env m₁ he hat₁).mono hle).bind fun b k₂ m₂ hgood => ?_
      obtain ⟨rfl, hat₂⟩ := hgood
      cases b with
      | false =>
          obtain ⟨b, rest, rfl⟩ : ∃ b rest, env = b :: rest := by
            cases env with
            | nil => nomatch hat₂.layout.length_eq
            | cons b rest => exact ⟨b, rest, rfl⟩
          exact .pure ⟨he, rfl, b, hat₂⟩
      | true =>
          have hagain : ∀ env m, EnvHas outer env → At w.act (.round :: shapes) env [] m →
              Sim w.program w.steps n (do
                let env ← post env
                rounds label test body post n env) kcont m fun r k₁ m₁ =>
                  EnvHas outer r.1 ∧ LandsAfter w exits shapes kend r.1 k₁ m₁ r.2 := by
            intro env m he hat
            refine .shift ((hcarry env m he hat).mono hle) fun k₁ m₁ hgood => ?_
            obtain ⟨rfl, hat₁⟩ := hgood
            refine ((hpost env m₁ he hat₁).mono hle).bind fun env₁ k₁ m₂ hgood => ?_
            obtain ⟨rfl, he₁, hat₂⟩ := hgood
            refine .performs hjump (At.jump (show At w.act ([] ++ .scope :: shapes) _ _ _ from hat₂)
              rfl) fun m₃ hat₃ => ?_
            exact ih hle env₁ m₃ he₁ hat₃
          refine .shift ((hround env m₂ he hat₂).mono hle) fun k₃ m₃ hgood => ?_
          obtain ⟨rfl, hat₃⟩ := hgood
          refine ((hbody env m₃ he hat₃).mono hle).bind fun r k₄ m₄ hgood => ?_
          obtain ⟨env₁, signal⟩ := r
          obtain ⟨he₁, hlands⟩ := hgood
          have hlen : env₁.tail.length = shapes.length + 1 := by
            rw [List.length_tail, ← List.Forall₂.length_eq he₁, List.Forall₂.length_eq he,
              hat.layout.length_eq]
            rfl
          have hround := hlands.atRound kend hin hlen
          change Sim _ _ n (match signal.round label with
            | .again => do
                let env ← post env₁
                rounds label test body post n env
            | .ended => pure (env₁, .done)
            | .out signal => pure (env₁, signal)) k₄ m₄ _
          cases hsignal : signal.round label with
          | again =>
              simp only [hsignal] at hround ⊢
              obtain ⟨rfl, hat₄⟩ := hround
              exact hagain env₁ m₄ he₁ hat₄
          | ended =>
              simp only [hsignal] at hround ⊢
              exact .pure ⟨he₁, hround⟩
          | out signal' =>
              simp only [hsignal] at hround ⊢
              obtain ⟨hne, hout⟩ := hround
              refine .pure ⟨he₁, ?_⟩
              cases signal' with
              | done => exact absurd rfl hne
              | _ => exact hout

-- A loop or switch behind the statement in front of it, inside its scope.
theorem sim_init {init x : Env → Eval (Env × Signal)} {inner : Vars} {k₁ k₂ : Option StepId}
    (hinit : RunsStmt w exits (.scope :: shapes) vars (Finishes outer) k₁ k₂ init)
    (hx : ∀ env m, EnvHas outer env → At w.act (.scope :: shapes) env [] m →
      w.Sim (x env) k₂ m fun r k m =>
        EnvHas inner r.1 ∧ LandsAfter w exits shapes kend r.1 k m r.2)
    (env : Env) (m : Machine) (he : EnvHas vars env) (hat : At w.act (.scope :: shapes) env [] m) :
    w.Sim (do
        let (env, _) ← init env
        x env) k₁ m fun r k m =>
      EnvHas inner r.1 ∧ LandsAfter w exits shapes kend r.1 k m r.2 := by
  refine (hinit env m he hat).bind fun r k₃ m₁ hgood => ?_
  obtain ⟨env₁, signal⟩ := r
  obtain ⟨⟨hdone, he₁⟩, hlands⟩ := hgood
  obtain rfl : signal = .done := hdone
  obtain ⟨rfl, hat₁⟩ := hlands
  exact hx env₁ m₁ he₁ hat₁

-- A loop or a switch stands in a scope of its own.
theorem runs_within {x : Env → Eval (Env × Signal)} {id idp : StepId} {k₁ k' : Option StepId}
    (hpush : w.Op id .pushScope k₁)
    (hx : ∀ env m, EnvHas ([] :: vars) env → At w.act (.scope :: shapes) env [] m →
      w.Sim (x env) k₁ m fun r k m =>
        EnvHas outer r.1 ∧ LandsAfter w exits shapes (some idp) r.1 k m r.2)
    (hpop : w.Op idp .popScope k') (htail : outer.tail = vars) :
    RunsStmt w exits shapes vars (KeepsTypes vars) (some id) k' (inBlock x) := by
  intro env m he hat
  refine .performs hpush hat.pushScope fun m₁ hat₁ => ?_
  refine (hx _ m₁ he.push hat₁).bind fun r k₂ m₂ hgood => ?_
  obtain ⟨env₁, signal⟩ := r
  obtain ⟨he₁, hlands⟩ := hgood
  have htyped : EnvHas vars env₁.tail := htail ▸ he₁.tail
  cases signal with
  | done =>
      obtain ⟨rfl, stale, hat₂⟩ := hlands
      exact .performs hpop hat₂.popScope fun m₃ hat₃ => .pure ⟨htyped, rfl, hat₃⟩
  | _ => exact .pure ⟨htyped, hlands⟩

theorem tests_none {k no : Option StepId} : TestsTo w shapes vars k k no fun _ => pure true :=
  fun _ _ _ hat => .pure ⟨rfl, hat⟩

theorem tests_some {z : Env → Eval Value} {k yes no : Option StepId} {id : StepId}
    (hz : Yields w shapes vars .bool k (some id) z) (hstep : w.Op id (.branch no) yes) :
    TestsTo w shapes vars k yes no (fun env => do test (← z env)) := by
  intro env m he hat
  refine (hz env [] m he hat).bind fun v k₂ m₁ hgood => ?_
  obtain ⟨rfl, hv, hat₁⟩ := hgood
  cases hv with
  | bool b =>
      have hbranch := hat₁.branch (p := w.program) no
      change w.Sim (pure b) (some id) m₁ _
      cases b with
      | true => exact .performs hstep hbranch fun m₂ hat₂ => .pure ⟨rfl, hat₂⟩
      | false => exact .jumps hstep hbranch fun m₂ hat₂ => .pure ⟨rfl, hat₂⟩

-- A round without variables of its own.

theorem shifts_push {vb : List (String × Base)} {id : StepId} {k : Option StepId}
    (hnone : ∀ x, vb.lookup x = none) (hpush : w.Op id .pushScope k) :
    ShiftsBlocks w (vb :: vars) (.scope :: shapes) (.round :: shapes) (some id) k := by
  intro env m he hat
  refine .performs hpush hat.pushScope fun m₁ hat₁ => .pure ⟨rfl, ?_⟩
  cases he with
  | cons hb he => exact hat₁.toRound fun x => (hb.lookup_none (hnone x)).symm

theorem shifts_pop {vb : List (String × Base)} {id : StepId} {k : Option StepId}
    (hnone : ∀ x, vb.lookup x = none) (hpop : w.Op id .popScope k) :
    ShiftsBlocks w (vb :: vars) (.round :: shapes) (.scope :: shapes) (some id) k := by
  intro env m he hat
  cases he with
  | cons hb he =>
      have hstill := hat.still fun x => hb.lookup_none (hnone x)
      exact .performs hpop hstill.popScope fun m₁ hat₁ => .pure ⟨rfl, hat₁⟩

-- A round with a copy of the variable of the loop.

theorem shifts_refresh {vb : List (String × Base)} {x : String} {t : Base} {id id₁ id₂ : StepId}
    {k : Option StepId} (hx : vb.lookup x = some t) (honly : ∀ y, y ≠ x → vb.lookup y = none)
    (hblank : x ≠ Names.blank) (hpush : w.Op id .pushScope (some id₁))
    (hload : w.Op id₁ (.load x) (some id₂)) (hdeclare : w.Op id₂ (.declare [x] none (.fixed 1)) k) :
    ShiftsBlocks w (vb :: vars) (.scope :: shapes) (.round :: shapes) (some id) k := by
  intro env m he hat
  cases he with
  | @cons _ b _ env hb he =>
      obtain ⟨v, hv, hhas⟩ := hb.lookup_some hx
      refine .performs hpush hat.pushScope fun m₁ hat₁ => ?_
      have hvalue : Env.value? ([] :: b :: env) x = some v := by
        rw [Layout.value?_cons_none rfl, Layout.value?_cons_some hv]
      refine .performs hload (hat₁.load (hat₁.lookup_eq hvalue)) fun m₂ hat₂ => ?_
      refine .performs hdeclare (hat₂.declare (.inr ⟨_, rfl⟩) x hhas (.inl rfl)) fun m₃ hat₃ => ?_
      refine .pure ⟨rfl, ?_⟩
      unfold Env.declare at hat₃
      rw [if_neg hblank] at hat₃
      refine hat₃.toRound fun y => ?_
      rw [Lists.lookup_cons_eq]
      split
      · next h => rw [h, hv]
      · next h => exact (hb.lookup_none (honly y h)).symm

theorem shifts_carry {vb : List (String × Base)} {x : String} {t : Base} {id id₁ : StepId}
    {k : Option StepId} (hx : vb.lookup x = some t) (honly : ∀ y, y ≠ x → vb.lookup y = none)
    (hcarry : w.Op id (.carryOut [x]) (some id₁)) (hpop : w.Op id₁ .popScope k) :
    ShiftsBlocks w (vb :: vars) (.round :: shapes) (.scope :: shapes) (some id) k := by
  intro env m he hat
  cases he with
  | cons hb he =>
      obtain ⟨v, hv, hhas⟩ := hb.lookup_some hx
      refine .performs hcarry (hat.carryOut hv fun y hy => hb.lookup_none (honly y hy))
        fun m₁ hat₁ => ?_
      exact .performs hpop hat₁.popScope fun m₂ hat₂ => .pure ⟨rfl, hat₂⟩

-- The choice of a clause.

def ChoosesClause (w : World) (shapes : List Shape) (vars : Vars) (k : Option StepId)
    (entry : Nat → Option StepId) (miss : Option StepId) (x : Env → Eval (Option Nat)) : Prop :=
  ∀ env m, EnvHas vars env → At w.act shapes env [] m →
    w.Sim (x env) k m fun r k₁ m₁ => k₁ = r.elim miss entry ∧ At w.act shapes env [] m₁

theorem tests_anyHolds_nil {calls : Calls} {no yes : Option StepId} :
    TestsTo w shapes vars no yes no fun env => anyHolds calls env [] :=
  fun _ _ _ hat => .pure ⟨rfl, hat⟩

theorem tests_anyHolds_cons {calls : Calls} {e : Expr} {es : List Expr} {id : StepId}
    {k yes no miss : Option StepId}
    (he : Yields w shapes vars .bool k (some id) fun env => expr calls env e)
    (hstep : w.Op id (.branch miss) yes)
    (hes : TestsTo w shapes vars miss yes no fun env => anyHolds calls env es) :
    TestsTo w shapes vars k yes no fun env => anyHolds calls env (e :: es) := by
  intro env m henv hat
  have hassoc : anyHolds calls env (e :: es) =
      ((do test (← expr calls env e)) >>= fun b =>
        if b then pure true else anyHolds calls env es) := by
    simp [anyHolds]
  simp only [hassoc]
  refine (tests_some he hstep env m henv hat).bind fun b k₂ m₁ hgood => ?_
  obtain ⟨rfl, hat₁⟩ := hgood
  cases b with
  | true => exact .pure ⟨rfl, hat₁⟩
  | false => exact hes env m₁ henv hat₁

theorem chooses_nil {calls : Calls} {miss : Option StepId} {entry : Nat → Option StepId} :
    ChoosesClause w shapes vars miss entry miss fun env => firstClause calls env [] :=
  fun _ _ _ hat => .pure ⟨rfl, hat⟩

theorem chooses_cons {calls : Calls} {c : Clause} {rest : List Clause} {k kmiss miss : Option StepId}
    {entry : Nat → Option StepId}
    (hc : TestsTo w shapes vars k (entry 0) kmiss fun env => anyHolds calls env c.values)
    (hrest : ChoosesClause w shapes vars kmiss (fun i => entry (i + 1)) miss
      fun env => firstClause calls env rest) :
    ChoosesClause w shapes vars k entry miss fun env => firstClause calls env (c :: rest) := by
  intro env m henv hat
  obtain ⟨values, isDefault, body⟩ := c
  refine (hc env m henv hat).bind fun b k₂ m₁ hgood => ?_
  obtain ⟨rfl, hat₁⟩ := hgood
  cases b with
  | true => exact .pure ⟨rfl, hat₁⟩
  | false =>
      refine (hrest env m₁ henv hat₁).bind fun r k₃ m₂ hgood => ?_
      obtain ⟨rfl, hat₂⟩ := hgood
      exact .pure ⟨by cases r <;> rfl, hat₂⟩

-- What the end of a body means for its switch.
theorem LandsOn.atSwitch {k : Option StepId} {env : Env} {m : Machine} {signal : Signal}
    (h : LandsOn w (⟨.switch, label, shapes, kend, kcont⟩ :: exits) (.scope :: shapes) kend env k m
      signal) (hin : ExitsInside exits shapes) (hlen : env.tail.length = shapes.length + 1) :
    LandsAfter w exits shapes kend env k m (signal.atSwitch label) := by
  cases signal with
  | done =>
      obtain ⟨rfl, hat⟩ := h
      cases env with
      | nil => simp at hlen
      | cons b env => exact ⟨rfl, b, hat⟩
  | ret v => exact h
  | brk l =>
      have hbreaks : Exit.breaks l ⟨.switch, label, shapes, kend, kcont⟩ = concerns label l := rfl
      unfold Signal.atSwitch
      simp only
      by_cases hl : concerns label l = true
      · rw [if_pos hl]
        obtain ⟨x, stale, hx, hk, hat⟩ := h
        rw [List.find?_cons_of_pos (hbreaks.trans hl)] at hx
        obtain rfl := Option.some.inj hx
        have htail : behind shapes env = env.tail := by
          rw [← behind_tail (by omega), behind_self hlen]
        exact ⟨hk, stale, htail ▸ hat⟩
      · rw [if_neg hl]
        change LandsOn w exits shapes kend env.tail k m (.brk l)
        refine h.pass (e := ⟨.switch, label, shapes, kend, kcont⟩) (by simp) (fun l' hl' => ?_)
          (fun _ h => nomatch h) hin hlen
        obtain rfl : l = l' := Signal.brk.inj hl'
        rw [hbreaks]
        simpa using hl
  | cont l =>
      change LandsOn w exits shapes kend env.tail k m (.cont l)
      refine h.pass (e := ⟨.switch, label, shapes, kend, kcont⟩) (by simp) (fun _ h => nomatch h)
        (fun l' hl' => ?_) hin hlen
      obtain rfl : l = l' := Signal.cont.inj hl'
      by_contra hcontinues
      obtain ⟨x, hx, hkind, -⟩ := h
      rw [List.find?_cons_of_pos (by simpa using hcontinues)] at hx
      obtain rfl := Option.some.inj hx
      cases hkind

-- The choice of a clause and its body, inside the scope of the switch.
theorem sim_switch {choose : Env → Eval (Option Nat)} {body : Nat → Env → Eval (Env × Signal)}
    {default : Option Nat} {k₁ miss : Option StepId} {entry : Nat → Option StepId}
    (hchoose : ChoosesClause w (.scope :: shapes) outer k₁ entry miss choose)
    (hmiss : miss = default.elim kend entry)
    (hbody : ∀ i, RunsStmt w (⟨.switch, label, shapes, kend, kcont⟩ :: exits)
      (.scope :: shapes) outer
      (KeepsTypes outer) (entry i) kend (body i))
    (hin : ExitsInside exits shapes) (env : Env) (m : Machine) (he : EnvHas outer env)
    (hat : At w.act (.scope :: shapes) env [] m) :
    w.Sim (do
        match (← choose env).or default with
        | some i => do
            let (env, signal) ← body i env
            return (env, signal.atSwitch label)
        | none => return (env, .done)) k₁ m fun r k m =>
      EnvHas outer r.1 ∧ LandsAfter w exits shapes kend r.1 k m r.2 := by
  refine (hchoose env m he hat).bind fun r k₂ m₁ hgood => ?_
  obtain ⟨rfl, hat₁⟩ := hgood
  have hentry : r.elim miss entry = (r.or default).elim kend entry := by
    cases r with
    | none => exact hmiss
    | some i => rfl
  rw [hentry]
  cases r.or default with
  | none =>
      obtain ⟨b, rest, rfl⟩ : ∃ b rest, env = b :: rest := by
        cases env with
        | nil => nomatch hat₁.layout.length_eq
        | cons b rest => exact ⟨b, rest, rfl⟩
      exact .pure ⟨he, rfl, b, hat₁⟩
  | some i =>
      refine (hbody i env m₁ he hat₁).bind fun r k₃ m₂ hgood => ?_
      obtain ⟨env₁, signal⟩ := r
      obtain ⟨he₁, hlands⟩ := hgood
      have hlen : env₁.tail.length = shapes.length + 1 := by
        rw [List.length_tail, ← List.Forall₂.length_eq he₁, List.Forall₂.length_eq he,
          hat₁.layout.length_eq]
        rfl
      exact .pure ⟨he₁, hlands.atSwitch hin hlen⟩

-- The bodies of clauses, of which one may lead into the next.

theorem runs_clauses_nil {calls : Calls} {n i : Nat} {k : Option StepId} :
    RunsStmt w exits shapes vars (KeepsTypes vars) k k fun env => clauses calls n [] i env :=
  fun _ _ he hat => .pure ⟨he, rfl, hat⟩

theorem runs_clauses_cons {calls : Calls} {n : Nat} {c : Clause} {rest : List Clause}
    {k k₁ k' : Option StepId}
    (hbody : RunsStmt w exits shapes vars (KeepsTypes vars) k k₁ (inBlock fun env => stmts calls n c.body env))
    (hnext : if fallsThrough c.body then
      RunsStmt w exits shapes vars (KeepsTypes vars) k₁ k' fun env => clauses calls n rest 0 env else k₁ = k') :
    RunsStmt w exits shapes vars (KeepsTypes vars) k k' fun env =>
      clauses calls n (c :: rest) 0 env := by
  intro env m he hat
  obtain ⟨values, isDefault, body⟩ := c
  refine (hbody env m he hat).bind fun r k₂ m₁ hgood => ?_
  obtain ⟨env₁, signal⟩ := r
  obtain ⟨he₁, hlands⟩ := hgood
  cases signal with
  | done =>
      obtain ⟨rfl, hat₁⟩ := hlands
      change w.Sim (if fallsThrough body then clauses calls n rest 0 env₁ else pure (env₁, .done)) _ _ _
      split at hnext
      · next h =>
          rw [if_pos h]
          exact hnext env₁ m₁ he₁ hat₁
      · next h =>
          rw [if_neg h]
          exact .pure ⟨he₁, hnext, hat₁⟩
  | _ => exact .pure ⟨he₁, hlands⟩

end StepGraph.Structured

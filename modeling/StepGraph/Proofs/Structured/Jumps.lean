import StepGraph.Proofs.Structured.World

open EStateM (bind_of_ok)

namespace StepGraph.Structured

-- A loop or switch around a statement: how the blocks around it lie, and where its jumps lead.
structure Exit where
  kind : JumpKind
  label : Option String
  shapes : List Shape
  brk : Option StepId
  cont : Option StepId

namespace Exit

-- How the block of the loop or switch lies where its body runs.
def inner (x : Exit) : Shape :=
  match x.kind with
  | .loop => .round
  | .switch => .scope

def breaks (l : Option String) (x : Exit) : Bool := concerns x.label l

def continues (l : Option String) (x : Exit) : Bool :=
  match l with
  | none => x.kind == .loop
  | some l => x.label == some l

end Exit

-- The loops and switches stand around blocks that lie like this.
def ExitsInside (exits : List Exit) (shapes : List Shape) : Prop :=
  ∀ x ∈ exits, ∃ pre, shapes = pre ++ x.inner :: x.shapes

theorem ExitsInside.cons {exits : List Exit} {shapes : List Shape} (hin : ExitsInside exits shapes)
    (s : Shape) : ExitsInside exits (s :: shapes) := by
  intro x hx
  obtain ⟨pre, rfl⟩ := hin x hx
  exact ⟨s :: pre, rfl⟩

-- The blocks of the environment that lie like this, without those inside.
def behind (shapes : List Shape) (env : Env) : Env := env.drop (env.length - (shapes.length + 1))

theorem behind_tail {shapes : List Shape} {env : Env} (h : shapes.length < env.tail.length) :
    behind shapes env.tail = behind shapes env := by
  cases env with
  | nil => rfl
  | cons b rest =>
      have hlen : rest.length + 1 - (shapes.length + 1) = rest.length - (shapes.length + 1) + 1 := by
        simp only [List.tail_cons] at h
        omega
      simp [behind, hlen]

theorem behind_append {pre shapes : List Shape} {env : Env}
    (h : env.length = (pre ++ shapes).length + 1) : behind shapes env = env.drop pre.length := by
  unfold behind
  congr 1
  simp only [List.length_append] at h
  omega

-- The function has returned this value, if any.
structure Returned (w : World) (v : Option Value) (m : Machine) : Prop where
  has : Option.Rel Base.Has w.result v
  results : m.frame.results = v.map fun v => [v]
  calls : m.calls = w.act.calls
  later : Later w.act.base w.act.start m.heap

-- Where the run is when a statement has ended. A jump has left the blocks inside the loop or switch
-- that it concerns, and of a loop also the variables of the round.
def LandsOn (w : World) (exits : List Exit) (shapes : List Shape) (k' : Option StepId)
    (env : Env) (k : Option StepId) (m : Machine) : Signal → Prop
  | .done => k = k' ∧ At w.act shapes env [] m
  | .brk l => ∃ x stale, exits.find? (·.breaks l) = some x ∧ k = x.brk ∧
      At w.act (.scope :: x.shapes) (stale :: behind x.shapes env) [] m
  | .cont l => ∃ x, exits.find? (·.continues l) = some x ∧ x.kind = .loop ∧ k = x.cont ∧
      At w.act (.round :: x.shapes) (behind (.round :: x.shapes) env) [] m
  | .ret v => k = none ∧ Returned w v m

-- What an evaluation leaves behind: it comes to the end, it keeps the types of the variables
-- however it ends, or it keeps those outside the innermost block and comes to the others at the end.

def Finishes (vars : Vars) (r : Env × Signal) : Prop := r.2 = .done ∧ EnvHas vars r.1

def KeepsTypes (vars : Vars) (r : Env × Signal) : Prop := EnvHas vars r.1

def LeavesBlock (vars : Vars) (r : Env × Signal) : Prop :=
  EnvHas vars.tail r.1.tail ∧ (r.2 = .done → EnvHas vars r.1)

theorem Finishes.keeps {vars : Vars} {r : Env × Signal} (h : Finishes vars r) : KeepsTypes vars r :=
  h.2

theorem KeepsTypes.leaves {vars : Vars} {r : Env × Signal} (h : KeepsTypes vars r) :
    LeavesBlock vars r :=
  ⟨h.tail, fun _ => h⟩

-- The steps from `k` on do what the evaluation of a statement does.
def RunsStmt (w : World) (exits : List Exit) (shapes : List Shape) (vars : Vars)
    (typed : Env × Signal → Prop) (k k' : Option StepId) (x : Env → Eval (Env × Signal)) : Prop :=
  ∀ env m, EnvHas vars env → At w.act shapes env [] m →
    w.Sim (x env) k m fun r k₁ m₁ => typed r ∧ LandsOn w exits shapes k' r.1 k₁ m₁ r.2

variable {w : World} {exits : List Exit} {shapes : List Shape} {vars vars' outer inner : Vars}
  {env : Env} {ops : List Value} {m : Machine}
  {typed typed' : Env × Signal → Prop} {k k' k₁ k₂ : Option StepId} {id id₁ id₂ : StepId}
  {x y : Env → Eval (Env × Signal)}

theorem RunsStmt.imp (hx : RunsStmt w exits shapes vars typed k k' x) (himp : ∀ r, typed r →
      typed' r) :
    RunsStmt w exits shapes vars typed' k k' x :=
  fun env m he hat => (hx env m he hat).imp fun r _ _ hr => ⟨himp r hr.1, hr.2⟩

theorem runs_done : RunsStmt w exits shapes vars (Finishes vars) k k fun env => pure (env, .done) :=
  fun _ _ he hat => .pure ⟨⟨rfl, he⟩, rfl, hat⟩

-- A signal other than the end of the statement is about the blocks further out.
theorem LandsOn.around {s : Shape} {env : Env} {m : Machine} {signal : Signal}
    (h : LandsOn w exits (s :: shapes) k' env k m signal) (hne : signal ≠ .done)
    (hin : ExitsInside exits shapes) (hlen : env.tail.length = shapes.length + 1) :
    LandsOn w exits shapes k₁ env.tail k m signal := by
  have hfound : ∀ {p : Exit → Bool} {x : Exit}, exits.find? p = some x →
      x.shapes.length + 1 ≤ shapes.length := by
    intro p x hx
    obtain ⟨pre, hpre⟩ := hin x (List.mem_of_find?_eq_some hx)
    rw [hpre]
    simp
  cases signal with
  | done => exact absurd rfl hne
  | brk l =>
      obtain ⟨x, stale, hx, hk, hat⟩ := h
      have hle := hfound hx
      exact ⟨x, stale, hx, hk, by rwa [behind_tail (by omega)]⟩
  | cont l =>
      obtain ⟨x, hx, hkind, hk, hat⟩ := h
      have hle := hfound hx
      refine ⟨x, hx, hkind, hk, ?_⟩
      rwa [behind_tail (by simp only [List.length_cons]; omega)]
  | ret v => exact h

-- One statement after the other.
theorem RunsStmt.seq (hx : RunsStmt w exits shapes vars (KeepsTypes vars') k k₁ x)
    (hy : RunsStmt w exits shapes vars' (LeavesBlock inner) k₁ k' y)
    (htail : inner.tail = vars'.tail) :
    RunsStmt w exits shapes vars (LeavesBlock inner) k k' (fun env => do
      let (env, signal) ← x env
      match signal with
      | .done => y env
      | signal => return (env, signal)) := by
  intro env m he hat
  refine (hx env m he hat).bind fun r k₂ m₁ hgood => ?_
  obtain ⟨env₁, signal⟩ := r
  obtain ⟨he₁, hlands⟩ := hgood
  cases signal with
  | done =>
      obtain ⟨rfl, hat₁⟩ := hlands
      exact hy env₁ m₁ he₁ hat₁
  | _ =>
      refine .pure ⟨⟨?_, fun h => nomatch h⟩, hlands⟩
      rw [htail]
      exact EnvHas.tail he₁

theorem length_tail (he : EnvHas vars env) {r : Env} (hr : EnvHas vars r.tail)
    (hat : At w.act shapes env ops m) : r.tail.length = shapes.length + 1 := by
  rw [← hat.layout.length_eq, ← List.Forall₂.length_eq he, List.Forall₂.length_eq hr]

-- A block without a scope.
theorem RunsStmt.bare (hx : RunsStmt w exits (.bare :: shapes) ([] :: vars)
      (LeavesBlock inner) k k' x)
    (htail : inner.tail = vars) (hin : ExitsInside exits shapes) :
    RunsStmt w exits shapes vars (KeepsTypes vars) k k' (inBlock x) := by
  intro env m he hat
  refine (hx _ m he.push hat.enterBare).bind fun r k₁ m₁ hgood => ?_
  obtain ⟨env₁, signal⟩ := r
  obtain ⟨⟨he₁, -⟩, hlands⟩ := hgood
  rw [htail] at he₁
  refine .pure ⟨he₁, ?_⟩
  cases signal with
  | done => exact ⟨hlands.1, hlands.2.leaveBare⟩
  | _ => exact hlands.around (by simp) hin (length_tail he he₁ hat)

theorem RunsStmt.scope (hpush : w.Op id .pushScope k₁)
    (hx : RunsStmt w exits (.scope :: shapes) ([] :: vars) (LeavesBlock inner) k₁ (some id₁) x)
    (hpop : w.Op id₁ .popScope k') (htail : inner.tail = vars) (hin : ExitsInside exits shapes) :
    RunsStmt w exits shapes vars (KeepsTypes vars) (some id) k' (inBlock x) := by
  intro env m he hat
  refine .performs hpush hat.pushScope fun m₁ hat₁ => ?_
  refine (hx _ m₁ he.push hat₁).bind fun r k₂ m₂ hgood => ?_
  obtain ⟨env₁, signal⟩ := r
  obtain ⟨⟨he₁, -⟩, hlands⟩ := hgood
  rw [htail] at he₁
  cases signal with
  | done =>
      obtain ⟨rfl, hat₂⟩ := hlands
      exact .performs hpop hat₂.popScope fun m₃ hat₃ => .pure ⟨he₁, rfl, hat₃⟩
  | _ => exact .pure ⟨he₁, hlands.around (by simp) hin (length_tail he he₁ hat)⟩

-- The jumps.

theorem behind_inner {pre : List Shape} {s : Shape} (hat : At w.act (pre ++ s :: shapes) env ops m) :
    behind (s :: shapes) env = env.drop pre.length ∧
      behind shapes env = env.drop (pre.length + 1) := by
  have hlen := hat.layout.length_eq
  have hlen' : env.length = (pre ++ [s] ++ shapes).length + 1 := by
    rw [hlen]
    simp
  refine ⟨behind_append hlen, ?_⟩
  rw [behind_append hlen']
  simp

theorem runs_brk {l : Option String} {e : Exit} (he : exits.find? (·.breaks l) = some e)
    (hin : ExitsInside exits shapes) (hstep : w.Op id (.jump (depth (.scope :: e.shapes))) e.brk) :
    RunsStmt w exits shapes vars (KeepsTypes vars) (some id) k' fun env => pure (env, .brk l) := by
  intro env m henv hat
  obtain ⟨pre, hpre⟩ := hin e (List.mem_of_find?_eq_some he)
  rw [hpre] at hat
  obtain ⟨stale, hgets⟩ : ∃ stale,
    GetsResult m (w.program.step (.jump (depth (.scope :: e.shapes))) m)
      .next w.act (.scope :: e.shapes) (stale :: behind e.shapes env) [] := by
    rw [(behind_inner hat).2]
    cases hkind : e.kind with
    | loop =>
        have hinner : e.inner = .round := by simp [Exit.inner, hkind]
        rw [hinner] at hat
        exact hat.leaveRound rfl
    | switch =>
        have hinner : e.inner = .scope := by simp [Exit.inner, hkind]
        rw [hinner] at hat
        have hlt : pre.length < env.length := by
          rw [hat.layout.length_eq]
          simp only [List.length_append, List.length_cons]
          omega
        refine ⟨env[pre.length], ?_⟩
        rw [← List.drop_eq_getElem_cons hlt]
        exact hat.jump rfl
  exact .performs hstep hgets fun m' hat' => .pure ⟨henv, e, stale, he, rfl, hat'⟩

theorem runs_cont {l : Option String} {e : Exit} (he : exits.find? (·.continues l) = some e)
    (hloop : e.kind = .loop) (hin : ExitsInside exits shapes)
    (hstep : w.Op id (.jump (depth (.round :: e.shapes))) e.cont) :
    RunsStmt w exits shapes vars (KeepsTypes vars) (some id) k' fun env => pure (env, .cont l) := by
  intro env m henv hat
  obtain ⟨pre, hpre⟩ := hin e (List.mem_of_find?_eq_some he)
  have hinner : e.inner = .round := by simp [Exit.inner, hloop]
  rw [hpre, hinner] at hat
  refine .performs hstep (hat.jump rfl) fun m' hat' => .pure ⟨henv, e, he, hloop, rfl, ?_⟩
  rwa [(behind_inner hat).1]

-- A return ends the run.

theorem runs_ret (hresult : w.result = none) (hstep : w.Op id (.ret (.fixed 0)) k₁) :
    RunsStmt w exits shapes vars (KeepsTypes vars) (some id) k' fun env =>
      pure (env, .ret none) := by
  intro env m he hat
  refine (Sim.after (.ret hstep rfl) rfl (.pure ⟨he, rfl, ?_⟩)).mono (Nat.le_add_right _ _)
  exact ⟨by rw [hresult]; exact .none, hat.results, hat.calls, hat.later⟩

theorem runs_retValue {t : Base} {z : Env → Eval Value} (hresult : w.result = some t)
    (hz : Yields w shapes vars t k (some id) z) (hstep : w.Op id (.ret (.fixed 1)) k₁) :
    RunsStmt w exits shapes vars (KeepsTypes vars) k k' (fun env => do
      let v ← z env
      return (env, .ret (some v))) := by
  intro env m he hat
  refine (hz env [] m he hat).bind fun v k₂ m₁ hgood => ?_
  obtain ⟨rfl, hv, hat₁⟩ := hgood
  obtain ⟨m₂, htake, hprinter, hat₂⟩ := hat₁.take_one
  have hret : w.program.step (.ret (.fixed 1)) m₁ =
      .ok .ret { m₂ with frame := { m₂.frame with results := some [v] } } := by
    change (Exec.take (.fixed 1) >>= _) m₁ = _
    rw [bind_of_ok htake]
    rfl
  refine (Sim.after (.ret hstep hret) hprinter (.pure ⟨he, rfl, ?_⟩)).mono (Nat.le_add_right _ _)
  exact ⟨by rw [hresult]; exact .some hv, rfl, hat₂.calls, hat₂.later⟩

-- A branch on a condition. The statement in front of it may declare a variable.
theorem RunsStmt.cond {init yes no : Env → Eval (Env × Signal)} {z : Env → Eval Value}
    {kyes kno : Option StepId} (hinit : RunsStmt w exits shapes vars (Finishes outer) k k₁ init)
    (hz : Yields w shapes outer .bool k₁ (some id) z) (hstep : w.Op id (.branch kno) kyes)
    (hyes : RunsStmt w exits shapes outer (KeepsTypes outer) kyes k' yes)
    (hno : RunsStmt w exits shapes outer (KeepsTypes outer) kno k' no) :
    RunsStmt w exits shapes vars (KeepsTypes outer) k k' (fun env => do
      let (env, _) ← init env
      let v ← z env
      if ← test v then yes env else no env) := by
  intro env m he hat
  refine (hinit env m he hat).bind fun r k₂ m₁ hgood => ?_
  obtain ⟨env₁, signal⟩ := r
  obtain ⟨⟨hdone, he₁⟩, hlands⟩ := hgood
  obtain rfl : signal = .done := hdone
  obtain ⟨rfl, hat₁⟩ := hlands
  refine (hz env₁ [] m₁ he₁ hat₁).bind fun v k₃ m₂ hgood => ?_
  obtain ⟨rfl, hv, hat₂⟩ := hgood
  cases hv with
  | bool b =>
      have hbranch := hat₂.branch (p := w.program) kno
      change w.Sim (if b then yes env₁ else no env₁) (some id) m₂ _
      cases b with
      | true => exact .performs hstep hbranch fun m₃ hat₃ => hyes env₁ m₃ he₁ hat₃
      | false => exact .jumps hstep hbranch fun m₃ hat₃ => hno env₁ m₃ he₁ hat₃

end StepGraph.Structured

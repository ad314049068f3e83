import StepGraph.Proofs.Compile.Emit
import StepGraph.Proofs.Stack.Graph

namespace StepGraph

namespace TypeTable

-- A type that is known to be a struct stays one.
def KeepsStructs (t t' : TypeTable) : Prop :=
  ∀ ty fields, t.resolve ty = .struct fields → t'.resolve ty = .struct fields

variable {t t' t'' : TypeTable}

theorem KeepsStructs.refl (t : TypeTable) : KeepsStructs t t := fun _ _ h => h

theorem KeepsStructs.trans (h₁ : KeepsStructs t t') (h₂ : KeepsStructs t' t'') :
    KeepsStructs t t'' :=
  fun ty fields h => h₂ ty fields (h₁ ty fields h)

theorem info?_refreshLayouts (t : TypeTable) (x : String) :
    t.refreshLayouts.info? x = (t.info? x).map t.laidOut :=
  Lists.lookup_map t.types (fun _ => t.laidOut) x

theorem info?_declare {name x : String} {ty : Ty} {info : TypeInfo}
    (h : t.declare? name ty = some t') (hx : t.info? x = some info) :
    ∃ info', t'.info? x = some info' ∧ info'.underlying = info.underlying := by
  unfold declare? at h
  split at h
  · cases h
  · cases h
    rw [info?_refreshLayouts]
    unfold info? at hx ⊢
    rw [List.lookup_append, hx]
    exact ⟨_, rfl, rfl⟩

theorem keepsStructs_declare {name : String} {ty : Ty} (h : t.declare? name ty = some t') :
    KeepsStructs t t' := by
  intro ty fields
  unfold resolve
  generalize 64 = n
  induction n generalizing ty with
  | zero => exact fun hty => hty
  | succ n ih =>
      intro hty
      cases ty with
      | named x =>
          unfold resolveUpTo at hty ⊢
          cases hx : t.info? x with
          | none =>
              rw [hx] at hty
              cases hty
          | some info =>
              obtain ⟨info', hx', hsame⟩ := info?_declare h hx
              rw [hx] at hty
              rw [hx']
              simp only [hsame]
              exact ih _ hty
      | _ => exact hty

end TypeTable

namespace StepOp

-- A struct literal without field names has no more values than its type has fields.
def LiteralFits (types : TypeTable) (op : StepOp) : Prop :=
  ∀ ty count fields, op = .compose ty (.positional count) → types.resolve ty = .struct fields →
    count ≤ fields.length

theorem LiteralFits.mono {t t' : TypeTable} {op : StepOp} (h : op.LiteralFits t')
    (hg : t.KeepsStructs t') : op.LiteralFits t :=
  fun ty count fields hop hty => h ty count fields hop (hg ty fields hty)

-- What `LiteralFits` asks, told from the step.
def hasPlaces (types : TypeTable) : StepOp → Bool
  | compose ty (.positional count) =>
      match types.resolve ty with
      | .struct fields => decide (count ≤ fields.length)
      | _ => true
  | _ => true

theorem literalFits_of_hasPlaces {types : TypeTable} {op : StepOp}
    (h : op.hasPlaces types = true) : op.LiteralFits types := by
  rintro ty count fields rfl hty
  simp only [hasPlaces, hty] at h
  exact of_decide_eq_true h

-- The depth that a builder has once it has emitted the step.
def depthEmitted : StepOp → Nat → Nat
  | pushScope, n => n + 1
  | popScope, n => n - 1
  | _, n => n

section bare

variable (op : StepOp)

@[simp] theorem needs_bare : op.bare.needs = op.needs := by cases op <;> rfl

@[simp] theorem gives_bare (edge : Edge) : op.bare.gives edge = op.gives edge := by
  cases op <;> cases edge <;> rfl

@[simp] theorem depthAfter_bare (n : Nat) : op.bare.depthAfter n = op.depthAfter n := by
  cases op <;> rfl

@[simp] theorem depthEmitted_bare (n : Nat) : op.bare.depthEmitted n = op.depthEmitted n := by
  cases op <;> rfl

@[simp] theorem literalFits_bare (types : TypeTable) :
    op.bare.LiteralFits types ↔ op.LiteralFits types := by
  cases op <;> first | exact Iff.rfl | exact ⟨fun _ => nofun, fun _ => nofun⟩

end bare

variable {op op' : StepOp} {safe : Prop} {edge : Edge} {st st' : Stance} {types : TypeTable}

-- What a step does with the operands and the depth does not depend on where it leads to.
theorem Turns.of_bare (h : op.Turns safe edge st st') (hbare : op'.bare = op.bare) :
    op'.Turns safe edge st st' := by
  have hgives : op'.gives edge = op.gives edge := by rw [← gives_bare, hbare, gives_bare]
  refine ⟨hgives ▸ h.possible, ?_, h.exit, fun hs => ?_⟩
  · rw [h.depth, ← depthAfter_bare, ← depthAfter_bare op', hbare]
  · rw [hgives, ← needs_bare op', hbare, needs_bare]
    exact h.items hs

theorem bare_of_plain (h : op.gives .other = none) : op.bare = op := by
  cases op <;> first | rfl | cases h

theorem eq_of_bare (hbare : op'.bare = op.bare) (hplain : op'.gives .other = none) : op = op' := by
  have hgives : op.gives .other = none := by rw [← gives_bare, ← hbare, gives_bare, hplain]
  rw [← bare_of_plain hgives, ← hbare, bare_of_plain hplain]

theorem literalFits_of_bare (hbare : op'.bare = op.bare) :
    op'.LiteralFits types ↔ op.LiteralFits types := by
  rw [← literalFits_bare op', hbare, literalFits_bare]

end StepOp

section depth

variable {steps steps' : Array Step} {s : Step} {i n : Nat}

-- The depth that a builder had when it emitted a step. By then it had entered so many more scopes
-- than it had left.
def emissionDepth (steps : Array Step) (i : StepId) : Nat :=
  (steps.toList.take i).foldl (fun n s => s.op.depthEmitted n) 0

theorem emissionDepth_succ (hs : steps[i]? = some s) :
    emissionDepth steps (i + 1) = s.op.depthEmitted (emissionDepth steps i) := by
  have hlist : steps.toList[i]? = some s := by rw [Array.getElem?_toList, hs]
  unfold emissionDepth
  rw [List.take_add_one, hlist, List.foldl_append]
  rfl

-- It depends on the operations alone, of which linking and a later depth of a jump keep enough.
theorem emissionDepth_congr (hn : n ≤ steps.size) (h : ∀ (i : StepId) (s : Step), steps[i]? = some s →
    ∃ s' : Step, steps'[i]? = some s' ∧ s'.op.depthEmitted = s.op.depthEmitted) :
    emissionDepth steps' n = emissionDepth steps n := by
  induction n with
  | zero => rfl
  | succ n ih =>
      have hs := Array.getElem?_eq_getElem (show n < steps.size from hn)
      obtain ⟨s', hs', hsame⟩ := h n _ hs
      rw [emissionDepth_succ hs, emissionDepth_succ hs', hsame, ih (Nat.le_of_succ_le hn)]

theorem StepsExtend.emissionDepth_eq (h : StepsExtend steps steps') (hn : n ≤ steps.size) :
    emissionDepth steps' n = emissionDepth steps n := by
  refine emissionDepth_congr hn fun i s hs => ?_
  obtain ⟨s', hs', hbelow⟩ := h i s hs
  refine ⟨s', hs', funext fun k => ?_⟩
  rw [← StepOp.depthEmitted_bare, hbelow.bare, StepOp.depthEmitted_bare]

end depth

-- The stances of the steps of a function in the making, as far as they are known.
abbrev Log := StepId → Option Stance

-- A step finds the operands that it needs, and its successors have the stances to which it leads.
-- A successor that is still open is one of the loose ones, or the end of a deferred call.
structure StepCharted (types : TypeTable) (log : Log) (loose : List Slot) (i : StepId) (s : Step)
    (st : Stance) : Prop where
  needs : s.op.LiteralFits types → ∃ rest, st.items = s.op.needs ++ rest
  leads : ∀ (edge : Edge) (k : StepId), s.follow edge = some k →
    ∃ st', log k = some st' ∧ s.op.Turns (s.op.LiteralFits types) edge st st'
  ends : ∀ (edge : Edge) (d : Nat) (left : List Item), s.follow edge = none →
    (s.op.gives edge).isSome → st.exit = some (d, left) → ⟨i, edge⟩ ∈ loose ∨
      s.op.Turns (s.op.LiteralFits types) edge st ⟨d, left, some (d, left)⟩
  returns : ∀ arity : Arity, s.op = .ret arity → st.exit = none
  defers : ∀ (entry : StepId) (args : Arity) (spread : Bool)
    (builtin : Option (Builtin × Option Ty)), s.op = .defer entry args spread builtin →
      log entry = some ⟨st.depth, st.items,
        some (st.depth, StepOp.callItems args builtin ++ st.items)⟩

structure Charted (types : TypeTable) (steps : Array Step) (log : Log) (loose : List Slot) :
    Prop where
  bound : ∀ (i : StepId) (st : Stance), log i = some st → i < steps.size
  step : ∀ (i : StepId) (s : Step) (st : Stance), steps[i]? = some s → log i = some st →
    StepCharted types log loose i s st

-- Whoever leaves a step this way has the stance.
def SlotLeaves (types : TypeTable) (steps : Array Step) (log : Log) (slot : Slot) (st : Stance) :
    Prop :=
  ∃ s, steps[slot.step]? = some s ∧ ∀ st₀, log slot.step = some st₀ →
    s.op.Turns (s.op.LiteralFits types) slot.edge st₀ st

section charts

variable {types types' : TypeTable} {steps steps' : Array Step} {log log' : Log}
  {loose loose' slots : List Slot} {slot : Slot} {st : Stance} {s : Step} {k : StepId}

theorem SlotLeaves.lt_size (h : SlotLeaves types steps log slot st) : slot.step < steps.size := by
  obtain ⟨s, hs, -⟩ := h
  exact (Array.getElem?_eq_some_iff.mp hs).1

theorem SlotLeaves.mono (h : SlotLeaves types steps log slot st) (he : StepsExtend steps steps')
    (hlog : ∀ i < steps.size, log' i = log i) (ht : types.KeepsStructs types') :
    SlotLeaves types' steps' log' slot st := by
  have hlt := h.lt_size
  obtain ⟨s, hs, hturns⟩ := h
  obtain ⟨s', hs', hbelow⟩ := he _ s hs
  refine ⟨s', hs', fun st₀ hst₀ => ?_⟩
  rw [hlog _ hlt] at hst₀
  refine ((hturns st₀ hst₀).of_bare hbelow.bare).mono fun hfits => ?_
  exact ((StepOp.literalFits_of_bare hbelow.bare).mp hfits).mono ht

theorem StepCharted.loosen {i : StepId} (h : StepCharted types log loose i s st)
    (hloose : ∀ edge, (s.op.gives edge).isSome → st.exit.isSome → ⟨i, edge⟩ ∈ loose →
      ⟨i, edge⟩ ∈ loose') : StepCharted types log loose' i s st :=
  { h with
    ends := fun edge d left hfollow hgives hexit =>
      Or.imp_left (hloose edge hgives (Option.isSome_of_eq_some hexit))
        (h.ends edge d left hfollow hgives hexit) }

theorem StepCharted.extendLog {i : StepId} (h : StepCharted types log loose i s st)
    (hlog : ∀ j st', log j = some st' → log' j = some st') :
    StepCharted types log' loose i s st :=
  { h with
    leads := fun edge k hfollow =>
      let ⟨st', hst', hturns⟩ := h.leads edge k hfollow
      ⟨st', hlog k st' hst', hturns⟩
    defers := fun entry args spread builtin hop => hlog _ _ (h.defers entry args spread builtin hop) }

theorem Charted.loosen (h : Charted types steps log loose) (hloose : ∀ x ∈ loose, x ∈ loose') :
    Charted types steps log loose' :=
  ⟨h.bound, fun i s st hs hst => (h.step i s st hs hst).loosen fun _ _ _ => hloose _⟩

-- Only the successors that exist in the steps of a deferred call have to be known.
theorem Charted.tighten (h : Charted types steps log loose) (hloose : ∀ x ∈ loose, x ∉ loose' →
    ∀ s st, steps[x.step]? = some s → log x.step = some st →
      s.op.gives x.edge = none ∨ st.exit = none) : Charted types steps log loose' := by
  refine ⟨h.bound, fun i s st hs hst => (h.step i s st hs hst).loosen ?_⟩
  intro edge hgives hexit hmem
  by_contra hnot
  rcases hloose _ hmem hnot s st hs hst with hnone | hnone
  · rw [hnone] at hgives
    cases hgives
  · rw [hnone] at hexit
    cases hexit

theorem Charted.mono (h : Charted types steps log loose) (ht : types.KeepsStructs types') :
    Charted types' steps log loose := by
  refine ⟨h.bound, fun i s st hs hst => ?_⟩
  have hstep := h.step i s st hs hst
  have hfits : s.op.LiteralFits types' → s.op.LiteralFits types := fun hf => hf.mono ht
  exact {
    needs := fun hf => hstep.needs (hfits hf)
    leads := fun edge k hfollow =>
      let ⟨st', hst', hturns⟩ := hstep.leads edge k hfollow
      ⟨st', hst', hturns.mono hfits⟩
    ends := fun edge d left hfollow hgives hexit =>
      (hstep.ends edge d left hfollow hgives hexit).imp_right (·.mono hfits)
    returns := hstep.returns
    defers := hstep.defers }

variable (st s) in
-- A new step has a stance of its own, and nothing leads on from it yet.
theorem Charted.push (h : Charted types steps log loose) (hnext : s.next = none)
    (hother : s.op.other? = none)
    (hneeds : s.op.LiteralFits types → ∃ rest, st.items = s.op.needs ++ rest)
    (hret : ∀ arity, s.op = .ret arity → st.exit = none)
    (hdefer : ∀ entry args spread builtin, s.op = .defer entry args spread builtin →
      log entry = some ⟨st.depth, st.items,
        some (st.depth, StepOp.callItems args builtin ++ st.items)⟩) :
    Charted types (steps.push s) (Function.update log steps.size (some st))
      (⟨steps.size, .next⟩ :: ⟨steps.size, .other⟩ :: loose) := by
  have hold : ∀ j st', log j = some st' → Function.update log steps.size (some st) j = some st' := by
    intro j st' hj
    rwa [Function.update_of_ne (Nat.ne_of_lt (h.bound j st' hj))]
  have hnone : ∀ edge, s.follow edge = none := by
    intro edge
    cases edge with
    | next => exact hnext
    | other => exact hother
  refine ⟨fun i st' hi => ?_, fun i u st' hu hi => ?_⟩
  · rw [Array.size_push]
    by_cases heq : i = steps.size
    · exact heq ▸ Nat.lt_succ_self _
    · rw [Function.update_of_ne heq] at hi
      exact Nat.lt_succ_of_lt (h.bound i st' hi)
  · by_cases heq : i = steps.size
    · subst heq
      rw [Function.update_self] at hi
      rw [Array.getElem?_push_size] at hu
      cases hi
      cases hu
      refine ⟨hneeds, fun edge k hfollow => ?_, fun edge _ _ _ _ _ => .inl ?_, hret, ?_⟩
      · rw [hnone edge] at hfollow
        cases hfollow
      · cases edge <;> simp
      · exact fun entry args spread builtin hop => hold _ _ (hdefer entry args spread builtin hop)
    · rw [Function.update_of_ne heq] at hi
      rw [Array.getElem?_push, if_neg heq] at hu
      exact ((h.step i u st' hu hi).extendLog hold).loosen fun edge _ _ hmem =>
        List.mem_cons_of_mem _ (List.mem_cons_of_mem _ hmem)

variable (loose' st) in
-- A step that starts where others leave off can be made their successor.
theorem Charted.linked (h : Charted types steps log loose) (hl : Linked steps slots k steps')
    (hleaves : ∀ slot ∈ slots, SlotLeaves types steps log slot st) (hk : log k = some st)
    (hloose : ∀ x ∈ loose, x ∉ slots → x ∈ loose') : Charted types steps' log loose' := by
  refine ⟨fun i st' hi => hl.size ▸ h.bound i st' hi, fun i s' st₀ hs' hi => ?_⟩
  obtain ⟨w, hs⟩ : ∃ w, steps[i]? = some w :=
    ⟨_, Array.getElem?_eq_getElem (h.bound i st₀ hi)⟩
  obtain ⟨u, hu, hbelow⟩ := hl.extend i _ hs
  obtain rfl : u = s' := Option.some.inj (hu.symm.trans hs')
  have hstep := h.step i _ st₀ hs hi
  have hbare := hbelow.bare
  have hfits : u.op.LiteralFits types ↔ w.op.LiteralFits types := StepOp.literalFits_of_bare hbare
  have hset : ∀ edge, ⟨i, edge⟩ ∈ slots → u.follow edge = some k ∧
      u.op.Turns (u.op.LiteralFits types) edge st₀ st := by
    intro edge hmem
    obtain ⟨v, hv, hfollow⟩ := hl.leads _ hmem
    obtain rfl : v = u := Option.some.inj (hv.symm.trans hs')
    obtain ⟨w', hw, hturns⟩ := hleaves _ hmem
    obtain rfl : w' = w := Option.some.inj (hw.symm.trans hs)
    exact ⟨hfollow, ((hturns st₀ hi).of_bare hbare).mono hfits.mp⟩
  have hsame : ∀ edge, ⟨i, edge⟩ ∉ slots → u.follow edge = w.follow edge := by
    intro edge hmem
    obtain ⟨v, hv, hfollow⟩ := hl.others _ hmem _ ⟨_, hs, rfl⟩
    obtain rfl : v = u := Option.some.inj (hv.symm.trans hs')
    exact hfollow
  refine ⟨fun hf => ?_, fun edge j hj => ?_, fun edge d left hnone hgives hexit => ?_,
    fun arity hop => ?_, fun entry args spread builtin hop => ?_⟩
  · rw [← StepOp.needs_bare, hbare, StepOp.needs_bare]
    exact hstep.needs (hfits.mp hf)
  · by_cases hmem : ⟨i, edge⟩ ∈ slots
    · obtain ⟨hfollow, hturns⟩ := hset edge hmem
      cases hfollow.symm.trans hj
      exact ⟨st, hk, hturns⟩
    · obtain ⟨st', hst', hturns⟩ := hstep.leads edge j ((hsame edge hmem).symm.trans hj)
      exact ⟨st', hst', (hturns.of_bare hbare).mono hfits.mp⟩
  · by_cases hmem : ⟨i, edge⟩ ∈ slots
    · rw [(hset edge hmem).1] at hnone
      cases hnone
    · rw [hsame edge hmem] at hnone
      rw [← StepOp.gives_bare, hbare, StepOp.gives_bare] at hgives
      refine (hstep.ends edge d left hnone hgives hexit).imp (fun hx => hloose _ hx hmem) fun ht => ?_
      exact (ht.of_bare hbare).mono hfits.mp
  · refine hstep.returns arity ?_
    rw [← hop]
    exact StepOp.eq_of_bare hbare (by rw [hop]; rfl)
  · refine hstep.defers entry args spread builtin ?_
    rw [← hop]
    exact StepOp.eq_of_bare hbare (by rw [hop]; rfl)

-- The stance of a step, once all are known.
def Log.stance (log : Log) (i : StepId) : Stance := (log i).getD ⟨0, [], none⟩

theorem Log.stance_of_eq {i : StepId} (h : log i = some st) : log.stance i = st := by
  unfold Log.stance
  rw [h]
  rfl

-- Where every literal fits, a whole function is consistent.
theorem Charted.consistent {safe : Prop} (h : Charted types steps log [])
    (htotal : ∀ i < steps.size, (log i).isSome)
    (hfits : safe → ∀ s ∈ steps, s.op.LiteralFits types) :
    Consistent safe steps log.stance := by
  intro i s hs
  obtain ⟨hlt, hget⟩ := Array.getElem?_eq_some_iff.mp hs
  obtain ⟨st, hst⟩ := Option.isSome_iff_exists.mp (htotal i hlt)
  have hstep := h.step i s st hs hst
  have hsafe : safe → s.op.LiteralFits types := fun hsafe =>
    hfits hsafe s (hget ▸ Array.getElem_mem hlt)
  rw [← Log.stance_of_eq hst] at hstep
  refine ⟨fun hs => hstep.needs (hsafe hs), fun edge k hfollow _ => ?_,
    fun edge d left hfollow hgives hexit => ?_, hstep.returns, fun entry args spread builtin hop =>
      Log.stance_of_eq (hstep.defers entry args spread builtin hop)⟩
  · obtain ⟨st', hst', hturns⟩ := hstep.leads edge k hfollow
    rw [Log.stance_of_eq hst']
    exact hturns.mono hsafe
  · rcases hstep.ends edge d left hfollow hgives hexit with hmem | hturns
    · cases hmem
    · exact hturns.mono hsafe

end charts

end StepGraph

import StepGraph.Proofs.Machine.Lockstep
import StepGraph.Proofs.Machine.Steps

open EStateM (bind_of_ok)

namespace StepGraph

variable {α : Type}

namespace Heap

-- Two ways to make a value, each on top of what there is, make values that read the same.
def MakeAlike (h : Heap) (sources : Sources) (h' : Heap) (sources' : Sources)
    (x x' : HeapM Value) : Prop :=
  ∀ h₁ h₁', Retains h sources h₁ sources → Retains h' sources' h₁' sources' →
    ∃ r, Makes h₁ sources (x h₁).2 (x h₁).1 r ∧ Makes h₁' sources' (x' h₁').2 (x' h₁').1 r

variable {h h' : Heap} {sources sources' : Sources} {v v' : Value} {t t' : TypeTable}

theorem makeAlike_zeroValue (ht : SameTypes t t') (ty : Ty) :
    MakeAlike h sources h' sources' (t.zeroValue ty) (t'.zeroValue ty) := by
  intro h₁ h₁' _ _
  unfold TypeTable.zeroValue
  rw [ht.zero_eq]
  exact ⟨_, makes_ofConstant _ h₁ sources, makes_ofConstant _ h₁' sources'⟩

-- A copy in the type of the place that it goes to.
def copyInto (t : TypeTable) (ty : Option Ty) (v : Value) : HeapM Value := do
  let v ← copy v
  match ty with
  | some ty => t.coerce v ty
  | none => pure v

theorem makeAlike_copyInto (ht : SameTypes t t') (ty : Option Ty)
    (hv : Alike h sources h' sources' v v') :
    MakeAlike h sources h' sources' (copyInto t ty v) (copyInto t' ty v') := by
  intro h₁ h₁' hl hl'
  obtain ⟨r, hr, hr'⟩ := hv
  have hcopy : Makes h₁ sources (copy v h₁).2 (copy v h₁).1 r :=
    makes_copyUpTo _ h₁ v r (hr.retained hl)
  have hcopy' : Makes h₁' sources' (copy v' h₁').2 (copy v' h₁').1 r :=
    makes_copyUpTo _ h₁' v' r (hr'.retained hl')
  unfold copyInto
  cases ty with
  | none => exact ⟨r, hcopy, hcopy'⟩
  | some ty =>
    change ∃ r, Makes h₁ sources (t.coerce (copy v h₁).1 ty (copy v h₁).2).2
      (t.coerce (copy v h₁).1 ty (copy v h₁).2).1 r ∧
      Makes h₁' sources' (t'.coerce (copy v' h₁').1 ty (copy v' h₁').2).2
        (t'.coerce (copy v' h₁').1 ty (copy v' h₁').2).1 r
    have hnil : (copy v' h₁').1.isBareNil = (copy v h₁).1.isBareNil := by
      rw [← Value.isBareNil_outline, ← hcopy'.gives.outline_eq, hcopy.gives.outline_eq,
        Value.isBareNil_outline]
    unfold TypeTable.coerce
    rw [hnil]
    cases (copy v h₁).1.isBareNil with
    | true =>
      have hzero : MakeAlike h sources h' sources' (t.zeroValue ty) (t'.zeroValue ty) :=
        makeAlike_zeroValue ht ty
      obtain ⟨r, hz, hz'⟩ := hzero (copy v h₁).2 (copy v' h₁').2
        (hl.trans (.of_grows hcopy.grows sources)) (hl'.trans (.of_grows hcopy'.grows sources'))
      exact ⟨r, ⟨hcopy.grows.trans hz.grows, hz.gives⟩, ⟨hcopy'.grows.trans hz'.grows, hz'.gives⟩⟩
    | false =>
      refine ⟨_, ⟨hcopy.grows, hcopy.gives.settle t ty⟩, ⟨hcopy'.grows, ?_⟩⟩
      change (copy v' h₁').2.Gives sources' (t'.settle (copy v' h₁').1 ty) _
      rw [ht.settle_eq]
      exact hcopy'.gives.settle t ty

end Heap

namespace Program

open Heap (MakeAlike copyInto)

-- A name for a value that is made for it.
def bindMade (x : String) (make : HeapM Value) : Exec Unit :=
  if x = Names.blank then pure ()
  else do
    let v ← make
    Heap.declare (← Exec.currentScope) x v

theorem declareValue_eq (p : Program) (ty : Option Ty) (x : String) (v : Value) :
    p.declareValue ty x v = bindMade x (copyInto p.types ty v) := by
  unfold declareValue bindMade
  split
  · rfl
  · cases ty <;> rfl

end Program

-- The names among these that are bound at all.
def boundNames (names : List String) : List String := names.filter (· ≠ Names.blank)

-- Names have been bound in a package, and nothing else has changed.
structure NamesBound (s : ScopeId) (boxes : Heap.Boxes) (names : List String) (h : Heap)
    (env : Heap.Env) (h' : Heap) (env' : Heap.Env) : Prop where
  knows : h'.Knows s boxes env'
  cells : Heap.SameCells s h h'
  named : ∀ x ∈ names, ∃ r, env' x = some r
  others : ∀ x, x ∉ names → env' x = env x

namespace Program

open Heap (MakeAlike Knows Retains Env Boxes)

variable {s s' : ScopeId} {boxes boxes' : Boxes} {env env' : Env} {m m' : Machine}
  {h₀ h₀' : Heap}

-- A new name is bound to a new value.
theorem bindMade_ok {x : String} {make : HeapM Value} {r : Reading} (hx : x ≠ Names.blank)
    (hk : m.heap.Knows s boxes env) (hs : m.frame.scope = s) (hfree : env x = none)
    (hmake : Heap.Makes m.heap (m.heap.sourcesOf s boxes) (make m.heap).2 (make m.heap).1 r) :
    ∃ h, bindMade x make m = .ok () { m with heap := h } ∧
      Retains m.heap (m.heap.sourcesOf s boxes) h (m.heap.sourcesOf s boxes) ∧
      NamesBound s boxes [x] m.heap env h (Function.update env x (some r)) := by
  have hk₁ := hk.evolves (hk.evolves_grows hmake.grows)
  have hcells := Heap.SameCells.of_grows hmake.grows s
  have hgives := hmake.gives
  rw [← hcells.sources_eq] at hgives
  have hbind := hk₁.bind hfree hgives
  refine ⟨(Heap.bind s x (.plain (make m.heap).1) (make m.heap).2).2, ?_, ?_, hbind,
    hcells.trans (hk₁.sameCells_bind hfree _), fun y hy => ?_, fun y hy => ?_⟩
  · unfold bindMade
    rw [if_neg hx, bind_of_ok (Exec.monadLift_apply make m),
      bind_of_ok (Exec.currentScope_apply _), Exec.monadLift_apply]
    simp only [hs]
    unfold Heap.declare
    rw [Heap.get_bind, hk₁.unbound hfree]
  · exact (Retains.of_grows hmake.grows _).trans
      ⟨Nat.le_refl _, fun _ _ => rfl, fun _ _ => id, fun _ _ => id⟩
  · obtain rfl := List.mem_singleton.mp hy
    exact ⟨r, Function.update_self ..⟩
  · rw [Function.update_of_ne (by simpa using hy)]

-- The same names are bound one after the other to values that read the same.
theorem bindEach {sources sources' : Sources} {items items' : List (String × HeapM Value)}
    (hitems : List.Forall₂ (fun i i' => i'.1 = i.1 ∧ MakeAlike h₀ sources h₀' sources' i.2 i'.2)
      items items')
    (hnodup : (boundNames (items.map (·.1))).Nodup)
    (hk : m.heap.Knows s boxes env) (hk' : m'.heap.Knows s' boxes' env')
    (hs : m.frame.scope = s) (hs' : m'.frame.scope = s')
    (hsources : m.heap.sourcesOf s boxes = sources)
    (hsources' : m'.heap.sourcesOf s' boxes' = sources')
    (hl : Retains h₀ sources m.heap sources) (hl' : Retains h₀' sources' m'.heap sources')
    (hfree : ∀ x ∈ boundNames (items.map (·.1)), env x = none ∧ env' x = none) :
    ∃ h h' e e', (items.forM fun (x, make) => bindMade x make) m = .ok () { m with heap := h } ∧
      (items'.forM fun (x, make) => bindMade x make) m' = .ok () { m' with heap := h' } ∧
      NamesBound s boxes (boundNames (items.map (·.1))) m.heap env h e ∧
      NamesBound s' boxes' (boundNames (items.map (·.1))) m'.heap env' h' e' ∧
      ∀ x ∈ boundNames (items.map (·.1)), e x = e' x := by
  induction hitems generalizing m m' env env' with
  | nil =>
    exact ⟨_, _, env, env', rfl, rfl,
      ⟨hk, .refl _ _, fun _ h => (List.not_mem_nil h).elim, fun _ _ => rfl⟩,
      ⟨hk', .refl _ _, fun _ h => (List.not_mem_nil h).elim, fun _ _ => rfl⟩,
      fun _ h => (List.not_mem_nil h).elim⟩
  | @cons item item' rest rest' hitem _ ih =>
    obtain ⟨x, make⟩ := item
    obtain ⟨x', make'⟩ := item'
    obtain ⟨rfl, halike⟩ := hitem
    have hforM : ∀ {rest : List (String × HeapM Value)} {make : HeapM Value} {m m₁ : Machine},
        bindMade x' make m = .ok () m₁ →
        (((x', make) :: rest).forM fun (x, make) => bindMade x make) m =
          (rest.forM fun (x, make) => bindMade x make) m₁ := fun h => bind_of_ok h
    by_cases hx : x' = Names.blank
    · have hskip : ∀ {make : HeapM Value} {m : Machine}, bindMade x' make m = .ok () m := by
        intro make m
        unfold bindMade
        rw [if_pos hx]
        rfl
      have hnames : boundNames (((x', make) :: rest).map (·.1)) = boundNames (rest.map (·.1)) := by
        unfold boundNames
        rw [List.map_cons, List.filter_cons_of_neg (by simpa using hx)]
      rw [hnames] at hnodup hfree ⊢
      rw [hforM hskip, hforM hskip]
      exact ih hnodup hk hk' hs hs' hsources hsources' hl hl' hfree
    · have hnames : boundNames (((x', make) :: rest).map (·.1)) =
          x' :: boundNames (rest.map (·.1)) := by
        unfold boundNames
        rw [List.map_cons, List.filter_cons_of_pos (by simpa using hx)]
      rw [hnames] at hnodup hfree ⊢
      obtain ⟨hnew, hnodup⟩ := List.nodup_cons.mp hnodup
      obtain ⟨hx₁, hx₁'⟩ := hfree x' List.mem_cons_self
      obtain ⟨r, hmake, hmake'⟩ := halike m.heap m'.heap hl hl'
      rw [← hsources] at hmake hl
      rw [← hsources'] at hmake' hl'
      obtain ⟨h₁, hrun, hkept, hbinds⟩ := bindMade_ok hx hk hs hx₁ hmake
      obtain ⟨h₁', hrun', hkept', hbinds'⟩ := bindMade_ok hx hk' hs' hx₁' hmake'
      rw [hforM hrun, hforM hrun']
      have hfree₁ : ∀ y ∈ boundNames (rest.map (·.1)),
          Function.update env x' (some r) y = none ∧ Function.update env' x' (some r) y = none := by
        intro y hy
        have hne : y ≠ x' := fun he => hnew (he ▸ hy)
        rw [Function.update_of_ne hne, Function.update_of_ne hne]
        exact hfree y (List.mem_cons_of_mem _ hy)
      obtain ⟨h₂, h₂', e, e', hrest, hrest', hmore, hmore', hsame⟩ := ih hnodup
        (show ({ m with heap := h₁ } : Machine).heap.Knows s boxes _ from hbinds.knows)
        (show ({ m' with heap := h₁' } : Machine).heap.Knows s' boxes' _ from hbinds'.knows) hs hs'
        (hbinds.cells.sources_eq.trans hsources) (hbinds'.cells.sources_eq.trans hsources')
        (hsources ▸ hl.trans hkept) (hsources' ▸ hl'.trans hkept') hfree₁
      have hothers : ∀ {env env₁ e : Env}, (∀ y, y ∉ [x'] → env₁ y = env y) →
          (∀ y, y ∉ boundNames (rest.map (·.1)) → e y = env₁ y) →
          ∀ y, y ∉ x' :: boundNames (rest.map (·.1)) → e y = env y := by
        intro env env₁ e h₁ h₂ y hy
        rw [List.mem_cons, not_or] at hy
        rw [h₂ y hy.2, h₁ y (by simpa using hy.1)]
      have hnamed : ∀ {env₁ e : Env}, (∀ y ∈ [x'], ∃ r, env₁ y = some r) →
          (∀ y ∈ boundNames (rest.map (·.1)), ∃ r, e y = some r) →
          (∀ y, y ∉ boundNames (rest.map (·.1)) → e y = env₁ y) →
          ∀ y ∈ x' :: boundNames (rest.map (·.1)), ∃ r, e y = some r := by
        intro env₁ e h₁ h₂ hsame y hy
        rcases List.mem_cons.mp hy with rfl | hy
        · rw [hsame y hnew]
          exact h₁ y List.mem_cons_self
        · exact h₂ y hy
      refine ⟨h₂, h₂', e, e', hrest, hrest',
        ⟨hmore.knows, hbinds.cells.trans hmore.cells, hnamed hbinds.named hmore.named hmore.others,
          hothers hbinds.others hmore.others⟩,
        ⟨hmore'.knows, hbinds'.cells.trans hmore'.cells,
          hnamed hbinds'.named hmore'.named hmore'.others, hothers hbinds'.others hmore'.others⟩,
        fun y hy => ?_⟩
      rcases List.mem_cons.mp hy with rfl | hy
      · rw [hmore.others y hnew, hmore'.others y hnew, Function.update_self, Function.update_self]
      · exact hsame y hy

end Program

namespace Side

-- The unit has come to its end: its names are bound, and nothing else is.
structure Finished (c : Side) (k : Nat) (names : List String) (h : Heap) (env : Heap.Env) :
    Prop where
  knows : h.Knows c.scope (c.boxesAt k h) env
  named : ∀ x ∈ names, ∃ r, env x = some r
  others : ∀ x, x ∉ names → env x = c.env x

end Side

-- The unit has come to its end in both packages, and what its names are bound to reads the same.
def BoundAlike (k : Nat) (names : List String) (c c' : Side) (m m' : Machine) : Prop :=
  ∃ env env', c.Finished k names m.heap env ∧ c'.Finished k names m'.heap env' ∧
    ∀ x ∈ names, env x = env' x

namespace SideBySide

open Heap (Alike MakeAlike copyInto)

variable {low : Prop} {k : Nat} {names : List String} {c c' : Side} {m m' : Machine}
  {p p' : Program}

theorem bindEach {items items' : List (String × HeapM Value)} (hm : Matched low k names c c')
    (hb : SideBySide k c c' m m') (hnames : boundNames (items.map (·.1)) = names)
    (hnodup : names.Nodup) (hitems : List.Forall₂ (fun i i' => i'.1 = i.1 ∧
      MakeAlike m.heap (c.sources k m.heap) m'.heap (c'.sources k m'.heap) i.2 i'.2) items items') :
    OutcomesAgree low c.Fine (fun _ m₁ _ m₁' => BoundAlike k names c c' m₁ m₁')
      ((items.forM fun (x, make) => Program.bindMade x make) m)
      ((items'.forM fun (x, make) => Program.bindMade x make) m') := by
  subst hnames
  obtain ⟨h, h', e, e', hrun, hrun', hbinds, hbinds', hsame⟩ := Program.bindEach hitems hnodup
    (hm.left.knows_at hb.left) (hm.right.knows_at hb.right) hb.scope hb.scope' rfl rfl
    (.refl _ _) (.refl _ _) fun x hx => ⟨hm.left.unbound x hx, hm.right.unbound x hx⟩
  rw [hrun, hrun']
  refine .done ⟨e, e', ⟨?_, hbinds.named, hbinds.others⟩,
    ⟨?_, hbinds'.named, hbinds'.others⟩, hsame⟩
  · rw [Side.boxesAt_eq hbinds.cells]
    exact hbinds.knows
  · rw [Side.boxesAt_eq hbinds'.cells]
    exact hbinds'.knows

theorem takeN (hb : SideBySide k c c' m m') (n : Nat) :
    OutcomesAgree low c.Fine (fun vs m₁ vs' m₁' => SideBySide k c c' m₁ m₁' ∧ List.Forall₂
        (Alike m₁.heap (c.sources k m₁.heap) m₁'.heap (c'.sources k m₁'.heap)) vs vs')
      (Exec.takeN n m) (Exec.takeN n m') := by
  have hops := hb.operands
  unfold Exec.takeN
  rw [bind_of_ok (Exec.frame_apply m), bind_of_ok (Exec.frame_apply m'), hops.length_eq]
  by_cases hlt : m'.frame.operands.length < n
  · rw [if_pos hlt, if_pos hlt]
    exact hb.fatal _ _
  · rw [if_neg hlt, if_neg hlt]
    refine .done ⟨hb.withOperands (List.forall₂_drop n hops), ?_⟩
    exact List.rel_reverse (List.forall₂_take n hops)

theorem work_declare (hm : Matched low k names c c') (hb : SideBySide k c c' m m')
    (ht : SameTypes p.types p'.types) {xs : List String} (hnames : boundNames xs = names)
    (hnodup : names.Nodup) (ty : Option Ty) (n : Nat) :
    OutcomesAgree low c.Fine (fun _ m₁ _ m₁' => BoundAlike k names c c' m₁ m₁')
      (p.work (.declare xs ty (.fixed n)) m) (p'.work (.declare xs ty (.fixed n)) m') := by
  have hforM : ∀ (p : Program) (values : List Value) (f : String × Value → Exec Unit),
      (∀ i, f i = p.declareValue ty i.1 i.2) → (xs.zip values).forM f =
        ((xs.zip values).map fun i => (i.1, copyInto p.types ty i.2)).forM fun (x, make) =>
          Program.bindMade x make := by
    intro p values f hf
    simp only [List.forM_eq_forM, List.forM_map, funext hf, Program.declareValue_eq]
  change OutcomesAgree _ _ _ ((Exec.takeN n >>= fun values => _) m)
    ((Exec.takeN n >>= fun values => _) m')
  refine (hb.takeN n).bind ?_
  rintro vs m₁ vs' m₁' ⟨hb₁, hvs⟩
  dsimp only
  rw [hvs.length_eq]
  by_cases hlength : vs'.length = xs.length
  · rw [if_neg (not_not_intro hlength), if_neg (not_not_intro hlength),
      hforM _ _ _ fun _ => rfl, hforM _ _ _ fun _ => rfl]
    refine hb₁.bindEach hm ?_ hnodup ?_
    · rw [List.map_map]
      change boundNames ((xs.zip vs).map Prod.fst) = names
      rw [List.map_fst_zip (Nat.le_of_eq (hvs.length_eq.trans hlength).symm)]
      exact hnames
    · rw [List.forall₂_map_left_iff, List.forall₂_map_right_iff]
      exact (Lists.forall₂_zip xs hvs).imp fun i i' h => ⟨h.1, Heap.makeAlike_copyInto ht ty h.2⟩
  · rw [if_pos hlength, if_pos hlength]
    exact (hb₁.fatal _ _).bind (G := fun _ _ _ _ => False) fun _ _ _ _ h => h.elim

theorem work_declareZero (hm : Matched low k names c c') (hb : SideBySide k c c' m m')
    (ht : SameTypes p.types p'.types) {xs : List String} (hnames : boundNames xs = names)
    (hnodup : names.Nodup) (ty : Ty) :
    OutcomesAgree low c.Fine (fun _ m₁ _ m₁' => BoundAlike k names c c' m₁ m₁')
      (p.work (.declareZero xs ty) m) (p'.work (.declareZero xs ty) m') := by
  have hforM : ∀ p : Program, xs.forM (p.declareZero ty) =
      (xs.map fun x => (x, p.types.zeroValue ty)).forM fun (x, make) =>
        Program.bindMade x make := by
    intro p
    simp only [List.forM_eq_forM, List.forM_map]
    rfl
  change OutcomesAgree _ _ _ (xs.forM (p.declareZero ty) m) (xs.forM (p'.declareZero ty) m')
  rw [hforM, hforM]
  refine hb.bindEach hm ?_ hnodup ?_
  · rw [List.map_map]
    change boundNames (xs.map id) = names
    rw [List.map_id]
    exact hnames
  · rw [List.forall₂_map_left_iff, List.forall₂_map_right_iff]
    exact List.forall₂_same.mpr fun x _ => ⟨rfl, Heap.makeAlike_zeroValue ht ty⟩

end SideBySide

-- The step binds the names, and it takes so many values for that as it tells.
def StepOp.BindsTo (op : StepOp) (names : List String) : Prop :=
  match op with
  | .declare xs _ (.fixed _) | .declareZero xs _ => boundNames xs = names
  | _ => False

-- The steps of a unit whose values are literals, names and operators on these. They always go on to
-- later steps, and a step that binds names is the last one.
structure PureUnit (steps : Array Step) (names : List String) : Prop where
  forward : ∀ {i j : StepId} {s : Step}, steps[i]? = some s →
    s.next = some j ∨ s.op.other? = some j → i < j ∧ j < steps.size
  op : ∀ {i : StepId} {s : Step}, steps[i]? = some s →
    (s.op.isPure ∧ ∀ edge, (edge = .other → (s.op.gives .other).isSome) →
      ∃ j, s.follow edge = some j) ∨
    s.op.BindsTo names ∧ s.next = none
  nonempty : names ≠ [] → 0 < steps.size

namespace SideBySide

variable {low : Prop} {k : Nat} {names : List String} {c c' : Side} {m m' : Machine}
  {p p' : Program}

theorem step_bindsTo (hm : Matched low k names c c') (hb : SideBySide k c c' m m')
    (ht : SameTypes p.types p'.types) (hnodup : names.Nodup) {op : StepOp}
    (hop : op.BindsTo names) :
    OutcomesAgree low c.Fine (fun n m₁ n' m₁' => n = .next ∧ n' = .next ∧
      BoundAlike k names c c' m₁ m₁')
      (p.step op m) (p'.step op m') := by
  cases op with
  | declare xs ty arity =>
    cases arity with
    | fixed n =>
      exact (hb.work_declare hm ht hop hnodup ty n).bind fun _ _ _ _ h => .done ⟨rfl, rfl, h⟩
    | forwarded => exact hop.elim
  | declareZero xs ty =>
    exact (hb.work_declareZero hm ht hop hnodup ty).bind fun _ _ _ _ h => .done ⟨rfl, rfl, h⟩
  | _ => exact hop.elim

-- What the steps of a unit lead to: the next one, with the stack in the same state, or the end.
def UnitProceeds (k : Nat) (names : List String) (c c' : Side) (steps : Array Step) (id : StepId)
    (after : Option (Option StepId)) (m : Machine) (after' : Option (Option StepId))
    (m' : Machine) : Prop :=
  after' = after ∧ (after = some none ∧ BoundAlike k names c c' m m' ∨
    ∃ j, after = some (some j) ∧ SideBySide k c c' m m' ∧ id < j ∧ j < steps.size)

theorem advance (hm : Matched low k names c c') (hb : SideBySide k c c' m m')
    (hp : p.initializing = true) (hp' : p'.initializing = true) (ht : SameTypes p.types p'.types)
    (hnodup : names.Nodup) {steps : Array Step} (hsteps : PureUnit steps names) (n : Nat)
    {id : StepId} (hid : id < steps.size) :
    OutcomesAgree low c.Fine (UnitProceeds k names c c' steps id) (p.advance n steps id m)
      (p'.advance n steps id m') := by
  have hs := Array.getElem?_eq_getElem hid
  generalize steps[id] = s at hs
  unfold Program.advance
  rw [hs]
  rcases hsteps.op hs with ⟨hop, hleads⟩ | ⟨hop, hnext⟩
  · refine ((hb.step_isPure hm hp hp' hop).annotated s.span fun _ _ h => h).bind ?_
    rintro n m₁ n' m₁' ⟨rfl, hforward, hb₁⟩
    rcases hforward with rfl | ⟨hgives, rfl⟩
    · obtain ⟨j, hj⟩ := hleads .next fun h => by cases h
      exact .done ⟨rfl, .inr ⟨j, congrArg some hj, hb₁, hsteps.forward hs (.inl hj)⟩⟩
    · obtain ⟨j, hj⟩ := hleads .other fun _ => hgives
      exact .done ⟨rfl, .inr ⟨j, congrArg some hj, hb₁, hsteps.forward hs (.inr hj)⟩⟩
  · refine ((hb.step_bindsTo hm ht hnodup hop).annotated s.span fun _ _ h => h).bind ?_
    rintro n m₁ n' m₁' ⟨rfl, rfl, hbound⟩
    exact .done ⟨rfl, .inl ⟨congrArg some hnext, hbound⟩⟩

-- The induction is on the number of steps that are left: all successors come later.
theorem run (hm : Matched low k names c c') (hp : p.initializing = true)
    (hp' : p'.initializing = true) (ht : SameTypes p.types p'.types) (hnodup : names.Nodup)
    {steps : Array Step} (hsteps : PureUnit steps names) (n : Nat) :
    ∀ {id : Nat} {m m' : Machine}, SideBySide k c c' m m' → id < steps.size → steps.size - id ≤ n →
      OutcomesAgree low c.Fine (fun _ m₁ _ m₁' => BoundAlike k names c c' m₁ m₁')
        (p.run n steps (some id) m)
        (p'.run n steps (some id) m') := by
  induction n with
  | zero =>
    intro id m m' _ hid hn
    omega
  | succ n ih =>
    intro id m m' hb hid hn
    have hstep := hb.advance hm hp hp' ht hnodup hsteps n hid
    rw [Program.run_succ, Program.run_succ]
    generalize p.advance n steps id m = r at hstep ⊢
    generalize p'.advance n steps id m' = r' at hstep ⊢
    cases hstep with
    | failed hu hu' hm => exact .failed hu hu' hm
    | waits hm => exact .waits hm
    | lacks hlow => exact .lacks hlow
    | done h =>
      obtain ⟨rfl, ⟨rfl, hbound⟩ | ⟨j, rfl, hb₁, hlt, hsize⟩⟩ := h
      · simp only [Program.run_none]
        exact .done hbound
      · have hlt : (id : Nat) < (j : Nat) := hlt
        exact ih hb₁ hsize (by omega)

end SideBySide

namespace Program

-- The run of a unit is the run of its steps, in a frame of its own.
theorem runUnit_apply (p : Program) (fuel : Nat) (f : Function) (scope : ScopeId) (m : Machine) :
    p.runUnit fuel f scope m =
      match p.run fuel f.steps (if f.steps.isEmpty then none else some 0)
          { m with frame := .start scope } with
      | .ok _ m₁ => .ok () { m₁ with frame := m.frame }
      | .error u m₁ => .error u { m₁ with frame := m.frame } := by
  unfold runUnit inFrame body
  dsimp only
  cases p.run fuel f.steps (if f.steps.isEmpty then none else some 0)
      { m with frame := .start scope } with
  | ok _ m₁ | error u m₁ => simp only [unwindTo_apply]

variable {low : Prop} {k : Nat} {names : List String} {c c' : Side} {m m' : Machine}
  {p p' : Program} {f f' : Function} {fuel fuel' : Nat}

-- The same unit does the same in two packages, as far as both have the variables that it needs.
theorem agrees_runUnit (hm : Matched low k names c c') (hp : p.initializing = true)
    (hp' : p'.initializing = true) (ht : SameTypes p.types p'.types) (hnodup : names.Nodup)
    (hsteps : PureUnit f.steps names) (hsame : f'.steps = f.steps) (hfuel : f.steps.size ≤ fuel)
    (hheap : m.heap = c.heap) (hheap' : m'.heap = c'.heap) :
    OutcomesAgree low c.Fine (fun _ m₁ _ m₁' => BoundAlike k names c c' m₁ m₁')
      (p.runUnit fuel f c.scope m) (p'.runUnit fuel f' c'.scope m') := by
  have hb : SideBySide k c c' { m with frame := .start c.scope }
      { m' with frame := .start c'.scope } := by
    refine ⟨?_, ?_, rfl, rfl, ?_, .nil⟩
    · exact hheap ▸ hm.left.knows.evolves_refl
    · exact hheap' ▸ hm.right.knows.evolves_refl
    · change (Heap.temporaries c.heap c.scope m.heap).length =
        (Heap.temporaries c'.heap c'.scope m'.heap).length
      rw [hheap, hheap', Heap.temporaries_self, Heap.temporaries_self]
  have hrun : OutcomesAgree low c.Fine (fun _ m₁ _ m₁' => BoundAlike k names c c' m₁ m₁')
      (p.run fuel f.steps (if f.steps.isEmpty then none else some 0)
        { m with frame := .start c.scope })
      (p'.run fuel f.steps (if f.steps.isEmpty then none else some 0)
        { m' with frame := .start c'.scope }) := by
    by_cases hempty : f.steps.isEmpty = true
    · have hnames : names = [] := by
        by_contra hn
        have hpos := hsteps.nonempty hn
        rw [Array.isEmpty_iff] at hempty
        rw [hempty] at hpos
        exact absurd hpos (Nat.lt_irrefl 0)
      subst hnames
      rw [if_pos hempty, run_none, run_none]
      exact .done ⟨c.env, c'.env, ⟨hm.left.knows_at hb.left, fun _ h => (List.not_mem_nil h).elim,
        fun _ _ => rfl⟩, ⟨hm.right.knows_at hb.right, fun _ h => (List.not_mem_nil h).elim,
        fun _ _ => rfl⟩, fun _ h => (List.not_mem_nil h).elim⟩
    · have hsize : 0 < f.steps.size := by
        simpa [Array.isEmpty_iff, Array.size_pos_iff] using hempty
      rw [if_neg hempty]
      exact SideBySide.run hm hp hp' ht hnodup hsteps fuel hb hsize hfuel
  rw [runUnit_apply, runUnit_apply, hsame]
  generalize p.run fuel f.steps _ _ = r at hrun ⊢
  generalize p'.run fuel f.steps _ _ = r' at hrun ⊢
  cases hrun with
  | done h => exact .done h
  | failed hu hu' hm => exact .failed hu hu' hm
  | waits hm => exact .waits hm
  | lacks hlow => exact .lacks hlow

end Program

end StepGraph

import StepGraph.Compile.Declarations
import StepGraph.Proofs.Machine.Trace
import StepGraph.Proofs.Store.Variables

open EStateM (bind_of_ok bind_eq_ok)

namespace StepGraph

-- A value on its way to a result of a function, with its content and the blocks that this
-- stands in.
structure Returned where
  result : Param
  value : Value
  content : Content
  blocks : List BlockId

namespace Returned

open Heap (Variable)

-- Where a return puts a result that is a variable.
def target (r : Returned) : Target :=
  match r.result.name with
  | some x => if x = Names.blank then .discard else .var x
  | none => .discard

-- The variable that a return in this scope stores the result in.
def stored? (h : Heap) (scope : ScopeId) (r : Returned) : Option Variable :=
  r.result.name.bind fun x =>
    if x = Names.blank then none else (h.owner? scope x).map fun o => (o, x)

-- The contents of variables after one result was stored in the variable `u`, if in any.
def contentAfter (u : Option Variable) (c : Content) (content : Variable → Content) :
    Variable → Content :=
  match u with
  | some u => Function.update content u ((content u).overlay c)
  | none => content

-- The same after the results were stored one after the other, each in the variable that `var` tells.
def contents (var : Returned → Option Variable) (content : Variable → Content)
    (items : List Returned) : Variable → Content :=
  items.foldl (fun content r => contentAfter (var r) r.content content) content

theorem resultTargets_eq {sig : Signature} {items : List Returned}
    (hr : sig.results = items.map (·.result)) :
    Build.resultTargets sig = items.map target := by
  unfold Build.resultTargets
  rw [hr, List.map_map]
  rfl

theorem target_of_stored? {h : Heap} {scope : ScopeId} {r : Returned} {u : Variable}
    (hs : r.stored? h scope = some u) :
    r.target = .var u.2 ∧ h.owner? scope u.2 = some u.1 := by
  unfold stored? at hs
  unfold target
  cases hx : r.result.name with
  | none => simp [hx] at hs
  | some x =>
      rw [hx, Option.bind_some] at hs
      by_cases hb : x = Names.blank
      · simp [hb] at hs
      · rw [if_neg hb] at hs
        obtain ⟨o, ho, rfl⟩ := Option.map_eq_some_iff.mp hs
        exact ⟨if_neg hb, ho⟩

theorem contentAfter_self (u : Variable) (c : Content) (content : Variable → Content) :
    contentAfter (some u) c content u = (content u).overlay c := Function.update_self ..

theorem contentAfter_of_ne {u : Option Variable} {t : Variable} (hne : u ≠ some t) (c : Content)
    (content : Variable → Content) : contentAfter u c content t = content t := by
  cases u with
  | none => rfl
  | some u => exact Function.update_of_ne (fun he => hne (by rw [he])) _ _

variable {var : Returned → Option Variable} {u : Variable}

-- A content that no result is stored over stays.
theorem contents_of_not_stored (items : List Returned) (content : Variable → Content)
    (hu : ∀ r ∈ items, var r ≠ some u) : contents var content items u = content u := by
  induction items generalizing content with
  | nil => rfl
  | cons r rest ih =>
      rw [contents, List.foldl_cons, ← contents, ih _ fun r hr => hu r (by simp [hr]),
        contentAfter_of_ne (hu r (by simp))]

-- A variable that one result is stored in ends as the overlay of its content and that of the
-- result.
theorem contents_of_stored (items : List Returned) (content : Variable → Content)
    (hone : items.Pairwise fun r r' => ∀ u, var r = some u → var r' ≠ some u) {r : Returned}
    (hr : r ∈ items) (hu : var r = some u) :
    contents var content items u = (content u).overlay r.content := by
  induction items generalizing content with
  | nil => simp at hr
  | cons r' rest ih =>
      rw [List.pairwise_cons] at hone
      rw [contents, List.foldl_cons, ← contents]
      rcases List.mem_cons.mp hr with rfl | hr
      · rw [contents_of_not_stored rest _ fun r' hr' => hone.1 r' hr' u hu, hu, contentAfter_self]
      · rw [ih _ hone.2 hr, contentAfter_of_ne fun he => hone.1 r hr u he hu]

end Returned

namespace Program

open Exec
open Heap (Variable)

theorem storeTarget_discard (p : Program) (v : Value) (m : Machine) :
    p.storeTarget .discard [] v m = .ok () m := rfl

theorem storeTarget_var (p : Program) {x : String} {o : ScopeId} {place : Place} {m : Machine}
    (ho : m.heap.owner? m.frame.scope x = some o) (hl : m.heap.location? o x = some place)
    (v : Value) :
    p.storeTarget (.var x) [] v m =
      .ok () { m with heap := (Heap.store place v m.heap).2 } := by
  unfold storeTarget
  simp only
  rw [bind_of_ok (currentScope_apply m), bind_of_ok (monadLift_apply _ m),
    assign_location (by rw [ho, Option.bind_some, hl]) v]
  rfl

theorem storeAll_cons (p : Program) (t : Target) (ts : List Target) (ops : List (List Value))
    (v : Value) (vs : List Value) {m m' : Machine}
    (hstore : p.storeTarget t [] (Heap.copy v m.heap).1
      { m with heap := (Heap.copy v m.heap).2 } = .ok () m') :
    p.storeAll (t :: ts) ([] :: ops) (v :: vs) m = p.storeAll ts ops vs m' := by
  rw [storeAll, bind_of_ok (monadLift_apply _ m), bind_of_ok hstore]

-- The results are stored one after the other. None of the variables that they are stored in
-- shares a block with a result that is stored later.
theorem storeAll_returned (p : Program) (us : List Variable) (var : Returned → Option Variable)
    (items : List Returned) (m : Machine) (content : Variable → Content)
    (blocks : Variable → List BlockId)
    (hvar : ∀ r, r.stored? m.heap m.frame.scope = var r)
    (hapart : m.heap.SeparateVariables us content blocks)
    (hfound : ∀ r ∈ items, r.target ≠ .discard → ∃ u, var r = some u)
    (hus : ∀ r ∈ items, ∀ u, var r = some u → u ∈ us ∧ (blocks u).Nodup)
    (hshows : ∀ r ∈ items, m.heap.Shows r.value r.content r.blocks ∧ r.blocks.Nodup ∧
      r.content.Separable)
    (hlater : items.Pairwise fun r r' => ∀ u, var r = some u →
      (∀ b ∈ r'.blocks, b ∉ blocks u) ∧ var r' ≠ some u) :
    ∃ h' blocks', p.storeAll (items.map (·.target)) (items.map fun _ => []) (items.map (·.value)) m
        = .ok () { m with heap := h' } ∧
      h'.SeparateVariables us (Returned.contents var content items) blocks' := by
  induction items generalizing m content blocks with
  | nil => exact ⟨m.heap, blocks, rfl, hapart⟩
  | cons r rest ih =>
      rw [List.pairwise_cons] at hlater
      obtain ⟨hv, hn, hsep⟩ := hshows r (by simp)
      obtain ⟨hg, new, hcopy, hge, -⟩ := Heap.fresh_copy ⟨r.blocks, hv, hn⟩ hsep
      have hkeep : ∀ h : Heap, (∀ s x, h.location? s x = m.heap.location? s x) →
          (∀ s, h.parent? s = m.heap.parent? s) → ∀ r : Returned,
          r.stored? h m.frame.scope = var r := by
        intro h hl hp r
        rw [← hvar r]
        unfold Returned.stored?
        simp only [Heap.owner?_congr hl hp]
      simp only [List.map_cons]
      cases hr : var r with
      | none =>
          have htarget : r.target = .discard := by
            by_contra hne
            obtain ⟨u, hu⟩ := hfound r (by simp) hne
            rw [hr] at hu
            cases hu
          rw [htarget, storeAll_cons p _ _ _ _ _ (storeTarget_discard p _ _)]
          obtain ⟨h', blocks', hall, hap⟩ := ih { m with heap := (Heap.copy r.value m.heap).2 }
            content blocks (hkeep _ hg.location? hg.parent?) (hapart.grow hg)
            (fun r hr => hfound r (by simp [hr])) (fun r hr => hus r (by simp [hr]))
            (fun r hr => (hshows r (by simp [hr])).imp_left hg.shows) hlater.2
          refine ⟨h', blocks', hall, ?_⟩
          rw [Returned.contents, List.foldl_cons, hr]
          exact hap
      | some u =>
          obtain ⟨hu, hnodup⟩ := hus r (by simp) u hr
          obtain ⟨htarget, howner⟩ := Returned.target_of_stored? ((hvar r).trans hr)
          obtain ⟨place, x, hl, hread, hx⟩ := hapart.holds u hu
          have hlt : ∀ t ∈ us, ∀ b ∈ blocks t, b ∉ new := by
            intro t ht b hb hm
            obtain ⟨_, _, _, _, hs⟩ := hapart.holds t ht
            exact Nat.not_lt_of_le (hge b hm) (hs.lt_size b hb)
          have hl' : (Heap.copy r.value m.heap).2.location? u.1 u.2 = some place := by
            rw [hg.location?, hl]
          obtain ⟨hbeside, bs, hsub, hap⟩ := (hapart.grow hg).store hu hnodup hl' hcopy hlt
          have howner' : (Heap.copy r.value m.heap).2.owner? m.frame.scope u.2 = some u.1 := by
            rw [Heap.owner?_congr hg.location? hg.parent?, howner]
          rw [htarget, storeAll_cons p _ _ _ _ _ (storeTarget_var p howner' hl' _)]
          set h₁ := (Heap.store place (Heap.copy r.value m.heap).1 (Heap.copy r.value m.heap).2).2
          obtain ⟨h', blocks', hall, hap'⟩ := ih { m with heap := h₁ } _ _
            (hkeep h₁ (fun s x => by rw [hbeside.location, hg.location?])
              fun s => by rw [hbeside.parent, hg.parent?])
            hap (fun r hr => hfound r (by simp [hr]))
            (fun r' hr' t ht => by
              have hne : t ≠ u := fun he => (hlater.1 r' hr' u hr).2 (he ▸ ht)
              rw [Function.update_of_ne hne]
              exact hus r' (by simp [hr']) t ht)
            (fun r' hr' => (hshows r' (by simp [hr'])).imp_left fun hs =>
              hbeside.shows (hg.shows hs) (hlater.1 r' hr' u hr).1)
            (hlater.2.imp_of_mem fun {r₁ r₂} hr₁ hr₂ hp t ht => by
              have hne : t ≠ u := fun he => (hlater.1 r₁ hr₁ u hr).2 (he ▸ ht)
              rw [Function.update_of_ne hne]
              exact hp t ht)
          refine ⟨h', blocks', hall, ?_⟩
          rw [Returned.contents, List.foldl_cons, hr]
          exact hap'

-- Taking values off the stack changes the stack and nothing else.
theorem pop_state {v : Value} {m m' : Machine} (h : pop m = .ok v m') :
    ∃ ops, m' = { m with frame := { m.frame with operands := ops } } := by
  unfold pop at h
  rw [bind_of_ok (frame_apply m)] at h
  cases ho : m.frame.operands with
  | nil =>
      simp only [ho] at h
      exact absurd h (fatal_ne_ok _ _ _ _)
  | cons w rest =>
      simp only [ho] at h
      cases h
      exact ⟨rest, rfl⟩

theorem popN_state {n : Nat} {vs : List Value} {m m' : Machine} (h : popN n m = .ok vs m') :
    ∃ ops, m' = { m with frame := { m.frame with operands := ops } } := by
  induction n generalizing m vs with
  | zero =>
      cases h
      exact ⟨_, rfl⟩
  | succ n ih =>
      rw [popN, bind_eq_ok] at h
      obtain ⟨v, m₁, hpop, h⟩ := h
      rw [bind_eq_ok] at h
      obtain ⟨ws, m₂, hrest, h⟩ := h
      cases h
      obtain ⟨ops, rfl⟩ := pop_state hpop
      obtain ⟨ops', rfl⟩ := ih hrest
      exact ⟨ops', rfl⟩

theorem takeN_state {n : Nat} {vs : List Value} {m m' : Machine} (h : takeN n m = .ok vs m') :
    ∃ ops, m' = { m with frame := { m.frame with operands := ops } } := by
  unfold takeN at h
  rw [bind_of_ok (frame_apply m)] at h
  by_cases hlen : m.frame.operands.length < n
  · rw [if_pos hlen] at h
    exact absurd h (fatal_ne_ok _ _ _ _)
  · rw [if_neg hlen] at h
    cases h
    exact ⟨_, rfl⟩

theorem take_state {arity : Arity} {vs : List Value} {m m' : Machine}
    (h : take arity m = .ok vs m') :
    ∃ ops, m' = { m with frame := { m.frame with operands := ops } } := by
  cases arity with
  | fixed n => exact takeN_state h
  | forwarded =>
      unfold take at h
      rw [bind_eq_ok] at h
      obtain ⟨v, m₁, hpop, h⟩ := h
      obtain ⟨ops, rfl⟩ := pop_state hpop
      cases hv : v.int? with
      | none =>
          simp only [hv] at h
          exact absurd h (fatal_ne_ok _ _ _ _)
      | some k =>
          simp only [hv] at h
          by_cases hk : k.val < 0
          · rw [if_pos hk] at h
            exact absurd h (fatal_ne_ok _ _ _ _)
          · rw [if_neg hk] at h
            obtain ⟨ops', rfl⟩ := popN_state h
            exact ⟨ops', rfl⟩

-- Variables take no operands.
theorem takeOperands_returned (items : List Returned) (m : Machine) :
    takeOperands (items.map (·.target)) m = .ok (items.map fun _ => []) m := by
  induction items with
  | nil => rfl
  | cons r rest ih =>
      have hn : r.target.operands = 0 := by
        unfold Returned.target
        split
        · split <;> rfl
        · rfl
      rw [List.map_cons, takeOperands, bind_of_ok ih, hn]
      rfl

-- Step `id` of a function starts what a return statement with values is built to.
inductive ReturnsAt (sig : Signature) (steps : Array Step) (id : StepId) (arity : Arity) : Prop
  | unnamed (s : Step) (hsig : sig.hasNamedResults = false) (hs : steps[id]? = some s)
      (hop : s.op = .ret arity)
  | named (s s' : Step) (id' : StepId) (hsig : sig.hasNamedResults = true)
      (hs : steps[id]? = some s) (hop : s.op = .assign (Build.resultTargets sig) arity)
      (hnext : s.next = some id') (hs' : steps[id']? = some s') (hop' : s'.op = .ret (.fixed 0))

-- The results of the call that is running have these contents.
def ResultsAre (sig : Signature) (m : Machine) (cs : List Content) : Prop :=
  if sig.hasNamedResults then
    List.Forall₂ (fun r c => ∃ x v, r.name = some x ∧
      m.heap.local? m.frame.funcScope x = some v ∧ m.heap.IsContent v c) sig.results cs
  else
    cs.length = sig.results.length ∧
      (cs = [] ∨ ∃ vs, m.frame.results = some vs ∧ List.Forall₂ m.heap.IsContent vs cs)

theorem step_ret (p : Program) {arity : Arity} {vs : List Value} {m m' : Machine}
    (htake : take arity m = .ok vs m') :
    ∃ results, p.step (.ret arity) m =
        .ok .ret { m' with frame := { m'.frame with results } } ∧
      (vs = [] ∨ results = some vs) := by
  by_cases ha : arity = .fixed 0
  · subst ha
    cases htake
    exact ⟨_, rfl, .inl rfl⟩
  · refine ⟨some vs, ?_, .inr rfl⟩
    unfold step
    simp only [ne_eq, ha, not_false_eq_true, ite_true]
    rw [bind_of_ok htake]
    rfl

theorem step_ret_nothing (p : Program) (m : Machine) :
    p.step (.ret (.fixed 0)) m = .ok .ret m := rfl

theorem step_assign (p : Program) {targets : List Target} {arity : Arity} {vs : List Value}
    {ops : List (List Value)} {m m₁ m₂ m' : Machine} (htake : take arity m = .ok vs m₁)
    (hlen : vs.length = targets.length) (hops : takeOperands targets m₁ = .ok ops m₂)
    (hstore : p.storeAll targets ops vs m₂ = .ok () m') :
    p.step (.assign targets arity) m = .ok .next m' := by
  have hwork : p.work (.assign targets arity) m = .ok () m' := by
    unfold work
    simp only
    rw [bind_of_ok htake]
    simp only [hlen, ne_eq, not_true_eq_false, ite_false]
    exact (bind_of_ok hops).trans hstore
  unfold step
  simp only
  rw [bind_of_ok hwork]
  rfl

-- What keeps the results of a return with variables from getting into each other's way: the
-- variables of the function and those that the return stores in are apart, each result is stored
-- in a variable of its own, and no result shares a block with a variable stored in before.
structure Separate (m : Machine) (items : List Returned) (us : List Variable)
    (content : Variable → Content) (blocks : Variable → List BlockId) : Prop where
  apart : m.heap.SeparateVariables us content blocks
  own : ∀ r ∈ items, ∃ x, r.result.name = some x ∧ (m.frame.funcScope, x) ∈ us
  found : ∀ r ∈ items, r.target ≠ .discard → ∃ u, r.stored? m.heap m.frame.scope = some u
  among : ∀ r ∈ items, ∀ u, r.stored? m.heap m.frame.scope = some u → u ∈ us ∧ (blocks u).Nodup
  later : items.Pairwise fun r r' => ∀ u, r.stored? m.heap m.frame.scope = some u →
    (∀ b ∈ r'.blocks, b ∉ blocks u) ∧ r'.stored? m.heap m.frame.scope ≠ some u

-- The content that a result has after a return. A variable gets it if the name of the result
-- leads to it from the scope of the return, and keeps its content otherwise.
def received (sig : Signature) (m : Machine) (content : Variable → Content) (r : Returned) :
    Content :=
  if sig.hasNamedResults then
    match r.result.name with
    | some x =>
        if r.stored? m.heap m.frame.scope = some (m.frame.funcScope, x) then
          (content (m.frame.funcScope, x)).overlay r.content
        else content (m.frame.funcScope, x)
    | none => r.content
  else r.content

-- Two results of one name are stored in one variable.
theorem stored?_of_name {m : Machine} {r r' : Returned} {x : String} {o : ScopeId}
    (hx : r.result.name = some x) (hu : r'.stored? m.heap m.frame.scope = some (o, x)) :
    r.stored? m.heap m.frame.scope = some (o, x) := by
  unfold Returned.stored? at hu ⊢
  cases hx' : r'.result.name with
  | none => simp [hx'] at hu
  | some x' =>
      rw [hx', Option.bind_some] at hu
      by_cases hb : x' = Names.blank
      · simp [hb] at hu
      · rw [if_neg hb] at hu
        obtain ⟨o', ho, he⟩ := Option.map_eq_some_iff.mp hu
        cases he
        rw [hx, Option.bind_some, if_neg hb, ho]
        rfl

theorem contents_received {sig : Signature} (hsig : sig.hasNamedResults = true) {m : Machine}
    {items : List Returned} {us : List Variable} {content : Variable → Content}
    {blocks : Variable → List BlockId} (hsep : Separate m items us content blocks) {r : Returned}
    (hr : r ∈ items) {x : String} (hx : r.result.name = some x) :
    Returned.contents (·.stored? m.heap m.frame.scope) content items (m.frame.funcScope, x) =
      received sig m content r := by
  unfold received
  simp only [hsig, ite_true, hx]
  split
  · next hu =>
      exact Returned.contents_of_stored items content
        (hsep.later.imp fun h u hu => (h u hu).2) hr hu
  · next hu =>
      exact Returned.contents_of_not_stored items content fun r' _ hu' =>
        hu (stored?_of_name hx hu')

-- A return ends the run of the function, and then its results have the contents received.
theorem run_return (p : Program) {sig : Signature} {steps : Array Step} {id : StepId}
    {arity : Arity} (hat : ReturnsAt sig steps id arity) {items : List Returned}
    (hr : sig.results = items.map (·.result)) {m m₁ : Machine}
    (htake : take arity m = .ok (items.map (·.value)) m₁)
    (hshows : ∀ r ∈ items, m.heap.Shows r.value r.content r.blocks ∧ r.blocks.Nodup ∧
      r.content.Separable)
    {us : List Variable} {content : Variable → Content} {blocks : Variable → List BlockId}
    (hsep : sig.hasNamedResults = true → Separate m items us content blocks) (k : Nat) :
    ∃ m', p.run (k + 2) steps (some id) m = .ok () m' ∧
      ResultsAre sig m' (items.map (received sig m content)) := by
  obtain ⟨ops, rfl⟩ := take_state htake
  cases hat with
  | unnamed s hsig hs hop =>
      obtain ⟨results, hstep, hresults⟩ := step_ret p htake
      refine ⟨_, by rw [run_succ, advance_ret p _ hs (by rw [hop]; exact hstep)], ?_⟩
      have hreceived : items.map (received sig m content) = items.map (·.content) := by
        simp [received, hsig]
      rw [hreceived]
      unfold ResultsAre
      rw [if_neg (by simp [hsig])]
      refine ⟨by simp [hr], ?_⟩
      rcases hresults with hnil | hsome
      · exact .inl (by simpa using hnil)
      · refine .inr ⟨items.map (·.value), hsome, ?_⟩
        rw [List.forall₂_map_left_iff, List.forall₂_map_right_iff, List.forall₂_same]
        exact fun r hr => ⟨r.blocks, (hshows r hr).1⟩
  | named s s' id' hsig hs hop hnext hs' hop' =>
      have hsep := hsep hsig
      obtain ⟨h', blocks', hstore, hapart⟩ := storeAll_returned p us
        (·.stored? m.heap m.frame.scope) items
        { m with frame := { m.frame with operands := ops } } content blocks (fun _ => rfl) hsep.apart
        hsep.found hsep.among hshows hsep.later
      have hassign : p.step (.assign (Build.resultTargets sig) arity) m = _ := step_assign p htake
        (by rw [Returned.resultTargets_eq hr]; simp)
        (by rw [Returned.resultTargets_eq hr]; exact takeOperands_returned items _)
        (by rw [Returned.resultTargets_eq hr]; exact hstore)
      set m' : Machine := { m with frame := { m.frame with operands := ops }, heap := h' }
      refine ⟨m', ?_, ?_⟩
      · rw [run_succ, advance_next p _ hs (by rw [hop]; exact hassign)]
        change p.run (k + 1) steps s.next m' = _
        rw [hnext, run_succ, advance_ret p _ hs' (by rw [hop']; exact step_ret_nothing p m')]
      · unfold ResultsAre
        rw [if_pos hsig, hr, List.forall₂_map_left_iff, List.forall₂_map_right_iff,
          List.forall₂_same]
        intro r hmem
        obtain ⟨x, hx, hus⟩ := hsep.own r hmem
        obtain ⟨place, v, hl, hread, hshow⟩ := hapart.holds _ hus
        rw [contents_received hsig hsep hmem hx] at hshow
        exact ⟨x, v, hx, by rw [← hread]; exact local?_location hl, _, hshow⟩

-- The value has the content that a value of content `c` gets by conversion to the type.
def HasConverted (p : Program) (ty : Ty) (c : Content) (h : Heap) (w : Value) : Prop :=
  ∀ (h₀ : Heap) (u : Value) (d : Content), h₀.IsContent u c →
    (p.converted (some ty) u h₀).2.IsContent (p.converted (some ty) u h₀).1 d → h.IsContent w d

theorem HasConverted.grow {p : Program} {ty : Ty} {c : Content} {h h' : Heap} {w : Value}
    (hw : HasConverted p ty c h w) (hg : h.GrowsByBlocks h') : HasConverted p ty c h' w :=
  fun h₀ u d hu hd => hg.isContent (hw h₀ u d hu hd)

theorem hasConverted_converted (p : Program) (ty : Ty) {c : Content} {h : Heap} {v : Value}
    (hv : h.IsContent v c) :
    HasConverted p ty c (p.converted (some ty) v h).2 (p.converted (some ty) v h).1 :=
  fun _ _ _ hu hd => isContent_converted p ty hu hv hd

-- The values of the results, brought to their types.
theorem mapM_coerce (p : Program) (vs : List Value) (rs : List Param) (cs : List Content)
    (m : Machine) (hvs : List.Forall₂ m.heap.IsContent vs cs) (hlen : cs.length = rs.length) :
    ∃ ws h', ((vs.zip rs).mapM fun (v, r) => p.coerce v r.ty : Exec (List Value)) m =
        .ok ws { m with heap := h' } ∧ m.heap.GrowsByBlocks h' ∧
      List.Forall₂ (fun w (rc : Param × Content) => HasConverted p rc.1.ty rc.2 h' w) ws
        (rs.zip cs) := by
  induction vs generalizing m rs cs with
  | nil =>
      cases hvs
      obtain rfl : rs = [] := List.length_eq_zero_iff.mp hlen.symm
      exact ⟨[], m.heap, rfl, Heap.GrowsByBlocks.refl _, .nil⟩
  | cons v vs ih =>
      cases hvs with
      | @cons _ c _ cs hv hvs =>
      cases rs with
      | nil => simp at hlen
      | cons r rs =>
          have hg := grows_converted p (some r.ty) v m.heap
          set m₁ : Machine := { m with heap := (p.converted (some r.ty) v m.heap).2 }
          have hcoerce : p.coerce v r.ty m = .ok (p.converted (some r.ty) v m.heap).1 m₁ :=
            monadLift_apply _ m
          obtain ⟨ws, h', hrest, hg', hws⟩ := ih rs cs m₁
            (hvs.imp fun _ _ hc => hg.isContent hc) (by simpa using hlen)
          refine ⟨(p.converted (some r.ty) v m.heap).1 :: ws, h', ?_, hg.trans hg', .cons ?_ hws⟩
          · rw [List.zip_cons_cons, List.mapM_cons, bind_of_ok hcoerce, bind_of_ok hrest]
            rfl
          · exact (hasConverted_converted p r.ty hv).grow hg'

theorem mapM_namedResult (p : Program) (rs : List Param) (cs : List Content) (m : Machine)
    (hrs : List.Forall₂ (fun r c => ∃ x v, r.name = some x ∧
      m.heap.local? m.frame.funcScope x = some v ∧ m.heap.IsContent v c) rs cs) :
    ∃ vs, (rs.mapM (p.namedResult m.frame.funcScope) : Exec (List Value)) m = .ok vs m ∧
      List.Forall₂ m.heap.IsContent vs cs := by
  induction hrs with
  | nil => exact ⟨[], rfl, .nil⟩
  | @cons r c rs cs hr _ ih =>
      obtain ⟨x, v, hx, hlocal, hv⟩ := hr
      obtain ⟨vs, hrest, hvs⟩ := ih
      have hone : p.namedResult m.frame.funcScope r m = .ok v m := by
        unfold namedResult
        rw [bind_of_ok (heap_apply m), hx, Option.bind_some, hlocal]
        rfl
      refine ⟨v :: vs, ?_, .cons hv hvs⟩
      rw [List.mapM_cons, bind_of_ok hone, bind_of_ok hrest]
      rfl

-- The values of the results before they are brought to their types.
def resultValues (p : Program) (sig : Signature) (fr : Frame) : Exec (List Value) :=
  if sig.hasNamedResults then sig.results.mapM (p.namedResult fr.funcScope)
  else match fr.results with
    | some values => pure values
    | none => sig.results.mapM fun r => p.zeroValue r.ty

theorem collectResults_of_values (p : Program) {sig : Signature} {m m' : Machine}
    {vs : List Value} (hvs : p.resultValues sig m.frame m = .ok vs m') :
    p.collectResults sig m =
      ((vs.zip sig.results).mapM fun (v, r) => p.coerce v r.ty : Exec (List Value)) m' := by
  unfold resultValues at hvs
  unfold collectResults
  rw [bind_of_ok (frame_apply m)]
  by_cases hsig : sig.hasNamedResults
  · rw [if_pos hsig] at hvs ⊢
    rw [bind_of_ok hvs]
  · rw [if_neg hsig] at hvs ⊢
    cases hr : m.frame.results with
    | none =>
        simp only [hr] at hvs ⊢
        rw [bind_of_ok hvs]
    | some values =>
        simp only [hr] at hvs ⊢
        rw [bind_of_ok hvs]

theorem resultValues_eq (p : Program) {sig : Signature} {m : Machine} {cs : List Content}
    (hres : ResultsAre sig m cs) :
    ∃ vs, p.resultValues sig m.frame m = .ok vs m ∧
      (List.Forall₂ m.heap.IsContent vs cs ∧ cs.length = sig.results.length ∨
        sig.results = [] ∧ cs = []) := by
  unfold resultValues
  unfold ResultsAre at hres
  by_cases hsig : sig.hasNamedResults
  · rw [if_pos hsig] at hres ⊢
    obtain ⟨vs, hvs, hcs⟩ := mapM_namedResult p _ _ m hres
    exact ⟨vs, hvs, .inl ⟨hcs, hres.length_eq.symm⟩⟩
  · rw [if_neg hsig] at hres ⊢
    obtain ⟨hlen, rfl | ⟨vs, hvs, hcs⟩⟩ := hres
    · have hnil : sig.results = [] := List.length_eq_zero_iff.mp hlen.symm
      cases hr : m.frame.results with
      | none => exact ⟨[], by rw [hnil]; rfl, .inr ⟨hnil, rfl⟩⟩
      | some vs => exact ⟨vs, rfl, .inr ⟨hnil, rfl⟩⟩
    · exact ⟨vs, by rw [hvs]; rfl, .inl ⟨hcs, hlen⟩⟩

-- The results of a call that has ended are those that its variables or its return left.
theorem collectResults_eq (p : Program) {sig : Signature} {m : Machine} {cs : List Content}
    (hres : ResultsAre sig m cs) :
    ∃ ws h', p.collectResults sig m = .ok ws { m with heap := h' } ∧
      List.Forall₂ (fun w (rc : Param × Content) => HasConverted p rc.1.ty rc.2 h' w) ws
        (sig.results.zip cs) := by
  obtain ⟨vs, hvs, hcase⟩ := resultValues_eq p hres
  rw [collectResults_of_values p hvs]
  rcases hcase with ⟨hcs, hlen⟩ | ⟨hnil, rfl⟩
  · obtain ⟨ws, h', hall, -, hws⟩ := mapM_coerce p vs sig.results cs m hcs hlen
    exact ⟨ws, h', hall, hws⟩
  · rw [hnil, List.zip_nil_right]
    exact ⟨[], m.heap, rfl, .nil⟩

-- What a call does before its function runs. The results are the scope of the function and the
-- place of the call in the stack of calls.
def enter (p : Program) (f : Function) (env : ScopeId) (receiver : Option Value)
    (args : List Value) (spread : Bool) (span : Span) : Exec (ScopeId × Nat) := do
  let deferredBy ← takeDeferring
  let scope ← Heap.newScope (some env)
  bindReceiver scope f.recv receiver
  p.bindParams scope f args spread
  p.declareResults scope f.sig
  return (scope, ← pushCall f.name span deferredBy)

theorem invoke_of_enter (p : Program) (run : Array Step → Option StepId → Exec Unit)
    (perform : Deferred → Exec (List Value)) {f : Function} {env : ScopeId}
    {receiver : Option Value} {args : List Value} {spread : Bool} {span : Span} {m m' : Machine}
    {scope : ScopeId} {record : Nat}
    (henter : p.enter f env receiver args spread span m = .ok (scope, record) m') :
    p.invoke run perform f env receiver args spread span m =
      inFrame scope (do
        endingCall record
          (if f.hasDefer then withDeferred perform record (body run f.steps) else body run f.steps)
        p.collectResults f.sig) m' := by
  unfold enter at henter
  unfold invoke
  rw [bind_eq_ok] at henter
  obtain ⟨deferredBy, m₁, h₁, henter⟩ := henter
  rw [bind_eq_ok] at henter
  obtain ⟨s, m₂, h₂, henter⟩ := henter
  rw [bind_eq_ok] at henter
  obtain ⟨_, m₃, h₃, henter⟩ := henter
  rw [bind_eq_ok] at henter
  obtain ⟨_, m₄, h₄, henter⟩ := henter
  rw [bind_eq_ok] at henter
  obtain ⟨_, m₅, h₅, henter⟩ := henter
  rw [bind_eq_ok] at henter
  obtain ⟨r, m₆, h₆, henter⟩ := henter
  cases henter
  rw [bind_of_ok h₁, bind_of_ok h₂, bind_of_ok h₃, bind_of_ok h₄, bind_of_ok h₅, bind_of_ok h₆]

theorem inFrame_ok {α : Type} {x : Exec α} {a : α} {m m' : Machine} {scope : ScopeId}
    (hx : x { m with frame := .start scope } = .ok a m') :
    inFrame scope x m = .ok a { m' with frame := m.frame } := by
  unfold inFrame
  simp only [hx]

theorem endingCall_ok {x : Exec Unit} {m m' : Machine} (record : Nat) (hx : x m = .ok () m') :
    endingCall record x m = .ok () { m' with calls := m'.calls.shrink record } := by
  unfold endingCall
  simp only [hx]

theorem unwindTo_ok (depth : Nat) (m : Machine) :
    ∃ scope d, unwindTo depth m = .ok () { m with frame := { m.frame with scope, depth := d } } := by
  unfold unwindTo
  rw [bind_of_ok (frame_apply m)]
  by_cases hd : depth < m.frame.depth
  · rw [if_pos hd]
    exact ⟨_, _, rfl⟩
  · rw [if_neg hd]
    exact ⟨m.frame.scope, m.frame.depth, rfl⟩

theorem body_ok {run : Array Step → Option StepId → Exec Unit} {steps : Array Step}
    {m m' : Machine} (hne : 0 < steps.size) (hrun : run steps (some 0) m = .ok () m') :
    ∃ scope d, body run steps m =
      .ok () { m' with frame := { m'.frame with scope, depth := d } } := by
  have hempty : steps.isEmpty = false := by simpa [Array.isEmpty] using Nat.ne_of_gt hne
  unfold body
  simp only [hempty, Bool.false_eq_true, ite_false, hrun]
  exact unwindTo_ok 0 m'

theorem ReturnsAt.size_pos {sig : Signature} {steps : Array Step} {id : StepId} {arity : Arity}
    (hat : ReturnsAt sig steps id arity) : 0 < steps.size := by
  have hs : ∃ s, steps[id]? = some s := by
    cases hat with
    | unnamed s _ hs _ => exact ⟨s, hs⟩
    | named s _ _ _ hs _ _ _ _ => exact ⟨s, hs⟩
  obtain ⟨s, hs⟩ := hs
  exact Nat.lt_of_le_of_lt (Nat.zero_le id) (Array.getElem?_eq_some_iff.mp hs).1

-- A result is the value of its expression: it has no name, or its name leads to the variable of
-- the function, whose old content fits the value. A result that its name does not lead to can
-- only happen to hold the same content already.
def Faithful (sig : Signature) (m : Machine) (content : Variable → Content) (r : Returned) :
    Prop :=
  sig.hasNamedResults = false ∨ ∃ x, r.result.name = some x ∧
    if r.stored? m.heap m.frame.scope = some (m.frame.funcScope, x) then
      (content (m.frame.funcScope, x)).Fits r.content
    else content (m.frame.funcScope, x) = r.content

theorem received_eq_iff {sig : Signature} {m : Machine} {content : Variable → Content}
    {r : Returned} (hname : sig.hasNamedResults = true → r.result.name.isSome) :
    received sig m content r = r.content ↔ Faithful sig m content r := by
  unfold received Faithful
  by_cases hsig : sig.hasNamedResults
  · obtain ⟨x, hx⟩ := Option.isSome_iff_exists.mp (hname hsig)
    simp only [hsig, ite_true, hx, Bool.true_eq_false, Option.some.injEq, exists_eq_left', false_or]
    split
    · exact Content.overlay_eq_iff _ _
    · exact Iff.rfl
  · simp [hsig]

-- A call whose function runs into a return. Its results are the values that the return was given,
-- brought to the types of the results, if the results have no names. A result with a name has the
-- content received instead, and that is the content of the value exactly if the name leads from
-- the scope of the return to the variable of the function and the old content of that variable
-- fits. The deferred calls come to an end and change no result.
theorem invoke_returned (p : Program) (n k : Nat) (perform : Deferred → Exec (List Value))
    (f : Function) (env : ScopeId) (receiver : Option Value) (args : List Value) (spread : Bool)
    (span : Span) (m m₀ m₁ m₂ : Machine) (scope : ScopeId) (record : Nat) (id : StepId)
    (arity : Arity) (items : List Returned) (us : List Variable) (content : Variable → Content)
    (blocks : Variable → List BlockId)
    (henter : p.enter f env receiver args spread span m = .ok (scope, record) m₀)
    (hlead : RunLeads p f.steps n (some 0) { m₀ with frame := .start scope } (k + 2) (some id) m₁)
    (hat : ReturnsAt f.sig f.steps id arity) (hr : f.sig.results = items.map (·.result))
    (htake : take arity m₁ = .ok (items.map (·.value)) m₂)
    (hshows : ∀ r ∈ items, m₁.heap.Shows r.value r.content r.blocks ∧ r.blocks.Nodup ∧
      r.content.Separable)
    (hsep : f.sig.hasNamedResults = true → Separate m₁ items us content blocks)
    (hdefer : f.hasDefer = true → ∀ m₃,
      body (p.run n) f.steps { m₀ with frame := .start scope } = .ok () m₃ →
      ∃ m₄, performAll perform record m₃.frame.deferred m₃ = .ok () m₄ ∧
        ∀ cs, ResultsAre f.sig m₃ cs → ResultsAre f.sig m₄ cs) :
    ∃ ws m', p.invoke (p.run n) perform f env receiver args spread span m = .ok ws m' ∧
      List.Forall₂ (fun w r => HasConverted p r.result.ty (received f.sig m₁ content r) m'.heap w) ws
        items ∧
      ∀ r ∈ items, received f.sig m₁ content r = r.content ↔ Faithful f.sig m₁ content r := by
  obtain ⟨m₃, hrun, hres⟩ := run_return p hat hr htake hshows hsep k
  obtain ⟨s, d, hbody⟩ := body_ok hat.size_pos (hlead.run_eq.trans hrun)
  set m₄ : Machine := { m₃ with frame := { m₃.frame with scope := s, depth := d } }
  have hres₄ : ResultsAre f.sig m₄ (items.map (received f.sig m₁ content)) := hres
  -- what comes of the body once the deferred calls are done
  have hdone : ∃ m₅, (if f.hasDefer then withDeferred perform record (body (p.run n) f.steps)
      else body (p.run n) f.steps : Exec Unit) { m₀ with frame := .start scope } = .ok () m₅ ∧
      ResultsAre f.sig m₅ (items.map (received f.sig m₁ content)) := by
    by_cases hd : f.hasDefer
    · obtain ⟨m₅, hperform, hkeep⟩ := hdefer hd m₄ hbody
      refine ⟨m₅, ?_, hkeep _ hres₄⟩
      rw [if_pos hd]
      unfold withDeferred
      simp only [hbody]
      exact hperform
    · exact ⟨m₄, by rw [if_neg hd]; exact hbody, hres₄⟩
  obtain ⟨m₅, hbody', hres₅⟩ := hdone
  have hend := endingCall_ok record hbody'
  have hres₆ : ResultsAre f.sig { m₅ with calls := m₅.calls.shrink record }
      (items.map (received f.sig m₁ content)) := hres₅
  obtain ⟨ws, h', hcollect, hws⟩ := collectResults_eq p hres₆
  refine ⟨ws, _, (invoke_of_enter p _ perform henter).trans
    (inFrame_ok ((bind_of_ok hend).trans hcollect)), ?_, fun r hmem => received_eq_iff fun hsig => ?_⟩
  · have hzip : f.sig.results.zip (items.map (received f.sig m₁ content)) =
        items.map fun r => (r.result, received f.sig m₁ content r) := by
      rw [hr, List.zip_map']
    rwa [hzip, List.forall₂_map_right_iff] at hws
  · obtain ⟨x, hx, -⟩ := (hsep hsig).own r hmem
    rw [hx]
    rfl

-- `func five() (x int) { return 5 }` in a package of its own.
def five : Function where
  name := "five"
  sig := ⟨[], [⟨some "x", .plainInt⟩], false⟩
  recv := none
  literal := false
  hasDefer := false
  steps := #[⟨.const (.plainInt 5), some 1, Span.none⟩,
    ⟨.assign [.var "x"] (.fixed 1), some 2, Span.none⟩, ⟨.ret (.fixed 0), none, Span.none⟩]

def returnedFive : Returned := ⟨⟨some "x", .plainInt⟩, .plainInt 5, .leaf (.plainInt 5), []⟩

def emptyPackage : Machine :=
  { Machine.start .silent with heap := { Heap.empty with scopes := #[⟨[], none, false⟩] } }

-- The machine when the function has come to its return.
def returningFive : Machine where
  heap :=
    { Heap.empty with
      scopes := #[⟨[], none, false⟩, ⟨[("x", .plain (.plainInt 0))], some 0, false⟩] }
  frame := { Frame.start 1 with operands := [.plainInt 5] }
  calls := #[⟨"five", Span.none, none, none⟩]
  deferring := none
  panicTrace := none
  printer := .silent

theorem invoke_five : ∃ ws m', blank.invoke (blank.run 3) (fun _ => pure []) five 0 none [] false
      Span.none emptyPackage = .ok ws m' ∧
    List.Forall₂ (fun w (r : Returned) => HasConverted blank r.result.ty r.content m'.heap w) ws
      [returnedFive] := by
  have hstored : returnedFive.stored? returningFive.heap returningFive.frame.scope =
      some (returningFive.frame.funcScope, "x") := rfl
  have hmem : ∀ r ∈ [returnedFive], r = returnedFive := fun r hr => List.mem_singleton.mp hr
  obtain ⟨ws, m', hcall, hws, hall⟩ := invoke_returned blank 3 0 (fun _ => pure []) five 0 none []
    false Span.none emptyPackage { returningFive with frame := emptyPackage.frame } returningFive
    { returningFive with frame := .start 1 } 1 0 1 (.fixed 1) [returnedFive] [(1, "x")]
    (fun _ => .leaf (.plainInt 0)) (fun _ => []) rfl (.step rfl (.refl _ _ _))
    (.named _ _ 2 rfl rfl rfl rfl rfl rfl) rfl rfl
    (fun r hr => by
      obtain rfl := hmem r hr
      exact ⟨.leaf _ rfl, List.nodup_nil, by simp [returnedFive, Content.Separable]⟩)
    (fun _ =>
      { apart := ⟨by simpa using ⟨_, _, rfl, rfl, .leaf _ rfl⟩, by simp_all, by simp⟩
        own := fun r hr => by
          obtain rfl := hmem r hr
          exact ⟨"x", rfl, List.mem_singleton.mpr rfl⟩
        found := fun r hr _ => ⟨(1, "x"), by rw [hmem r hr]; exact hstored⟩
        among := fun r hr u hu => by
          obtain rfl := hmem r hr
          obtain rfl := Option.some.inj (hu.symm.trans hstored)
          exact ⟨List.mem_singleton.mpr rfl, List.nodup_nil⟩
        later := by simp })
    (by simp [five])
  have hcontent := (hall returnedFive (by simp)).mpr (.inr ⟨"x", rfl, by
    rw [if_pos hstored]
    simp [Content.Fits]⟩)
  refine ⟨ws, m', hcall, ?_⟩
  cases hws with
  | cons hw hrest =>
      cases hrest
      rw [hcontent] at hw
      exact .cons hw .nil

-- `func f() (x int) { { x := 2; return x } }`.
def shadowedReturn : FuncDecl :=
  ⟨"f", none, ⟨[], [⟨some "x", .plainInt⟩], false⟩,
    [.block Span.none [.define Span.none ["x"] [.lit Note.empty (.int 2)],
      .ret Span.none [.ident Note.empty "x"]]]⟩

-- The integers that a call of a function without parameters gives, once it is built.
def resultsOf (d : FuncDecl) : List Int :=
  match Build.buildFunc d (.start ⟨.empty, .initial, []⟩ #[] d.sig) with
  | .ok ref b =>
      match b.code[ref.id]? with
      | some f =>
          match blank.invoke (blank.run 20) (fun _ => pure []) f 0 none [] false Span.none
              emptyPackage with
          | .ok ws _ => ws.filterMap fun w => w.int?.map (·.val)
          | .error _ _ => []
      | none => []
  | .error _ _ => []

-- The value 2 of the variable in the inner block goes back into that variable, and the result is
-- still zero.
theorem shadowed_result_is_lost : resultsOf shadowedReturn = [0] := by decide +kernel

end Program

end StepGraph

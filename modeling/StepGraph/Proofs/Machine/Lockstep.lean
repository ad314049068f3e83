import StepGraph.Proofs.Compile.Emit
import StepGraph.Proofs.Machine.Trace
import StepGraph.Proofs.Stack.Effects
import StepGraph.Proofs.Store.Cells
import StepGraph.Proofs.Store.SameTypes

open EStateM (bind_apply bind_of_ok)

namespace StepGraph

variable {α β : Type}

-- A runtime error, or a failure that nothing can recover from.
inductive Unwind.Fails : Unwind → Prop
  | panic (e : ErrorRef) : Fails (.panic (.error e))
  | fatal (e : EvalError) : Fails (.fatal e)

-- How the same unit ends in two machines. One of them may find a variable that the other misses,
-- but with `low` the second one has every variable that the first one has. Otherwise both come to
-- their ends or both fail. `fine` is kept where the first one does not come to its end.
inductive OutcomesAgree (low : Prop) (fine : Machine → Prop) (G : α → Machine → α → Machine →
      Prop) :
    EStateM.Result Unwind Machine α → EStateM.Result Unwind Machine α → Prop
  | done {a b : α} {m m' : Machine} (h : G a m b m') :
      OutcomesAgree low fine G (.ok a m) (.ok b m')
  | failed {u u' : Unwind} {m m' : Machine} (hu : u.Fails) (hu' : u'.Fails) (hm : fine m) :
      OutcomesAgree low fine G (.error u m) (.error u' m')
  | waits {x : String} {m : Machine} {r' : EStateM.Result Unwind Machine α} (hm : fine m) :
      OutcomesAgree low fine G (.error (.undeclared x) m) r'
  | lacks {x : String} {m' : Machine} {r : EStateM.Result Unwind Machine α} (hlow : ¬ low) :
      OutcomesAgree low fine G r (.error (.undeclared x) m')

namespace OutcomesAgree

variable {low : Prop} {fine : Machine → Prop} {G : α → Machine → α → Machine → Prop}
  {m m' : Machine}

theorem bind {G' : β → Machine → β → Machine → Prop} {x x' : Exec α} {f f' : α → Exec β}
    (hx : OutcomesAgree low fine G (x m) (x' m'))
    (hf : ∀ a m₁ b m₁', G a m₁ b m₁' → OutcomesAgree low fine G' (f a m₁) (f' b m₁')) :
    OutcomesAgree low fine G' ((x >>= f) m) ((x' >>= f') m') := by
  rw [bind_apply, bind_apply]
  generalize x m = r at hx ⊢
  generalize x' m' = r' at hx ⊢
  cases hx with
  | done h => exact hf _ _ _ _ h
  | failed hu hu' hm => exact .failed hu hu' hm
  | waits hm => exact .waits hm
  | lacks hlow => exact .lacks hlow

theorem annotated {x x' : Exec α} (span : Span) (hx : OutcomesAgree low fine G (x m) (x' m'))
    (hfine : ∀ m t, fine m → fine { m with panicTrace := t }) :
    OutcomesAgree low fine G (Program.annotated span x m) (Program.annotated span x' m') := by
  unfold Program.annotated
  generalize x m = r at hx ⊢
  generalize x' m' = r' at hx ⊢
  cases hx with
  | done h => exact .done h
  | failed hu hu' hm =>
    cases hu with
    | panic e =>
      cases hu' with
      | panic e' => exact .failed (.panic e) (.panic e') (hfine _ _ hm)
      | fatal e' => exact .failed (.panic e) (.fatal _) (hfine _ _ hm)
    | fatal e =>
      cases hu' with
      | panic e' => exact .failed (.fatal _) (.panic e') hm
      | fatal e' => exact .failed (.fatal _) (.fatal _) hm
  | waits hm => exact .waits hm
  | lacks hlow => exact .lacks hlow

end OutcomesAgree

-- What is known of a package where one of its units starts to run.
structure Side where
  heap : Heap
  scope : ScopeId
  boxes : Heap.Boxes
  env : Heap.Env

namespace Side

-- The unit `k` has not come to its end before: it has made no cells, and its names are free.
structure Ready (c : Side) (k : Nat) (names : List String) : Prop where
  knows : c.heap.Knows c.scope c.boxes c.env
  free : c.boxes k = []
  unbound : ∀ x ∈ names, c.env x = none

-- The cells that units have made, with those of the unit that is running.
def boxesAt (c : Side) (k : Nat) (h : Heap) : Heap.Boxes :=
  Function.update c.boxes k (Heap.temporaries c.heap c.scope h)

def sources (c : Side) (k : Nat) (h : Heap) : Sources := h.sourcesOf c.scope (c.boxesAt k h)

-- Whatever the unit has done so far, it has bound nothing.
def Fine (c : Side) (m : Machine) : Prop := Heap.Evolves c.scope c.heap m.heap

variable {c : Side} {k : Nat} {names : List String} {h h' : Heap} {v : Value} {r : Reading}

theorem Ready.knows_at (hc : c.Ready k names) (he : Heap.Evolves c.scope c.heap h) :
    h.Knows c.scope (c.boxesAt k h) c.env := hc.knows.recordTemporaries he hc.free

theorem retains (he : Heap.Evolves c.scope c.heap h) (he' : Heap.Evolves c.scope h h') :
    Heap.Retains h (c.sources k h) h' (c.sources k h') := by
  refine he'.retains fun j => ?_
  unfold boxesAt
  by_cases hj : j = k
  · subst hj
    rw [Function.update_self, Function.update_self,
      he'.temporaries_append c.heap he.spares.cells_size]
    exact List.prefix_append _ _
  · simp only [Function.update_of_ne hj, List.prefix_rfl]

theorem boxesAt_eq (hs : Heap.SameCells c.scope h h') : c.boxesAt k h' = c.boxesAt k h := by
  unfold boxesAt
  rw [hs.temporaries_eq]

theorem sources_eq (hs : Heap.SameCells c.scope h h') : c.sources k h' = c.sources k h := by
  unfold sources
  rw [boxesAt_eq hs, hs.sources_eq]

-- How a pointer to a variable reads.
theorem gives_address (hc : Heap.Evolves c.scope c.heap h) {x : String} {a : Nat}
    (hs : Heap.Knows.Shared c.scope x h h' a) (hv : h.local? c.scope x = some v)
    (hr : h.Gives (c.sources k h) v r) :
    h'.Gives (c.sources k h') (.pointer (some a)) ⟨.pointer (some 0), some (.variable x), [r]⟩ := by
  have hv' := hs.evolves.spares.local? hv
  unfold Heap.local? at hv'
  rw [hs.held] at hv'
  exact .pointer _ _ a _ v r rfl (.held hs.held) hv' (hr.retained (retains hc hs.evolves))

-- How a pointer to a new cell reads.
theorem gives_box (hc : c.Ready k names) (hfine : Heap.Evolves c.scope c.heap h)
    (hr : h.Gives (c.sources k h) v r) :
    (Heap.box v h).2.Gives (c.sources k (Heap.box v h).2) (.pointer (some (h.cells.size + 1)))
      ⟨.pointer (some 0), some (.temporary k (Heap.temporaries c.heap c.scope h).length), [r]⟩ := by
  have hk := hc.knows_at hfine
  have he := hk.evolves_box v
  refine .pointer _ _ (h.cells.size + 1) _ v r rfl (.made ?_) ?_ (hr.retained (retains hfine he))
  · unfold boxesAt
    rw [Function.update_self, he.temporaries_append c.heap hfine.spares.cells_size,
      hk.temporaries_box, List.getElem?_append_right (Nat.le_refl _), Nat.sub_self]
    rfl
  · change Heap.read? { h with cells := h.cells.push (.boxed v) } (.cell (h.cells.size + 1)) = _
    simp [Heap.read?, Heap.cell?]

end Side

-- The same unit in the middle of its run in two machines. What it has on the stack reads the same,
-- and it has made as many cells in the one as in the other.
structure SideBySide (k : Nat) (c c' : Side) (m m' : Machine) : Prop where
  left : c.Fine m
  right : c'.Fine m'
  scope : m.frame.scope = c.scope
  scope' : m'.frame.scope = c'.scope
  count : (Heap.temporaries c.heap c.scope m.heap).length =
    (Heap.temporaries c'.heap c'.scope m'.heap).length
  operands : List.Forall₂ (Heap.Alike m.heap (c.sources k m.heap) m'.heap (c'.sources k m'.heap))
    m.frame.operands m'.frame.operands

-- Two packages in which the same unit can run, and of which the variables that both have read the
-- same. With `low` the second one has every variable of the first one.
structure Matched (low : Prop) (k : Nat) (names : List String) (c c' : Side) : Prop where
  left : c.Ready k names
  right : c'.Ready k names
  agree : ∀ x r r', c.env x = some r → c'.env x = some r' → r = r'
  low : low → ∀ x, c'.env x = none → c.env x = none

namespace SideBySide

open Heap (Alike Evolves temporaries)

variable {low : Prop} {k : Nat} {names : List String} {c c' : Side} {m m' : Machine}
  {v v' : Value} {vs vs' : List Value} {h h' : Heap}

-- What read the same still does after both heaps have changed.
theorem later (hb : SideBySide k c c' m m') (he : Evolves c.scope m.heap h)
    (he' : Evolves c'.scope m'.heap h')
    (hv : Alike m.heap (c.sources k m.heap) m'.heap (c'.sources k m'.heap) v v') :
    Alike h (c.sources k h) h' (c'.sources k h') v v' := by
  obtain ⟨r, hr, hr'⟩ := hv
  exact ⟨r, hr.retained (Side.retains hb.left he), hr'.retained (Side.retains hb.right he')⟩

theorem moves (hb : SideBySide k c c' m m') (he : Evolves c.scope m.heap h)
    (he' : Evolves c'.scope m'.heap h')
    (hcount : (temporaries m.heap c.scope h).length = (temporaries m'.heap c'.scope h').length) :
    SideBySide k c c' { m with heap := h } { m' with heap := h' } where
  left := hb.left.trans he
  right := hb.right.trans he'
  scope := hb.scope
  scope' := hb.scope'
  count := by
    rw [he.temporaries_append c.heap hb.left.spares.cells_size,
      he'.temporaries_append c'.heap hb.right.spares.cells_size, List.length_append,
      List.length_append, hb.count, hcount]
  operands := hb.operands.imp fun _ _ => hb.later he he'

theorem withOperands (hb : SideBySide k c c' m m')
    (hvs : List.Forall₂ (Alike m.heap (c.sources k m.heap) m'.heap (c'.sources k m'.heap)) vs vs') :
    SideBySide k c c' { m with frame := { m.frame with operands := vs } }
      { m' with frame := { m'.frame with operands := vs' } } :=
  ⟨hb.left, hb.right, hb.scope, hb.scope', hb.count, hvs⟩

theorem push (hb : SideBySide k c c' m m')
    (hv : Alike m.heap (c.sources k m.heap) m'.heap (c'.sources k m'.heap) v v') :
    OutcomesAgree low c.Fine (fun _ m₁ _ m₁' => SideBySide k c c' m₁ m₁') (Exec.push v m)
    (Exec.push v' m') :=
  .done (hb.withOperands (.cons hv hb.operands))

theorem fatal (hb : SideBySide k c c' m m') {G : α → Machine → α → Machine → Prop} (e e' : Fatal) :
    OutcomesAgree low c.Fine G (Exec.fatal e m) (Exec.fatal e' m') :=
  .failed (.fatal _) (.fatal _) hb.left

theorem raise (hm : Matched low k names c c') (hb : SideBySide k c c' m m')
    {G : α → Machine → α → Machine → Prop} (e : Failure) :
    OutcomesAgree low c.Fine G (Exec.raise e m) (Exec.raise e m') := by
  cases e with
  | fault f =>
    exact .failed (.panic _) (.panic _)
      (hb.left.trans ((hm.left.knows_at hb.left).evolves_newError f.message true))
  | fatal e => exact .failed (.fatal _) (.fatal _) hb.left

theorem ofExcept (hm : Matched low k names c c') (hb : SideBySide k c c' m m')
    {G : α → Machine → α → Machine → Prop} {x x' : Except Failure α} (hx : x' = x)
    (hgood : ∀ a, x = .ok a → G a m a m') :
    OutcomesAgree low c.Fine G (Exec.ofExcept x m) (Exec.ofExcept x' m') := by
  subst hx
  cases x' with
  | error e => exact raise hm hb e
  | ok a => exact .done (hgood a rfl)

-- A value is taken off the stack.
structure Popped (k : Nat) (c c' : Side) (m m' : Machine) (v : Value) (m₁ : Machine) (v' : Value)
    (m₁' : Machine) : Prop where
  beside : SideBySide k c c' m₁ m₁'
  heap : m₁.heap = m.heap
  heap' : m₁'.heap = m'.heap
  value : Alike m.heap (c.sources k m.heap) m'.heap (c'.sources k m'.heap) v v'

theorem pop (hb : SideBySide k c c' m m') :
    OutcomesAgree low c.Fine (Popped k c c' m m') (Exec.pop m) (Exec.pop m') := by
  have hops := hb.operands
  unfold Exec.pop
  rw [bind_of_ok (Exec.frame_apply m), bind_of_ok (Exec.frame_apply m')]
  cases hs : m.frame.operands with
  | nil =>
    rw [hs] at hops
    rw [List.forall₂_nil_left_iff.mp hops]
    exact hb.fatal _ _
  | cons v rest =>
    rw [hs] at hops
    obtain ⟨v', rest', hv, hrest, hs'⟩ := List.forall₂_cons_left_iff.mp hops
    rw [hs']
    exact .done ⟨hb.withOperands hrest, rfl, rfl, hv⟩

end SideBySide

end StepGraph

namespace StepGraph

variable {α β : Type}

namespace SideBySide

open Heap (Alike Evolves temporaries)

variable {low : Prop} {k : Nat} {names : List String} {c c' : Side} {m m' : Machine}
  {v v' : Value} {p p' : Program}

-- Both are still beside each other after the operation.
abbrev Stays (low : Prop) (k : Nat) (c c' : Side) (x x' : EStateM.Result Unwind Machine α) : Prop :=
  OutcomesAgree low c.Fine (fun _ m₁ _ m₁' => SideBySide k c c' m₁ m₁') x x'

-- A variable that both packages have holds alike values.
theorem variable_alike (hm : Matched low k names c c') (hb : SideBySide k c c' m m') {x : String}
    (hv : m.heap.local? c.scope x = some v) (hv' : m'.heap.local? c'.scope x = some v') :
    Alike m.heap (c.sources k m.heap) m'.heap (c'.sources k m'.heap) v v' := by
  obtain ⟨r, hx, hr⟩ := (hm.left.knows_at hb.left).bound_of_local? hv
  obtain ⟨r', hx', hr'⟩ := (hm.right.knows_at hb.right).bound_of_local? hv'
  obtain rfl := hm.agree x r r' hx hx'
  exact ⟨r, hr, hr'⟩

-- A variable that is looked up may be missing in one of the packages.
theorem lookups (hm : Matched low k names c c') (hb : SideBySide k c c' m m')
    (hp : p.initializing = true) (hp' : p'.initializing = true) (x : String) {f f' : Value → Exec α}
    {G : α → Machine → α → Machine → Prop}
    (hf : ∀ v v', m.heap.local? c.scope x = some v → m'.heap.local? c'.scope x = some v' →
      OutcomesAgree low c.Fine G (f v m) (f' v' m')) :
    OutcomesAgree low c.Fine G
      ((match m.heap.local? c.scope x with
        | some v => f v
        | none => p.undefined x) m)
      ((match m'.heap.local? c'.scope x with
        | some v => f' v
        | none => p'.undefined x) m') := by
  have hundefined : ∀ {p : Program} {m : Machine}, p.initializing = true →
      (p.undefined x : Exec α) m = .error (.undeclared x) m := by
    intro p m hp
    unfold Program.undefined
    rw [if_pos hp]
    rfl
  cases hv : m.heap.local? c.scope x with
  | none =>
    simp only [hundefined hp]
    exact .waits hb.left
  | some v =>
    cases hv' : m'.heap.local? c'.scope x with
    | none =>
      simp only [hundefined hp']
      refine .lacks fun hlow => ?_
      obtain ⟨r, hx, -⟩ := (hm.left.knows_at hb.left).bound_of_local? hv
      have hx' : c'.env x = none := by
        cases hx' : c'.env x with
        | none => rfl
        | some r' =>
          obtain ⟨w, hw, -⟩ := (hm.right.knows_at hb.right).bound hx'
          rw [hv'] at hw
          cases hw
      rw [hm.low hlow x hx'] at hx
      cases hx
    | some v' => exact hf v v' hv hv'

theorem work_const (hm : Matched low k names c c') (hb : SideBySide k c c' m m') (a : Constant) :
    Stays low k c c' (p.work (.const a) m) (p'.work (.const a) m') := by
  have hmakes := Heap.makes_ofConstant a m.heap (c.sources k m.heap)
  have hmakes' := Heap.makes_ofConstant a m'.heap (c'.sources k m'.heap)
  have hsame := Heap.SameCells.of_grows hmakes.grows c.scope
  have hsame' := Heap.SameCells.of_grows hmakes'.grows c'.scope
  have hmoved := hb.moves ((hm.left.knows_at hb.left).evolves_grows hmakes.grows)
    ((hm.right.knows_at hb.right).evolves_grows hmakes'.grows) (by
      rw [hsame.temporaries_eq, hsame'.temporaries_eq, Heap.temporaries_self,
        Heap.temporaries_self])
  change Stays low k c c' (Exec.push (Heap.ofConstant a m.heap).1 { m with heap := _ })
    (Exec.push (Heap.ofConstant a m'.heap).1 { m' with heap := _ })
  refine hmoved.push ⟨Heap.reading a, ?_, ?_⟩
  · change Heap.Gives _ (c.sources k (Heap.ofConstant a m.heap).2) _ _
    rw [Side.sources_eq hsame]
    exact hmakes.gives
  · change Heap.Gives _ (c'.sources k (Heap.ofConstant a m'.heap).2) _ _
    rw [Side.sources_eq hsame']
    exact hmakes'.gives

theorem work_load (hm : Matched low k names c c') (hb : SideBySide k c c' m m')
    (hp : p.initializing = true) (hp' : p'.initializing = true) (x : String) :
    Stays low k c c' (p.work (.load x) m) (p'.work (.load x) m') := by
  unfold Program.work
  simp only [bind_apply, Exec.heap_apply, Exec.currentScope_apply, hb.scope, hb.scope',
    Heap.lookup_of_root (hm.left.knows_at hb.left).root,
    Heap.lookup_of_root (hm.right.knows_at hb.right).root]
  exact hb.lookups hm hp hp' x fun v v' hv hv' => hb.push (hb.variable_alike hm hv hv')

-- A result that refers to nothing on the heap.
theorem pushes_basic (hm : Matched low k names c c') (hb : SideBySide k c c' m m')
    {x x' : Except Failure Value} (hx : x' = x) (hbasic : YieldsBasic x) :
    Stays low k c c' ((Exec.ofExcept x >>= Exec.push) m) ((Exec.ofExcept x' >>= Exec.push) m') := by
  refine OutcomesAgree.bind (ofExcept hm hb hx (G := fun v m₁ v' m₁' =>
    v' = v ∧ Value.isPlain v.unwrap ∧ m₁ = m ∧ m₁' = m') ?_) ?_
  · exact fun v hv => ⟨rfl, hbasic.plain hv, rfl, rfl⟩
  · rintro v _ _ _ ⟨rfl, hv, rfl, rfl⟩
    exact hb.push (Heap.alike_of_isPlain hv)

theorem work_binary (hm : Matched low k names c c') (hb : SideBySide k c c' m m') (op : BinaryOp)
    (resolved : Option Family) :
    Stays low k c c' (p.work (.binary op resolved) m) (p'.work (.binary op resolved) m') := by
  change Stays low k c c' ((Exec.pop >>= fun r => Exec.pop >>= fun l => _) m)
    ((Exec.pop >>= fun r => Exec.pop >>= fun l => _) m')
  refine hb.pop.bind fun r m₁ r' m₁' hr => hr.beside.pop.bind fun l m₂ l' m₂' hl => ?_
  have hl' := hl.value
  have hr' := hr.value
  rw [hr.heap, hr.heap'] at hl'
  cases resolved with
  | some family =>
    refine hl.beside.pushes_basic hm ?_ (Family.yieldsBasic_apply op l r family)
    rw [← Family.apply_outline, ← hl'.outline_eq, ← hr'.outline_eq, Family.apply_outline]
  | none =>
    refine hl.beside.pushes_basic hm ?_ (yieldsBasic_evaluateBinary _ op l r)
    rw [hl.heap.trans hr.heap, hl.heap'.trans hr.heap']
    exact (hl'.evaluateBinary_eq (hm.left.knows_at hb.left).tells
      (hm.right.knows_at hb.right).tells op hr').symm

-- The address of a variable that is there.
theorem addressOfVariable_eq {boxes : Heap.Boxes} {env : Heap.Env} {s : ScopeId}
    (hk : m.heap.Knows s boxes env) (hs : m.frame.scope = s) (x : String) :
    p.addressOfVariable x m = (match m.heap.local? s x with
      | some _ => do return (← (Heap.variableAddress s x : HeapM (Option Address))).getD 0
      | none => p.undefined x : Exec Address) m := by
  unfold Program.addressOfVariable
  rw [bind_of_ok (Exec.heap_apply m), bind_of_ok (Exec.currentScope_apply m), hs,
    Heap.owner?_of_root hk.root]
  cases hx : env x with
  | none =>
    rw [hk.unbound hx, hk.local?_of_unbound hx]
    rfl
  | some r =>
    obtain ⟨v, hv, -⟩ := hk.bound hx
    obtain ⟨a, ha, -⟩ := hk.shared_variableAddress hx
    have hbound : (m.heap.binding? s x).isSome = true := by
      cases hb : m.heap.binding? s x with
      | none =>
        unfold Heap.local? at hv
        rw [hb] at hv
        cases hv
      | some b => rfl
    rw [hbound, hv]
    simp only [if_true, bind_apply, Exec.monadLift_apply, ha]
    rfl

-- The pointer to a variable.
theorem work_addressOf (hm : Matched low k names c c') (hb : SideBySide k c c' m m')
    (hp : p.initializing = true) (hp' : p'.initializing = true) (x : String) :
    Stays low k c c' (p.work (.addressOf (.var x)) m) (p'.work (.addressOf (.var x)) m') := by
  have hk := hm.left.knows_at hb.left
  have hk' := hm.right.knows_at hb.right
  change OutcomesAgree _ _ _ ((p.addressOfVariable x >>= fun a => Exec.push (.pointer (some a))) m)
    ((p'.addressOfVariable x >>= fun a => Exec.push (.pointer (some a))) m')
  refine OutcomesAgree.bind (G := fun a m₁ a' m₁' => SideBySide k c c' m₁ m₁' ∧
    Alike m₁.heap (c.sources k m₁.heap) m₁'.heap (c'.sources k m₁'.heap) (.pointer (some a))
      (.pointer (some a'))) ?_ fun a m₁ a' m₁' ha => ha.1.push ha.2
  rw [addressOfVariable_eq hk hb.scope, addressOfVariable_eq hk' hb.scope']
  refine hb.lookups hm hp hp' x fun v v' hv hv' => ?_
  obtain ⟨r, hx, hr⟩ := hk.bound_of_local? hv
  obtain ⟨r', hx', hr'⟩ := hk'.bound_of_local? hv'
  obtain rfl := hm.agree x r r' hx hx'
  obtain ⟨a, ha, hs⟩ := hk.shared_variableAddress hx
  obtain ⟨a', ha', hs'⟩ := hk'.shared_variableAddress hx'
  simp only [bind_apply, Exec.monadLift_apply, ha, ha']
  exact .done ⟨hb.moves hs.evolves hs'.evolves (by rw [hs.none, hs'.none]),
    _, Side.gives_address hb.left hs hv hr, Side.gives_address hb.right hs' hv' hr'⟩

-- A cell of its own for a value.
theorem pushes_box (hm : Matched low k names c c') (hb : SideBySide k c c' m m')
    (hv : Alike m.heap (c.sources k m.heap) m'.heap (c'.sources k m'.heap) v v') :
    Stays low k c c' ((do Exec.push (.pointer (some (← Heap.box v))) : Exec Unit) m)
      ((do Exec.push (.pointer (some (← Heap.box v'))) : Exec Unit) m') := by
  have hk := hm.left.knows_at hb.left
  have hk' := hm.right.knows_at hb.right
  have hmoved := hb.moves (hk.evolves_box v) (hk'.evolves_box v')
    (by rw [hk.temporaries_box, hk'.temporaries_box]; rfl)
  obtain ⟨r, hr, hr'⟩ := hv
  change Stays low k c c' (Exec.push (.pointer (some (m.heap.cells.size + 1))) { m with heap := _ })
    (Exec.push (.pointer (some (m'.heap.cells.size + 1))) { m' with heap := _ })
  refine hmoved.push ⟨_, Side.gives_box hm.left hb.left hr, ?_⟩
  rw [hb.count]
  exact Side.gives_box hm.right hb.right hr'

-- Why nothing is behind a value that is not a pointer.
def noPointee : Value → Failure
  | .pointer _ | .nil => .fault .nilDereference
  | w => .notDefined "*" w.kindName

theorem deref_of_no_address (hv : v.unwrap.address? = none) (m : Machine) :
    Program.deref v m = Exec.raise (noPointee v.unwrap.outline) m := by
  unfold Program.deref
  generalize v.unwrap = w at hv ⊢
  cases w using Value.outline_cases with
  | same h =>
    cases w with
    | pointer a =>
      cases a with
      | none => rfl
      | some a => cases hv
    | _ => rfl
  | pointer a => cases hv
  | named t w =>
    change Exec.notDefined "*" w.kindName m = Exec.notDefined "*" w.outline.kindName m
    rw [Value.kindName_outline]
  | _ => rfl

theorem deref_of_address {a : Address} {w : Value} (hv : v.unwrap.address? = some a)
    (hw : m.heap.read? (.cell a) = some w) : Program.deref v m = .ok w m := by
  have hload : m.heap.load a = .ok w := by
    unfold Heap.load
    unfold Heap.read? at hw
    simp only at hw
    cases hc : m.heap.cell? a with
    | none =>
      rw [hc] at hw
      cases hw
    | some cell =>
      rw [hc] at hw
      cases cell with
      | boxed x =>
        cases hw
        simp [Heap.placeOf, Heap.read?, hc]
      | slot => cases hw
  have hpointer : v.unwrap = .pointer (some a) := by
    generalize v.unwrap = x at hv ⊢
    cases x with
    | pointer b =>
      cases hv
      rfl
    | _ => cases hv
  unfold Program.deref
  rw [hpointer]
  change Exec.ofExcept (m.heap.load a) m = _
  rw [hload]
  rfl

theorem deref (hm : Matched low k names c c') (hb : SideBySide k c c' m m')
    (hv : Alike m.heap (c.sources k m.heap) m'.heap (c'.sources k m'.heap) v v') :
    OutcomesAgree low c.Fine (fun w m₁ w' m₁' => m₁ = m ∧ m₁' = m' ∧
      Alike m.heap (c.sources k m.heap) m'.heap (c'.sources k m'.heap) w w')
      (Program.deref v m) (Program.deref v' m') := by
  rcases hv.pointee with ⟨hnone, hnone'⟩ | ⟨a, a', w, w', ha, ha', hw, hw', halike⟩
  · rw [deref_of_no_address hnone, deref_of_no_address hnone', ← Value.unwrap_outline,
      ← Value.unwrap_outline, hv.outline_eq]
    exact raise hm hb _
  · rw [deref_of_address ha hw, deref_of_address ha' hw']
    exact .done ⟨rfl, rfl, halike⟩

theorem work_deref (hm : Matched low k names c c') (hb : SideBySide k c c' m m') :
    Stays low k c c' (p.work .deref m) (p'.work .deref m') := by
  change OutcomesAgree _ _ _ ((Exec.pop >>= fun v => Program.deref v >>= Exec.push) m)
    ((Exec.pop >>= fun v => Program.deref v >>= Exec.push) m')
  refine hb.pop.bind fun v m₁ v' m₁' hv => ?_
  have hv' := hv.value
  rw [← hv.heap, ← hv.heap'] at hv'
  refine (hv.beside.deref hm hv').bind ?_
  rintro w _ w' _ ⟨rfl, rfl, hw⟩
  exact hv.beside.push hw

-- Why nothing comes out of a value that is no channel.
def noMessage : Value → Failure
  | .chan none | .nil => .fatal .deadlock
  | w => .notDefined "<-" w.kindName

theorem receive_of_no_chan (hv : ∀ c, v.unwrap ≠ .chan (some c)) (m : Machine) :
    Program.receive v m = Exec.raise (noMessage v.unwrap.outline) m := by
  unfold Program.receive
  generalize v.unwrap = w at hv ⊢
  cases w using Value.outline_cases with
  | same h =>
    cases w with
    | chan c =>
      cases c with
      | none => rfl
      | some c => exact absurd rfl (hv c)
    | _ => rfl
  | named t w =>
    change Exec.notDefined "<-" w.kindName m = Exec.notDefined "<-" w.outline.kindName m
    rw [Value.kindName_outline]
  | _ => rfl

theorem work_recv (hm : Matched low k names c c') (hb : SideBySide k c c' m m') (commaOk : Bool) :
    Stays low k c c' (p.work (.recv commaOk) m) (p'.work (.recv commaOk) m') := by
  change OutcomesAgree _ _ _ ((Exec.pop >>= fun v => Program.receive v >>= _) m)
    ((Exec.pop >>= fun v => Program.receive v >>= _) m')
  refine hb.pop.bind fun v m₁ v' m₁' hv => ?_
  have hv' := hv.value
  obtain ⟨r, hr, hr'⟩ := hv.value
  rw [bind_apply, bind_apply, receive_of_no_chan hr.ne_chan,
    receive_of_no_chan hr'.ne_chan, ← Value.unwrap_outline, ← Value.unwrap_outline, hv'.outline_eq,
    ← bind_apply, ← bind_apply]
  exact (raise hm hv.beside _).bind (G := fun _ _ _ _ => False) fun _ _ _ _ h => h.elim

theorem work_unary (hm : Matched low k names c c') (hb : SideBySide k c c' m m') {op : UnaryOp}
    (hop : op ≠ .deref ∧ op ≠ .recv ∧ op ≠ .addrOf) :
    Stays low k c c' (p.work (.unary op) m) (p'.work (.unary op) m') := by
  have hunary : ∀ v, Program.unary op v = Exec.ofExcept (evaluateUnary op v) := by
    intro v
    unfold Program.unary
    split
    · exact absurd rfl hop.1
    · exact absurd rfl hop.2.1
    · exact absurd rfl hop.2.2
    · rfl
  change OutcomesAgree _ _ _ ((Exec.pop >>= fun v => Program.unary op v >>= Exec.push) m)
    ((Exec.pop >>= fun v => Program.unary op v >>= Exec.push) m')
  refine hb.pop.bind fun v m₁ v' m₁' hv => ?_
  rw [hunary, hunary]
  refine hv.beside.pushes_basic hm ?_ (yieldsBasic_evaluateUnary op v)
  rw [← evaluateUnary_outline, ← hv.value.outline_eq, evaluateUnary_outline]

theorem work_box (hm : Matched low k names c c') (hb : SideBySide k c c' m m') :
    Stays low k c c' (p.work (.addressOf .value) m) (p'.work (.addressOf .value) m') := by
  change OutcomesAgree _ _ _
    (((Exec.pop >>= fun v => (Heap.box v : HeapM Address)) >>=
      fun a => Exec.push (.pointer (some a))) m)
    (((Exec.pop >>= fun v => (Heap.box v : HeapM Address)) >>=
      fun a => Exec.push (.pointer (some a))) m')
  rw [bind_assoc]
  refine hb.pop.bind fun v m₁ v' m₁' hv => ?_
  have hv' := hv.value
  rw [← hv.heap, ← hv.heap'] at hv'
  exact hv.beside.pushes_box hm hv'

-- The value on top of the stack, which stays there.
theorem top (hb : SideBySide k c c' m m') :
    OutcomesAgree low c.Fine (fun v m₁ v' m₁' => m₁ = m ∧ m₁' = m' ∧
      Alike m.heap (c.sources k m.heap) m'.heap (c'.sources k m'.heap) v v')
      (Exec.top m) (Exec.top m') := by
  have hops := hb.operands
  unfold Exec.top
  rw [bind_of_ok (Exec.frame_apply m), bind_of_ok (Exec.frame_apply m')]
  cases hs : m.frame.operands with
  | nil =>
    rw [hs] at hops
    rw [List.forall₂_nil_left_iff.mp hops]
    exact hb.fatal _ _
  | cons v rest =>
    rw [hs] at hops
    obtain ⟨v', rest', hv, -, hs'⟩ := List.forall₂_cons_left_iff.mp hops
    rw [hs']
    exact .done ⟨rfl, rfl, hv⟩

-- Both go on to the same step, and what they have on the stack reads the same.
structure Abreast (k : Nat) (c c' : Side) (op : StepOp) (n : Program.Next) (m : Machine)
    (n' : Program.Next) (m' : Machine) : Prop where
  same : n' = n
  forward : n = .next ∨ (op.gives .other).isSome ∧ n = .goto op.other?
  beside : SideBySide k c c' m m'

theorem step_shortCircuit (hm : Matched low k names c c') (hb : SideBySide k c c' m m')
    (stop : Bool) (other : Option StepId) :
    OutcomesAgree low c.Fine (Abreast k c c' (.shortCircuit stop other))
      (p.step (.shortCircuit stop other) m) (p'.step (.shortCircuit stop other) m') := by
  change OutcomesAgree _ _ _ ((Exec.top >>= fun v => _) m) ((Exec.top >>= fun v => _) m')
  refine hb.top.bind ?_
  rintro v m v' m' ⟨rfl, rfl, hv⟩
  have hbool : v'.bool? = v.bool? := by
    rw [← Value.bool?_outline v', ← hv.outline_eq, Value.bool?_outline]
  have hkind : v'.kindName = v.kindName := by
    rw [← Value.kindName_outline v', ← hv.outline_eq, Value.kindName_outline]
  rw [hbool, hkind]
  cases v.bool? with
  | none => exact raise hm hb _
  | some b =>
    by_cases hstop : b = stop
    · simp only [if_pos hstop]
      exact .done ⟨rfl, .inr ⟨rfl, rfl⟩, hb⟩
    · simp only [if_neg hstop]
      change OutcomesAgree _ _ _ ((discard Exec.pop >>= fun _ => pure Program.Next.next) m)
        ((discard Exec.pop >>= fun _ => pure Program.Next.next) m')
      refine OutcomesAgree.bind (G := fun _ m₁ _ m₁' => SideBySide k c c' m₁ m₁') ?_
        fun _ m₁ _ m₁' hb => .done ⟨rfl, .inl rfl, hb⟩
      change OutcomesAgree _ _ _ ((Exec.pop >>= fun _ => pure ()) m)
        ((Exec.pop >>= fun _ => pure ()) m')
      exact hb.pop.bind fun _ _ _ _ hv => .done hv.beside

end SideBySide

-- The steps of expressions that consist of literals, names and operators.
def StepOp.isPure : StepOp → Bool
  | const _ | load _ | binary .. | deref | recv _ | shortCircuit .. | addressOf (.var _)
  | addressOf .value => true
  | unary op => !(op == .deref || op == .recv || op == .addrOf)
  | _ => false

namespace SideBySide

variable {low : Prop} {k : Nat} {names : List String} {c c' : Side} {m m' : Machine}
  {p p' : Program}

theorem step_isPure (hm : Matched low k names c c') (hb : SideBySide k c c' m m')
    (hp : p.initializing = true) (hp' : p'.initializing = true) {op : StepOp}
    (hop : op.isPure = true) :
    OutcomesAgree low c.Fine (Abreast k c c' op) (p.step op m) (p'.step op m') := by
  have hwork : Stays low k c c' (p.work op m) (p'.work op m') →
      OutcomesAgree low c.Fine (Abreast k c c' op) ((p.work op >>= fun _ => pure .next) m)
        ((p'.work op >>= fun _ => pure .next) m') :=
    fun h => h.bind fun _ _ _ _ hb => .done ⟨rfl, .inl rfl, hb⟩
  cases op with
  | const a => exact hwork (hb.work_const hm a)
  | load x => exact hwork (hb.work_load hm hp hp' x)
  | binary op resolved => exact hwork (hb.work_binary hm op resolved)
  | deref => exact hwork (hb.work_deref hm)
  | recv commaOk => exact hwork (hb.work_recv hm commaOk)
  | shortCircuit stop other => exact hb.step_shortCircuit hm stop other
  | addressOf kind =>
    cases kind with
    | var x => exact hwork (hb.work_addressOf hm hp hp' x)
    | value => exact hwork (hb.work_box hm)
    | _ => cases hop
  | unary op =>
    refine hwork (hb.work_unary hm ?_)
    simpa [StepOp.isPure, and_assoc] using hop
  | _ => cases hop

end SideBySide

end StepGraph

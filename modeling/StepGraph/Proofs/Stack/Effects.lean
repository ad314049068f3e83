import StepGraph.Proofs.Compile.Emit
import StepGraph.Proofs.Machine.Steps
import Mathlib.Algebra.GroupWithZero.Nat

open EStateM (bind_apply bind_of_ok bind_eq_ok map_apply)

namespace StepGraph

variable {α β : Type}

-- What lies on the operand stack: one value, or the results of a call with their number on top.
inductive Item where
  | one | group
  deriving DecidableEq

-- The top comes first.
abbrev Arity.items : Arity → List Item
  | .fixed n => List.replicate n .one
  | .forwarded => [.group]

def CallResults.items : CallResults → List Item
  | .discard => []
  | .one => [.one]
  | .forward => [.group]

-- A number of values that a word can tell.
def Countable (n : Nat) : Prop := n < pow2 63

-- The operands lie so on top of the given ones.
inductive OperandsLie (base : List Value) : List Item → List Value → Prop
  | base : OperandsLie base [] base
  | one {items : List Item} {vs : List Value} (v : Value) (hrest : OperandsLie base items vs) :
      OperandsLie base (.one :: items) (v :: vs)
  | group {items : List Item} {rest : List Value} (vs : List Value) (hcount : Countable vs.length)
      (hrest : OperandsLie base items rest) :
      OperandsLie base (.group :: items) (.plainInt vs.length :: (vs ++ rest))

namespace OperandsLie

variable {base vs : List Value} {items : List Item} {n : Nat}

theorem nil_iff : OperandsLie base [] vs ↔ vs = base := by
  refine ⟨fun h => ?_, fun h => h ▸ .base⟩
  cases h
  rfl

theorem ones (h : OperandsLie base (List.replicate n .one ++ items) vs) :
    n ≤ vs.length ∧ OperandsLie base items (vs.drop n) := by
  induction n generalizing vs with
  | zero => exact ⟨Nat.zero_le _, h⟩
  | succ n ih =>
      cases h with
      | one v hrest =>
          obtain ⟨hle, hdrop⟩ := ih hrest
          exact ⟨Nat.succ_le_succ hle, hdrop⟩

theorem top_group (h : OperandsLie base (.group :: items) vs) : ∃ ws rest : List Value,
    vs = .plainInt ws.length :: (ws ++ rest) ∧ Countable ws.length ∧
    OperandsLie base items rest := by
  cases h with
  | group ws hcount hrest => exact ⟨ws, _, rfl, hcount, hrest⟩

end OperandsLie

theorem int?_plainInt {n : Nat} (h : Countable n) : (Value.plainInt n).int?.map (·.val) = some ↑n := by
  have hholds : IntKind.Holds .int n := by
    have hlow : IntKind.lowest .int = -(pow2 63 : Int) := rfl
    have hmod : ((IntKind.modulus .int : Nat) : Int) = pow2 63 * 2 := by
      exact_mod_cast pow2_succ 63
    have hlt : (n : Int) < pow2 63 := by exact_mod_cast h
    have hpos : (0 : Int) < pow2 63 := by exact_mod_cast pow2_pos 63
    unfold IntKind.Holds
    rw [hlow, hmod]
    omega
  change some (IntKind.wrap .int n) = some ↑n
  rw [IntKind.wrap_of_holds hholds]

-- An operation that finds its operands as `items` tells and leaves them as `left` tells. It does
-- not miss any operand.
def Exec.Stacks (base : List Value) (items : List Item) (left : α → List Item) (x : Exec α) :
    Prop :=
  ∀ m, OperandsLie base items m.frame.operands → match x m with
    | .ok a m' => OperandsLie base (left a) m'.frame.operands
    | .error u _ => ¬ u.Underflows

namespace Exec

variable {base : List Value} {items left rest : List Item}

namespace Stacks

theorem quiet {x : Exec α} (hx : Quiet.trait.Holds x) : Stacks base items (fun _ => items) x := by
  intro m h
  have hm := hx m
  cases hr : x m with
  | ok a m₁ =>
      rw [hr] at hm
      change OperandsLie base items m₁.frame.operands
      rwa [hm.frame]
  | error u m₁ =>
      rw [hr] at hm
      exact hm.2

-- What never ends well leaves the operands in any way.
theorem quiet_of_ne_ok {x : Exec α} (hx : Quiet.trait.Holds x) (hne : ∀ m a m', x m ≠ .ok a m')
    {left : α → List Item} : Stacks base items left x := by
  intro m _
  have hm := hx m
  cases hr : x m with
  | ok a m₁ => exact absurd hr (hne m a m₁)
  | error u m₁ =>
      rw [hr] at hm
      exact hm.2

theorem fault (f : Fault) {left : α → List Item} : Stacks base items left (fault f) :=
  quiet_of_ne_ok (Quiet.trait.fault f) fun m a m' => fault_ne_ok f m m' a

theorem notDefined (op kind : String) {left : α → List Item} :
    Stacks base items left (notDefined op kind) :=
  quiet_of_ne_ok (Quiet.trait.notDefined op kind) fun m a m' => notDefined_ne_ok op kind m m' a

theorem pure (a : α) : Stacks base items (fun _ => items) (pure a) :=
  quiet (Quiet.trait.pure a)

theorem bind {x : Exec α} {f : α → Exec β} {mid : α → List Item} {left : β → List Item}
    (hx : Stacks base items mid x) (hf : ∀ a, Stacks base (mid a) left (f a)) :
    Stacks base items left (x >>= f) := by
  intro m h
  have hm := hx m h
  rw [bind_apply]
  cases hr : x m with
  | error u m₁ =>
      rw [hr] at hm
      exact hm
  | ok a m₁ =>
      rw [hr] at hm
      exact hf a m₁ hm

theorem map {x : Exec α} (f : α → β) (hx : Stacks base items (fun _ => left) x) :
    Stacks base items (fun _ => left) (f <$> x) := by
  intro m h
  have hm := hx m h
  rw [map_apply]
  cases hr : x m with
  | ok a m₁ | error u m₁ =>
      rw [hr] at hm
      exact hm

theorem discard {x : Exec α} (hx : Stacks base items (fun _ => left) x) :
    Stacks base items (fun _ => left) (discard x) := map _ hx

theorem push (v : Value) : Stacks base items (fun _ => .one :: items) (push v) :=
  fun _ h => .one v h

theorem frame : Stacks base items (fun _ => items) frame := fun _ h => h

theorem setResults (values : List Value) : Stacks base items (fun _ => items)
    (modifyFrame fun fr => { fr with results := some values }) := fun _ h => h

theorem pop : Stacks base (.one :: items) (fun _ => items) pop := by
  intro m h
  unfold Exec.pop
  rw [bind_of_ok (frame_apply m)]
  generalize m.frame.operands = operands at h
  cases h with
  | one v hrest => exact hrest

theorem top : Stacks base (.one :: items) (fun _ => .one :: items) top := by
  intro m h
  unfold Exec.top
  rw [bind_of_ok (frame_apply m)]
  cases hv : m.frame.operands with
  | nil =>
      rw [hv] at h
      cases h
  | cons v vs => exact h

theorem peekN (n : Nat) : Stacks base (List.replicate n .one ++ items)
    (fun _ => List.replicate n .one ++ items) (peekN n) := by
  intro m h
  unfold Exec.peekN
  rw [bind_of_ok (frame_apply m)]
  simp only [if_neg (Nat.not_lt.mpr h.ones.1)]
  exact h

theorem takeN (n : Nat) :
    Stacks base (List.replicate n .one ++ items) (fun _ => items) (takeN n) := by
  intro m h
  unfold Exec.takeN
  rw [bind_of_ok (frame_apply m)]
  simp only [if_neg (Nat.not_lt.mpr h.ones.1)]
  exact h.ones.2

end Stacks

-- The values of a group lie right below their number.
theorem popN_ok {ws vs : List Value} {m : Machine} (h : m.frame.operands = ws ++ vs) :
    popN ws.length m = .ok ws { m with frame := { m.frame with operands := vs } } := by
  induction ws generalizing m with
  | nil =>
      obtain rfl : m.frame.operands = vs := h
      rfl
  | cons w ws ih =>
      have hpop : Exec.pop m = .ok w { m with frame := { m.frame with operands := ws ++ vs } } := by
        unfold Exec.pop
        rw [bind_of_ok (frame_apply m), h]
        rfl
      change (Exec.pop >>= fun v => Exec.popN ws.length >>= fun vs => Pure.pure (v :: vs)) m = _
      rw [bind_of_ok hpop, bind_of_ok (ih rfl)]
      rfl

namespace Stacks

theorem take (arity : Arity) : Stacks base (arity.items ++ items) (fun _ => items) (take arity) := by
  cases arity with
  | fixed n => exact takeN n
  | forwarded =>
      intro m h
      obtain ⟨ws, rest, hv, hcount, hrest⟩ := h.top_group
      have hint := int?_plainInt hcount
      obtain ⟨n, hn, hval⟩ := Option.map_eq_some_iff.mp hint
      have hpop : Exec.pop m = .ok (.plainInt ws.length)
          { m with frame := { m.frame with operands := ws ++ rest } } := by
        unfold Exec.pop
        rw [bind_of_ok (frame_apply m), hv]
        rfl
      have htake : Exec.take .forwarded m =
          .ok ws { m with frame := { m.frame with operands := rest } } := by
        refine (bind_of_ok hpop).trans ?_
        rw [hn]
        simp only [hval, if_neg (Int.not_lt.mpr (Int.natCast_nonneg ws.length)), Int.toNat_natCast]
        exact popN_ok rfl
      rw [htake]
      exact hrest

end Stacks

theorem Stacks.pushResults {results : List Value} (hcount : Countable results.length)
    (wanted : CallResults) : Stacks base items (fun _ => wanted.items ++ items)
      (pushResults results wanted) := by
  cases wanted with
  | discard => exact .pure _
  | one => exact .push _
  | forward =>
      intro m h
      change OperandsLie base (.group :: items)
        (.plainInt results.length :: (results.reverse.reverse ++ m.frame.operands))
      rw [List.reverse_reverse]
      exact .group results hcount h

end Exec

end StepGraph

namespace StepGraph

open Exec (Quiet Stacks)

-- One item, and a second one if a form with two results is asked for.
def pairItems (both : Bool) : List Item := if both then [.one, .one] else [.one]

namespace StepOp

-- The operands that a step takes.
def needs : StepOp → List Item
  | declare _ _ arity | ret arity => arity.items
  | assign targets arity =>
      arity.items ++ List.replicate (targets.map Target.operands).sum .one
  | loadTarget target _ => List.replicate target.operands .one
  | binary .. | index .. | send | addressOf .index => [.one, .one]
  | unary _ | addressOf (.field _) | addressOf .value | deref | branch _ | shortCircuit .. |
    select _ | typeAssert .. | typeTest _ | convert _ | recv _ | rangeInit .. | pop => [.one]
  | call args _ _ => .one :: args.items
  | callBuiltin _ _ args _ _ => args.items
  | slice low high max => List.replicate (max.toNat + high.toNat + low.toNat + 1) .one
  | compose _ shape => List.replicate shape.operands .one
  | _ => []

-- What a step leaves for each of the successors that it can have.
def gives : StepOp → Edge → Option (List Item)
  | branch _, .other | rangeNext .., .other => some []
  | shortCircuit .., .other => some [.one]
  | _, .other => none
  | ret _, .next => none
  | const _, .next | load _, .next | binary .., .next | unary _, .next | addressOf _, .next |
    deref, .next | slice .., .next | select _, .next | compose .., .next | closure _, .next |
    typeTest _, .next | convert _, .next => some [.one]
  | loadTarget target _, .next => some (.one :: List.replicate target.operands .one)
  | call _ _ results, .next | callBuiltin _ _ _ _ results, .next => some results.items
  | index commaOk _, .next | typeAssert _ commaOk, .next | recv commaOk, .next |
    rangeNext _ commaOk _, .next => some (pairItems commaOk)
  | _, .next => some []

end StepOp

namespace Program

variable {α : Type} {base : List Value} {items given : List Item} (p : Program)

-- What is left of the operands when it is known where a step leads to.
def Next.left (op : StepOp) (rest : List Item) : Next → List Item
  | .next => (op.gives .next).getD [] ++ rest
  | .goto _ => (op.gives .other).getD [] ++ rest
  | .ret | .call .. | .builtin .. | .defer .. => rest

theorem stacks_takeOperands (targets : List Target) :
    Stacks base (List.replicate (targets.map Target.operands).sum .one ++ items)
      (fun _ => items) (takeOperands targets) := by
  induction targets generalizing items with
  | nil => exact .pure _
  | cons t rest ih =>
      rw [List.map_cons, List.sum_cons, Nat.add_comm, ← List.replicate_append_replicate,
        List.append_assoc]
      exact .bind ih fun _ => .bind (.takeN _) fun _ => .pure _

theorem stacks_popIf (present : Bool) :
    Stacks base (List.replicate present.toNat .one ++ items) (fun _ => items) (popIf present) := by
  cases present with
  | true => exact .bind .pop fun _ => .pure _
  | false => exact .pure _

theorem stacks_addressOf (kind : AddressKind) : Stacks base ((StepOp.addressOf kind).needs ++ items)
    (fun _ => items) (p.addressOf kind) := by
  cases kind with
  | var name => exact .quiet (holds_addressOfVariable p (Quiet.trait.touches name))
  | field name => exact .bind .pop fun _ => .quiet (holds_addressOfField _ _ _)
  | index => exact .bind .pop fun _ => .bind .pop fun _ => .quiet (holds_addressOfElement _ _ _)
  | value => exact .bind .pop fun v => .quiet (Quiet.trait.gentle (Heap.gentle_box v))

theorem stacks_pushPair (v : Value) (ok commaOk : Bool) :
    Stacks base items (fun _ => pairItems commaOk ++ items) (do
      Exec.push v
      if commaOk then Exec.push (.bool ok)) := by
  cases commaOk with
  | true => exact .bind (.push _) fun _ => .push _
  | false => exact .bind (.push _) fun _ => .pure _

theorem stacks_typeAssert (ty : Ty) (commaOk : Bool) :
    Stacks base (.one :: items) (fun _ => pairItems commaOk ++ items) (p.typeAssert ty commaOk) := by
  refine .bind .pop fun v => .bind (.quiet Quiet.trait.heap) fun h =>
    .bind (.quiet (Quiet.trait.ofExcept (p.types.underflowFree_holdsType h v ty))) fun ok => ?_
  cases commaOk with
  | true =>
      cases ok with
      | true => exact .bind (Stacks.pure v) fun _ => .bind (.push _) fun _ => .push _
      | false => exact .bind (.quiet (holds_zeroValue _ p ty)) fun _ => .bind (.push _) fun _ => .push _
  | false =>
      cases ok with
      | true => exact .push _
      | false => exact .bind (.quiet Quiet.trait.heap) fun _ => .fault _

theorem stacks_slice (low high max : Bool) :
    Stacks base ((StepOp.slice low high max).needs ++ items) (fun _ => .one :: items)
      (p.work (.slice low high max)) := by
  have hneeds : (StepOp.slice low high max).needs ++ items = List.replicate max.toNat .one ++
      (List.replicate high.toNat .one ++ (List.replicate low.toNat .one ++ (.one :: items))) := by
    change List.replicate (max.toNat + high.toNat + low.toNat + 1) Item.one ++ items = _
    simp only [← List.replicate_append_replicate, List.append_assoc]
    rfl
  rw [hneeds]
  exact .bind (stacks_popIf max) fun max => .bind (stacks_popIf high) fun high =>
    .bind (stacks_popIf low) fun low => .bind .pop fun base =>
      .bind (.quiet (holds_bound? _ low)) fun _ => .bind (.quiet (holds_bound? _ high)) fun _ =>
        .bind (.quiet (holds_bound? _ max)) fun _ => .bind (.quiet (holds_slice _ _ base)) fun _ =>
          .push _

theorem stacks_declare (names : List String) (ty : Option Ty) (arity : Arity) :
    Stacks base (arity.items ++ items) (fun _ => items) (p.work (.declare names ty arity)) := by
  refine .bind (.take arity) fun values => ?_
  dsimp only
  split
  · exact .bind (.quiet (holds_mismatch _ _ _)) fun _ =>
      .quiet (Quiet.trait.forM fun (x, v) => holds_declareValue p (Quiet.trait.binds x) ty v)
  · exact .quiet (Quiet.trait.forM fun (x, v) => holds_declareValue p (Quiet.trait.binds x) ty v)

theorem stacks_assign (targets : List Target) (arity : Arity) :
    Stacks base ((StepOp.assign targets arity).needs ++ items) (fun _ => items)
      (p.work (.assign targets arity)) := by
  have hstore : ∀ values, Stacks base
      (List.replicate (targets.map Target.operands).sum .one ++ items) (fun _ => items)
      (takeOperands targets >>= fun operands => p.storeAll targets operands values) :=
    fun values => .bind (stacks_takeOperands targets) fun _ => .quiet (holds_storeAll p (fun x _ => Quiet.trait.touches x) _ _)
  unfold StepOp.needs
  rw [List.append_assoc]
  refine .bind (.take arity) fun values => ?_
  dsimp only
  split
  · exact .bind (.quiet (holds_mismatch _ _ _)) fun _ => hstore values
  · exact hstore values

theorem stacks_binary (op : BinaryOp) (resolved : Option Family) :
    Stacks base (.one :: .one :: items) (fun _ => .one :: items)
      (p.work (.binary op resolved)) := by
  refine .bind .pop fun r => .bind .pop fun l => ?_
  cases resolved with
  | some family =>
      exact .bind (.quiet (Quiet.trait.ofExcept (family.underflowFree_apply op l r))) fun _ =>
        .push _
  | none =>
      exact .bind (.quiet Quiet.trait.heap) fun h =>
        .bind (.quiet (Quiet.trait.ofExcept (underflowFree_evaluateBinary h op l r))) fun _ =>
          .push _

theorem stacks_index (commaOk : Bool) (elem : Option Ty) :
    Stacks base (.one :: .one :: items) (fun _ => pairItems commaOk ++ items)
      (p.work (.index commaOk elem)) :=
  .bind .pop fun index => .bind .pop fun v => .bind (.quiet (holds_index _ p v index elem)) fun (w, ok) =>
    stacks_pushPair w ok commaOk

theorem stacks_recv (commaOk : Bool) :
    Stacks base (.one :: items) (fun _ => pairItems commaOk ++ items) (p.work (.recv commaOk)) :=
  .bind .pop fun v => .bind (.quiet (holds_receive _ v)) fun (w, ok) => stacks_pushPair w ok commaOk

theorem stacks_undefined (name : String) {left : α → List Item} :
    Stacks base items left (p.undefined name : Exec α) := by
  refine .quiet_of_ne_ok (holds_undefined _ p name) fun m a m' => ?_
  unfold undefined
  split
  · exact nofun
  · exact Exec.fatal_ne_ok _ m m' a

theorem stacks_unwindTo (depth : Nat) : Stacks base items (fun _ => items) (Exec.unwindTo depth) := by
  intro m h
  rw [unwindTo_apply]
  exact h

-- The steps whose work is not all that they do.
def DoesMoreThanWork : StepOp → Prop
  | .branch _ | .shortCircuit .. | .rangeNext .. | .call .. | .callBuiltin .. | .ret _ |
    .defer .. => True
  | _ => False

theorem stacks_work {op : StepOp} (hop : ¬ DoesMoreThanWork op) :
    Stacks base (op.needs ++ items) (fun _ => (op.gives .next).getD [] ++ items) (p.work op) := by
  cases op with
  | branch | shortCircuit | rangeNext | call | callBuiltin | ret | defer =>
      exact absurd trivial hop
  | nop => exact .pure _
  | const c => exact .bind (.quiet (Quiet.trait.gentle (Heap.gentle_ofConstant c))) fun v => .push v
  | load name =>
      refine .bind (.quiet Quiet.trait.heap) fun h => .bind (.quiet Quiet.trait.currentScope) fun s => ?_
      split
      · exact .push _
      · exact p.stacks_undefined name
  | declare names ty arity => exact p.stacks_declare names ty arity
  | declareZero names ty => exact .quiet (Quiet.trait.forM fun x => holds_declareZero p (Quiet.trait.touches x) ty)
  | assign targets arity => exact p.stacks_assign targets arity
  | loadTarget target ty =>
      exact .bind (.peekN _) fun vs => .bind (.quiet (holds_loadTarget _ p target vs ty)) fun v => .push v
  | binary op resolved => exact p.stacks_binary op resolved
  | unary op => exact .bind .pop fun v => .bind (.quiet (holds_unary _ op v)) fun v => .push v
  | addressOf kind => exact .bind (p.stacks_addressOf kind) fun _ => .push _
  | deref => exact .bind .pop fun v => .bind (.quiet (holds_deref _ v)) fun v => .push v
  | jump depth => exact stacks_unwindTo depth
  | pushScope => exact fun _ h => h
  | popScope => exact .bind .frame fun _ => stacks_unwindTo _
  | carryOut names => exact .quiet (holds_carryOut fun x _ => Quiet.trait.touches x)
  | index commaOk elem => exact p.stacks_index commaOk elem
  | slice low high max => exact p.stacks_slice low high max
  | select name => exact .bind .pop fun v => .bind (.quiet (holds_select _ p v name)) fun v => .push v
  | compose ty shape =>
      exact .bind (.takeN _) fun vs =>
        .bind (.quiet (Quiet.trait.attempt (p.types.apart_compose ty shape vs))) fun v => .push v
  | closure code =>
      exact .bind (.quiet Quiet.trait.currentScope) fun s =>
        .bind (.quiet (Quiet.trait.quiet (Heap.quiet_markEscaped s))) fun _ => .push _
  | typeAssert ty commaOk => exact p.stacks_typeAssert ty commaOk
  | typeTest ty =>
      exact .bind (.quiet Quiet.trait.heap) fun h => .bind .pop fun v =>
        .bind (.quiet (Quiet.trait.ofExcept (p.types.underflowFree_holdsType h v ty))) fun _ =>
          .push _
  | convert ty =>
      exact .bind .pop fun v => .bind (.quiet (Quiet.trait.tried (p.types.gentle_convert v ty))) fun v =>
        .push v
  | send => exact .bind .pop fun v => .bind .pop fun c => .quiet (holds_send _ c v)
  | recv commaOk => exact p.stacks_recv commaOk
  | rangeInit kind cursor =>
      exact .bind .pop fun v => .bind (.quiet (Quiet.trait.attempt (Heap.apart_startCursor kind v))) fun c =>
        .bind (.quiet Quiet.trait.currentScope) fun s =>
          .quiet (Quiet.trait.quiet (Heap.quiet_declare s cursor c))
  | pop => exact .discard .pop

theorem stacks_branch (v : Value) (other : Option StepId) :
    Stacks base items (Next.left (.branch other) items) (branch v other) := by
  unfold branch
  split
  · exact .pure Next.next
  · exact .pure (Next.goto other)
  · exact .notDefined _ _

theorem stacks_shortCircuit (stop : Bool) (other : Option StepId) :
    Stacks base (.one :: items) (Next.left (.shortCircuit stop other) items)
      (shortCircuit stop other) := by
  refine .bind .top fun v => ?_
  split
  · exact .notDefined _ _
  · split
    · exact .pure (Next.goto other)
    · exact .bind (.discard .pop) fun _ => .pure Next.next

theorem stacks_rangeNext (cursor : String) (value : Bool) (exit : Option StepId) :
    Stacks base items (Next.left (.rangeNext cursor value exit) items)
      (p.rangeNext cursor value exit) := by
  refine .bind (.quiet Quiet.trait.heap) fun h => .bind (.quiet Quiet.trait.currentScope) fun s => ?_
  split
  · refine .bind (.quiet (Quiet.trait.attempt (Heap.apart_advance _))) fun r => ?_
    split
    · cases value with
      | true => exact .bind (.push _) fun _ => .bind (.push _) fun _ => .pure Next.next
      | false => exact .bind (.push _) fun _ => .pure Next.next
    · exact .pure (Next.goto exit)
  · exact p.stacks_undefined cursor

-- Before anything is called, a step takes the operands that it needs from the stack.
theorem stacks_step (op : StepOp) :
    Stacks base (op.needs ++ items) (Next.left op items) (p.step op) := by
  cases op with
  | branch other => exact .bind .pop fun v => stacks_branch v other
  | shortCircuit stop other => exact stacks_shortCircuit stop other
  | rangeNext cursor value exit => exact p.stacks_rangeNext cursor value exit
  | call args spread results =>
      exact .bind .pop fun v => .bind (.take args) fun vs => .pure (Next.call v vs spread results)
  | callBuiltin b ty args spread results =>
      exact .bind (.take args) fun vs => .pure (Next.builtin b ty vs spread results)
  | ret arity =>
      unfold step
      dsimp only
      split
      · exact .bind (.take arity) fun vs => .bind (.setResults vs) fun _ => .pure Next.ret
      · next h =>
          rw [Decidable.not_not.mp h]
          exact .pure Next.ret
  | defer entry args spread builtin => exact .pure (Next.defer entry args spread builtin)
  | _ => exact .bind (p.stacks_work id) fun _ => .pure Next.next

-- Where a step may lead to.
def Next.Of (op : StepOp) : Next → Prop
  | .next => (op.gives .next).isSome
  | .goto target => (op.gives .other).isSome ∧ target = op.other?
  | .ret => ∃ arity, op = .ret arity
  | .call _ _ _ results => op.gives .next = some results.items
  | .builtin _ _ _ _ results => op.gives .next = some results.items
  | .defer entry args spread b => op = .defer entry args spread b

variable {p}

theorem next_of_branch {v : Value} {other : Option StepId} {after : Next} {m m' : Machine}
    (h : branch v other m = .ok after m') : after.Of (.branch other) := by
  unfold branch at h
  cases hb : v.bool? with
  | none =>
      rw [hb] at h
      exact absurd h (Exec.notDefined_ne_ok _ _ _ _ _)
  | some b =>
      rw [hb] at h
      cases b with
      | true =>
          cases h
          exact rfl
      | false =>
          cases h
          exact ⟨rfl, rfl⟩

theorem next_of_shortCircuit {stop : Bool} {other : Option StepId} {after : Next} {m m' : Machine}
    (h : shortCircuit stop other m = .ok after m') : after.Of (.shortCircuit stop other) := by
  obtain ⟨v, m₁, -, h⟩ := bind_eq_ok.mp h
  cases hb : v.bool? with
  | none =>
      rw [hb] at h
      exact absurd h (Exec.notDefined_ne_ok _ _ _ _ _)
  | some b =>
      rw [hb] at h
      dsimp only at h
      by_cases hstop : b = stop
      · rw [if_pos hstop] at h
        cases h
        exact ⟨rfl, rfl⟩
      · rw [if_neg hstop] at h
        obtain ⟨_, _, -, h⟩ := bind_eq_ok.mp h
        cases h
        exact rfl

theorem next_of_rangeNext {cursor : String} {value : Bool} {exit : Option StepId} {after : Next}
    {m m' : Machine} (h : p.rangeNext cursor value exit m = .ok after m') :
    after.Of (.rangeNext cursor value exit) := by
  obtain ⟨h', _, -, h⟩ := bind_eq_ok.mp h
  obtain ⟨s, _, -, h⟩ := bind_eq_ok.mp h
  have hundefined : ∀ {m₁ : Machine}, (p.undefined cursor : Exec Next) m₁ ≠ .ok after m' := by
    unfold undefined
    split
    · intro _ h
      cases h
    · exact Exec.fatal_ne_ok _ _ _ _
  cases hv : h'.lookup s cursor with
  | none =>
      rw [hv] at h
      exact absurd h hundefined
  | some v =>
      rw [hv] at h
      cases v with
      | cursor id =>
          obtain ⟨r, _, -, h⟩ := bind_eq_ok.mp h
          cases r with
          | none =>
              cases h
              exact ⟨rfl, rfl⟩
          | some kv => cases value <;> cases h <;> exact rfl
      | _ => exact absurd h hundefined

theorem next_of_step {op : StepOp} {after : Next} {m m' : Machine}
    (h : p.step op m = .ok after m') : after.Of op := by
  cases op with
  | branch other =>
      obtain ⟨_, _, -, h⟩ := bind_eq_ok.mp h
      exact next_of_branch h
  | shortCircuit stop other => exact next_of_shortCircuit h
  | rangeNext cursor value exit => exact next_of_rangeNext h
  | call args spread results =>
      obtain ⟨_, _, -, h⟩ := bind_eq_ok.mp h
      obtain ⟨_, _, -, h⟩ := bind_eq_ok.mp h
      cases h
      exact rfl
  | callBuiltin b ty args spread results =>
      obtain ⟨_, _, -, h⟩ := bind_eq_ok.mp h
      cases h
      exact rfl
  | ret arity =>
      unfold step at h
      dsimp only at h
      by_cases ha : arity = .fixed 0
      · rw [if_neg (Decidable.not_not.mpr ha)] at h
        cases h
        exact ⟨arity, rfl⟩
      · rw [if_pos ha] at h
        obtain ⟨_, _, -, h⟩ := bind_eq_ok.mp h
        obtain ⟨_, _, -, h⟩ := bind_eq_ok.mp h
        cases h
        exact ⟨arity, rfl⟩
  | defer entry args spread builtin =>
      cases h
      exact rfl
  | _ =>
      obtain ⟨_, _, -, h⟩ := bind_eq_ok.mp h
      cases h
      exact rfl

end Program

end StepGraph

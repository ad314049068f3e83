import StepGraph.Proofs.Compile.ConstantLines
import StepGraph.Proofs.Machine.Lockstep
import StepGraph.Proofs.Operator.Resolution
import StepGraph.Proofs.Store.Variables

open EStateM (bind_apply bind_of_ok bind_of_error)

namespace StepGraph

open Build (operandHints operandType resolved?)

-- Constants by name with their values, the latest first.
abbrev Constants := List (String × Value)

namespace Constants

-- The blank name stands for no constant.
def add (known : Constants) (x : String) (v : Value) : Constants :=
  if x = Names.blank then known else (x, v) :: known

-- The constants behind a line.
def bind (known : Constants) (names : List String) (values : List Value) : Constants :=
  (names.zip values).foldl (fun known pair => known.add pair.1 pair.2) known

end Constants

namespace Constants

variable {known : Constants} {names : List String} {values : List Value} {x : String}

theorem lookup_add (known : Constants) {y : String} (hy : y ≠ Names.blank) (v : Value)
    (x : String) : (known.add y v).lookup x = if x = y then some v else known.lookup x := by
  unfold add
  rw [if_neg hy]
  by_cases hxy : x = y
  · rw [if_pos hxy, hxy, List.lookup_cons_self]
  · have hne : (x == y) = false := beq_eq_false_iff_ne.mpr hxy
    rw [if_neg hxy, List.lookup_cons, hne]

theorem isSome_lookup_add (h : (known.lookup x).isSome) (y : String) (v : Value) :
    ((known.add y v).lookup x).isSome := by
  by_cases hy : y = Names.blank
  · unfold add
    rwa [if_pos hy]
  · rw [lookup_add known hy]
    split
    · rfl
    · exact h

theorem bind_cons (known : Constants) (y : String) (names : List String) (v : Value)
    (values : List Value) :
    known.bind (y :: names) (v :: values) = (known.add y v).bind names values := rfl

-- The names of a line are known behind it, and so are those in front.
theorem isSome_lookup_bind (hlength : values.length = names.length)
    (h : (known.lookup x).isSome ∨ x ∈ names ∧ x ≠ Names.blank) :
    ((known.bind names values).lookup x).isSome := by
  induction names generalizing known values with
  | nil =>
      rcases h with h | ⟨hx, -⟩
      · exact h
      · cases hx
  | cons y names ih =>
      obtain ⟨v, values, rfl⟩ := List.exists_cons_of_length_eq_add_one hlength
      rw [bind_cons]
      refine ih (Nat.succ.inj hlength) ?_
      rcases h with h | ⟨hx, hblank⟩
      · exact .inl (isSome_lookup_add h y v)
      · rcases List.mem_cons.mp hx with rfl | hx
        · refine .inl ?_
          rw [lookup_add known hblank, if_pos rfl]
          rfl
        · exact .inr ⟨hx, hblank⟩

end Constants

-- What a value becomes in a place that expects the type, or no type at all.
def TypeTable.settled (t : TypeTable) (v : Value) (ty : Option Ty) : Value := ty.elim v (t.settle v)

namespace Names

-- The value of a constant expression on line `iota` of a block, where these constants are known and
-- the place of the expression expects the type. There is none where an operator fails.
def constantValue (n : Names) (iota : Nat) (known : Constants) : Expr → Option Ty → Option Value
  | .lit note v, hint => some (n.types.settled v.value (hint.or note.ty))
  | .ident _ x, hint =>
      if x = "iota" then some (n.types.settled (.plainInt iota) hint) else known.lookup x
  | .unary _ .neg (.lit _ (.int i)), hint => some (n.types.settled (.plainInt (-i)) hint)
  | .unary _ op e, hint => do (evaluateUnary op (← constantValue n iota known e hint)).toOption
  | .binary _ op l r, hint => do
      let (lh, rh) := operandHints n op l r hint
      let a ← constantValue n iota known l lh
      let b ← constantValue n iota known r rh
      (applied .empty op (resolved? op (operandType n l lh) (operandType n r rh)) a b).toOption
  | _, _ => none

def constantValues (n : Names) (iota : Nat) (known : Constants) :
    List Expr → List (Option Ty) → Option (List Value)
  | [], _ => some []
  | e :: rest, hints =>
      (n.constantValue iota known e hints.head?.join).bind fun v =>
        (constantValues n iota known rest hints.tail).map (v :: ·)

-- The values that a line gives to its names: as many as there are names, each in the type of the
-- line.
def lineValues (n : Names) (iota : Nat) (known : Constants) (line : ConstSpec) :
    Option (List Value) :=
  if line.values.length = line.names.length ∧ line.values.length < pow2 16 then do
    let values ← line.values.mapM fun e => n.constantValue iota known e line.ty
    return values.map (n.types.settled · line.ty)
  else none

-- The constants of a block. `next` tells what is known of the names behind a line.
def blockValues (next : Names → ConstSpec → Names) :
    Names → Nat → Constants → List ConstSpec → Option Constants
  | _, _, known, [] => some known
  | n, iota, known, line :: rest => do
      let values ← n.lineValues iota known line
      blockValues next (next n line) (iota + 1) (known.bind line.names values) rest

end Names

namespace Value

-- The values that constants have.
def IsBasic (v : Value) : Prop := TypeTable.isBasicValue v.unwrap = true

namespace IsBasic

variable {v : Value}

theorem plainInt (i : Int) : (Value.plainInt i).IsBasic := rfl

theorem not_bareNil (hv : v.IsBasic) : v.isBareNil = false := by
  cases v <;> first | rfl | cases hv

theorem settled (hv : v.IsBasic) (t : TypeTable) (ty : Option Ty) : (t.settled v ty).IsBasic := by
  cases ty with
  | none => exact hv
  | some ty =>
      rcases t.settle_unwrap v ty with h | ⟨-, hnumber⟩
      · exact (congrArg TypeTable.isBasicValue h).trans hv
      · change TypeTable.isBasicValue (t.settle v ty).unwrap = true
        generalize (t.settle v ty).unwrap = w at hnumber
        cases w <;> first | rfl | cases hnumber

-- Such a value is a constant of its own and is copied as it is.
theorem ofConstant (hv : v.IsBasic) (h : Heap) :
    Heap.ofConstant (Constant.ofScalar v) h = (v, h) := by
  induction v with
  | named t v ih =>
      unfold Constant.ofScalar Heap.ofConstant
      change ((Value.named t (Heap.ofConstant (Constant.ofScalar v) h).1),
        (Heap.ofConstant (Constant.ofScalar v) h).2) = _
      rw [ih hv]
  | _ =>
      first
        | (unfold Constant.ofScalar Heap.ofConstant; rfl)
        | cases hv

theorem copyWith (hv : v.IsBasic) (f : Value → HeapM Value) (h : Heap) :
    Heap.copyWith f v h = (v, h) := by
  induction v with
  | named t v ih =>
      cases hcopies : Heap.copiesInside v with
      | true => rw [Heap.copyWith_named f t v h hcopies, ih hv]
      | false => exact Heap.copyWith_named_of_not f t v h hcopies
  | _ => first | exact Heap.copyWith_leaf f _ h rfl | cases hv

theorem copy (hv : v.IsBasic) (h : Heap) : Heap.copy v h = (v, h) :=
  hv.copyWith (Heap.copyUpTo h.blocks.size) h

end IsBasic

end Value

-- All known constants have values of basic types.
def Constants.AreBasic (known : Constants) : Prop := ∀ x v, known.lookup x = some v → v.IsBasic

theorem Constants.AreBasic.add {known : Constants} (h : known.AreBasic) {y : String} {v : Value}
    (hv : v.IsBasic) : (known.add y v).AreBasic := by
  intro x w hx
  by_cases hy : y = Names.blank
  · unfold Constants.add at hx
    rw [if_pos hy] at hx
    exact h x w hx
  · rw [lookup_add known hy] at hx
    split at hx
    · exact Option.some.inj hx ▸ hv
    · exact h x w hx

theorem Constants.AreBasic.bind {known : Constants} (h : known.AreBasic) (names : List String)
    {values : List Value} (hvalues : ∀ v ∈ values, v.IsBasic) :
    (known.bind names values).AreBasic := by
  induction names generalizing known values with
  | nil => exact h
  | cons y names ih =>
      cases values with
      | nil => exact h
      | cons v values =>
          obtain ⟨hv, hvalues⟩ := List.forall_mem_cons.mp hvalues
          exact ih (h.add hv) hvalues

theorem isBasic_evaluateUnary {op : UnaryOp} {v w : Value}
    (h : (evaluateUnary op v).toOption = some w) : w.IsBasic := by
  cases hv : evaluateUnary op v with
  | error e =>
      rw [hv] at h
      cases h
  | ok a =>
      rw [hv] at h
      cases h
      exact yieldsBasic_evaluateUnary op v w hv

theorem isBasic_applied {h : Heap} {op : BinaryOp} {resolved : Option Family} {l r w : Value}
    (hw : (applied h op resolved l r).toOption = some w) : w.IsBasic := by
  cases hv : applied h op resolved l r with
  | error e =>
      rw [hv] at hw
      cases hw
  | ok a =>
      rw [hv] at hw
      cases hw
      cases resolved with
      | some family => exact Family.yieldsBasic_apply op l r family w hv
      | none => exact yieldsBasic_evaluateBinary h op l r w hv

namespace Names

variable {n : Names} {iota : Nat} {known : Constants} {xs : List String} {e : Expr}

theorem constantValue_unary (note : Note) {op : UnaryOp}
    (hsign : op = .neg → ∀ n i, e ≠ .lit n (.int i)) (hint : Option Ty) :
    n.constantValue iota known (.unary note op e) hint =
      (n.constantValue iota known e hint).bind fun v => (evaluateUnary op v).toOption := by
  rw [constantValue]
  · rfl
  · exact fun m i hop => hsign hop m i

theorem isBasic_constantValue (he : IsConstant xs e) (hknown : known.AreBasic) {hint : Option Ty}
    {v : Value} (h : n.constantValue iota known e hint = some v) : v.IsBasic := by
  cases he with
  | lit note i =>
      obtain rfl := Option.some.inj h
      exact (Value.IsBasic.plainInt i).settled _ _
  | iota note =>
      obtain rfl := Option.some.inj h
      exact (Value.IsBasic.plainInt iota).settled _ _
  | @name note x hx =>
      unfold constantValue at h
      split at h
      · obtain rfl := Option.some.inj h
        exact (Value.IsBasic.plainInt iota).settled _ _
      · exact hknown x v h
  | negative note m i =>
      obtain rfl := Option.some.inj h
      exact (Value.IsBasic.plainInt (-i)).settled _ _
  | @unary note op e hop hsign he =>
      rw [constantValue_unary note hsign] at h
      obtain ⟨w, -, hw⟩ := Option.bind_eq_some_iff.mp h
      exact isBasic_evaluateUnary hw
  | binary note hcomparison hlogical hl hr =>
      obtain ⟨a, -, h⟩ := Option.bind_eq_some_iff.mp h
      obtain ⟨b, -, h⟩ := Option.bind_eq_some_iff.mp h
      exact isBasic_applied h

end Names

namespace Names

variable {n : Names} {iota : Nat} {known : Constants} {xs : List String} {es : List Expr}

theorem length_constantValues {hints : List (Option Ty)} {vs : List Value}
    (h : n.constantValues iota known es hints = some vs) : vs.length = es.length := by
  induction es generalizing hints vs with
  | nil =>
      cases h
      rfl
  | cons e rest ih =>
      obtain ⟨v, -, h⟩ := Option.bind_eq_some_iff.mp h
      obtain ⟨ws, hws, rfl⟩ := Option.map_eq_some_iff.mp h
      exact congrArg (· + 1) (ih hws)

theorem isBasic_constantValues (hes : ∀ e ∈ es, IsConstant xs e) (hknown : known.AreBasic)
    {hints : List (Option Ty)} {vs : List Value}
    (h : n.constantValues iota known es hints = some vs) : ∀ v ∈ vs, v.IsBasic := by
  induction es generalizing hints vs with
  | nil =>
      cases h
      exact List.forall_mem_nil _
  | cons e rest ih =>
      obtain ⟨he, hrest⟩ := List.forall_mem_cons.mp hes
      obtain ⟨v, hv, h⟩ := Option.bind_eq_some_iff.mp h
      obtain ⟨ws, hws, rfl⟩ := Option.map_eq_some_iff.mp h
      exact List.forall_mem_cons.mpr ⟨isBasic_constantValue he hknown hv, ih hrest hws⟩

-- Where there are as many values as names, each has the type of the line in its place.
theorem constantValues_replicate (n : Names) (iota : Nat) (known : Constants) (es : List Expr)
    (ty : Option Ty) : n.constantValues iota known es (List.replicate es.length ty) =
      es.mapM fun e => n.constantValue iota known e ty := by
  induction es with
  | nil => rfl
  | cons e rest ih =>
      rw [List.mapM_cons, ← ih]
      change (n.constantValue iota known e ty).bind (fun v =>
        (n.constantValues iota known rest (List.replicate rest.length ty)).map (v :: ·)) = _
      cases n.constantValue iota known e ty with
      | none => rfl
      | some v => cases n.constantValues iota known rest (List.replicate rest.length ty) <;> rfl

theorem lineValues_eq_some {line : ConstSpec} {vs : List Value}
    (h : n.lineValues iota known line = some vs) : line.values.length = line.names.length ∧
      line.values.length < pow2 16 ∧ ∃ values, vs = values.map (n.types.settled · line.ty) ∧
        n.constantValues iota known line.values (List.replicate line.values.length line.ty) =
          some values := by
  unfold lineValues at h
  split at h
  · next hcond =>
      obtain ⟨values, hvalues, h⟩ := Option.bind_eq_some_iff.mp h
      exact ⟨hcond.1, hcond.2, values, (Option.some.inj h).symm,
        (n.constantValues_replicate iota known line.values line.ty).trans hvalues⟩
  · cases h

-- What is known of the constants behind a line.
theorem known_behind_line {line : ConstSpec} {vs : List Value}
    (hconstant : ∀ e ∈ line.values, IsConstant xs e) (hknown : known.AreBasic)
    (hxs : ∀ x ∈ xs, (known.lookup x).isSome) (hvs : n.lineValues iota known line = some vs) :
    (known.bind line.names vs).AreBasic ∧
      ∀ x ∈ xs ++ line.binds, ((known.bind line.names vs).lookup x).isSome := by
  obtain ⟨hlength, -, values, rfl, hconstants⟩ := lineValues_eq_some hvs
  have hcount : (values.map (n.types.settled · line.ty)).length = line.names.length := by
    rw [List.length_map, length_constantValues hconstants, hlength]
  have hbasic : ∀ v ∈ values.map (n.types.settled · line.ty), v.IsBasic := by
    intro v hv
    obtain ⟨w, hw, rfl⟩ := List.mem_map.mp hv
    exact (isBasic_constantValues hconstant hknown hconstants w hw).settled _ _
  refine ⟨hknown.bind line.names hbasic, fun x hx => Constants.isSome_lookup_bind hcount ?_⟩
  rcases List.mem_append.mp hx with hx | hx
  · exact .inl (hxs x hx)
  · obtain ⟨hx, hblank⟩ := List.mem_filter.mp hx
    exact .inr ⟨hx, of_decide_eq_true hblank⟩

end Names

-- The machine with these operands on the stack, the first on top.
def Machine.stacked (m : Machine) (vs : List Value) : Machine :=
  { m with frame := { m.frame with operands := vs ++ m.frame.operands } }

-- A failed work, told by how it ends.
def FailsAt {α : Type} (x : Exec α) (m : Machine) : Prop := ∃ u m', x m = .error u m' ∧ u.Fails

namespace FailsAt

variable {α β : Type} {x : Exec α} {m m' : Machine}

theorem bind (h : FailsAt x m) (f : α → Exec β) : FailsAt (x >>= f) m := by
  obtain ⟨u, m', hx, hu⟩ := h
  exact ⟨u, m', bind_of_error hx, hu⟩

theorem after {a : α} {f : α → Exec β} (hx : x m = .ok a m') (h : FailsAt (f a) m') :
    FailsAt (x >>= f) m := by
  obtain ⟨u, m'', hf, hu⟩ := h
  exact ⟨u, m'', (bind_of_ok hx).trans hf, hu⟩

theorem raise (e : Failure) (m : Machine) : FailsAt (Exec.raise e : Exec α) m := by
  cases e with
  | fault f => exact ⟨_, _, rfl, .panic _⟩
  | fatal e => exact ⟨_, _, rfl, .fatal _⟩

end FailsAt

namespace Program

variable {p : Program} {m : Machine}

-- The steps do their work one after the other.
def workAll (p : Program) (ops : List StepOp) : Exec Unit := ops.forM p.work

theorem workAll_append (ops ops' : List StepOp) :
    p.workAll (ops ++ ops') = (do p.workAll ops; p.workAll ops') := List.forM_append

theorem workAll_single (op : StepOp) : p.workAll [op] = p.work op := by
  unfold workAll
  simp

-- The steps push these values, the last on top, or fail if there are none.
def StepsPush (p : Program) (ops : List StepOp) (m : Machine) : Option (List Value) → Prop
  | some vs => p.workAll ops m = .ok () (m.stacked vs.reverse)
  | none => FailsAt (p.workAll ops) m

theorem ofConstant_constant (n : Names) (i : Int) (hint : Option Ty) (h : Heap) :
    Heap.ofConstant (n.constant (.plainInt i) hint) h =
      (n.types.settled (.plainInt i) hint, h) := by
  have hbasic := (Value.IsBasic.plainInt i).settled n.types hint
  have hconstant : n.constant (.plainInt i) hint =
      .ofScalar (n.types.settled (.plainInt i) hint) := by
    unfold Names.constant
    cases hint with
    | none => rfl
    | some ty => cases ty <;> rfl
  rw [hconstant]
  exact hbasic.ofConstant h

theorem work_const (m : Machine) (n : Names) (i : Int) (hint : Option Ty) :
    p.work (.const (n.constant (.plainInt i) hint)) m =
      .ok () (m.stacked [n.types.settled (.plainInt i) hint]) := by
  change (liftM (Heap.ofConstant (n.constant (.plainInt i) hint)) >>= Exec.push) m = _
  rw [bind_apply, Exec.monadLift_apply, ofConstant_constant]
  rfl

theorem work_name {x : String} {v : Value} (hx : m.heap.lookup m.frame.scope x = some v) :
    p.work (.load x) m = .ok () (m.stacked [v]) := by
  unfold work
  simp only
  rw [bind_apply, Exec.heap_apply]
  simp only
  rw [bind_apply, Exec.currentScope_apply]
  simp only
  rw [hx]
  rfl

theorem work_unary {op : UnaryOp} (hop : op = .neg ∨ op = .plus ∨ op = .bitNot) (v : Value) :
    p.work (.unary op) (m.stacked [v]) = (Exec.ofExcept (evaluateUnary op v) >>= Exec.push) m := by
  change (Exec.pop >>= fun v => unary op v >>= Exec.push) (m.stacked [v]) = _
  rw [bind_of_ok (Exec.pop_of_operands rfl)]
  rcases hop with rfl | rfl | rfl <;> rfl

theorem work_operator (op : BinaryOp) (resolved : Option Family) (l r : Value) :
    p.work (.binary op resolved) (m.stacked [r, l]) =
      (Exec.ofExcept (applied m.heap op resolved l r) >>= Exec.push) m := by
  change (Exec.pop >>= fun r => Exec.pop >>= fun l => _) (m.stacked [r, l]) = _
  rw [bind_of_ok (Exec.pop_of_operands rfl), bind_of_ok (Exec.pop_of_operands rfl)]
  cases resolved <;> rfl

-- Operators other than comparisons see nothing of the heap.
theorem applied_heap {op : BinaryOp} (hop : op.isComparison = false) (resolved : Option Family)
    (l r : Value) (h h' : Heap) : applied h op resolved l r = applied h' op resolved l r := by
  cases resolved with
  | some family => rfl
  | none => cases op <;> first | rfl | cases hop

-- What is pushed behind an operation that may fail.
theorem push_toOption (x : Except Failure Value) (m : Machine) :
    match x.toOption with
    | some v => (Exec.ofExcept x >>= Exec.push) m = .ok () (m.stacked [v])
    | none => FailsAt (Exec.ofExcept x >>= Exec.push) m := by
  cases x with
  | ok v => rfl
  | error e => exact (FailsAt.raise e m).bind _

-- A last step that does what may fail to give a value.
theorem StepsPush.last {ops : List StepOp} {vs : List Value} {op : StepOp}
    {x : Except Failure Value} (h : p.StepsPush ops m (some vs))
    (hop : p.work op (m.stacked vs.reverse) = (Exec.ofExcept x >>= Exec.push) m) :
    p.StepsPush (ops ++ [op]) m (x.toOption.map fun v => [v]) := by
  have hall : p.workAll (ops ++ [op]) m = (Exec.ofExcept x >>= Exec.push) m := by
    rw [workAll_append, workAll_single, bind_of_ok h, hop]
  have hpush := push_toOption x m
  cases hx : x.toOption with
  | none =>
      rw [hx] at hpush
      obtain ⟨u, m', herror, hu⟩ := hpush
      exact ⟨u, m', hall.trans herror, hu⟩
  | some v =>
      rw [hx] at hpush
      exact hall.trans hpush

theorem StepsPush.fails {ops : List StepOp} (h : p.StepsPush ops m none) (ops' : List StepOp) :
    p.StepsPush (ops ++ ops') m none := by
  have hfails : FailsAt (p.workAll ops) m := h
  change FailsAt (p.workAll (ops ++ ops')) m
  rw [workAll_append]
  exact hfails.bind _

-- More values above those that are there.
theorem StepsPush.append {ops ops' : List StepOp} {vs : List Value}
    (h : p.StepsPush ops m (some vs))
    {ws : Option (List Value)} (h' : p.StepsPush ops' (m.stacked vs.reverse) ws) :
    p.StepsPush (ops ++ ops') m (ws.map (vs ++ ·)) := by
  cases ws with
  | none =>
      change FailsAt (p.workAll (ops ++ ops')) m
      rw [workAll_append]
      exact .after h h'
  | some ws =>
      change p.workAll (ops ++ ops') m = .ok () (m.stacked (vs ++ ws).reverse)
      rw [workAll_append, bind_of_ok h, List.reverse_append]
      refine Eq.trans h' ?_
      unfold Machine.stacked
      simp only [List.append_assoc]

-- The constants with these names are known, and the machine has them.
def Remembers (known : Constants) (xs : List String) (m : Machine) : Prop :=
  ∀ x ∈ xs, ∃ v, known.lookup x = some v ∧ m.heap.lookup m.frame.scope x = some v

-- A constant expression pushes its value.
theorem pushes_constant {xs : List String} {e : Expr} (he : IsConstant xs e) (n : Names)
    (iota : Nat) {known : Constants} (hknows : Remembers known xs m) (hint : Option Ty) :
    p.StepsPush (n.constantSteps iota e hint) m
      ((n.constantValue iota known e hint).map fun v => [v]) := by
  induction he generalizing m hint with
  | lit note i =>
      change p.workAll [_] m = _
      rw [workAll_single]
      exact work_const m n i _
  | iota note =>
      change p.workAll [_] m = _
      rw [workAll_single]
      exact work_const m n iota hint
  | @name note x hx =>
      unfold Names.constantSteps Names.constantValue
      split
      · change p.workAll [_] m = _
        rw [workAll_single]
        exact work_const m n iota hint
      · obtain ⟨v, hv, hlookup⟩ := hknows x hx
        rw [hv]
        change p.workAll [_] m = _
        rw [workAll_single]
        exact work_name hlookup
  | negative note l i =>
      change p.workAll [_] m = _
      rw [workAll_single]
      exact work_const m n (-i) hint
  | @unary note op e hop hsign he ih =>
      have hoperand := ih hknows hint
      rw [Names.constantSteps_unary n iota note hsign, Names.constantValue_unary note hsign]
      cases hv : n.constantValue iota known e hint with
      | none =>
          rw [hv] at hoperand
          exact hoperand.fails _
      | some v =>
          rw [hv] at hoperand
          exact hoperand.last (work_unary hop v)
  | @binary note op l r hcomparison hlogical _ _ ihl ihr =>
      have hleft := ihl hknows (operandHints n op l r hint).1
      unfold Names.constantSteps Names.constantValue
      simp only
      cases ha : n.constantValue iota known l (operandHints n op l r hint).1 with
      | none =>
          rw [ha] at hleft
          exact (hleft.fails _).fails _
      | some a =>
          rw [ha] at hleft
          have hknows' : Remembers known xs (m.stacked [a]) := hknows
          have hboth := hleft.append (ihr hknows' (operandHints n op l r hint).2)
          cases hb : n.constantValue iota known r (operandHints n op l r hint).2 with
          | none =>
              rw [hb] at hboth
              exact hboth.fails _
          | some b =>
              rw [hb] at hboth
              refine hboth.last ((work_operator _ _ a b).trans ?_)
              rw [applied_heap hcomparison _ a b m.heap .empty]

theorem pushes_values {xs : List String} {es : List Expr} (hes : ∀ e ∈ es, IsConstant xs e)
    (n : Names) (iota : Nat) {known : Constants} (hknows : Remembers known xs m)
    (hints : List (Option Ty)) :
    p.StepsPush (n.valueSteps iota es hints) m (n.constantValues iota known es hints) := by
  induction es generalizing m hints with
  | nil => rfl
  | cons e rest ih =>
      obtain ⟨he, hrest⟩ := List.forall_mem_cons.mp hes
      have hfirst := pushes_constant (p := p) he n iota hknows hints.head?.join
      unfold Names.valueSteps Names.constantValues
      cases hv : n.constantValue iota known e hints.head?.join with
      | none =>
          rw [hv] at hfirst
          exact hfirst.fails _
      | some v =>
          rw [hv] at hfirst
          have hknows' : Remembers known xs (m.stacked [v]) := hknows
          exact hfirst.append (ih hrest hknows' hints.tail)

end Program

theorem TypeTable.settled_congr {t t' : TypeTable} {ty : Option Ty}
    (h : ∀ ty' ∈ ty, t'.resolve ty' = t.resolve ty') (v : Value) :
    t'.settled v ty = t.settled v ty := by
  cases ty with
  | none => rfl
  | some ty =>
      change t'.settle v ty = t.settle v ty
      unfold settle
      rw [h ty rfl]

namespace Heap

variable {h : Heap} {s : ScopeId} {names : List String} {known : Constants}

-- A scope in which these names can be declared, and in which these constants are.
structure HasConstants (h : Heap) (s : ScopeId) (names : List String) (known : Constants) :
    Prop where
  scope : s < h.scopes.size
  own : ∀ x ∈ names, h.isShared s x = false
  value : ∀ x v, known.lookup x = some v → h.binding? s x = some (.plain v)

namespace HasConstants

theorem lookup (hh : h.HasConstants s names known) {x : String} {v : Value}
    (hx : known.lookup x = some v) : h.lookup s x = some v := by
  have hbinding := hh.value x v hx
  unfold Heap.lookup owner? ownerUpTo binds local?
  rw [hbinding, Option.isSome_some, if_pos rfl, Option.bind_some, hbinding]
  rfl

theorem declare (hh : h.HasConstants s names known) {x : String} (hx : x ∈ names) (v : Value) :
    (Heap.declare s x v h).2.HasConstants s names ((x, v) :: known) := by
  have hdeclare : Heap.declare s x v h = bind s x (.plain v) h := by
    have hown := hh.own x hx
    unfold isShared at hown
    unfold Heap.declare
    rw [get_bind]
    cases hb : h.binding? s x with
    | none => rfl
    | some b =>
        cases b with
        | plain w => rfl
        | shared a =>
            rw [hb] at hown
            cases hown
  have hbinding : ∀ y, (bind s x (.plain v) h).2.binding? s y =
      if y = x then some (.plain v) else h.binding? s y := fun y => by
    rw [binding?_bind h s s x y (.plain v) hh.scope]
    simp
  rw [hdeclare]
  refine ⟨?_, fun y hy => ?_, fun y w hy => ?_⟩
  · change s < (h.scopes.modify s _).size
    rw [Array.size_modify]
    exact hh.scope
  · unfold isShared
    rw [hbinding]
    by_cases hyx : y = x
    · rw [if_pos hyx]
    · rw [if_neg hyx]
      exact hh.own y hy
  · rw [hbinding]
    by_cases hyx : y = x
    · rw [hyx, List.lookup_cons_self] at hy
      rw [if_pos hyx, Option.some.inj hy]
    · have hne : (y == x) = false := beq_eq_false_iff_ne.mpr hyx
      rw [List.lookup_cons, hne] at hy
      rw [if_neg hyx]
      exact hh.value y w hy

end HasConstants

end Heap

namespace Program

variable {p : Program} {m : Machine} {names : List String} {known : Constants}

theorem declareValue_basic {ty : Option Ty} {x : String} (hx : x ≠ Names.blank) {v : Value}
    (hv : v.IsBasic) : p.declareValue ty x v m =
      .ok () { m with heap := (Heap.declare m.frame.scope x (p.types.settled v ty) m.heap).2 } := by
  have hcopy : (liftM (Heap.copy v) : Exec Value) m = .ok v m := by
    rw [Exec.monadLift_apply, hv.copy]
  unfold declareValue
  rw [if_neg hx, bind_of_ok hcopy]
  cases ty with
  | none => rfl
  | some ty =>
      have hcoerce : p.coerce v ty m = .ok (p.types.settled v (some ty)) m := by
        change (liftM (p.types.coerce v ty) : Exec Value) m = _
        unfold TypeTable.coerce
        rw [hv.not_bareNil]
        rfl
      exact bind_of_ok hcoerce

-- A line binds its names in turn, each to its value in the type of the line.
theorem declares_values (ty : Option Ty) {pairs : List (String × Value)}
    (hbasic : ∀ pair ∈ pairs, pair.2.IsBasic) (hnames : ∀ pair ∈ pairs, pair.1 ∈ names)
    (hh : m.heap.HasConstants m.frame.scope names known) : ∃ h',
    (pairs.forM fun (x, v) => p.declareValue ty x v) m = .ok () { m with heap := h' } ∧
      h'.HasConstants m.frame.scope names
        (pairs.foldl (fun known pair => known.add pair.1 (p.types.settled pair.2 ty)) known) := by
  induction pairs generalizing m known with
  | nil => exact ⟨m.heap, rfl, hh⟩
  | cons pair rest ih =>
      obtain ⟨x, v⟩ := pair
      obtain ⟨hv, hrest⟩ := List.forall_mem_cons.mp hbasic
      obtain ⟨hx, hnames⟩ := List.forall_mem_cons.mp hnames
      have hfirst : ∃ h₁, p.declareValue ty x v m = .ok () { m with heap := h₁ } ∧
          h₁.HasConstants m.frame.scope names (known.add x (p.types.settled v ty)) := by
        unfold Constants.add
        by_cases hblank : x = Names.blank
        · refine ⟨m.heap, ?_, ?_⟩
          · unfold declareValue
            rw [if_pos hblank]
            rfl
          · rw [if_pos hblank]
            exact hh
        · refine ⟨_, declareValue_basic hblank hv, ?_⟩
          rw [if_neg hblank]
          exact hh.declare hx _
      obtain ⟨h₁, hdeclare, hh₁⟩ := hfirst
      obtain ⟨h', hall, hh'⟩ := ih (m := { m with heap := h₁ }) hrest hnames hh₁
      exact ⟨h', (bind_of_ok hdeclare).trans hall, hh'⟩

theorem take_stacked (vs : List Value) :
    Exec.take (.fixed vs.length) (m.stacked vs.reverse) = .ok vs m := by
  have htake : (vs.reverse ++ m.frame.operands).take vs.length = vs.reverse :=
    List.take_left' (List.length_reverse ..)
  have hdrop : (vs.reverse ++ m.frame.operands).drop vs.length = m.frame.operands :=
    List.drop_left' (List.length_reverse ..)
  have hlength : ¬ (vs.reverse ++ m.frame.operands).length < vs.length := by
    rw [List.length_append, List.length_reverse]
    omega
  change Exec.takeN vs.length (m.stacked vs.reverse) = _
  unfold Exec.takeN
  rw [bind_apply, Exec.frame_apply]
  simp only
  unfold Machine.stacked
  rw [if_neg hlength, bind_apply, Exec.modifyFrame_apply]
  simp only [Exec.pure_apply, htake, hdrop, List.reverse_reverse]

theorem work_declares {ty : Option Ty} {xs : List String} (vs : List Value) :
    p.work (.declare xs ty (.fixed vs.length)) (m.stacked vs.reverse) =
      (do
        if vs.length ≠ xs.length then mismatch xs.length vs.length
        (xs.zip vs).forM fun (x, v) => p.declareValue ty x v : Exec Unit) m :=
  bind_of_ok (take_stacked vs)

-- The steps of a line bind the values of the line, or fail if there are none. `names` are those
-- that may be bound in the scope.
def Defines (p : Program) (ops : List StepOp) (m : Machine) (names : List String) :
    Option Constants → Prop
  | some known => ∃ h', p.workAll ops m = .ok () { m with heap := h' } ∧
      h'.HasConstants m.frame.scope names known
  | none => FailsAt (p.workAll ops) m

theorem defines_line {xs : List String} {line : ConstSpec}
    (hconstant : ∀ e ∈ line.values, IsConstant xs e) (hfits : line.values.length < pow2 16)
    (n : Names) (iota : Nat) (hknown : known.AreBasic) (hxs : ∀ x ∈ xs, (known.lookup x).isSome)
    (hnames : ∀ x ∈ line.names, x ∈ names) (hh : m.heap.HasConstants m.frame.scope names known)
    (htypes : ∀ ty ∈ line.ty, p.types.resolve ty = n.types.resolve ty) :
    p.Defines (n.lineSteps iota line) m names
      ((n.lineValues iota known line).map fun values => known.bind line.names values) := by
  have hknows : Remembers known xs m := fun x hx => by
    obtain ⟨v, hv⟩ := Option.isSome_iff_exists.mp (hxs x hx)
    exact ⟨v, hv, hh.lookup hv⟩
  have hpushes := pushes_values (p := p) hconstant n iota hknows line.hints
  have hfails : n.constantValues iota known line.values line.hints = none →
      FailsAt (p.workAll (n.lineSteps iota line)) m := fun hnone => by
    rw [hnone] at hpushes
    exact hpushes.fails _
  have hdeclares : ∀ vs, n.constantValues iota known line.values line.hints = some vs →
      p.workAll (n.lineSteps iota line) m = (do
        if vs.length ≠ line.names.length then mismatch line.names.length vs.length
        (line.names.zip vs).forM fun (x, v) => p.declareValue line.ty x v : Exec Unit) m :=
    fun vs hvs => by
      rw [hvs] at hpushes
      unfold Names.lineSteps
      rw [workAll_append, workAll_single, bind_of_ok hpushes,
        ← Names.length_constantValues hvs]
      exact work_declares vs
  unfold Names.lineValues
  by_cases hlength : line.values.length = line.names.length
  · rw [if_pos ⟨hlength, hfits⟩]
    have hhints : line.hints = List.replicate line.values.length line.ty := by
      unfold ConstSpec.hints
      rw [if_neg (by omega), hlength]
    have hvalues : n.constantValues iota known line.values line.hints =
        line.values.mapM fun e => n.constantValue iota known e line.ty :=
      hhints ▸ n.constantValues_replicate iota known line.values line.ty
    rw [← hvalues]
    cases hvs : n.constantValues iota known line.values line.hints with
    | none => exact hfails hvs
    | some vs =>
        have hcount : vs.length = line.names.length :=
          (Names.length_constantValues hvs).trans hlength
        have hbasic : ∀ pair ∈ line.names.zip vs, pair.2.IsBasic := fun pair hpair =>
          Names.isBasic_constantValues hconstant hknown hvs _ (List.of_mem_zip hpair).2
        have hbound : ∀ pair ∈ line.names.zip vs, pair.1 ∈ names := fun pair hpair =>
          hnames _ (List.of_mem_zip hpair).1
        obtain ⟨h', hall, hh'⟩ := declares_values (p := p) line.ty hbasic hbound hh
        refine ⟨h', ?_, ?_⟩
        · rw [hdeclares vs hvs, if_neg (not_not.mpr hcount)]
          exact hall
        · have hbind : known.bind line.names (vs.map (n.types.settled · line.ty)) =
              (line.names.zip vs).foldl (fun known pair =>
                known.add pair.1 (p.types.settled pair.2 line.ty)) known := by
            unfold Constants.bind
            rw [List.zip_map_right, List.foldl_map]
            simp only [Prod.map, id, TypeTable.settled_congr htypes]
          rw [← hbind] at hh'
          exact hh'
  · rw [if_neg (fun h => hlength h.1)]
    cases hvs : n.constantValues iota known line.values line.hints with
    | none => exact hfails hvs
    | some vs =>
        have hcount : vs.length ≠ line.names.length :=
          (Names.length_constantValues hvs).symm ▸ hlength
        have hmismatch : FailsAt (mismatch line.names.length vs.length : Exec Unit) m := by
          unfold mismatch
          exact .raise (.fatal _) m
        obtain ⟨u, m', herror, hu⟩ := hmismatch.bind fun _ =>
          (line.names.zip vs).forM fun (x, v) => p.declareValue line.ty x v
        refine ⟨u, m', (hdeclares vs hvs).trans ?_, hu⟩
        rw [if_pos hcount]
        exact herror

-- The steps of a block bind its constants, or fail where one of them has no value.
theorem defines_block {next : Names → ConstSpec → Names} {xs : List String}
    {lines : List ConstSpec} (hlines : AreConstantLines xs lines)
    (hnext : ∀ n line, (next n line).types = n.types)
    (hfits : ∀ line ∈ lines, line.values.length < pow2 16) (n : Names) (iota : Nat)
    (hknown : known.AreBasic) (hxs : ∀ x ∈ xs, (known.lookup x).isSome)
    (hnames : ∀ line ∈ lines, ∀ x ∈ line.names, x ∈ names)
    (hh : m.heap.HasConstants m.frame.scope names known)
    (htypes : ∀ line ∈ lines, ∀ ty ∈ line.ty, p.types.resolve ty = n.types.resolve ty) :
    p.Defines (Names.blockSteps next n iota lines) m names
      (Names.blockValues next n iota known lines) := by
  induction hlines generalizing n iota m known with
  | nil xs => exact ⟨m.heap, rfl, hh⟩
  | @cons xs line rest hvalues hconstant hplain hrest ih =>
      obtain ⟨hline, hfits⟩ := List.forall_mem_cons.mp hfits
      obtain ⟨hlineNames, hnames⟩ := List.forall_mem_cons.mp hnames
      obtain ⟨hlineTypes, htypes⟩ := List.forall_mem_cons.mp htypes
      have hfirst := defines_line hconstant hline n iota hknown hxs hlineNames hh hlineTypes
      unfold Names.blockSteps Names.blockValues
      cases hvs : n.lineValues iota known line with
      | none =>
          rw [hvs] at hfirst
          have hfails : FailsAt (p.workAll (n.lineSteps iota line)) m := hfirst
          change FailsAt (p.workAll (n.lineSteps iota line ++ _)) m
          rw [workAll_append]
          exact hfails.bind _
      | some vs =>
          rw [hvs] at hfirst
          obtain ⟨h₁, hwork, hh₁⟩ := hfirst
          obtain ⟨hknown₁, hxs₁⟩ := Names.known_behind_line hconstant hknown hxs hvs
          have hlast := ih (m := { m with heap := h₁ }) hfits (next n line) (iota + 1)
            hknown₁ hxs₁ hnames hh₁ (by rw [hnext]; exact htypes)
          have hall : p.workAll (n.lineSteps iota line ++
              Names.blockSteps next (next n line) (iota + 1) rest) m =
              p.workAll (Names.blockSteps next (next n line) (iota + 1) rest)
                { m with heap := h₁ } := by
            rw [workAll_append, bind_of_ok hwork]
          simp only [Option.bind_eq_bind, Option.bind_some]
          cases hblock : Names.blockValues next (next n line) (iota + 1)
              (known.bind line.names vs) rest with
          | none =>
              rw [hblock] at hlast
              obtain ⟨u, m', herror, hu⟩ := hlast
              exact ⟨u, m', hall.trans herror, hu⟩
          | some known' =>
              rw [hblock] at hlast
              obtain ⟨h', hwork', hh'⟩ := hlast
              exact ⟨h', hall.trans hwork', hh'⟩

end Program

end StepGraph

import StepGraph.Compile.Lower
import StepGraph.Operator.Evaluate

namespace StepGraph

-- The values of the basic types. A value of a declared type is none of them.
inductive Value.HasBasic : Value → Ty → Prop
  | bool (b : Bool) : HasBasic (.bool b) .bool
  | int (n : IntValue) {k : IntKind} (hk : n.kind = k) : HasBasic (.int n) (.int k)
  | float32 (x : Float32) : HasBasic (.float32 x) .float32
  | float64 (x : Float) : HasBasic (.float64 x) .float64
  | complex64 (z : Complex) : HasBasic (.complex64 z) .complex64
  | complex128 (z : Complex) : HasBasic (.complex128 z) .complex128
  | string (s : String) : HasBasic (.str s) .string

variable {op : BinaryOp} {k : OperandKey} {f : Family} {t t' : Ty} {l r : Value}

-- The table lists shifts for integers of any two types, and any other operator for two operands
-- of one type whose family has it.
theorem resolveOperator?_shift (hop : op.isShift = true)
    (h : resolveOperator? t op t' = some f) : f = .int := by
  unfold resolveOperator? at h
  obtain ⟨k, -, h⟩ := Option.bind_eq_some_iff.mp h
  obtain ⟨k', -, h⟩ := Option.bind_eq_some_iff.mp h
  unfold OperandKey.resolve? at h
  rw [if_pos hop] at h
  split at h <;> cases h
  rfl

theorem resolveOperator?_plain (hop : op.isShift = false)
    (h : resolveOperator? t op t' = some f) : ∃ k, OperandKey.ofTy? t = some k ∧
      OperandKey.ofTy? t' = some k ∧ f = k.family ∧ k.family.defines op = true := by
  unfold resolveOperator? at h
  obtain ⟨k, hk, h⟩ := Option.bind_eq_some_iff.mp h
  obtain ⟨k', hk', h⟩ := Option.bind_eq_some_iff.mp h
  unfold OperandKey.resolve? at h
  rw [hop, if_neg Bool.false_ne_true] at h
  split at h
  · next hboth =>
      simp only [Bool.and_eq_true, decide_eq_true_eq] at hboth
      exact ⟨k, hk, hboth.1 ▸ hk', (Option.some.inj h).symm, hboth.2⟩
  · cases h

theorem OperandKey.ofTy?_inj (h : ofTy? t = some k) (h' : ofTy? t' = some k) : t' = t := by
  cases t <;> cases h <;> cases t' <;> cases h' <;> rfl

namespace Value.HasBasic

theorem unwrap_eq (hv : l.HasBasic t) : l.unwrap = l := by cases hv <;> rfl

theorem wrapperName?_eq (hv : l.HasBasic t) : l.wrapperName? = none := by cases hv <;> rfl

theorem ofValue?_eq (hv : l.HasBasic t) : OperandKey.ofValue? l = OperandKey.ofTy? t := by
  cases hv with
  | int n hk => exact hk ▸ rfl
  | _ => rfl

-- Two operands of one type stay as they are.
theorem unify_eq (hl : l.HasBasic t) (hr : r.HasBasic t) : unify l r = (l, r) := by
  cases hl with
  | int a ha =>
      cases hr with
      | int b hb => simp [unify, ha, hb]
  | _ =>
      cases hr
      rfl

-- On two operands of one type the equality of the language is that of the family.
theorem equal_eq (hl : l.HasBasic t) (hr : r.HasBasic t) (hk : OperandKey.ofTy? t = some k)
    (h : Heap) : ∃ b, h.equal l r = .ok b ∧ k.family.apply .eq l r = .ok (.bool b) ∧
      k.family.apply .notEq l r = .ok (.bool !b) := by
  have hunify := unify_eq hl hr
  cases hl with
  | int a ha =>
      cases hr with
      | int b hb =>
          cases hk
          refine ⟨a.val == b.val, ?_, rfl, rfl⟩
          change Except.ok (sameNumber (.int a) (.int b)) = _
          simp only [sameNumber, hunify]
  | _ =>
      cases hr
      cases hk
      exact ⟨_, rfl, rfl, rfl⟩

end Value.HasBasic

-- A shift has the type of its left operand, which is no declared one.
theorem shift_eq_dispatched (h : Heap) (hop : op.isShift = true) (hl : l.HasBasic t) (r : Value) :
    Family.int.apply op l r = evaluateBinary h op l r := by
  have happly : Family.int.apply op l r = Family.shift op l r := by
    unfold Family.apply
    exact if_pos hop
  have heval : evaluateBinary h op l r =
      (Family.shift op l r >>= fun v => pure (v.wearing l.wrapperName?)) := by
    cases op <;> cases hop <;> rfl
  rw [happly, heval, hl.wrapperName?_eq]
  exact (bind_pure _).symm

theorem plain_eq_dispatched (h : Heap) (hop : op.isShift = false) (hl : l.HasBasic t)
    (hr : r.HasBasic t) (hk : OperandKey.ofTy? t = some k) (hdefines : k.family.defines op = true) :
    k.family.apply op l r = evaluateBinary h op l r := by
  obtain ⟨b, hequal, heq, hne⟩ := hl.equal_eq hr hk h
  -- Equality does not look for a family. All other operators find the one of the table.
  by_cases hcmp : op = .eq ∨ op = .notEq
  · obtain rfl | rfl := hcmp
    · rw [heq]
      unfold evaluateBinary
      rw [hequal]
      rfl
    · rw [hne]
      unfold evaluateBinary
      rw [hequal]
      rfl
  · have heval : evaluateBinary h op l r = (k.family.apply op l r >>= fun v =>
        if op.isComparison || op.isLogical then pure v
        else pure (v.wearing (l.wrapperName?.or r.wrapperName?))) := by
      unfold evaluateBinary
      split
      · exact absurd (.inl rfl) hcmp
      · exact absurd (.inr rfl) hcmp
      · cases hop
      · cases hop
      · simp only [hl.unwrap_eq, hr.unwrap_eq, hl.unify_eq hr, hl.ofValue?_eq, hk, hdefines, if_true]
    rw [heval, hl.wrapperName?_eq, hr.wrapperName?_eq]
    have hpure : ∀ v : Value, (if op.isComparison || op.isLogical then pure v
        else pure (v.wearing (none.or none)) : Except Failure Value) = pure v := fun v => by
      split <;> rfl
    simp only [hpure, bind_pure]

-- An operator as a step applies it: that of a family, or the one that looks at the operands.
def applied (h : Heap) (op : BinaryOp) (resolved : Option Family) (l r : Value) :
    Except Failure Value :=
  match resolved with
  | some f => f.apply op l r
  | none => evaluateBinary h op l r

-- A value has the type, where that is one that the table of operators knows.
def Value.MeetsType (v : Value) (t : Ty) : Prop := (OperandKey.ofTy? t).isSome → v.HasBasic t

-- Both operands have a type that is known of them. Shifts leave the type of the right one open.
structure BinaryOp.OperandsMeetType (op : BinaryOp) (t : Option Ty) (l r : Value) : Prop where
  left : ∀ ty ∈ t, l.MeetsType ty
  right : op.isShift = false → ∀ ty ∈ t, r.MeetsType ty

-- It makes no difference whether an operator was resolved if the operands have the type of the left
-- one.
theorem applied_eq_dispatched (h : Heap) {t : Option Ty} (t' : Option Ty) (hmeets : op.OperandsMeetType t l r) :
    applied h op (Build.resolved? op t t') l r = evaluateBinary h op l r := by
  cases hf : Build.resolved? op t t' with
  | none => rfl
  | some f =>
      unfold Build.resolved? at hf
      split at hf
      · next ty ty' =>
          have hl := hmeets.left ty rfl
          cases hop : op.isShift with
          | true =>
              obtain rfl := resolveOperator?_shift hop hf
              obtain ⟨k, hk, -⟩ := Option.bind_eq_some_iff.mp hf
              exact shift_eq_dispatched h hop (hl (Option.isSome_of_eq_some hk)) r
          | false =>
              obtain ⟨k, hk, -, rfl, hdefines⟩ := resolveOperator?_plain hop hf
              have hsome := Option.isSome_of_eq_some hk
              exact plain_eq_dispatched h hop (hl hsome) (hmeets.right hop ty rfl hsome) hk hdefines
      · cases hf

-- The operator that the static types of the operands lead to and the one that looks at the operands
-- are the same on values of these types: both give the same value, or fail in the same way.
theorem resolved_operator_eq_dispatched (h : Heap) (hf : resolveOperator? t op t' = some f)
    (hl : l.HasBasic t) (hr : r.HasBasic t') : f.apply op l r = evaluateBinary h op l r := by
  cases hop : op.isShift with
  | true =>
      obtain rfl := resolveOperator?_shift hop hf
      exact shift_eq_dispatched h hop hl r
  | false =>
      obtain ⟨k, hk, hk', rfl, hdefines⟩ := resolveOperator?_plain hop hf
      obtain rfl := OperandKey.ofTy?_inj hk hk'
      exact plain_eq_dispatched h hop hl hr hk hdefines

-- A shift that drops the highest bit of its left operand, with operands of two types.
theorem shift_of_int8_by_uint16 :
    resolveOperator? (.int .int8) .shl (.int .uint16) = some .int ∧
      (Value.intOf .int8 100).HasBasic (.int .int8) ∧
      (Value.intOf .uint16 1).HasBasic (.int .uint16) ∧
      Family.int.apply .shl (.intOf .int8 100) (.intOf .uint16 1) =
        evaluateBinary .empty .shl (.intOf .int8 100) (.intOf .uint16 1) ∧
      evaluateBinary .empty .shl (.intOf .int8 100) (.intOf .uint16 1) =
        .ok (.intOf .int8 (-56)) :=
  have hf : resolveOperator? (.int .int8) .shl (.int .uint16) = some .int := rfl
  have hl : (Value.intOf .int8 100).HasBasic (.int .int8) := .int _ rfl
  have hr : (Value.intOf .uint16 1).HasBasic (.int .uint16) := .int _ rfl
  ⟨hf, hl, hr, resolved_operator_eq_dispatched .empty hf hl hr, rfl⟩

end StepGraph

import StepGraph.Operator.Evaluate
import StepGraph.Operator.Table
import StepGraph.Proofs.Number.Patterns

namespace StepGraph

-- The operators that have a result for all operands: on integers of any size, and on the 64 bits
-- that hold the operands.

def BinaryOp.modular? :
    BinaryOp → Option ((Int → Int → Int) × (BitVec 64 → BitVec 64 → BitVec 64))
  | .add => some (fun m n => m + n, fun x y => x + y)
  | .sub => some (fun m n => m - n, fun x y => x - y)
  | .mul => some (fun m n => m * n, fun x y => x * y)
  | .bitAnd => some (Int.land, fun x y => x &&& y)
  | .bitOr => some (Int.lor, fun x y => x ||| y)
  | .bitXor => some (Int.xor, fun x y => x ^^^ y)
  | .andNot => some (Int.ldiff, fun x y => x &&& ~~~y)
  | _ => none

def UnaryOp.modular? : UnaryOp → Option ((Int → Int) × (BitVec 64 → BitVec 64))
  | .plus => some (fun n => n, fun x => x)
  | .neg => some (fun n => -n, fun x => -x)
  | .bitNot => some (Int.lnot, fun x => ~~~x)
  | _ => none

def BinaryOp.compares? : BinaryOp → Option (Int → Int → Bool)
  | .eq => some fun m n => decide (m = n)
  | .notEq => some fun m n => decide (m ≠ n)
  | .lt => some fun m n => decide (m < n)
  | .ltEq => some fun m n => decide (m ≤ n)
  | .gt => some fun m n => decide (m > n)
  | .gtEq => some fun m n => decide (m ≥ n)
  | _ => none

-- An operator on integers comes to this if it was resolved for integers, and to the same of this
-- declared type if it looks at its operands.
structure OperatorComputes (h : Heap) (op : BinaryOp) (l r : Value) (e : Except Failure Value)
    (name : Option String) : Prop where
  resolved : Family.int.apply op l r = e
  dispatched : evaluateBinary h op l r = e.map (·.wearing name)

namespace IntValue

variable {name : Option String} {a b : IntValue}

theorem commonKind_self (hk : b.kind = a.kind) : a.commonKind b = a.kind := by
  unfold commonKind
  rw [if_neg (hk ▸ Nat.lt_irrefl _)]

-- An integer with a declared type around it, or with none.
def declared (name : Option String) (a : IntValue) : Value := (Value.int a).wearing name

@[simp] theorem unwrap_declared : (a.declared name).unwrap = .int a := by cases name <;> rfl

@[simp] theorem wrapperName?_declared : (a.declared name).wrapperName? = name := by
  cases name <;> rfl

@[simp] theorem int?_declared : (a.declared name).int? = some a := by cases name <;> rfl

end IntValue

section

variable {h : Heap} {op : BinaryOp} {name : Option String} {a b : IntValue}

theorem equal_ints (h : Heap) (name : Option String) (hk : b.kind = a.kind) :
    h.equal (a.declared name) (b.declared name) = .ok (a.val == b.val) := by
  have hbare : Heap.equalBare (h.equalUpTo h.blocks.size) h (.int a) (.int b) =
      .ok (a.val == b.val) := by
    change Except.ok (Value.sameNumber (.int a) (.int b)) = _
    simp [Value.sameNumber, Value.unify, hk]
  cases name with
  | none => exact hbare
  | some t =>
    change (if t = t then _ else _) = _
    rw [if_pos rfl]
    exact hbare

theorem unify_ints (a b : IntValue) : Value.unify (.int a) (.int b) =
    (.int (a.withKind (a.commonKind b)), .int (b.withKind (a.commonKind b))) := by
  by_cases hk : a.kind = b.kind
  · rw [IntValue.commonKind_self hk.symm, IntValue.withKind_self rfl, IntValue.withKind_self hk.symm]
    simp [Value.unify, hk]
  · simp [Value.unify, hk]

theorem int_defines (hlogical : op.isLogical = false) : Family.int.defines op = true := by
  change (!op.isLogical) = true
  rw [hlogical]
  rfl

theorem apply_ints (hshift : op.isShift = false) (a b : IntValue) :
    Family.int.apply op (.int a) (.int b) = Family.intOp op (.int a) a b := by
  unfold Family.apply
  simp [hshift, Value.unwrap]

-- The operator that looks at its operands works on them in their common kind. A comparison has no
-- declared type.
theorem evaluateBinary_ints (h : Heap) (name name' : Option String) (a b : IntValue)
    (hshift : op.isShift = false) (hlogical : op.isLogical = false)
    (hequal : ¬(op = .eq ∨ op = .notEq)) :
    evaluateBinary h op (a.declared name) (b.declared name') =
      (Family.intOp op (.int (a.withKind (a.commonKind b))) (a.withKind (a.commonKind b))
        (b.withKind (a.commonKind b))).map
          (·.wearing (if op.isComparison then none else name.or name')) := by
  have heval : evaluateBinary h op (a.declared name) (b.declared name') =
      (Family.intOp op (.int (a.withKind (a.commonKind b))) (a.withKind (a.commonKind b))
        (b.withKind (a.commonKind b)) >>= fun v =>
          if op.isComparison || op.isLogical then pure v
          else pure (v.wearing (name.or name'))) := by
    unfold evaluateBinary
    split
    · exact absurd (.inl rfl) hequal
    · exact absurd (.inr rfl) hequal
    · cases hshift
    · cases hshift
    · simp [unify_ints, OperandKey.ofValue?, OperandKey.family, int_defines hlogical,
        apply_ints hshift]
  rw [heval, hlogical, Bool.or_false]
  cases op.isComparison
  · rfl
  · cases Family.intOp op (.int (a.withKind (a.commonKind b))) (a.withKind (a.commonKind b))
        (b.withKind (a.commonKind b)) <;> rfl

-- Integers of one kind are not brought to another one, so that both ways lead to the operation on
-- them.
theorem computes_plain (op : BinaryOp) (h : Heap) (name : Option String) (hk : b.kind = a.kind)
    (hshift : op.isShift = false) (hlogical : op.isLogical = false) :
    OperatorComputes h op (a.declared name) (b.declared name) (Family.intOp op (.int a) a b)
      (if op.isComparison then none else name) := by
  have hleft : Family.intOp op (a.declared name) a b = Family.intOp op (.int a) a b := by
    cases op with
    | shl | shr => cases hshift
    | logicalAnd | logicalOr => cases hlogical
    | _ => rfl
  constructor
  · unfold Family.apply
    simp [hshift, hleft]
  · by_cases hequal : op = .eq ∨ op = .notEq
    · obtain rfl | rfl := hequal
      · unfold evaluateBinary
        rw [equal_ints h name hk]
        rfl
      · unfold evaluateBinary
        rw [equal_ints h name hk]
        rfl
    · rw [evaluateBinary_ints h name name a b hshift hlogical hequal, IntValue.commonKind_self hk,
        IntValue.withKind_self rfl, IntValue.withKind_self hk, Option.or_self]

theorem computes_shift (op : BinaryOp) (h : Heap) (name : Option String) (a : IntValue) (r : Value)
    (hshift : op.isShift = true) :
    OperatorComputes h op (a.declared name) r
      (Family.shiftCount op r >>= fun n => pure (.int (if op = .shl then a.shl n else a.shr n)))
      name := by
  have happly : Family.shift op (a.declared name) r =
      (Family.shiftCount op r >>= fun n =>
        pure (.int (if op = .shl then a.shl n else a.shr n))) := by
    unfold Family.shift
    simp
  constructor
  · unfold Family.apply
    rw [if_pos hshift, happly]
  · have heval : evaluateBinary h op (a.declared name) r =
        (Family.shift op (a.declared name) r >>= fun v => pure (v.wearing name)) := by
      cases op <;> cases hshift <;> simp [evaluateBinary]
    rw [heval, happly]
    cases Family.shiftCount op r <;> rfl

-- Each operator on its own.

theorem plain_of_modular? {f : Int → Int → Int} {g : BitVec 64 → BitVec 64 → BitVec 64}
    (hf : op.modular? = some (f, g)) :
    op.isShift = false ∧ op.isLogical = false ∧ op.isComparison = false := by
  cases op <;> first | exact ⟨rfl, rfl, rfl⟩ | cases hf

theorem plain_of_compares? {f : Int → Int → Bool} (hf : op.compares? = some f) :
    op.isShift = false ∧ op.isLogical = false ∧ op.isComparison = true := by
  cases op <;> first | exact ⟨rfl, rfl, rfl⟩ | cases hf

theorem intOp_modular? {f : Int → Int → Int} {g : BitVec 64 → BitVec 64 → BitVec 64}
    (hf : op.modular? = some (f, g)) (l : Value) (a b : IntValue) :
    Family.intOp op l a b = .ok (.int (.ofBits a.kind (g a.bits b.bits))) ∧
      IntValue.ofBits a.kind (g a.bits b.bits) = .ofInt a.kind (f a.val b.val) := by
  cases op with
  | add =>
    cases hf
    exact ⟨congrArg (Except.ok ∘ Value.int) (a.add_eq_ofBits b), (a.add_eq_ofBits b).symm⟩
  | sub =>
    cases hf
    exact ⟨congrArg (Except.ok ∘ Value.int) (a.sub_eq_ofBits b), (a.sub_eq_ofBits b).symm⟩
  | mul =>
    cases hf
    exact ⟨congrArg (Except.ok ∘ Value.int) (a.mul_eq_ofBits b), (a.mul_eq_ofBits b).symm⟩
  | bitAnd =>
    cases hf
    exact ⟨rfl, a.and_eq b⟩
  | bitOr =>
    cases hf
    exact ⟨rfl, a.or_eq b⟩
  | bitXor =>
    cases hf
    exact ⟨rfl, a.xor_eq b⟩
  | andNot =>
    cases hf
    exact ⟨rfl, a.andNot_eq b⟩
  | _ => cases hf

theorem intOp_compares? {f : Int → Int → Bool} (hf : op.compares? = some f) (l : Value)
    (a b : IntValue) : Family.intOp op l a b = .ok (.bool (f a.val b.val)) := by
  cases op with
  | eq | notEq | lt | ltEq | gt | gtEq =>
    cases hf
    simp [Family.intOp, bne, beq_eq_decide]
  | _ => cases hf

theorem evaluateUnary_wearing (op : UnaryOp) (name : Option String) (v : Value) :
    evaluateUnary op (v.wearing name) = (evaluateUnary op v).map (·.wearing name) := by
  cases name with
  | none => cases h : evaluateUnary op v <;> simp [Value.wearing, h, Except.map]
  | some t =>
    change evaluateUnary op (.named t v) = _
    rw [evaluateUnary]
    cases evaluateUnary op v <;> rfl

theorem lnot_eq (n : Int) : Int.lnot n = -n - 1 := by
  cases n with
  | ofNat n =>
    change Int.negSucc n = -(n : Int) - 1
    omega
  | negSucc n =>
    change (n : Int) = -Int.negSucc n - 1
    omega

theorem evaluateUnary_modular? {op : UnaryOp} {f : Int → Int} {g : BitVec 64 → BitVec 64}
    (hf : op.modular? = some (f, g)) (a : IntValue) :
    evaluateUnary op (.int a) = .ok (.int (.ofBits a.kind (g a.bits))) ∧
      IntValue.ofBits a.kind (g a.bits) = .ofInt a.kind (f a.val) := by
  cases op with
  | plus =>
    cases hf
    have hself : IntValue.ofBits a.kind a.bits = a :=
      (IntValue.ofInt_eq_ofBits a.kind a.val).symm.trans a.ofInt_val
    exact ⟨congrArg (Except.ok ∘ Value.int) hself.symm, hself.trans a.ofInt_val.symm⟩
  | neg =>
    cases hf
    exact ⟨congrArg (Except.ok ∘ Value.int) a.neg_eq_ofBits, a.neg_eq_ofBits.symm⟩
  | bitNot =>
    cases hf
    rw [lnot_eq]
    exact ⟨congrArg (Except.ok ∘ Value.int) a.complement_eq_ofBits, a.complement_eq_ofBits.symm⟩
  | _ => cases hf

theorem shiftCount_int (op : BinaryOp) (name : Option String) (c : IntValue) :
    Family.shiftCount op (c.declared name) =
      if c.val < 0 then .error (.fault .negativeShift) else .ok c.val.toNat := by
  have hcount : Family.shiftCount op (c.declared name) =
      if c.isNegative then .error (.fault .negativeShift) else .ok c.toNat64 := by
    unfold Family.shiftCount
    simp
  rw [hcount]
  unfold IntValue.isNegative
  by_cases hc : c.val < 0
  · simp [hc]
  · have hnat : c.toNat64 = c.val.toNat := by
      have hbits := IntValue.toNat_bits (Int.not_lt.mp hc)
      unfold IntValue.toNat64
      omega
    simp [hc, hnat]

end

-- What 64 bits have to do with the integers of a kind that they hold.
structure IntValue.Exact (a b : IntValue) : Prop where
  represents : ∀ m n, a.kind.Holds m ∧ m ≡ n [ZMOD 2 ^ a.kind.bits] ↔ m = (ofInt a.kind n).val
  pattern : ∀ n, (ofInt a.kind n).bits = a.kind.normalize (BitVec.ofInt 64 n)
  bits_iff : a.bits = b.bits ↔ a.val = b.val
  converts : ∀ k, (a.withKind k).kind = k ∧ k.Holds (a.withKind k).val ∧
    (a.withKind k).val ≡ a.val [ZMOD 2 ^ k.bits]

-- Division and remainder of two operands.
structure ExactQuotient (h : Heap) (name : Option String) (a b : IntValue) : Prop where
  truncated : b.val ≠ 0 → ∃ q r : IntValue,
    OperatorComputes h .div (a.declared name) (b.declared name) (.ok (.int q)) name ∧
    OperatorComputes h .rem (a.declared name) (b.declared name) (.ok (.int r)) name ∧
    q = .ofInt a.kind (a.val.tdiv b.val) ∧ r.kind = a.kind ∧ r.val = a.val.tmod b.val ∧
    q.val * b.val + r.val ≡ a.val [ZMOD 2 ^ a.kind.bits]
  wraps : a.kind.isSigned = true → a.val = a.kind.lowest → b.val = -1 →
    OperatorComputes h .div (a.declared name) (b.declared name) (.ok (.int a)) name
  panics : b.val = 0 → ∀ op, op = .div ∨ op = .rem →
    OperatorComputes h op (a.declared name) (b.declared name) (.error (.fault .divideByZero)) name

-- Shifts by an integer of any kind, which may have a declared type of its own.
structure ExactShifts (h : Heap) (name name' : Option String) (a c : IntValue) : Prop where
  listed : ∀ op : BinaryOp, op.isShift = true →
    (OperandKey.int a.kind).resolve? op (.int c.kind) = some .int
  left : 0 ≤ c.val → OperatorComputes h .shl (a.declared name) (c.declared name')
    (.ok (.intOf a.kind (a.val * 2 ^ c.val.toNat))) name
  right : 0 ≤ c.val → ∃ q : IntValue,
    OperatorComputes h .shr (a.declared name) (c.declared name') (.ok (.int q)) name ∧
    q.kind = a.kind ∧ q.val = a.val.fdiv (2 ^ c.val.toNat)
  on_bits : c.val.toNat < a.kind.bits →
    a.shl c.val.toNat = .ofBits a.kind (a.bits <<< c.val.toNat) ∧
    a.shr c.val.toNat = .ofBits a.kind
      (if a.kind.isSigned then a.bits.sshiftRight c.val.toNat else a.bits >>> c.val.toNat)
  panics : c.val < 0 → ∀ op, op.isShift = true →
    OperatorComputes h op (a.declared name) (c.declared name') (.error (.fault .negativeShift)) name

-- What the operators make of two integers of one kind.
structure ExactIntegers (h : Heap) (name : Option String) (a b : IntValue) : Prop where
  numbers : a.Exact b
  listed : ∀ op : BinaryOp, op.isLogical = false → op.isShift = false →
    (OperandKey.int a.kind).resolve? op (.int b.kind) = some .int
  arithmetic : ∀ op f g, BinaryOp.modular? op = some (f, g) → ∃ c : IntValue,
    OperatorComputes h op (a.declared name) (b.declared name) (.ok (.int c)) name ∧
    c = .ofBits a.kind (g a.bits b.bits) ∧ c = .ofInt a.kind (f a.val b.val)
  unary : ∀ op f g, UnaryOp.modular? op = some (f, g) → ∃ c : IntValue,
    evaluateUnary op (a.declared name) = .ok (c.declared name) ∧
    c = .ofBits a.kind (g a.bits) ∧ c = .ofInt a.kind (f a.val)
  quotient : ExactQuotient h name a b
  compares : ∀ op f, BinaryOp.compares? op = some f →
    OperatorComputes h op (a.declared name) (b.declared name) (.ok (.bool (f a.val b.val))) none
  shifts : ∀ (c : IntValue) (name' : Option String), ExactShifts h name name' a c

section

variable {h : Heap} {name : Option String} {a b : IntValue}

theorem exact (hk : b.kind = a.kind) : a.Exact b where
  represents m n := by
    constructor
    · rintro ⟨hm, hmod⟩
      exact (IntKind.wrap_eq_of hm hmod).symm
    · rintro rfl
      exact ⟨a.kind.holds_wrap n, a.kind.wrap_modEq n⟩
  pattern n := by
    rw [IntValue.ofInt_eq_ofBits, IntValue.bits_ofBits]
  bits_iff := IntValue.bits_eq_iff hk
  converts k := ⟨rfl, k.holds_wrap a.val, k.wrap_modEq a.val⟩

theorem exactQuotient (h : Heap) (name : Option String) (hk : b.kind = a.kind) :
    ExactQuotient h name a b where
  truncated hb := by
    have hdiv := computes_plain .div h name hk rfl rfl
    have hrem := computes_plain .rem h name hk rfl rfl
    have hzero : b.isZero = false := by simpa [IntValue.isZero] using hb
    simp only [Family.intOp, hzero] at hdiv hrem
    refine ⟨a.div b, a.rem b, hdiv, hrem, rfl, rfl, IntValue.val_rem a b, ?_⟩
    calc (a.div b).val * b.val + (a.rem b).val
        ≡ a.val.tdiv b.val * b.val + a.val.tmod b.val [ZMOD 2 ^ a.kind.bits] := by
          rw [IntValue.val_rem]
          exact ((a.kind.wrap_modEq _).mul_right _).add_right _
      _ = a.val := Int.tdiv_mul_add_tmod a.val b.val
  wraps hsigned ha hb := by
    have hdiv := computes_plain .div h name hk rfl rfl
    have hzero : b.isZero = false := by simp [IntValue.isZero, hb]
    simp only [Family.intOp, hzero, IntValue.div_lowest hsigned ha hb] at hdiv
    exact hdiv
  panics hb op hop := by
    have hzero : b.isZero = true := by simpa [IntValue.isZero] using hb
    obtain rfl | rfl := hop
    · have hdiv := computes_plain .div h name hk rfl rfl
      simp only [Family.intOp, hzero] at hdiv
      exact hdiv
    · have hrem := computes_plain .rem h name hk rfl rfl
      simp only [Family.intOp, hzero] at hrem
      exact hrem

theorem exactShifts (h : Heap) (name name' : Option String) (a c : IntValue) :
    ExactShifts h name name' a c where
  listed op hop := by
    unfold OperandKey.resolve?
    rw [if_pos hop]
    rfl
  left hc := by
    have hshl := computes_shift .shl h name a (c.declared name') rfl
    rw [shiftCount_int, if_neg (Int.not_lt.mpr hc)] at hshl
    have hval : Value.int (a.shl c.val.toNat) = .intOf a.kind (a.val * 2 ^ c.val.toNat) :=
      congrArg Value.int (a.shl_eq c.val.toNat)
    exact hval ▸ hshl
  right hc := by
    have hshr := computes_shift .shr h name a (c.declared name') rfl
    rw [shiftCount_int, if_neg (Int.not_lt.mpr hc)] at hshr
    have hpow : (0 : Int) ≤ 2 ^ c.val.toNat := Int.pow_nonneg (by decide)
    refine ⟨a.shr c.val.toNat, hshr, ?_, ?_⟩
    · unfold IntValue.shr
      split <;> rfl
    · rw [IntValue.val_shr, Int.fdiv_eq_ediv_of_nonneg _ hpow]
  on_bits hc := ⟨IntValue.shl_eq_ofBits hc, IntValue.shr_eq_ofBits hc⟩
  panics hc op hop := by
    have hshift := computes_shift op h name a (c.declared name') hop
    rw [shiftCount_int, if_pos hc] at hshift
    exact hshift

-- Integers are exact modulo the number of values of their kind: the 64 bits of a value stand for the
-- one integer of the kind, and every operator has the result that it has on integers of any size,
-- wrapped to the kind. Only a division by zero and a negative number of places have none.
theorem integers_are_exact (h : Heap) (name : Option String) (hk : b.kind = a.kind) :
    ExactIntegers h name a b where
  numbers := exact hk
  listed op hlogical hshift := by
    unfold OperandKey.resolve?
    rw [hshift, if_neg Bool.false_ne_true, hk]
    simp [OperandKey.family, int_defines hlogical]
  arithmetic op f g hop := by
    obtain ⟨hshift, hlogical, hcmp⟩ := plain_of_modular? hop
    obtain ⟨hint, hval⟩ := intOp_modular? hop (.int a) a b
    have hplain := computes_plain op h name hk hshift hlogical
    rw [hint, hcmp, if_neg Bool.false_ne_true] at hplain
    exact ⟨_, hplain, rfl, hval⟩
  unary op f g hop := by
    obtain ⟨hint, hval⟩ := evaluateUnary_modular? hop a
    refine ⟨_, ?_, rfl, hval⟩
    unfold IntValue.declared
    rw [evaluateUnary_wearing, hint]
    rfl
  quotient := exactQuotient h name hk
  compares op f hop := by
    obtain ⟨hshift, hlogical, hcmp⟩ := plain_of_compares? hop
    have hplain := computes_plain op h name hk hshift hlogical
    rw [intOp_compares? hop, hcmp, if_pos rfl] at hplain
    exact hplain
  shifts c name' := exactShifts h name name' a c

-- The least integer of eight bits by minus one.
theorem least_int8_is_exact :
    (IntValue.ofInt .int8 (-1)).kind = (IntValue.ofInt .int8 (-128)).kind ∧
      ExactIntegers .empty (some "celsius") (.ofInt .int8 (-128)) (.ofInt .int8 (-1)) ∧
      evaluateBinary .empty .div (IntValue.declared (some "celsius") (.ofInt .int8 (-128)))
          (IntValue.declared (some "celsius") (.ofInt .int8 (-1))) =
        .ok (.named "celsius" (.intOf .int8 (-128))) :=
  ⟨rfl, integers_are_exact .empty (some "celsius") rfl, rfl⟩

end

end StepGraph

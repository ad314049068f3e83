import StepGraph.Compile.Constant
import StepGraph.Compile.Lower
import StepGraph.Machine.Access
import StepGraph.Machine.Show
import StepGraph.Proofs.Machine.Exec
import StepGraph.Proofs.Number.Wrapping
import StepGraph.Proofs.Structured.Evaluation
import Mathlib.Data.List.Forall2

open EStateM (bind_of_ok)

namespace StepGraph

namespace Structured

open Exec

namespace Base

variable {s t : Base} {op : BinaryOp} {l r v w : Value}

theorem Has.copy (hv : t.Has v) (h : Heap) : Heap.copy v h = (v, h) := by cases hv <;> rfl

theorem Has.settle (hv : t.Has v) (types : TypeTable) : types.settle v t.ty = v := by
  cases hv with
  | int n hn => exact congrArg Value.int (IntValue.withKind_self hn)
  | bool b => rfl
  | string s => rfl

theorem Has.coerce (hv : t.Has v) (p : Program) (m : Machine) :
    p.coerce v t.ty m = .ok v m := by
  have hnil : v.isBareNil = false := by cases hv <;> rfl
  change onHeap (p.types.coerce v t.ty) m = _
  unfold TypeTable.coerce
  rw [hnil, hv.settle]
  rfl

theorem Has.ofConstant (hv : t.Has v) (h : Heap) :
    Heap.ofConstant (Constant.ofScalar v) h = (v, h) := by
  cases hv <;> · unfold Constant.ofScalar Heap.ofConstant; rfl

theorem has_zero (t : Base) : t.Has t.zero := by
  cases t with
  | int => exact .int _ rfl
  | bool => exact .bool false
  | string => exact .string ""

theorem zero_eq (t : Base) : Structured.zero t.ty = t.zero := by cases t <;> rfl

theorem zeroValue_eq (t : Base) (p : Program) (m : Machine) :
    p.zeroValue t.ty m = .ok t.zero m := by
  cases t <;> · unfold Program.zeroValue TypeTable.zeroValue; rfl

-- A hint says nothing, or gives the type.
def Hints (t : Base) (hint : Option Ty) : Prop := hint = none ∨ hint = some t.ty

theorem hints_none (t : Base) : t.Hints none := .inl rfl

theorem hints_ty (t : Base) : t.Hints (some t.ty) := .inr rfl

theorem Hints.or {a b : Option Ty} (ha : t.Hints a) (hb : t.Hints b) : t.Hints (a.or b) := by
  rcases ha with rfl | rfl
  · simpa using hb
  · exact t.hints_ty

-- A constant takes on nothing from a hint that fits it.
theorem Has.constant (hv : t.Has v) (n : Names) {hint : Option Ty} (hh : t.Hints hint)
    (h : Heap) : Heap.ofConstant (n.constant v hint) h = (v, h) := by
  have hnil : v.isBareNil = false := by cases hv <;> rfl
  have hc : n.constant v hint = Constant.ofScalar v := by
    rcases hh with rfl | rfl
    · rfl
    · have hsettle := hv.settle n.types
      cases t <;> simp only [Base.ty, Ty.plainInt] at hsettle <;>
        simp [Names.constant, hnil, Base.ty, Ty.plainInt, hsettle]
  rw [hc]
  exact hv.ofConstant h

theorem Has.show' (hv : t.Has v) (sv : Services) (m : Machine) :
    sv.show' v m = .ok (text v) m := by
  obtain ⟨d, hd⟩ : ∃ d, Services.showDepth m.heap = d + 1 := by
    have hpos := m.heap.reach_pos
    exact ⟨m.heap.reach + m.heap.maps.size - 1, by unfold Services.showDepth; omega⟩
  change (heap >>= fun h => sv.showUpTo false (Services.showDepth h) true v) m = _
  rw [bind_of_ok (heap_apply m), hd, Services.showUpTo]
  cases hv <;> rfl

theorem mapM_show {vs : List Value} {ts : List Base} (hvs : List.Forall₂ Has ts vs)
    (sv : Services) (m : Machine) : vs.mapM sv.show' m = .ok (vs.map text) m := by
  induction hvs with
  | nil => rfl
  | cons hv _ ih =>
      rw [List.mapM_cons, bind_of_ok (hv.show' sv m), bind_of_ok ih]
      rfl

theorem operate_int {a b : IntValue} (hop : op.isShift = false) :
    operate op (.int a) (.int b) = Family.intOp op (.int a) a b := by
  unfold operate
  rw [hop]
  simp [OperandKey.ofValue?, OperandKey.family, Family.apply, hop, Value.unwrap]

theorem operate_bool {a b : Bool} (hop : op.isShift = false) :
    operate op (.bool a) (.bool b) = Family.boolOp op (.bool a) a b := by
  unfold operate
  rw [hop]
  rfl

theorem operate_string {a b : String} (hop : op.isShift = false) :
    operate op (.str a) (.str b) = Family.stringOp op (.str a) a b := by
  unfold operate
  rw [hop]
  rfl

theorem operate_shift {a b : IntValue} (hop : op.isShift = true) :
    operate op (.int a) (.int b) =
      if b.isNegative then .error (.fault .negativeShift)
      else .ok (.int (if op = .shl then a.shl b.toNat64 else a.shr b.toNat64)) := by
  unfold operate
  rw [if_pos hop]
  change (Family.shiftCount op (.int b) >>= _) = _
  unfold Family.shiftCount
  simp only [Value.unwrap]
  split <;> rfl

-- An operator gives a value of the result type, or a fault.
def Gives (t : Base) (x : Except Failure Value) : Prop :=
  (∃ v, x = .ok v ∧ t.Has v) ∨ ∃ f, x = .error (.fault f)

theorem gives_ok (hv : t.Has v) : t.Gives (.ok v) := .inl ⟨v, rfl, hv⟩

theorem gives_fault (t : Base) (f : Fault) : t.Gives (.error (.fault f)) := .inr ⟨f, rfl⟩

theorem shift_gives {a b : IntValue} (ha : a.kind = .int) (hs : op.isShift = true) :
    int.Gives (operate op (.int a) (.int b)) := by
  rw [operate_shift hs]
  split
  · exact gives_fault int _
  · refine gives_ok (.int _ ?_)
    split
    · unfold IntValue.shl
      split <;> exact ha
    · unfold IntValue.shr
      split <;> exact ha

theorem intOp_gives {a b : IntValue} (ha : a.kind = .int) (hop : int.result? op = some t)
    (hs : op.isShift = false) : t.Gives (Family.intOp op (.int a) a b) := by
  cases op with
  | add | sub | mul | bitAnd | bitOr | bitXor | andNot =>
      obtain rfl : int = t := Option.some.inj hop
      exact gives_ok (.int _ ha)
  | div | rem =>
      obtain rfl : int = t := Option.some.inj hop
      unfold Family.intOp
      simp only
      split
      · exact gives_fault int _
      · exact gives_ok (.int _ ha)
  | eq | notEq | lt | ltEq | gt | gtEq =>
      obtain rfl : bool = t := Option.some.inj hop
      exact gives_ok (.bool _)
  | shl | shr => cases hs
  | logicalAnd | logicalOr => cases hop

theorem boolOp_gives {a b : Bool} (hop : bool.result? op = some t) :
    t.Gives (Family.boolOp op (.bool a) a b) := by
  cases op with
  | eq | notEq =>
      obtain rfl : bool = t := Option.some.inj hop
      exact gives_ok (.bool _)
  | _ => cases hop

theorem stringOp_gives {a b : String} (hop : string.result? op = some t) :
    t.Gives (Family.stringOp op (.str a) a b) := by
  cases op with
  | add =>
      obtain rfl : string = t := Option.some.inj hop
      exact gives_ok (.string _)
  | eq | notEq | lt | ltEq | gt | gtEq =>
      obtain rfl : bool = t := Option.some.inj hop
      exact gives_ok (.bool _)
  | _ => cases hop

theorem isLogical_of_result? (hop : s.result? op = some t) : op.isLogical = false := by
  unfold result? at hop
  split at hop
  · cases hop
  · next h => simpa using h

theorem result?_of_shift (hs : op.isShift = true) (hop : s.result? op = some t) :
    s = int ∧ t = int := by
  cases op <;> cases hs <;> cases s <;> cases hop <;> exact ⟨rfl, rfl⟩

theorem result?_of_plain (hs : op.isShift = false) (hc : op.isComparison = false)
    (hop : s.result? op = some t) : s = t := by
  unfold result? at hop
  rw [hs, hc] at hop
  split at hop
  · cases hop
  · simp only [Bool.false_eq_true, if_false] at hop
    split at hop
    · exact Option.some.inj hop
    · cases hop

theorem operate_gives (hop : s.result? op = some t) (hl : s.Has l) (hr : s.Has r) :
    t.Gives (operate op l r) := by
  cases hs : op.isShift with
  | true =>
      obtain ⟨rfl, rfl⟩ := result?_of_shift hs hop
      obtain ⟨a, ha⟩ := hl
      obtain ⟨b, hb⟩ := hr
      exact shift_gives ha hs
  | false =>
      cases hl with
      | int a ha =>
          obtain ⟨b, hb⟩ := hr
          rw [operate_int hs]
          exact intOp_gives ha hop hs
      | bool a =>
          obtain ⟨b⟩ := hr
          rw [operate_bool hs]
          exact boolOp_gives hop
      | string a =>
          obtain ⟨b⟩ := hr
          rw [operate_string hs]
          exact stringOp_gives hop

-- The operator that the static types lead to is the one of the values.
theorem apply_eq_operate (hop : s.result? op = some t) (hl : s.Has l) :
    s.family.apply op l r = operate op l r := by
  cases hs : op.isShift with
  | true =>
      obtain ⟨rfl, rfl⟩ := result?_of_shift hs hop
      unfold operate Family.apply
      simp only [Base.family, hs, if_true]
  | false =>
      unfold operate
      cases hl <;> simp [hs, OperandKey.ofValue?, OperandKey.family, Base.family]

theorem equal_eq_operate (hl : s.Has l) (hr : s.Has r) (h : Heap) :
    ∃ b, h.equal l r = .ok b ∧ operate .eq l r = .ok (.bool b) ∧
      operate .notEq l r = .ok (.bool !b) := by
  cases hl with
  | int a ha =>
      obtain ⟨b, hb⟩ := hr
      refine ⟨a.val == b.val, ?_, operate_int rfl, operate_int rfl⟩
      change Except.ok (Value.sameNumber (.int a) (.int b)) = _
      simp [Value.sameNumber, Value.unify, ha, hb]
  | bool a =>
      cases hr with
      | bool b => exact ⟨a == b, rfl, operate_bool rfl, operate_bool rfl⟩
  | string a =>
      cases hr with
      | string b => exact ⟨a == b, rfl, operate_string rfl, operate_string rfl⟩

theorem unify_self (hl : s.Has l) (hr : s.Has r) : Value.unify l r = (l, r) := by
  cases hl with
  | int a ha =>
      obtain ⟨b, hb⟩ := hr
      simp [Value.unify, ha, hb]
  | bool a =>
      obtain ⟨b⟩ := hr
      rfl
  | string a =>
      obtain ⟨b⟩ := hr
      rfl

theorem Has.unwrap (hv : t.Has v) : v.unwrap = v := by cases hv <;> rfl

theorem Has.wrapperName? (hv : t.Has v) : v.wrapperName? = none := by cases hv <;> rfl

theorem Has.key (hv : t.Has v) :
    ∃ key, OperandKey.ofValue? v = some key ∧ key.family = t.family ∧
      OperandKey.ofTy? t.ty = some key := by
  cases hv with
  | int n hn => exact ⟨.int n.kind, rfl, rfl, by rw [hn]; rfl⟩
  | bool => exact ⟨.bool, rfl, rfl, rfl⟩
  | string => exact ⟨.string, rfl, rfl, rfl⟩

theorem defines_of_result? (hs : op.isShift = false) (hop : s.result? op = some t) :
    s.family.defines op = true ∧ op.isLogical = false := by
  cases op <;> cases hs <;> cases s <;> cases hop <;> exact ⟨rfl, rfl⟩

-- Operators that look at their operands at run time come to the same.
theorem evaluateBinary_eq_operate (hop : s.result? op = some t) (hl : s.Has l) (hr : s.Has r)
    (h : Heap) : evaluateBinary h op l r = operate op l r := by
  obtain ⟨b, hequal, heq, hne⟩ := equal_eq_operate hl hr h
  obtain ⟨key, hkey, hfamily, -⟩ := hl.key
  have hshift : op.isShift = true →
      (do return (← Family.shift op l r).wearing l.wrapperName?) = operate op l r := by
    intro hs
    unfold operate
    rw [if_pos hs, hl.wrapperName?]
    cases Family.shift op l r <;> rfl
  have hplain : op.isShift = false →
      (if key.family.defines op then do
        let v ← key.family.apply op l r
        if op.isComparison || op.isLogical then return v
        return v.wearing (l.wrapperName?.or r.wrapperName?)
      else Family.notDefined op l) = operate op l r := by
    intro hs
    rw [hfamily, if_pos (defines_of_result? hs hop).1, apply_eq_operate hop hl, hl.wrapperName?,
      hr.wrapperName?]
    cases operate op l r <;> simp [Value.wearing]
  cases op with
  | eq =>
      rw [heq]
      change (h.equal l r >>= _) = _
      rw [hequal]
      rfl
  | notEq =>
      rw [hne]
      change (h.equal l r >>= _) = _
      rw [hequal]
      rfl
  | shl | shr => exact hshift rfl
  | _ =>
      rw [← hplain rfl]
      simp only [evaluateBinary, hl.unwrap, hr.unwrap, unify_self hl hr, hkey]

theorem evaluateUnary_has {op : UnaryOp} (hop : t.allows op) (hv : t.Has v) :
    ∃ w, evaluateUnary op v = .ok w ∧ t.Has w := by
  cases hv with
  | int n hn =>
      cases op with
      | neg => exact ⟨_, rfl, .int _ hn⟩
      | plus => exact ⟨_, rfl, .int _ hn⟩
      | bitNot => exact ⟨_, rfl, .int _ hn⟩
      | _ => cases hop
  | bool b =>
      cases op with
      | not => exact ⟨_, rfl, .bool _⟩
      | _ => cases hop
  | string => cases op <;> cases hop

theorem resolved?_eq {a b : Option Ty} (hop : s.result? op = some t) (ha : s.Hints a)
    (hb : s.Hints b) :
    Build.resolved? op a b = none ∨ Build.resolved? op a b = some s.family := by
  rcases ha with rfl | rfl
  · exact .inl rfl
  · rcases hb with rfl | rfl
    · exact .inl rfl
    · right
      cases s <;> cases op <;> cases hop <;> rfl

end Base

end Structured

end StepGraph

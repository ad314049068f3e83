import Mathlib.Tactic.Common
import StepGraph.Operator.Equality
import StepGraph.Proofs.Operator.Integers
import StepGraph.Proofs.Store.Outline

namespace StepGraph

open Float.Model (UnpackedFloat)

section Floats

theorem UnpackedFloat.compare_swap (a b : UnpackedFloat) :
    b.compare a = (a.compare b).map Ordering.swap := by
  cases a with
  | notANumber => cases b <;> rfl
  | infinity s =>
      cases b with
      | infinity t => cases s <;> cases t <;> rfl
      | _ => cases s <;> rfl
  | zero s =>
      cases b with
      | infinity t | finite t => cases t <;> rfl
      | _ => rfl
  | finite s m e =>
      cases b with
      | notANumber => cases s <;> rfl
      | infinity t => cases s <;> cases t <;> rfl
      | zero t => cases s <;> rfl
      | finite t n f =>
          have hsizes : (compare f e).then (compare n m) =
              ((compare e f).then (compare m n)).swap := by
            rw [Ordering.swap_then, ← Std.OrientedCmp.eq_swap, ← Std.OrientedCmp.eq_swap]
          cases s with
          | positive =>
              cases t with
              | positive => exact congrArg some hsizes
              | negative => rfl
          | negative =>
              cases t with
              | positive => rfl
              | negative => exact congrArg (fun o => some o.swap) hsizes

theorem UnpackedFloat.beq_swap (a b : UnpackedFloat) : b.beq a = a.beq b := by
  unfold UnpackedFloat.beq
  rw [compare_swap a b]
  cases a.compare b with
  | none => rfl
  | some o => cases o <;> rfl

theorem float_beq_comm (x y : Float) : (x == y) = (y == x) :=
  (UnpackedFloat.beq_swap _ _).symm

theorem Complex.same_comm (a b : Complex) : a.same b = b.same a := by
  unfold Complex.same
  rw [float_beq_comm a.re, float_beq_comm a.im]

end Floats

namespace Value

-- Which of two values without declared types stands on the left matters: the left one of two
-- integers gives the kind that both are brought to, and a value that cannot be compared fails on
-- the left side only.
def Lopsided : Value → Value → Prop
  | int a, int b => a.kind ≠ b.kind ∧ a.kind.rank = b.kind.rank ∧
      ¬(a.kind.wrap b.val = a.val ↔ b.kind.wrap a.val = b.val)
  | v, w => v.isNamed = false ∧ w.isNamed = false ∧ v.isBareNil = false ∧ w.isBareNil = false ∧
      (Heap.equalBare.isUncomparable v ∨ Heap.equalBare.isUncomparable w) ∧
      v.kindName ≠ w.kindName

variable {v w : Value} {a b : IntValue}

theorem sameNumber_ints : sameNumber (int a) (int b) =
    decide ((a.commonKind b).wrap a.val = (a.commonKind b).wrap b.val) := by
  unfold sameNumber
  rw [unify_ints]
  exact beq_eq_decide _ _

-- Of two ranks the higher one gives the common kind in both orders, and of one rank the left one.
theorem sameNumber_ints_comm (hab : ¬ Lopsided (int a) (int b)) :
    sameNumber (int a) (int b) = sameNumber (int b) (int a) := by
  rw [sameNumber_ints, sameNumber_ints, decide_eq_decide]
  unfold IntValue.commonKind
  rcases Nat.lt_trichotomy a.kind.rank b.kind.rank with hlt | heq | hgt
  · rw [if_pos hlt, if_neg (Nat.lt_asymm hlt)]
    exact eq_comm
  · rw [if_neg (by omega), if_neg (by omega), IntKind.wrap_of_holds a.holds,
      IntKind.wrap_of_holds b.holds]
    by_cases hkind : a.kind = b.kind
    · rw [hkind, IntKind.wrap_of_holds b.holds, ← hkind, IntKind.wrap_of_holds a.holds]
      exact eq_comm
    · have hwrap : a.kind.wrap b.val = a.val ↔ b.kind.wrap a.val = b.val := by
        by_contra hwrap
        exact hab ⟨hkind, heq, hwrap⟩
      rw [eq_comm, hwrap]
      exact eq_comm
  · rw [if_neg (Nat.lt_asymm hgt), if_pos hgt]
    exact eq_comm

theorem sameNumber_comm (hv : v.isNumber = true) (hw : w.isNumber = true)
    (hvw : ¬ v.Lopsided w) : v.sameNumber w = w.sameNumber v := by
  cases v with
  | int a =>
      cases w with
      | int b => exact sameNumber_ints_comm hvw
      | float32 | float64 | complex64 | complex128 =>
          simp [sameNumber, unify, complexOf, Family.float?, Family.complexResult, float_beq_comm,
            Complex.same_comm]
      | _ => cases hw
  | float32 | float64 | complex64 | complex128 =>
      cases w with
      | int | float32 | float64 | complex64 | complex128 =>
          simp [sameNumber, unify, complexOf, Family.float?, Family.complexResult, float_beq_comm,
            Complex.same_comm]
      | _ => cases hw
  | _ => cases hv

end Value

namespace Heap

open equalBare (isUncomparable sameKind)

variable {h : Heap} {v w x y : Value} {n : Nat} {e : Failure}
  {inBlock : Value → Value → Except Failure Bool}

theorem isUncomparable_iff (hv : v.isNamed = false) :
    isUncomparable v = true ↔ v.kindName ∈ ["slice", "map", "func"] := by
  cases v with
  | int n => cases hk : n.kind <;> simp [isUncomparable, Value.kindName, IntKind.name, hk]
  | named => cases hv
  | _ => simp [isUncomparable, Value.kindName]

-- Values of two kinds, numbers, and values that can be compared with nil only.
def equalOthers (v w : Value) : Except Failure Bool :=
  if v.isNumber && w.isNumber then .ok (v.sameNumber w)
  else if sameKind v w && (v.isNil || w.isNil) then .ok (v.isNil && w.isNil)
  else if isUncomparable v then .error (.fault (.uncomparable v.kindName))
  else .ok false

theorem isNumber_of_uncomparable (hv : isUncomparable v = true) : v.isNumber = false := by
  cases v <;> first | rfl | cases hv

theorem equalOthers_uncomparable (hv : isUncomparable v = true) (hkind : v.kindName ≠ w.kindName) :
    equalOthers v w = .error (.fault (.uncomparable v.kindName)) := by
  simp [equalOthers, isNumber_of_uncomparable hv, sameKind, hkind, hv]

theorem equalOthers_comparable (hv : isUncomparable v = false)
    (hnumber : v.isNumber = false ∨ w.isNumber = false) : equalOthers v w = .ok false := by
  rcases hnumber with hnumber | hnumber <;> simp [equalOthers, hnumber, sameKind, hv]

theorem equalOthers_comm (hv : v.isNamed = false) (hw : w.isNamed = false)
    (hv' : v.isBareNil = false) (hw' : w.isBareNil = false) (hvw : ¬ v.Lopsided w) :
    equalOthers v w = equalOthers w v := by
  by_cases hnumber : v.isNumber = true ∧ w.isNumber = true
  · simp [equalOthers, hnumber, Value.sameNumber_comm hnumber.1 hnumber.2 hvw]
  · have hnone : v.isNumber = false ∨ w.isNumber = false :=
      (not_and_or.mp hnumber).imp Bool.eq_false_of_not_eq_true Bool.eq_false_of_not_eq_true
    by_cases hkind : v.kindName = w.kindName
    · cases hu : isUncomparable v with
      | true =>
          have hu' : isUncomparable w = true := by
            rwa [isUncomparable_iff hw, ← hkind, ← isUncomparable_iff hv]
          simp [equalOthers, isNumber_of_uncomparable, sameKind, hkind, hu, hu', Bool.or_comm,
            Bool.and_comm]
      | false =>
          have hu' : isUncomparable w = false := by
            rwa [Bool.eq_false_iff, ne_eq, isUncomparable_iff hw, ← hkind, ← isUncomparable_iff hv,
              ← ne_eq, ← Bool.eq_false_iff]
          rw [equalOthers_comparable hu hnone, equalOthers_comparable hu' hnone.symm]
    · have hnot : isUncomparable v = false ∧ isUncomparable w = false := by
        by_contra hu
        refine hvw ?_
        unfold Value.Lopsided
        split
        · exact absurd ⟨rfl, rfl⟩ hnumber
        · refine ⟨hv, hw, hv', hw', ?_, hkind⟩
          cases hu' : isUncomparable v with
          | true => exact .inl rfl
          | false => exact .inr (by simpa [hu'] using hu)
      rw [equalOthers_comparable hnot.1 hnone, equalOthers_comparable hnot.2 hnone.symm]

-- Two parts stand at one place of two structs of one type or of two arrays of one length.
inductive Opposite (h : Heap) : Value → Value → Value → Value → Prop
  | field (s t : StructRef) (p : Value × Value) (hname : s.typeName = t.typeName)
      (hlen : s.layout.length = t.layout.length)
      (hp : p ∈ (h.block s.block).toList.zip (h.block t.block).toList) :
      Opposite h (.struct s) (.struct t) p.1 p.2
  | elem (b c : BlockId) (p : Value × Value) (hsize : (h.block b).size = (h.block c).size)
      (hp : p ∈ (h.block b).toList.zip (h.block c).toList) :
      Opposite h (.array b) (.array c) p.1 p.2

-- The pairs at corresponding positions of two values, the two values themselves included. A
-- declared type around one side only does not count.
inductive Corresponds (h : Heap) : Value → Value → Value → Value → Prop
  | self (v w : Value) : Corresponds h v w v w
  | part {v w p q x y : Value} (hpart : h.Opposite v w p q) (hm : Corresponds h p q x y) :
    Corresponds h v w x y
  | named {v w x y : Value} (t : String) (hm : Corresponds h v w x y) :
      Corresponds h (.named t v) (.named t w) x y
  | left {v w x y : Value} (t : String) (hw : w.isNamed = false)
    (hm : Corresponds h v.unwrap w x y) :
      Corresponds h (.named t v) w x y
  | right {v w x y : Value} (t : String) (hv : v.isNamed = false)
    (hm : Corresponds h w.unwrap v x y) :
      Corresponds h v (.named t w) x y

-- The ways in which two values without declared types are compared.
theorem equalBare_cases (inBlock : Value → Value → Except Failure Bool) (h : Heap) (v w : Value) :
    (∃ r, equalBare inBlock h v w = .ok r ∧ equalBare inBlock h w v = .ok r) ∨
      (∃ s t, v = .struct s ∧ w = .struct t) ∨ (∃ b c, v = .array b ∧ w = .array c) ∨
      v.isBareNil = false ∧ w.isBareNil = false ∧
        equalBare inBlock h v w = equalOthers v w ∧ equalBare inBlock h w v = equalOthers w v := by
  have hnil : ∀ v, equalBare inBlock h v .nil = .ok v.isNil := fun v => by cases v <;> rfl
  have hnotNil : ∀ v : Value, (v = .nil → False) → v.isBareNil = false := fun v hv => by
    cases v <;> first | rfl | exact (hv rfl).elim
  generalize hr : equalBare inBlock h v w = r
  unfold equalBare at hr
  split at hr
  · exact .inl ⟨_, hr.symm, hnil _⟩
  · exact .inl ⟨_, hr.symm, rfl⟩
  iterate 6 exact .inl ⟨_, hr.symm, congrArg Except.ok BEq.comm⟩
  · exact .inr (.inl ⟨_, _, rfl, rfl⟩)
  · exact .inr (.inr (.inl ⟨_, _, rfl, rfl⟩))
  · next hv hw hbool hstr hpointer hchan herror hpackage hstruct harray =>
      -- What is no pair of one of these kinds is none the other way round.
      have hswap : equalBare inBlock h w v = equalOthers w v :=
        equalBare.eq_11 inBlock h w v hw hv (fun a b hb ha => hbool b a ha hb)
          (fun a b hb ha => hstr b a ha hb) (fun a b hb ha => hpointer b a ha hb)
          (fun a b hb ha => hchan b a ha hb) (fun a b hb ha => herror b a ha hb)
          (fun a b hb ha => hpackage b a ha hb) (fun a b hb ha => hstruct b a ha hb)
          (fun a b hb ha => harray b a ha hb)
      exact .inr (.inr (.inr ⟨hnotNil v hv, hnotNil w hw, hr.symm, hswap⟩))

theorem allEqual_comm {vs ws : List Value}
    (hp : ∀ p ∈ vs.zip ws, inBlock p.1 p.2 = inBlock p.2 p.1) :
    allEqual inBlock vs ws = allEqual inBlock ws vs := by
  induction vs generalizing ws with
  | nil => cases ws <;> rfl
  | cons v vs ih =>
      cases ws with
      | nil => rfl
      | cons w ws =>
          unfold allEqual
          rw [hp (v, w) List.mem_cons_self, ih fun p hm => hp p (List.mem_cons_of_mem _ hm)]

theorem allEqual_error {vs ws : List Value} (hall : allEqual inBlock vs ws = .error e) :
    ∃ p ∈ vs.zip ws, inBlock p.1 p.2 = .error e := by
  induction vs generalizing ws with
  | nil => cases ws <;> cases hall
  | cons v vs ih =>
      cases ws with
      | nil => cases hall
      | cons w ws =>
          unfold allEqual at hall
          cases hvw : inBlock v w with
          | error e' =>
              rw [hvw] at hall
              cases hall
              exact ⟨(v, w), List.mem_cons_self, hvw⟩
          | ok r =>
              rw [hvw] at hall
              cases r with
              | true =>
                  obtain ⟨p, hp, hpe⟩ := ih hall
                  exact ⟨p, List.mem_cons_of_mem _ hp, hpe⟩
              | false => cases hall

theorem equalBare_comm (hv : v.isNamed = false) (hw : w.isNamed = false) (hvw : ¬ v.Lopsided w)
    (hparts : ∀ p q, h.Opposite v w p q → inBlock p q = inBlock q p) :
    equalBare inBlock h v w = equalBare inBlock h w v := by
  rcases equalBare_cases inBlock h v w with
    ⟨r, hr, hr'⟩ | ⟨s, t, rfl, rfl⟩ | ⟨b, c, rfl, rfl⟩ | ⟨hv', hw', hothers, hothers'⟩
  · rw [hr, hr']
  · change (if s.typeName ≠ t.typeName ∨ s.layout.length ≠ t.layout.length then _ else _) =
      (if t.typeName ≠ s.typeName ∨ t.layout.length ≠ s.layout.length then _ else _)
    by_cases htypes : s.typeName ≠ t.typeName ∨ s.layout.length ≠ t.layout.length
    · rw [if_pos htypes, if_pos (htypes.imp Ne.symm Ne.symm)]
    · rw [if_neg htypes, if_neg fun hne => htypes (hne.imp Ne.symm Ne.symm)]
      obtain ⟨hname, hlen⟩ := not_or.mp htypes
      exact allEqual_comm fun p hp =>
        hparts p.1 p.2 (.field s t p (not_not.mp hname) (not_not.mp hlen) hp)
  · change (if (h.block b).size ≠ (h.block c).size then _ else _) =
      (if (h.block c).size ≠ (h.block b).size then _ else _)
    by_cases hsize : (h.block b).size = (h.block c).size
    · rw [if_neg (not_not.mpr hsize), if_neg (not_not.mpr hsize.symm)]
      exact allEqual_comm fun p hp => hparts p.1 p.2 (.elem b c p hsize hp)
    · rw [if_pos hsize, if_pos (Ne.symm hsize)]
  · rw [hothers, hothers', equalOthers_comm hv hw hv' hw' hvw]

-- A declared type around one side only: the comparison takes that side first in either order.
theorem equalWith_named_left (t : String) (hw : w.isNamed = false) :
    equalWith inBlock h (.named t v) w = equalBare inBlock h v.unwrap w := by
  cases w <;> first | rfl | cases hw

theorem equalWith_named_right (t : String) (hv : v.isNamed = false) :
    equalWith inBlock h v (.named t w) = equalBare inBlock h w.unwrap v := by
  cases v <;> first | rfl | cases hv

theorem equalWith_named (s t : String) : equalWith inBlock h (.named s v) (.named t w) =
    if s = t then equalWith inBlock h v w else .ok false := rfl

theorem equalWith_comm (hflat : ∀ x y, h.Corresponds v w x y → ¬ x.Lopsided y)
    (hparts : ∀ v w p q, h.Opposite v w p q → (∀ x y, h.Corresponds p q x y → ¬ x.Lopsided y) →
      inBlock p q = inBlock q p) :
    equalWith inBlock h v w = equalWith inBlock h w v := by
  induction v using named_induction generalizing w with
  | named s v ih =>
      rcases eq_named_or_not_named w with ⟨t, w, rfl⟩ | hw
      · rw [equalWith_named, equalWith_named]
        by_cases hst : s = t
        · rw [if_pos hst, if_pos hst.symm]
          subst hst
          exact ih fun x y hm => hflat x y (.named s hm)
        · rw [if_neg hst, if_neg (Ne.symm hst)]
      · rw [equalWith_named_left s hw, equalWith_named_right s hw]
  | bare v hv =>
      rcases eq_named_or_not_named w with ⟨t, w, rfl⟩ | hw
      · rw [equalWith_named_left t hv, equalWith_named_right t hv]
      · rw [equalWith_bare inBlock h hv hw, equalWith_bare inBlock h hw hv]
        exact equalBare_comm hv hw (hflat _ _ (.self _ _)) fun p q ho =>
          hparts _ _ p q ho fun x y hm => hflat x y (.part ho hm)

theorem equalUpTo_comm (hflat : ∀ x y, h.Corresponds v w x y → ¬ x.Lopsided y) :
    h.equalUpTo n v w = h.equalUpTo n w v := by
  induction n generalizing v w with
  | zero => rfl
  | succ n ih => exact equalWith_comm hflat fun v w p q _ hpq => ih hpq

-- The left value cannot be compared with the right one, which is not nil of the same kind.
structure Clashes (v w : Value) : Prop where
  uncomparable : isUncomparable v = true
  bare : w.isNamed = false
  notNil : w.isBareNil = false
  bothFull : v.kindName = w.kindName → v.isNil = false ∧ w.isNil = false

theorem equalOthers_error (hw : w.isNamed = false) (hw' : w.isBareNil = false)
    (he : equalOthers v w = .error e) : Clashes v w ∧ e = .fault (.uncomparable v.kindName) := by
  unfold equalOthers at he
  split at he
  · cases he
  · split at he
    · cases he
    · next hsame =>
        split at he
        · next hu =>
            cases he
            refine ⟨⟨hu, hw, hw', fun hkind => ?_⟩, rfl⟩
            simpa [sameKind, hu, hkind] using hsame
        · cases he

theorem equalBare_error (hw : w.isNamed = false) (he : equalBare inBlock h v w = .error e) :
    (∃ p q, h.Opposite v w p q ∧ inBlock p q = .error e) ∨
      Clashes v w ∧ e = .fault (.uncomparable v.kindName) := by
  rcases equalBare_cases inBlock h v w with
    ⟨r, hr, -⟩ | ⟨s, t, rfl, rfl⟩ | ⟨b, c, rfl, rfl⟩ | ⟨-, hw', hothers, -⟩
  · rw [hr] at he
    cases he
  · change (if s.typeName ≠ t.typeName ∨ s.layout.length ≠ t.layout.length then _ else _) = _ at he
    split at he
    · cases he
    · next htypes =>
        obtain ⟨hname, hlen⟩ := not_or.mp htypes
        obtain ⟨p, hp, hpe⟩ := allEqual_error he
        exact .inl ⟨p.1, p.2, .field s t p (not_not.mp hname) (not_not.mp hlen) hp, hpe⟩
  · change (if (h.block b).size ≠ (h.block c).size then _ else _) = _ at he
    split at he
    · cases he
    · next hsize =>
        obtain ⟨p, hp, hpe⟩ := allEqual_error he
        exact .inl ⟨p.1, p.2, .elem b c p (not_not.mp hsize) hp, hpe⟩
  · rw [hothers] at he
    exact .inr (equalOthers_error hw hw' he)

-- What a comparison fails with, and the pair that it fails at.
def FailsAt (h : Heap) (v w : Value) (e : Failure) : Prop :=
  ∃ x y, h.Corresponds v w x y ∧ Clashes x y ∧ e = .fault (.uncomparable x.kindName)

theorem FailsAt.mono {v' w' : Value} (hf : h.FailsAt v w e)
    (hm : ∀ x y, h.Corresponds v w x y → h.Corresponds v' w' x y) : h.FailsAt v' w' e := by
  obtain ⟨x, y, hxy, hrest⟩ := hf
  exact ⟨x, y, hm x y hxy, hrest⟩

theorem failsAt_of_equalBare (hw : w.isNamed = false)
    (hparts : ∀ p q, inBlock p q = .error e → h.FailsAt p q e)
    (he : equalBare inBlock h v w = .error e) : h.FailsAt v w e := by
  rcases equalBare_error hw he with ⟨p, q, hpart, hpq⟩ | ⟨hclash, he⟩
  · exact (hparts p q hpq).mono fun x y hm => .part hpart hm
  · exact ⟨v, w, .self v w, hclash, he⟩

theorem failsAt_of_equalWith (hparts : ∀ p q, inBlock p q = .error e → h.FailsAt p q e)
    (he : equalWith inBlock h v w = .error e) : h.FailsAt v w e := by
  induction v using named_induction generalizing w with
  | named s v ih =>
      rcases eq_named_or_not_named w with ⟨t, w, rfl⟩ | hw
      · rw [equalWith_named] at he
        split at he
        · next hst =>
            subst hst
            exact (ih he).mono fun x y hm => .named s hm
        · cases he
      · rw [equalWith_named_left s hw] at he
        exact (failsAt_of_equalBare hw hparts he).mono fun x y hm => .left s hw hm
  | bare v hv =>
      rcases eq_named_or_not_named w with ⟨t, w, rfl⟩ | hw
      · rw [equalWith_named_right t hv] at he
        exact (failsAt_of_equalBare hv hparts he).mono fun x y hm => .right t hv hm
      · rw [equalWith_bare inBlock h hv hw] at he
        exact failsAt_of_equalBare hw hparts he

theorem failsAt_of_equalUpTo (he : h.equalUpTo n v w = .error e) : h.FailsAt v w e := by
  induction n generalizing v w with
  | zero => cases he
  | succ n ih => exact failsAt_of_equalWith (fun p q hpq => ih hpq) he

-- Where the order does not matter, values that clash are of one kind and none of them is nil.
theorem Clashes.of_not_lopsided (hc : Clashes v w) (hvw : ¬ v.Lopsided w) :
    isUncomparable w = true ∧ v.kindName = w.kindName ∧ v.isNil = false ∧ w.isNil = false := by
  have hv : v.isNamed = false ∧ v.isBareNil = false ∧ v.int? = none := by
    have hu := hc.uncomparable
    cases v <;> first | exact ⟨rfl, rfl, rfl⟩ | cases hu
  have hkind : v.kindName = w.kindName := by
    by_contra hkind
    refine hvw ?_
    unfold Value.Lopsided
    split
    · cases hv.2.2
    · exact ⟨hv.1, hc.bare, hv.2.1, hc.notNil, .inl hc.uncomparable, hkind⟩
  refine ⟨?_, hkind, hc.bothFull hkind⟩
  rw [isUncomparable_iff hc.bare, ← hkind, ← isUncomparable_iff hv.1]
  exact hc.uncomparable

theorem equalBare_uncomparable (hu : isUncomparable v = true) (hw : w.isBareNil = false) :
    equalBare inBlock h v w = equalOthers v w ∧ equalBare inBlock h w v = equalOthers w v := by
  cases v with
  | slice | map | func | method => cases w <;> first | exact ⟨rfl, rfl⟩ | cases hw
  | _ => cases hu

theorem equalBare_ne_of_uncomparable (hu : isUncomparable v = true) (hw : w.isBareNil = false)
    (hkind : v.kindName ≠ w.kindName) : equalBare inBlock h v w ≠ equalBare inBlock h w v := by
  obtain ⟨hvw, hwv⟩ : equalBare inBlock h v w = equalOthers v w ∧
      equalBare inBlock h w v = equalOthers w v := equalBare_uncomparable hu hw
  rw [hvw, hwv, equalOthers_uncomparable hu hkind]
  cases hu' : isUncomparable w with
  | true =>
      rw [equalOthers_uncomparable hu' hkind.symm]
      simpa using hkind
  | false =>
      rw [equalOthers_comparable hu' (.inr (isNumber_of_uncomparable hu))]
      simp

theorem equalBare_ne (hvw : v.Lopsided w) : equalBare inBlock h v w ≠ equalBare inBlock h w v := by
  unfold Value.Lopsided at hvw
  split at hvw
  · next a b =>
      obtain ⟨-, hrank, hwrap⟩ := hvw
      change Except.ok (Value.sameNumber (.int a) (.int b)) ≠
        Except.ok (Value.sameNumber (.int b) (.int a))
      rw [Value.sameNumber_ints, Value.sameNumber_ints, IntValue.commonKind, IntValue.commonKind,
        if_neg (by omega), if_neg (by omega), IntKind.wrap_of_holds a.holds,
        IntKind.wrap_of_holds b.holds, ne_eq, Except.ok.injEq, decide_eq_decide]
      exact fun heq => hwrap (eq_comm.trans (heq.trans eq_comm))
  · obtain ⟨-, -, hv, hw, hu | hu, hkind⟩ := hvw
    · exact equalBare_ne_of_uncomparable hu hw hkind
    · exact (equalBare_ne_of_uncomparable hu hv hkind.symm).symm

theorem Opposite.not_leaf {p q : Value} (ho : h.Opposite v w p q) : v.isLeaf = false := by
  cases ho <;> rfl

-- Comparing is symmetric, and fails just at two values of one kind that are not nil, where no two
-- values at corresponding positions are lopsided. Of values without parts those that are lopsided
-- are told apart by the order, and a declared type around one side makes the order not matter.
theorem equality_symmetric_unless_lopsided (h : Heap) (v w : Value) :
    ((∀ x y, h.Corresponds v w x y → ¬ x.Lopsided y) →
      h.equal v w = h.equal w v ∧
      ∀ e, h.equal v w = .error e → ∃ x y, h.Corresponds v w x y ∧
        isUncomparable x = true ∧ isUncomparable y = true ∧ x.kindName = y.kindName ∧
        x.isNil = false ∧ y.isNil = false ∧ e = .fault (.uncomparable x.kindName)) ∧
    (v.isLeaf → w.isNamed = false → (h.equal v w = h.equal w v ↔ ¬ v.Lopsided w)) ∧
    (w.isNamed = false → ∀ t, h.equal (.named t v) w = h.equal w (.named t v)) := by
  refine ⟨fun hflat => ⟨equalUpTo_comm hflat, fun e he => ?_⟩, fun hv hw => ?_, fun hw t => ?_⟩
  · obtain ⟨x, y, hm, hclash, he⟩ := failsAt_of_equalUpTo he
    obtain ⟨hy, hkind, hx', hy'⟩ := hclash.of_not_lopsided (hflat x y hm)
    exact ⟨x, y, hm, hclash.uncomparable, hy, hkind, hx', hy', he⟩
  · have hv' : v.isNamed = false := by cases v <;> first | rfl | cases hv
    have hvw : h.equal v w = equalBare (h.equalUpTo h.blocks.size) h v w :=
      equalWith_bare _ h hv' hw
    have hwv : h.equal w v = equalBare (h.equalUpTo h.blocks.size) h w v :=
      equalWith_bare _ h hw hv'
    rw [hvw, hwv]
    refine ⟨fun heq hlop => equalBare_ne hlop heq, fun hlop => equalBare_comm hv' hw hlop ?_⟩
    exact fun p q ho => absurd hv (by simp [ho.not_leaf])
  · exact (equalWith_named_left t hw).trans (equalWith_named_right t hw).symm

-- Two arrays of an integer and a slice: the integers are of two kinds of which one is the kind of
-- constants, and the slices cannot be compared in either order.
theorem arrays_of_slices_fail_in_both_orders :
    let slice : Value := .slice (some ⟨0, 0, 0, 0⟩)
    let h : Heap := { Heap.empty with
      blocks := #[#[.plainInt 1, slice], #[.intOf .int8 1, slice]] }
    h.equal (.array 0) (.array 1) = .error (.fault (.uncomparable "slice")) ∧
      h.equal (.array 1) (.array 0) = .error (.fault (.uncomparable "slice")) := by
  intro slice h
  have hflat : ∀ x y, h.Corresponds (.array 0) (.array 1) x y → ¬ x.Lopsided y := by
    intro x y hm
    cases hm with
    | self => exact fun hlop => absurd hlop.2.2.2.2.1 (by simp [isUncomparable])
    | part hpart hm =>
        cases hpart with
        | elem b c p hsize hp =>
            obtain rfl | rfl : p = (.plainInt 1, .intOf .int8 1) ∨ p = (slice, slice) := by
              simpa [h, block] using hp
            · cases hm with
              | self => exact fun hlop => absurd hlop.2.1 (by decide)
              | part hpart => cases hpart
            · cases hm with
              | self => exact fun hlop => absurd rfl hlop.2.2.2.2.2
              | part hpart => cases hpart
  have hfails : h.equal (.array 0) (.array 1) = .error (.fault (.uncomparable "slice")) := rfl
  exact ⟨hfails, ((equality_symmetric_unless_lopsided h _ _).1 hflat).1 ▸ hfails⟩

-- A slice on the left of an integer cannot be compared, and on the right it differs from it. An
-- int8 and an int16 are equal or not in the kind of the left one.
theorem equality_depends_on_left_operand :
    let slice : Value := .slice (some ⟨0, 0, 0, 0⟩)
    Heap.empty.equal slice (.plainInt 1) = .error (.fault (.uncomparable "slice")) ∧
      Heap.empty.equal (.plainInt 1) slice = .ok false ∧
      Heap.empty.equal (.intOf .int8 (-128)) (.intOf .int16 128) = .ok true ∧
      Heap.empty.equal (.intOf .int16 128) (.intOf .int8 (-128)) = .ok false :=
  ⟨rfl, rfl, rfl, rfl⟩

end Heap

end StepGraph

import StepGraph.Operator.Evaluate
import StepGraph.Proofs.Store.Trees
import StepGraph.Types.Convert

namespace StepGraph

namespace Value

-- What is left of a value without the numbers that the heap and the code give out.
def outline : Value → Value
  | array _ => array 0
  | struct s => struct { s with block := 0 }
  | pointer (some _) => pointer (some 0)
  | named t v => named t v.outline
  | func (some (.closure code _)) => func (some (.closure ⟨0, code.name⟩ 0))
  | v => v

def address? : Value → Option Address
  | pointer a => a
  | _ => none

-- Values that refer to nothing on the heap. A function of a package is one of them.
def isPlain : Value → Bool
  | nil | bool _ | int _ | float32 _ | float64 _ | complex64 _ | complex128 _ | str _ | slice none
  | map none | pointer none | func none | func (some (.closure ..)) | chan none | package _ => true
  | _ => false

@[simp] theorem unwrap_outline (v : Value) : v.outline.unwrap = v.unwrap.outline := by
  induction v with
  | named t v ih => exact ih
  | pointer a => cases a <;> rfl
  | func f => rcases f with _ | ⟨_ | _ | _⟩ <;> rfl
  | _ => rfl

-- Most values are their own outlines.
theorem outline_cases {P : Value → Value → Prop} (v : Value) (same : v.outline = v → P v v)
    (array : ∀ b, P (array b) (array 0))
    (struct : ∀ s, P (struct s) (struct { s with block := 0 }))
    (pointer : ∀ a, P (pointer (some a)) (pointer (some 0)))
    (closure : ∀ code env, P (func (some (.closure code env)))
      (func (some (.closure ⟨0, code.name⟩ 0))))
    (named : ∀ t v, P (named t v) (named t v.outline)) : P v v.outline := by
  cases v with
  | array b => exact array b
  | struct s => exact struct s
  | named t v => exact named t v
  | pointer a =>
      cases a with
      | none => exact same rfl
      | some a => exact pointer a
  | func f =>
      rcases f with _ | ⟨code, env⟩ | _ | _
      · exact same rfl
      · exact closure code env
      · exact same rfl
      · exact same rfl
  | _ => exact same rfl

-- Operators and conversions see of their operands no more than the outlines.

theorem complexOf_outline (single : Bool) (v : Value) :
    complexOf single v.outline = (complexOf single v).outline := by
  cases v using outline_cases with
  | same h => cases v <;> first | rfl | exact h.symm | (cases single <;> rfl)
  | _ => rfl

theorem isNumber_outline (v : Value) : v.outline.isNumber = v.isNumber := by
  cases v using outline_cases <;> rfl

theorem outline_of_isNumber {v : Value} (hv : v.isNumber = true) : v.outline = v := by
  cases v <;> first | rfl | cases hv

-- A value that is no number is changed by a complex number beside it only.
theorem unify_of_not_number {l : Value} (hl : l.isNumber = false) (r : Value) :
    unify l r = match r with
      | .complex128 _ => (complexOf false l, r)
      | .complex64 _ => (complexOf true l, r)
      | _ => (l, r) := by
  unfold unify
  split <;> first | cases hl | rfl | (split <;> simp_all)

theorem unify_outline (l r : Value) :
    unify l.outline r.outline = ((unify l r).1.outline, (unify l r).2.outline) := by
  cases hl : l.isNumber with
  | true =>
      rw [outline_of_isNumber hl]
      cases r using outline_cases with
      | same hr =>
          cases l with
          | int | float32 | float64 | complex64 | complex128 =>
              cases r <;> first
                | rfl
                | exact Prod.ext rfl hr.symm
                | (simp only [unify]; split <;> rfl)
          | _ => cases hl
      | _ => cases l <;> first | rfl | cases hl
  | false =>
      rw [unify_of_not_number hl, unify_of_not_number ((isNumber_outline l).trans hl)]
      cases r using outline_cases with
      | same hr =>
          split
          · exact Prod.ext (complexOf_outline false l) rfl
          · exact Prod.ext (complexOf_outline true l) rfl
          · exact Prod.ext rfl hr.symm
      | _ => rfl

@[simp] theorem kindName_outline (v : Value) : v.outline.kindName = v.kindName := by
  induction v with
  | named t v ih => exact ih
  | pointer a => cases a <;> rfl
  | func f => rcases f with _ | ⟨_ | _ | _⟩ <;> rfl
  | _ => rfl

@[simp] theorem wrapperName?_outline (v : Value) : v.outline.wrapperName? = v.wrapperName? := by
  cases v using outline_cases <;> rfl

@[simp] theorem isBareNil_outline (v : Value) : v.outline.isBareNil = v.isBareNil := by
  cases v using outline_cases <;> rfl

@[simp] theorem bool?_outline (v : Value) : v.outline.bool? = v.bool? := by
  unfold bool?
  rw [unwrap_outline]
  cases v.unwrap using outline_cases <;> rfl

@[simp] theorem int?_outline (v : Value) : v.outline.int? = v.int? := by
  unfold int?
  rw [unwrap_outline]
  cases v.unwrap using outline_cases <;> rfl

@[simp] theorem str?_outline (v : Value) : v.outline.str? = v.str? := by
  unfold str?
  rw [unwrap_outline]
  cases v.unwrap using outline_cases <;> rfl

theorem float?_outline (v : Value) : Family.float? v.outline = Family.float? v := by
  cases v using outline_cases <;> rfl

end Value

namespace Family
variable (op : BinaryOp) (l r : Value)

theorem notDefined_outline {α : Type} :
    (notDefined op l.outline : Except Failure α) = notDefined op l := by
  unfold notDefined
  rw [l.kindName_outline]

theorem shiftCount_outline : shiftCount op r.outline = shiftCount op r := by
  unfold shiftCount
  rw [Value.unwrap_outline, notDefined_outline]
  cases r.unwrap using Value.outline_cases <;> rfl

theorem shift_outline : shift op l.outline r.outline = shift op l r := by
  unfold shift
  rw [l.int?_outline, shiftCount_outline, notDefined_outline]

theorem apply_outline (family : Family) :
    family.apply op l.outline r.outline = family.apply op l r := by
  have hint : ∀ a b, intOp op l.outline a b = intOp op l a b := by
    intro a b
    unfold intOp
    rw [notDefined_outline]
  have hfloat : ∀ s a b, floatOp op l.outline s a b = floatOp op l s a b := by
    intro s a b
    unfold floatOp
    rw [notDefined_outline]
  have hcomplex : ∀ s a b, complexOp op l.outline s a b = complexOp op l s a b := by
    intro s a b
    unfold complexOp
    rw [notDefined_outline]
  have hstring : ∀ a b, stringOp op l.outline a b = stringOp op l a b := by
    intro a b
    unfold stringOp
    rw [notDefined_outline]
  have hbool : ∀ a b, boolOp op l.outline a b = boolOp op l a b := by
    intro a b
    unfold boolOp
    rw [notDefined_outline]
  unfold apply
  simp only [Value.unwrap_outline, Value.float?_outline, Value.str?_outline, Value.bool?_outline,
    shift_outline, notDefined_outline, hint, hfloat, hcomplex, hstring, hbool]
  generalize l.unwrap = x
  generalize r.unwrap = y
  cases x using Value.outline_cases with
  | same =>
      cases y using Value.outline_cases with
      | same => rfl
      | _ => cases x <;> rfl
  | _ => rfl

end Family

theorem ofValue?_outline (v : Value) : OperandKey.ofValue? v.outline = OperandKey.ofValue? v := by
  cases v using Value.outline_cases <;> rfl

theorem evaluateBinary_outline (h h' : Heap) {op : BinaryOp} (heq : op ≠ .eq) (hne : op ≠ .notEq)
    (l r : Value) : evaluateBinary h' op l.outline r.outline = evaluateBinary h op l r := by
  unfold evaluateBinary
  simp only [Family.shift_outline, Value.wrapperName?_outline, Value.unwrap_outline,
    Value.unify_outline, ofValue?_outline, Family.apply_outline, Family.notDefined_outline]
  cases op <;> first | rfl | exact absurd rfl heq | exact absurd rfl hne

theorem evaluateUnary_outline (op : UnaryOp) (v : Value) :
    evaluateUnary op v.outline = evaluateUnary op v := by
  induction v with
  | named t v ih =>
      change (do return Value.named t (← evaluateUnary op v.outline) : Except Failure Value) = _
      rw [ih]
      rfl
  | pointer a => cases a <;> rfl
  | func f => rcases f with _ | ⟨_ | _ | _⟩ <;> rfl
  | _ => rfl

namespace TypeTable

theorem adapt_outline (v : Value) (ty : Ty) : adapt v.outline ty = (adapt v ty).outline := by
  cases v using Value.outline_cases with
  | same h =>
      unfold adapt
      cases ty <;> cases v <;> first | rfl | exact h.symm | (dsimp only; split <;> rfl)
  | _ => cases ty <;> rfl

theorem settle_outline (t : TypeTable) (v : Value) (ty : Ty) :
    t.settle v.outline ty = (t.settle v ty).outline := by
  have hadapt := adapt_outline v
  unfold settle
  cases v using Value.outline_cases with
  | same h =>
      rw [h] at hadapt
      cases v <;> first
        | rfl
        | exact h.symm
        | (dsimp only; repeat' split) <;> grind [Value.outline]
  | named t v => rfl
  | struct s => rfl
  | _ =>
      simp only [isBasicValue]
      (repeat' split) <;> first | rfl | exact hadapt _

-- Only numbers are adapted.
theorem adapt_of_not_number {v : Value} (hv : v.isNumber = false) (ty : Ty) : adapt v ty = v := by
  cases v <;> first | (cases ty <;> rfl) | cases hv

theorem adapt_isNumber {v : Value} (hv : v.isNumber) (ty : Ty) : (adapt v ty).isNumber := by
  unfold adapt
  cases v <;> first | (cases ty <;> first | rfl | (dsimp only; split <;> rfl)) | cases hv

-- A value that settles keeps what it refers to.
theorem settle_unwrap (t : TypeTable) (v : Value) (ty : Ty) :
    (t.settle v ty).unwrap = v.unwrap ∨ v.isNumber ∧ (t.settle v ty).unwrap.isNumber := by
  have hadapt : ∀ ty, (adapt v ty).unwrap = v.unwrap ∨
      v.isNumber ∧ (adapt v ty).unwrap.isNumber := by
    intro ty
    cases hv : v.isNumber with
    | false => exact .inl (by rw [adapt_of_not_number hv])
    | true =>
        have hn := adapt_isNumber hv ty
        refine .inr ⟨rfl, ?_⟩
        cases ha : adapt v ty <;> first | rfl | (rw [ha] at hn; cases hn)
  unfold settle
  (repeat' split) <;> first | exact .inl rfl | exact hadapt _

end TypeTable

-- Whatever the operation gives is a value of a basic type, behind the declared types around it.
def YieldsBasic (x : Except Failure Value) : Prop :=
  ∀ v, x = .ok v → TypeTable.isBasicValue v.unwrap

namespace YieldsBasic

theorem pure {v : Value} (hv : TypeTable.isBasicValue v.unwrap) : YieldsBasic (pure v) := by
  intro w hw
  cases hw
  exact hv

theorem throw (e : Failure) : YieldsBasic (.error e) := fun _ h => by cases h

theorem bind {α : Type} {P : α → Prop} {x : Except Failure α} {f : α → Except Failure Value}
    (hx : ∀ a, x = .ok a → P a) (hf : ∀ a, P a → YieldsBasic (f a)) : YieldsBasic (x >>= f) := by
  intro v hv
  cases hxa : x with
  | error e =>
      rw [hxa] at hv
      cases hv
  | ok a =>
      rw [hxa] at hv
      exact hf a (hx a hxa) v hv

theorem wearing {v : Value} (hv : TypeTable.isBasicValue v.unwrap) (name : Option String) :
    YieldsBasic (Pure.pure (v.wearing name)) := by
  cases name <;> exact pure hv

-- Such a value refers to nothing on the heap.
theorem plain {x : Except Failure Value} (hx : YieldsBasic x) {v : Value} (h : x = .ok v) :
    v.unwrap.isPlain := by
  have hbasic := hx v h
  cases hv : v.unwrap <;> first | rfl | (rw [hv] at hbasic; cases hbasic)

end YieldsBasic

namespace Family

variable (op : BinaryOp) (l r : Value)

theorem yieldsBasic_shift : YieldsBasic (shift op l r) := by
  unfold shift
  split
  · exact .bind (P := fun _ => True) (fun _ _ => trivial) fun _ _ => .pure rfl
  · exact .throw _

theorem yieldsBasic_apply (family : Family) : YieldsBasic (family.apply op l r) := by
  have hshift := yieldsBasic_shift op l r
  have hint : ∀ a b, YieldsBasic (intOp op l a b) := by
    intro a b
    unfold intOp
    split <;> (try split) <;> first | exact .pure rfl | exact .throw _
  have hfloat : ∀ single a b, YieldsBasic (floatOp op l single a b) := by
    intro single a b
    unfold floatOp
    split <;> first | exact .pure rfl | exact .throw _ | (cases single <;> exact .pure rfl)
  have hcomplex : ∀ single a b, YieldsBasic (complexOp op l single a b) := by
    intro single a b
    unfold complexOp
    split <;> first | exact .pure rfl | exact .throw _ | (cases single <;> exact .pure rfl)
  have hstring : ∀ a b, YieldsBasic (stringOp op l a b) := by
    intro a b
    unfold stringOp
    split <;> first | exact .pure rfl | exact .throw _
  have hbool : ∀ a b, YieldsBasic (boolOp op l a b) := by
    intro a b
    unfold boolOp
    split <;> first | exact .pure rfl | exact .throw _
  unfold apply
  cases family with
  | int =>
      dsimp only
      split
      · exact hshift
      · split
        · exact hint _ _
        · exact .throw _
  | float =>
      dsimp only
      split
      · exact hfloat _ _ _
      · exact .throw _
  | complex =>
      dsimp only
      split
      · exact hcomplex _ _ _
      · exact hcomplex _ _ _
      · exact .throw _
  | string =>
      dsimp only
      split
      · exact hstring _ _
      · exact .throw _
  | bool =>
      dsimp only
      split
      · exact hbool _ _
      · exact .throw _

end Family

theorem yieldsBasic_evaluateUnary (op : UnaryOp) (v : Value) :
    YieldsBasic (evaluateUnary op v) := by
  have hnot : ∀ v, YieldsBasic (evaluateUnary.notDefined op v) := fun _ => .throw _
  induction v with
  | named t v ih => exact .bind ih fun _ hw => .pure hw
  | _ =>
      unfold evaluateUnary
      first
        | exact hnot _
        | (split <;> first | exact .pure rfl | exact hnot _)

theorem yieldsBasic_evaluateBinary (h : Heap) (op : BinaryOp) (l r : Value) :
    YieldsBasic (evaluateBinary h op l r) := by
  have hbool : ∀ (x : Except Failure Bool) (f : Bool → Bool),
      YieldsBasic (do return .bool (f (← x))) :=
    fun x f => .bind (P := fun _ => True) (fun _ _ => trivial) fun _ _ => .pure rfl
  unfold evaluateBinary
  split
  · exact hbool _ id
  · exact hbool _ not
  · exact .bind (Family.yieldsBasic_shift _ l r) fun _ hv => .wearing hv _
  · exact .bind (Family.yieldsBasic_shift _ l r) fun _ hv => .wearing hv _
  · dsimp only
    split
    · split
      · refine .bind (Family.yieldsBasic_apply op _ _ _) fun v hv => ?_
        split
        · exact .pure hv
        · exact .wearing hv _
      · exact .throw _
    · exact .throw _

namespace Heap

-- The parts of a struct or an array.
def partsOf (h : Heap) (v : Value) : List Value :=
  match v.block? with
  | some b => (h.block b).toList
  | none => []

-- Equality of two values as far as their outlines tell. The rest is whether two pointers are the
-- same, whether the values have as many parts, and whether the parts are equal.
def equalOutlines (same counts : Bool) (parts : Except Failure Bool) :
    Value → Value → Except Failure Bool
  | .nil, v => .ok v.isNil
  | v, .nil => .ok v.isNil
  | .bool a, .bool b => .ok (a == b)
  | .str a, .str b => .ok (a == b)
  | .pointer _, .pointer _ => .ok same
  | .chan a, .chan b => .ok (a == b)
  | .error a, .error b => .ok (a.id == b.id)
  | .package a, .package b => .ok (a == b)
  | .struct a, .struct b =>
      if a.typeName ≠ b.typeName ∨ a.layout.length ≠ b.layout.length then .ok false else parts
  | .array _, .array _ => if counts then parts else .ok false
  | l, r =>
      if l.isNumber && r.isNumber then .ok (l.sameNumber r)
      else if equalBare.sameKind l r && (l.isNil || r.isNil) then .ok (l.isNil && r.isNil)
      else if equalBare.isUncomparable l then .error (.fault (.uncomparable l.kindName))
      else .ok false

-- The same where declared types may stand around the values. `swapped` compares the parts the other
-- way round.
def equalWrapped (same counts : Bool) (parts swapped : Except Failure Bool) :
    Value → Value → Except Failure Bool
  | .named s v, .named t w =>
      if s = t then equalWrapped same counts parts swapped v w else .ok false
  | .named _ v, w => equalOutlines same counts parts v.unwrap w
  | v, .named _ w => equalOutlines same counts swapped w.unwrap v
  | v, w => equalOutlines same counts parts v w

section

variable (inBlock : Value → Value → Except Failure Bool) (h : Heap)

theorem equalBare_array (a b : BlockId) : equalBare inBlock h (.array a) (.array b) =
    if (h.block a).toList.length == (h.block b).toList.length then
      allEqual inBlock (h.block a).toList (h.block b).toList
    else .ok false := by
  change (if (h.block a).size ≠ (h.block b).size then _ else _) = _
  rw [Array.length_toList, Array.length_toList]
  by_cases hsize : (h.block a).size = (h.block b).size
  · rw [if_neg (not_not.mpr hsize), if_pos (beq_iff_eq.mpr hsize)]
  · rw [if_pos hsize, if_neg (mt beq_iff_eq.mp hsize)]

theorem equalBare_eq_equalOutlines (v w : Value) : equalBare inBlock h v w =
    equalOutlines (v.address? == w.address?) ((h.partsOf v).length == (h.partsOf w).length)
      (allEqual inBlock (h.partsOf v) (h.partsOf w)) v w := by
  unfold equalBare
  split
  · rfl
  · next hv => exact (equalOutlines.eq_2 _ _ _ v hv).symm
  iterate 7 rfl
  · exact equalBare_array inBlock h _ _
  · next hv hw hbool hstr hpointer hchan herror hpackage hstruct harray =>
      exact (equalOutlines.eq_11 _ _ _ v w hv hw hbool hstr hpointer hchan herror hpackage hstruct
        harray).symm

theorem equalOutlines_left {v : Value} (hv : v.isNamed = false) (same counts : Bool)
    (parts : Except Failure Bool) (w : Value) :
    equalOutlines same counts parts v.outline w = equalOutlines same counts parts v w := by
  cases v using Value.outline_cases with
  | same => rfl
  | named => cases hv
  | _ => cases w <;> rfl

theorem equalOutlines_right {w : Value} (hw : w.isNamed = false) (same counts : Bool)
    (parts : Except Failure Bool) (v : Value) :
    equalOutlines same counts parts v w.outline = equalOutlines same counts parts v w := by
  cases w using Value.outline_cases with
  | same => rfl
  | named => cases hw
  | _ => cases v <;> rfl

theorem equalBare_eq {v w : Value} (hv : v.isNamed = false) (hw : w.isNamed = false) :
    equalBare inBlock h v w = equalOutlines (v.address? == w.address?)
      ((h.partsOf v).length == (h.partsOf w).length) (allEqual inBlock (h.partsOf v) (h.partsOf w))
      v.outline w.outline := by
  rw [equalOutlines_left hv, equalOutlines_right hw, equalBare_eq_equalOutlines]

theorem unwrap_not_named (v : Value) : v.unwrap.isNamed = false := by
  induction v with
  | named t v ih => exact ih
  | _ => rfl

-- Declared types stand around a value without one.
theorem named_induction {P : Value → Prop} (v : Value) (named : ∀ t v, P v → P (.named t v))
    (bare : ∀ v, v.isNamed = false → P v) : P v := by
  induction v with
  | named t v ih => exact named t v ih
  | _ => exact bare _ rfl

theorem eq_named_or_not_named (v : Value) : (∃ t u, v = .named t u) ∨ v.isNamed = false := by
  cases v with
  | named t u => exact .inl ⟨t, u, rfl⟩
  | _ => exact .inr rfl

theorem unwrap_of_not_named {v : Value} (hv : v.isNamed = false) : v.unwrap = v := by
  cases v <;> first | rfl | cases hv

theorem isNamed_outline (v : Value) : v.outline.isNamed = v.isNamed := by
  cases v using Value.outline_cases <;> rfl

theorem equalWrapped_bare {same counts : Bool} {parts swapped : Except Failure Bool} {v w : Value}
    (hv : v.isNamed = false) (hw : w.isNamed = false) :
    equalWrapped same counts parts swapped v w = equalOutlines same counts parts v w := by
  unfold equalWrapped
  split
  · cases hv
  · cases hv
  · cases hw
  · rfl

theorem equalWith_bare {v w : Value} (hv : v.isNamed = false) (hw : w.isNamed = false) :
    equalWith inBlock h v w = equalBare inBlock h v w := by
  unfold equalWith
  split
  · cases hv
  · cases hv
  · cases hw
  · rfl

theorem equalWith_eq (v w : Value) : equalWith inBlock h v w =
    equalWrapped (v.unwrap.address? == w.unwrap.address?)
      ((h.partsOf v.unwrap).length == (h.partsOf w.unwrap).length)
      (allEqual inBlock (h.partsOf v.unwrap) (h.partsOf w.unwrap))
      (allEqual inBlock (h.partsOf w.unwrap) (h.partsOf v.unwrap)) v.outline w.outline := by
  have hbare : ∀ v w : Value, v.isNamed = false → w.isNamed = false →
      equalWith inBlock h v w = equalWrapped (v.unwrap.address? == w.unwrap.address?)
        ((h.partsOf v.unwrap).length == (h.partsOf w.unwrap).length)
        (allEqual inBlock (h.partsOf v.unwrap) (h.partsOf w.unwrap))
        (allEqual inBlock (h.partsOf w.unwrap) (h.partsOf v.unwrap)) v.outline w.outline := by
    intro v w hv hw
    rw [equalWith_bare inBlock h hv hw, equalBare_eq inBlock h hv hw,
      equalWrapped_bare ((isNamed_outline v).trans hv) ((isNamed_outline w).trans hw),
      unwrap_of_not_named hv, unwrap_of_not_named hw]
  have hright : ∀ (v : Value) t w, v.isNamed = false →
      equalWith inBlock h v (.named t w) = equalBare inBlock h w.unwrap v ∧
        ∀ same counts parts swapped, equalWrapped same counts parts swapped v (.named t w) =
          equalOutlines same counts swapped w.unwrap v := by
    intro v t w hv
    cases v <;> first | exact ⟨rfl, fun _ _ _ _ => rfl⟩ | cases hv
  have hleft : ∀ (w : Value) s v, w.isNamed = false →
      equalWith inBlock h (.named s v) w = equalBare inBlock h v.unwrap w ∧
        ∀ same counts parts swapped, equalWrapped same counts parts swapped (.named s v) w =
          equalOutlines same counts parts v.unwrap w := by
    intro w s v hw
    cases w <;> first | exact ⟨rfl, fun _ _ _ _ => rfl⟩ | cases hw
  induction v using named_induction generalizing w with
  | named s v ih =>
      rcases eq_named_or_not_named w with ⟨t, w, rfl⟩ | hw
      · change (if s = t then _ else _) = if s = t then _ else _
        rw [ih w]
        rfl
      · rw [(hleft w s v hw).1, equalBare_eq inBlock h (unwrap_not_named v) hw]
        change _ = equalWrapped _ _ _ _ (.named s v.outline) w.outline
        rw [(hleft w.outline s v.outline ((isNamed_outline w).trans hw)).2, Value.unwrap_outline,
          unwrap_of_not_named hw]
        rfl
  | bare v hv =>
      rcases eq_named_or_not_named w with ⟨t, w, rfl⟩ | hw
      · rw [(hright v t w hv).1, equalBare_eq inBlock h (unwrap_not_named w) hv]
        change _ = equalWrapped _ _ _ _ _ (.named t w.outline)
        rw [(hright v.outline t w.outline ((isNamed_outline v).trans hv)).2, Value.unwrap_outline,
          unwrap_of_not_named hv, Bool.beq_comm,
          Bool.beq_comm (a := (h.partsOf w.unwrap).length)]
        rfl
      · exact hbare v w hv hw

end

end Heap

end StepGraph

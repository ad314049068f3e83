import StepGraph.Compile.StaticType
import StepGraph.Proofs.Structured.Operators

namespace StepGraph.Structured

def FuncType.ty (sig : FuncType) : FuncTy :=
  ⟨sig.params.map Base.ty, (sig.result.map Base.ty).toList, false⟩

-- The builder knows exactly these variables and functions. It may not know the type of a variable.
structure NamesFit (n : Names) (funcs : Funcs) (vars : Vars) : Prop where
  inBlock : n.blocks ≠ []
  inVars : vars ≠ []
  noBlank : vars.type? Names.blank = none
  known : ∀ x, x ≠ Names.blank → Option.Rel Base.Hints (vars.type? x) (n.local? x)
  globals : n.package.globals = []
  imports : n.package.imports = []
  funcs : ∀ f, n.package.funcs.lookup f = (funcs.lookup f).map FuncType.ty

namespace NamesFit

variable {n : Names} {funcs : Funcs} {vars : Vars} {x : String} {t : Base} {ty : Option Ty}

theorem local_of_type (hf : NamesFit n funcs vars) (hx : vars.type? x = some t) :
    ∃ ty, n.local? x = some ty ∧ t.Hints ty := by
  have h := hf.known x fun hblank => by
    rw [hblank, hf.noBlank] at hx
    cases hx
  rw [hx] at h
  cases hn : n.local? x with
  | none => simp [hn] at h
  | some ty =>
      rw [hn] at h
      cases h with
      | some h => exact ⟨ty, rfl, h⟩

theorem local_of_none (hf : NamesFit n funcs vars) (hx : vars.type? x = none)
    (hblank : x ≠ Names.blank) : n.local? x = none := by
  have h := hf.known x hblank
  rw [hx] at h
  cases hn : n.local? x with
  | none => rfl
  | some ty => simp [hn] at h

theorem variableType_of_type (hf : NamesFit n funcs vars) (hx : vars.type? x = some t) :
    t.Hints (n.variableType x) := by
  obtain ⟨ty, hlocal, hty⟩ := hf.local_of_type hx
  simpa [Names.variableType, hlocal] using hty

theorem variableType_of_free (hf : NamesFit n funcs vars) (hx : FreeName funcs vars x) :
    n.variableType x = none := by
  simp [Names.variableType, hf.local_of_none hx.vars hx.blank, hf.globals]

theorem isShadowed_of_type (hf : NamesFit n funcs vars) (hx : vars.type? x = some t) :
    n.isShadowed x = true := by
  obtain ⟨ty, hlocal, -⟩ := hf.local_of_type hx
  simp [Names.isShadowed, hlocal]

theorem isShadowed_of_func {sig : FuncType} (hf : NamesFit n funcs vars)
    (hx : funcs.lookup x = some sig) : n.isShadowed x = true := by
  simp [Names.isShadowed, PackageNames.declares, hf.funcs, hx]

theorem isShadowed_of_free (hf : NamesFit n funcs vars) (hx : FreeName funcs vars x) :
    n.isShadowed x = false := by
  simp [Names.isShadowed, PackageNames.declares, PackageNames.isGlobal, PackageNames.isImport,
    hf.local_of_none hx.vars hx.blank, hf.globals, hf.imports, hf.funcs, hx.funcs]

-- A call of a declared function is a call, and its type is known.

theorem callShape_func {sig : FuncType} (hf : NamesFit n funcs vars) (note : Note)
    (hx : funcs.lookup x = some sig) : n.callShape (.ident note x) = .call := by
  simp [Names.callShape, hf.isShadowed_of_func hx]

theorem calleeType_func {sig : FuncType} (hf : NamesFit n funcs vars) (note : Note)
    (hx : funcs.lookup x = some sig) (hlocal : vars.type? x = none) (hblank : x ≠ Names.blank) :
    n.calleeType (.ident note x) = some sig.ty := by
  simp [Names.calleeType, hf.local_of_none hlocal hblank, hf.funcs, hx]

theorem paramHints_func {sig : FuncType} (hf : NamesFit n funcs vars) (note : Note)
    (hx : funcs.lookup x = some sig) (hlocal : vars.type? x = none) (hblank : x ≠ Names.blank)
    (count : Nat) : n.paramHints (.ident note x) count = sig.params.map fun t => some t.ty := by
  simp [Names.paramHints, hf.calleeType_func note hx hlocal hblank, FuncType.ty]

theorem callShape_print (hf : NamesFit n funcs vars) (note : Note) {b : Builtin}
    (hx : FreeName funcs vars x) (hb : Builtin.ofName? x = some b) :
    n.callShape (.ident note x) = .builtin b := by
  simp [Names.callShape, hf.isShadowed_of_free hx, hb]

-- Blocks and declarations.

theorem enter (hf : NamesFit n funcs vars) :
    NamesFit { n with blocks := [] :: n.blocks } funcs ([] :: vars) :=
  { hf with
    inBlock := by simp
    inVars := by simp }

theorem enterBare (hf : NamesFit n funcs vars) : NamesFit n funcs ([] :: vars) := { hf with inVars := by simp }

theorem declare (hf : NamesFit n funcs vars) (x : String) (hty : t.Hints ty) :
    NamesFit (n.declare x ty) funcs (vars.declare x t) := by
  unfold Names.declare Vars.declare
  by_cases hx : x = Names.blank
  · rw [if_pos hx, if_pos hx]
    exact hf
  · rw [if_neg hx, if_neg hx]
    obtain ⟨package, types, blocks⟩ := n
    obtain ⟨b, blocks, rfl⟩ := List.exists_cons_of_ne_nil hf.inBlock
    obtain ⟨vb, vars, rfl⟩ := List.exists_cons_of_ne_nil hf.inVars
    refine { hf with inBlock := by simp, inVars := by simp, noBlank := ?_, known := fun y hne => ?_ }
    · have hnone := hf.noBlank
      unfold Vars.type? at hnone ⊢
      simpa only [List.findSome?_cons, List.lookup_cons, beq_eq_false_iff_ne.mpr (Ne.symm hx)] using
        hnone
    have hknown := hf.known y hne
    unfold Vars.type? Names.local? at hknown ⊢
    simp only [List.findSome?_cons, List.lookup_cons] at hknown ⊢
    by_cases hy : y = x
    · simpa [hy] using Option.Rel.some hty
    · simpa [beq_eq_false_iff_ne.mpr hy] using hknown

-- A variable of a loop that each round has anew.
theorem refresh (hf : NamesFit n funcs vars) (hx : vars.type? x = some t) :
    NamesFit (Names.declare { n with blocks := [] :: n.blocks } x (n.local? x).join) funcs
      vars := by
  obtain ⟨ty, hlocal, hty⟩ := hf.local_of_type hx
  unfold Names.declare
  by_cases hblank : x = Names.blank
  · rw [if_pos hblank]
    exact { hf with inBlock := by simp }
  · rw [if_neg hblank]
    refine { hf with inBlock := by simp, known := fun y hne => ?_ }
    have hlocal' : Names.local? { n with blocks := [(x, (n.local? x).join)] :: n.blocks } y =
        if y = x then some (n.local? x).join else n.local? y := by
      unfold Names.local?
      by_cases hy : y = x
      · simp [hy]
      · simp [hy]
    refine hlocal' ▸ ?_
    split
    · next hy =>
        rw [hy, hx, hlocal]
        exact .some hty
    · exact hf.known y hne

end NamesFit

theorem Marks.hints {note : Note} {t : Base} (hn : Marks note t) : t.Hints note.ty := hn

theorem Base.Hints.orElse {t : Base} {a b : Option Ty} (ha : t.Hints a) (hb : t.Hints b) :
    t.Hints (a <|> b) := by
  rcases ha with rfl | rfl
  · simpa using hb
  · exact t.hints_ty

section

variable {n : Names} {funcs : Funcs} {vars : Vars}

-- The static type of a typed expression is unknown or right.
theorem HasType.staticType (hf : NamesFit n funcs vars) {e : Expr} {t : Base}
    (he : HasType funcs vars e t) : t.Hints (n.staticType e) := by
  cases he with
  | int note n hnote => exact hnote
  | string note s hnote => exact hnote
  | bool note x b hnote hx hfree =>
      exact hnote.hints.orElse (.inl (hf.variableType_of_free hfree))
  | var note x t hnote hx hblank => exact hnote.hints.orElse (hf.variableType_of_type hx)
  | logical note op l r hnote hop hl hr =>
      refine hnote.hints.orElse ?_
      rw [if_pos (by simp [hop])]
      exact Base.bool.hints_ty
  | binary note op l r s t hnote hop hl hr =>
      refine hnote.hints.orElse ?_
      have hstatic := (hl.staticType hf).orElse (hr.staticType hf)
      unfold Base.result? at hop
      split at hop
      · cases hop
      · next hlogical =>
          split at hop
          · next hshift =>
              split at hop
              · next hint =>
                  obtain rfl : s = .int := hint
                  cases hop
                  have hcomparison : op.isComparison = false := by cases op <;> first | rfl | cases hshift
                  simpa [hcomparison, hlogical, hshift] using hl.staticType hf
              · cases hop
          · next hshift =>
              split at hop
              · obtain rfl := Option.some.inj hop
                cases hcomparison : op.isComparison with
                | true => exact Base.bool.hints_ty
                | false => simpa [hlogical, hshift] using hstatic
              · cases hop
  | unary note op e t hnote hop he =>
      refine hnote.hints.orElse ?_
      have hstatic := he.staticType hf
      cases op <;> cases t <;> first | exact hstatic | exact Base.bool.hints_ty | simp [Base.allows] at hop
  | call note callee f args sig t hnote hfn hlocal hblank hresult hargs =>
      unfold Names.staticType
      refine hnote.hints.orElse ?_
      rw [hf.callShape_func callee hfn]
      simp only [hf.calleeType_func callee hfn hlocal hblank]
      exact .inr (by simp [FuncType.ty, hresult])

-- The same for the type that a literal has by itself.
theorem HasType.inferType (hf : NamesFit n funcs vars) {e : Expr} {t : Base}
    (he : HasType funcs vars e t) : t.Hints (n.inferType e) := by
  refine (he.staticType hf).orElse ?_
  cases he with
  | int | string => exact Base.hints_ty _
  | _ => exact Base.hints_none _

theorem HasType.operandType (hf : NamesFit n funcs vars) {e : Expr} {t : Base}
    (he : HasType funcs vars e t) {hint : Option Ty} (hh : t.Hints hint) :
    t.Hints (Build.operandType n e hint) := by
  refine (he.staticType hf).or ?_
  cases he with
  | int | string =>
      rcases hh with rfl | rfl <;> exact Base.hints_ty _
  | _ => exact Base.hints_none _

-- The operands of an operator get hints of their type.
theorem hints_operands (hf : NamesFit n funcs vars) {op : BinaryOp} {l r : Expr} {s t : Base}
    (hop : s.result? op = some t) (hl : HasType funcs vars l s) (hr : HasType funcs vars r s)
    {hint : Option Ty} (hh : t.Hints hint) :
    s.Hints (Build.operandHints n op l r hint).1 ∧ s.Hints (Build.operandHints n op l r hint).2 := by
  unfold Build.operandHints
  cases hshift : op.isShift with
  | true =>
      obtain ⟨rfl, rfl⟩ := Base.result?_of_shift hshift hop
      exact ⟨(hl.staticType hf).or hh, Base.hints_none _⟩
  | false =>
      have hrest : s.Hints (if op.isComparison then none else hint) := by
        split
        · exact s.hints_none
        · next hcomparison =>
            obtain rfl : s = t := Base.result?_of_plain hshift (by simpa using hcomparison) hop
            exact hh
      have hshared := ((hl.staticType hf).or (hr.staticType hf)).or hrest
      exact ⟨hshared, hshared⟩

end

end StepGraph.Structured

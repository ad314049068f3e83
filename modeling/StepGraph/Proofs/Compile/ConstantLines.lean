import StepGraph.Compile.Declarations
import StepGraph.Proofs.Stack.Rows

open EStateM (bind_of_ok bind_of_error bind_eq_ok discard_eq_ok)

namespace StepGraph

-- The names of values that every program knows.
def predeclaredValues : List String := ["true", "false", "nil", "iota"]

-- An expression over `iota`, integer literals and the constants with these names. A literal behind
-- a minus sign is a case of its own, as the two are one constant.
inductive IsConstant (xs : List String) : Expr → Prop
  | lit (note : Note) (i : Int) : IsConstant xs (.lit note (.int i))
  | iota (note : Note) : IsConstant xs (.ident note "iota")
  | name (note : Note) {x : String} (hx : x ∈ xs) : IsConstant xs (.ident note x)
  | negative (note n : Note) (i : Int) : IsConstant xs (.unary note .neg (.lit n (.int i)))
  | unary (note : Note) {op : UnaryOp} {e : Expr} (hop : op = .neg ∨ op = .plus ∨ op = .bitNot)
      (hsign : op = .neg → ∀ n i, e ≠ .lit n (.int i)) (he : IsConstant xs e) :
      IsConstant xs (.unary note op e)
  | binary (note : Note) {op : BinaryOp} {l r : Expr} (hcomparison : op.isComparison = false)
      (hlogical : op.isLogical = false) (hl : IsConstant xs l) (hr : IsConstant xs r) :
      IsConstant xs (.binary note op l r)

-- The names that a line adds to those of the lines in front.
def ConstSpec.binds (line : ConstSpec) : List String := line.names.filter (· ≠ Names.blank)

-- The lines of a constant block behind lines with these names. Each has values, which name no other
-- constants than those in front, and takes no predeclared name.
inductive AreConstantLines : List String → List ConstSpec → Prop
  | nil (xs : List String) : AreConstantLines xs []
  | cons {xs : List String} {line : ConstSpec} {rest : List ConstSpec} (hvalues : line.values ≠ [])
      (hconstant : ∀ e ∈ line.values, IsConstant xs e)
      (hplain : ∀ x ∈ line.names, x ∉ predeclaredValues)
      (hrest : AreConstantLines (xs ++ line.binds) rest) : AreConstantLines xs (line :: rest)

-- The types that the places of a line expect. A value that stands alone for several names has none.
def ConstSpec.hints (line : ConstSpec) : List (Option Ty) :=
  if line.values.length = 1 ∧ 1 < line.names.length then []
  else List.replicate line.names.length line.ty

-- The steps that constants are made of.
def StepOp.isOfConstant : StepOp → Bool
  | const _ | load _ | unary _ | binary .. | declare .. => true
  | _ => false

theorem StepOp.isSerial_of_isOfConstant {op : StepOp} (h : op.isOfConstant = true) :
    op.isSerial = true := by
  cases op <;> first | rfl | cases h

namespace Names

open Build (operandHints operandType resolved?)

-- The steps of a constant expression on line `iota` of a block, in a place that expects the type. A
-- literal behind a minus sign is one constant.
def constantSteps (n : Names) (iota : Nat) : Expr → Option Ty → List StepOp
  | .lit note v, hint => [.const (n.constant v.value (hint.or note.ty))]
  | .ident _ x, hint =>
      if x = "iota" then [.const (n.constant (.plainInt iota) hint)] else [.load x]
  | .unary _ .neg (.lit _ (.int i)), hint => [.const (n.constant (.plainInt (-i)) hint)]
  | .unary _ op e, hint => constantSteps n iota e hint ++ [.unary op]
  | .binary _ op l r, hint =>
      let (lh, rh) := operandHints n op l r hint
      constantSteps n iota l lh ++ constantSteps n iota r rh ++
        [.binary op (resolved? op (operandType n l lh) (operandType n r rh))]
  | _, _ => []

def valueSteps (n : Names) (iota : Nat) : List Expr → List (Option Ty) → List StepOp
  | [], _ => []
  | e :: rest, hints => n.constantSteps iota e hints.head?.join ++ valueSteps n iota rest hints.tail

-- The steps of a line of a constant block.
def lineSteps (n : Names) (iota : Nat) (line : ConstSpec) : List StepOp :=
  n.valueSteps iota line.values line.hints ++
    [.declare line.names line.ty (.fixed line.values.length)]

-- What is known of the names behind a line in the body of a function.
def afterLine (n : Names) (line : ConstSpec) : Names :=
  n.declareAll line.names
    (if line.ty.isSome then List.replicate line.names.length line.ty
      else n.valueTypes line.values line.names.length)

-- The steps of a block. `next` tells what is known of the names behind a line.
def blockSteps (next : Names → ConstSpec → Names) : Names → Nat → List ConstSpec → List StepOp
  | _, _, [] => []
  | n, iota, line :: rest => n.lineSteps iota line ++ blockSteps next (next n line) (iota + 1) rest

theorem constantSteps_unary (n : Names) (iota : Nat) (note : Note) {op : UnaryOp} {e : Expr}
    (hsign : op = .neg → ∀ n i, e ≠ .lit n (.int i)) (hint : Option Ty) :
    n.constantSteps iota (.unary note op e) hint = n.constantSteps iota e hint ++ [.unary op] := by
  rw [constantSteps]
  exact fun m i hop => hsign hop m i

theorem constantSteps_isOfConstant (n : Names) (iota : Nat) {xs : List String} {e : Expr}
    (he : IsConstant xs e) (hint : Option Ty) :
    ∀ op ∈ n.constantSteps iota e hint, op.isOfConstant = true := by
  induction he generalizing hint with
  | lit note i => exact List.forall_mem_singleton.mpr rfl
  | iota note => exact List.forall_mem_singleton.mpr rfl
  | @name note x hx =>
      unfold constantSteps
      split <;> exact List.forall_mem_singleton.mpr rfl
  | negative note m i => exact List.forall_mem_singleton.mpr rfl
  | @unary note op e hop hsign he ih =>
      rw [constantSteps_unary n iota note hsign]
      exact List.forall_mem_append.mpr ⟨ih hint, List.forall_mem_singleton.mpr rfl⟩
  | binary note hcomparison hlogical _ _ ihl ihr =>
      exact List.forall_mem_append.mpr ⟨List.forall_mem_append.mpr ⟨ihl _, ihr _⟩,
        List.forall_mem_singleton.mpr rfl⟩

theorem valueSteps_isOfConstant (n : Names) (iota : Nat) {xs : List String} {es : List Expr}
    (hes : ∀ e ∈ es, IsConstant xs e) (hints : List (Option Ty)) :
    ∀ op ∈ n.valueSteps iota es hints, op.isOfConstant = true := by
  induction es generalizing hints with
  | nil => exact List.forall_mem_nil _
  | cons e rest ih =>
      obtain ⟨he, hrest⟩ := List.forall_mem_cons.mp hes
      exact List.forall_mem_append.mpr ⟨n.constantSteps_isOfConstant iota he _, ih hrest hints.tail⟩

theorem lineSteps_isOfConstant (n : Names) (iota : Nat) {xs : List String} {line : ConstSpec}
    (hconstant : ∀ e ∈ line.values, IsConstant xs e) :
    ∀ op ∈ n.lineSteps iota line, op.isOfConstant = true :=
  List.forall_mem_append.mpr
    ⟨n.valueSteps_isOfConstant iota hconstant _, List.forall_mem_singleton.mpr rfl⟩

theorem blockSteps_isOfConstant (next : Names → ConstSpec → Names) (n : Names) (iota : Nat)
    {xs : List String} {lines : List ConstSpec} (hlines : AreConstantLines xs lines) :
    ∀ op ∈ blockSteps next n iota lines, op.isOfConstant = true := by
  induction hlines generalizing n iota with
  | nil xs => exact List.forall_mem_nil _
  | @cons xs line rest hvalues hconstant hplain hrest ih =>
      exact List.forall_mem_append.mpr ⟨n.lineSteps_isOfConstant iota hconstant, ih _ _⟩

end Names

-- What an expression is built for where its value stays on the stack.
def Want.IsKept : Want → Prop
  | .value _ | .values => True
  | .discard | .address _ => False

namespace Build

variable {α β : Type} {s : Site} {b b' b₁ b₂ : Builder} {ops ops' : List StepOp}
  {xs : List String} {iota : Nat}

-- An action adds these steps in a row and changes nothing else.
structure AddsSteps (s : Site) (b : Builder) (ops : List StepOp) (b' : Builder) : Prop where
  lays : Lays b ops b'
  linear : Linear s b'
  state : b' = { b with steps := b'.steps, pending := b'.pending }

namespace AddsSteps

theorem trans (h : AddsSteps s b ops b₁) (h' : AddsSteps s b₁ ops' b') :
    AddsSteps s b (ops ++ ops') b' where
  lays := h.lays.append h'.lays
  linear := h'.linear
  state := by
    have hstate := h'.state
    rw [h.state] at hstate
    exact hstate

theorem names_eq (h : AddsSteps s b ops b') : b'.names = b.names := congrArg (·.names) h.state

theorem iota_eq (h : AddsSteps s b ops b') : b'.iota = b.iota := congrArg (·.iota) h.state

end AddsSteps

-- One more step is always there to be added.
theorem adds_emit' (hl : Linear s b) (op : StepOp) (hserial : op.isSerial = true) (span : Span) :
    ∃ b', emit' op span b = .ok () b' ∧ AddsSteps s b [op] b' := by
  cases h : emit op span b with
  | error e b' => exact absurd h (hl.emit_ne_error op span e)
  | ok id b' =>
      have hemit : emit' op span b = .ok () b' := discard_eq_ok.mpr ⟨id, h⟩
      have he := emitted_of_emit' hemit
      have hother := StepOp.other?_of_isPlain (StepOp.isPlain_of_isSerial hserial)
      refine ⟨b', hemit, lays_emit' hemit, hl.emitted he hother rfl fun x => ?_, ?_⟩
      · simp only [Site.count_listed, Builder.gotoSlots, he.pending, he.gotos, he.contexts,
          StepOp.slotsOf, List.count_append, List.count_cons, List.count_nil]
        omega
      · have hstate := he.state
        rw [← he.pending] at hstate
        exact hstate

-- The builder stands on line `iota` of a block, where no constant has a predeclared name.
structure OnLine (xs : List String) (iota : Nat) (b : Builder) : Prop where
  line : b.iota = some iota
  free : b.names.isShadowed "iota" = false
  plain : ∀ x ∈ xs, x ∉ predeclaredValues

theorem predeclared?_eq_none {x : String} (hx : x ∉ predeclaredValues) (iota : Option Nat) :
    predeclared? iota x = none := by
  unfold predeclared?
  unfold predeclaredValues at hx
  split <;> first | rfl | exact absurd (by decide) hx

theorem OnLine.adds (h : OnLine xs iota b) (ha : AddsSteps s b ops b') : OnLine xs iota b' where
  line := ha.iota_eq.trans h.line
  free := ha.names_eq ▸ h.free
  plain := h.plain

theorem settle_kept {want : Want} (hwant : Want.IsKept want) (span : Span) (b : Builder) :
    settle want span b = .ok (.fixed 1) b := by
  cases want with
  | value | values => rfl
  | discard | address => cases hwant

theorem adds_constant (hl : Linear s b) (v : Value) (hint : Option Ty) (span : Span) :
    ∃ b', emitConstant v hint span b = .ok () b' ∧
    AddsSteps s b [.const (b.names.constant v hint)] b' :=
  adds_emit' hl _ rfl span

-- A name is a value that every program knows, unless something hides it.
theorem emitName_apply (x : String) (hint : Option Ty) (span : Span) (b : Builder) :
    emitName x hint span b = (if b.names.isShadowed x then emit' (.load x) span
      else (predeclared? b.iota x).elim (emit' (.load x) span) (emitConstant · hint span)) b := by
  change (if b.names.isShadowed x then emit' (.load x) span else _) b = _
  cases predeclared? b.iota x <;> rfl

theorem adds_name (hl : Linear s b) (hon : OnLine xs iota b) {x : String} (hx : x ∈ xs)
    (hint : Option Ty) (span : Span) :
    ∃ b', emitName x hint span b = .ok () b' ∧ AddsSteps s b [.load x] b' := by
  obtain ⟨b', hemit, hadds⟩ := adds_emit' hl (.load x) rfl span
  refine ⟨b', ?_, hadds⟩
  rw [emitName_apply, predeclared?_eq_none (hon.plain x hx)]
  split <;> exact hemit

theorem adds_iota (hl : Linear s b) (hon : OnLine xs iota b) (hint : Option Ty) (span : Span) :
    ∃ b', emitName "iota" hint span b = .ok () b' ∧
      AddsSteps s b [.const (b.names.constant (.plainInt iota) hint)] b' := by
  obtain ⟨b', hemit, hadds⟩ := adds_constant hl (.plainInt iota) hint span
  refine ⟨b', ?_, hadds⟩
  rw [emitName_apply, hon.free, hon.line, if_neg Bool.false_ne_true]
  exact hemit

-- The steps of an operand in front of an operator.
theorem adds_operation {x : Build Arity} {a : Arity} (hx : x b = .ok a b₁)
    (hadds : AddsSteps s b ops b₁)
    (op : StepOp) (hserial : op.isSerial = true) {want : Want} (hwant : want.IsKept) (span : Span) :
    ∃ b', (do
      discard x
      emit' op span
      settle want span : Build Arity) b = .ok (.fixed 1) b' ∧ AddsSteps s b (ops ++ [op]) b' := by
  obtain ⟨b', hemit, hlast⟩ := adds_emit' hadds.linear op hserial span
  refine ⟨b', ?_, hadds.trans hlast⟩
  exact bind_eq_ok.mpr ⟨(), b₁, discard_eq_ok.mpr ⟨a, hx⟩,
    bind_eq_ok.mpr ⟨(), b', hemit, settle_kept hwant span b'⟩⟩

-- A constant expression is compiled to its steps.
theorem adds_compile {e : Expr} (he : IsConstant xs e) (hl : Linear s b) (hon : OnLine xs iota b)
    (want : Want) (hwant : want.IsKept) : ∃ b', compile e want b = .ok (.fixed 1) b' ∧
      AddsSteps s b (b.names.constantSteps iota e want.hint) b' := by
  induction he generalizing b want with
  | lit note i =>
      obtain ⟨b', hemit, hadds⟩ := adds_constant hl (.plainInt i) (want.hint.or note.ty) note.span
      refine ⟨b', ?_, hadds⟩
      unfold compile
      exact bind_eq_ok.mpr ⟨(), b', hemit, settle_kept hwant _ b'⟩
  | iota note =>
      obtain ⟨b', hemit, hadds⟩ := adds_iota hl hon want.hint note.span
      refine ⟨b', ?_, hadds⟩
      unfold compile
      cases want with
      | value | values => exact bind_eq_ok.mpr ⟨(), b', hemit, rfl⟩
      | discard | address => cases hwant
  | @name note x hx =>
      obtain ⟨b', hemit, hadds⟩ := adds_name hl hon hx want.hint note.span
      have hiota : x ≠ "iota" := by
        rintro rfl
        exact absurd (by decide) (hon.plain _ hx)
      refine ⟨b', ?_, ?_⟩
      · unfold compile
        cases want with
        | value | values => exact bind_eq_ok.mpr ⟨(), b', hemit, rfl⟩
        | discard | address => cases hwant
      · unfold Names.constantSteps
        rwa [if_neg hiota]
  | negative note n i =>
      obtain ⟨b', hemit, hadds⟩ := adds_constant hl (.plainInt (-i)) want.hint note.span
      refine ⟨b', ?_, hadds⟩
      unfold compile
      exact bind_eq_ok.mpr ⟨(), b', hemit, settle_kept hwant _ b'⟩
  | @unary note op e hop hsign he ih =>
      obtain ⟨b₁, hcompile, hadds⟩ := ih hl hon (.value want.hint) trivial
      have hserial : (StepOp.unary op).isSerial = true := by rcases hop with rfl | rfl | rfl <;> rfl
      obtain ⟨b', hoperation, hall⟩ := adds_operation hcompile hadds (.unary op) hserial hwant note.span
      refine ⟨b', ?_, ?_⟩
      · unfold compile
        rcases hop with rfl | rfl | rfl
        · cases he with
          | lit n i => exact absurd rfl (hsign rfl n i)
          | _ => exact hoperation
        · exact hoperation
        · exact hoperation
      · rw [Names.constantSteps_unary _ _ _ hsign]
        exact hall
  | @binary note op l r hcomparison hlogical _ _ ihl ihr =>
      obtain ⟨b₁, hleft, hadds₁⟩ := ihl hl hon
        (.value (operandHints b.names op l r want.hint).1) trivial
      obtain ⟨b₂, hright, hadds₂⟩ := ihr hadds₁.linear (hon.adds hadds₁)
        (.value (operandHints b.names op l r want.hint).2) trivial
      rw [hadds₁.names_eq] at hadds₂
      obtain ⟨b', hoperation, hall⟩ := adds_operation hright hadds₂ (.binary op (resolved? op
          (operandType b.names l (operandHints b.names op l r want.hint).1)
          (operandType b.names r (operandHints b.names op l r want.hint).2))) rfl hwant note.span
      refine ⟨b', ?_, ?_⟩
      · unfold compile
        rw [hlogical, if_neg Bool.false_ne_true]
        exact bind_eq_ok.mpr ⟨b.names, b, rfl,
          bind_eq_ok.mpr ⟨(), b₁, discard_eq_ok.mpr ⟨_, hleft⟩, hoperation⟩⟩
      · have hsteps := hadds₁.trans hall
        rw [← List.append_assoc] at hsteps
        exact hsteps

theorem adds_compileEach {es : List Expr} (hes : ∀ e ∈ es, IsConstant xs e) (hl : Linear s b)
    (hon : OnLine xs iota b) (hints : List (Option Ty)) :
    ∃ b', compileEach es hints b = .ok () b' ∧
    AddsSteps s b (b.names.valueSteps iota es hints) b' := by
  induction es generalizing b hints with
  | nil => exact ⟨b, rfl, .nil b, hl, rfl⟩
  | cons e rest ih =>
      obtain ⟨he, hrest⟩ := List.forall_mem_cons.mp hes
      obtain ⟨b₁, hcompile, hadds₁⟩ :=
        adds_compile he hl hon (.value hints.head?.join) trivial
      obtain ⟨b', heach, hadds₂⟩ := ih hrest hadds₁.linear (hon.adds hadds₁) hints.tail
      rw [hadds₁.names_eq] at hadds₂
      refine ⟨b', ?_, hadds₁.trans hadds₂⟩
      unfold compileEach
      exact bind_eq_ok.mpr ⟨(), b₁, discard_eq_ok.mpr ⟨_, hcompile⟩, heach⟩

-- The values of a line are compiled to their steps, unless there are too many of them.
theorem adds_compileValues {line : ConstSpec} (hvalues : line.values ≠ [])
    (hes : ∀ e ∈ line.values, IsConstant xs e) (hl : Linear s b) (hon : OnLine xs iota b) :
    ∃ b', AddsSteps s b (b.names.valueSteps iota line.values line.hints) b' ∧
      (line.values.length < pow2 16 → compileValues line.values line.names.length
        (List.replicate line.names.length line.ty) b = .ok (.fixed line.values.length) b') ∧
      (pow2 16 ≤ line.values.length → ∃ e, compileValues line.values line.names.length
        (List.replicate line.names.length line.ty) b = .error e b') := by
  obtain ⟨names, ty, values⟩ := line
  obtain ⟨e, rest, rfl⟩ := List.exists_cons_of_ne_nil hvalues
  obtain ⟨he, hrest⟩ := List.forall_mem_cons.mp hes
  unfold ConstSpec.hints compileValues
  dsimp only
  by_cases halone : rest.isEmpty ∧ 1 < names.length
  · -- One value for several names is compiled without a hint.
    obtain ⟨hempty, hmany⟩ := halone
    obtain rfl := List.isEmpty_iff.mp hempty
    obtain ⟨b', hcompile, hadds⟩ := adds_compile he hl hon .values trivial
    rw [if_pos ⟨rfl, hmany⟩, if_pos (by simpa using hmany)]
    have hsmall : ¬ pow2 16 ≤ [e].length := by
      rw [List.length_singleton]
      decide
    refine ⟨b', ?_, fun _ => hcompile, fun hlarge => absurd hlarge hsmall⟩
    have hsteps : b.names.valueSteps iota [e] [] = b.names.constantSteps iota e none :=
      List.append_nil _
    rw [hsteps]
    exact hadds
  · have hhints : ¬ ((e :: rest).length = 1 ∧ 1 < names.length) := by
      simpa [List.isEmpty_iff] using halone
    have htest : ¬ (rest.isEmpty && decide (1 < names.length)) = true := by simpa using halone
    rw [if_neg hhints, if_neg htest]
    generalize List.replicate names.length ty = hints
    obtain ⟨b₁, hcompile, hadds₁⟩ :=
      adds_compile he hl hon (.value hints.head?.join) trivial
    obtain ⟨b', heach, hadds₂⟩ :=
      adds_compileEach hrest hadds₁.linear (hon.adds hadds₁) hints.tail
    rw [hadds₁.names_eq] at hadds₂
    have hcounts : ∀ r, countOperands (rest.length + 1) e.span b' = r →
        (do
          discard (compile e (.value hints.head?.join))
          compileEach rest hints.tail
          countOperands (rest.length + 1) e.span : Build Arity) b = r := by
      rintro r rfl
      have hdiscard := discard_eq_ok (u := ()).mpr ⟨_, hcompile⟩
      rw [bind_of_ok hdiscard, bind_of_ok heach]
    refine ⟨b', hadds₁.trans hadds₂, fun hfits => hcounts _ ?_, fun hlarge => ?_⟩
    · have hfits' : rest.length + 1 < pow2 16 := hfits
      unfold countOperands
      rw [if_pos hfits']
      rfl
    · have hlarge' : ¬ rest.length + 1 < pow2 16 := Nat.not_lt.mpr hlarge
      refine ⟨.unsupported "too many operands" e.span, hcounts _ ?_⟩
      unfold countOperands
      rw [if_neg hlarge']
      rfl

-- One line of a constant block.
def compileLine (line : ConstSpec) (iota : Nat) : Build Unit := do
  modify fun b => { b with iota := some iota }
  let arity ← compileValues line.values line.names.length
    (List.replicate line.names.length line.ty)
  emit' (.declare line.names line.ty arity) Span.none

-- A constant block in the body of a function, where every line has its values.
def compileLines : List ConstSpec → Nat → Build Unit
  | [], _ => modify fun b => { b with iota := none }
  | line :: rest, iota => do
      compileLine line iota
      modifyNames fun n => n.afterLine line
      compileLines rest (iota + 1)

theorem compileConsts_some (specs : List ConstSpec) (iota : Nat) (p : ConstSpec)
    (hp : p.values ≠ []) :
    compileConsts specs iota (some ⟨p.ty, p.values, compileValues p.values⟩) =
      compileLines (ConstSpec.filled (some p) specs) iota := by
  induction specs generalizing iota p with
  | nil =>
      unfold compileConsts
      rfl
  | cons line rest ih =>
      obtain ⟨names, ty, values⟩ := line
      unfold compileConsts ConstSpec.filled compileLines compileLine
      cases hvalues : values.isEmpty with
      | true =>
          have hrest := ih (iota + 1) ⟨names, p.ty, p.values⟩ hp
          simp only [if_true, Option.getD_some, bind_assoc, ← hrest]
          rfl
      | false =>
          have hrest := ih (iota + 1) ⟨names, ty, values⟩ (by simpa using hvalues)
          simp only [Bool.false_eq_true, if_false, bind_assoc, ← hrest]
          rfl

-- The first line of a block has values.
theorem compileConsts_none {specs : List ConstSpec} (iota : Nat)
    (h : ∀ line ∈ specs.head?, line.values ≠ []) :
    compileConsts specs iota none = compileLines (ConstSpec.filled none specs) iota := by
  cases specs with
  | nil =>
      unfold compileConsts
      rfl
  | cons line rest =>
      obtain ⟨names, ty, values⟩ := line
      have hvalues : values ≠ [] := h _ rfl
      have hrest := compileConsts_some rest (iota + 1) ⟨names, ty, values⟩ hvalues
      unfold compileConsts ConstSpec.filled compileLines compileLine
      simp only [List.isEmpty_iff, hvalues, if_false, bind_assoc, ← hrest]
      rfl

theorem adds_compileLine {line : ConstSpec} (hvalues : line.values ≠ [])
    (hes : ∀ e ∈ line.values, IsConstant xs e) (hl : Linear s b)
    (hon : OnLine xs iota { b with iota := some iota }) :
    (line.values.length < pow2 16 → ∃ b', compileLine line iota b = .ok () b' ∧
      AddsSteps s { b with iota := some iota } (b.names.lineSteps iota line) b') ∧
    (pow2 16 ≤ line.values.length → ∃ e b', compileLine line iota b = .error e b') := by
  have hl' : Linear s { b with iota := some iota } := hl.of_count rfl fun _ => Nat.le_refl _
  obtain ⟨b₁, hadds, hfits, hlarge⟩ := adds_compileValues hvalues hes hl' hon
  have hset : (modify fun b => { b with iota := some iota } : Build Unit) b =
      .ok () { b with iota := some iota } := rfl
  refine ⟨fun h => ?_, fun h => ?_⟩
  · obtain ⟨b', hemit, hlast⟩ := adds_emit' hadds.linear
      (.declare line.names line.ty (.fixed line.values.length)) rfl Span.none
    refine ⟨b', ?_, hadds.trans hlast⟩
    unfold compileLine
    rw [bind_of_ok hset, bind_of_ok (hfits h)]
    exact hemit
  · obtain ⟨e, herror⟩ := hlarge h
    refine ⟨e, b₁, ?_⟩
    unfold compileLine
    rw [bind_of_ok hset]
    exact bind_of_error herror

-- One builder has these steps behind those of the other. What else they know may differ.
def LeavesSteps (b : Builder) (ops : List StepOp) (b' : Builder) : Prop :=
  ∃ c, Lays b ops c ∧ b'.steps = c.steps ∧ b'.pending = c.pending

namespace LeavesSteps

theorem of_lays (h : Lays b ops b') : LeavesSteps b ops b' := ⟨b', h, rfl, rfl⟩

theorem behind (h : LeavesSteps b ops b₁) (hsteps : b'.steps = b₁.steps)
    (hpending : b'.pending = b₁.pending) : LeavesSteps b ops b' := by
  obtain ⟨c, hlays, hc, hc'⟩ := h
  exact ⟨c, hlays, hsteps.trans hc, hpending.trans hc'⟩

theorem before (h : LeavesSteps b₁ ops b') (hsteps : b.steps = b₁.steps)
    (hpending : b.pending = b₁.pending) : LeavesSteps b ops b' := by
  obtain ⟨c, hlays, hc, hc'⟩ := h
  cases hlays with
  | nil => exact ⟨b, .nil b, hc.trans hsteps.symm, hc'.trans hpending.symm⟩
  | @emit _ b₂ b₃ c op ops he hsteps' hpending' hrest =>
      have he' : Emitted op b b.steps.size { b with steps := b₂.steps, pending := b₂.pending } := by
        refine ⟨rfl, ?_, ?_⟩
        · rw [he.pending, hsteps]
        · rw [hsteps, hpending]
          exact he.linked
      exact ⟨c, .emit he' hsteps' hpending' hrest, hc, hc'⟩

theorem append (h : LeavesSteps b ops b₁) (h' : LeavesSteps b₁ ops' b') :
    LeavesSteps b (ops ++ ops') b' := by
  obtain ⟨c, hlays, hc, hc'⟩ := h
  obtain ⟨d, hlays', hd, hd'⟩ := h'.before hc.symm hc'.symm
  exact ⟨d, hlays.append hlays', hd, hd'⟩

end LeavesSteps

theorem local?_declare (n : Names) {x y : String} (hxy : x ≠ y) (ty : Option Ty) :
    (n.declare y ty).local? x = n.local? x := by
  unfold Names.declare
  split
  · rfl
  · unfold Names.local?
    cases hblocks : n.blocks with
    | nil => simp only [hblocks]
    | cons block rest =>
        have hne : (x == y) = false := beq_eq_false_iff_ne.mpr hxy
        simp only [List.findSome?_cons, List.lookup_cons, hne]

theorem package_declare (n : Names) (y : String) (ty : Option Ty) :
    (n.declare y ty).package = n.package := by
  unfold Names.declare
  split
  · rfl
  · split <;> rfl

theorem isShadowed_declareAll (n : Names) {x : String} {ys : List String} (hx : x ∉ ys)
    (types : List (Option Ty)) : (n.declareAll ys types).isShadowed x = n.isShadowed x := by
  unfold Names.declareAll
  have hzip : ∀ pair ∈ ys.zip types, x ≠ pair.1 := fun pair hpair heq =>
    hx (heq ▸ (List.of_mem_zip hpair).1)
  generalize ys.zip types = l at hzip
  induction l generalizing n with
  | nil => rfl
  | cons pair l ih =>
      obtain ⟨hne, hrest⟩ := List.forall_mem_cons.mp hzip
      have hdeclare : (n.declare pair.1 pair.2).isShadowed x = n.isShadowed x := by
        unfold Names.isShadowed
        rw [local?_declare n hne, package_declare]
      exact (ih _ hrest).trans hdeclare

-- The builder is about to build the lines of a block behind lines with these names.
structure AtBlock (xs : List String) (s : Site) (b : Builder) : Prop where
  linear : Linear s b
  free : b.names.isShadowed "iota" = false
  plain : ∀ x ∈ xs, x ∉ predeclaredValues

theorem AtBlock.onLine (h : AtBlock xs s b) (iota : Nat) :
    OnLine xs iota { b with iota := some iota } :=
  ⟨rfl, h.free, h.plain⟩

-- What a line leaves for the next one.
theorem AtBlock.next (h : AtBlock xs s b) {line : ConstSpec}
    (hplain : ∀ x ∈ line.names, x ∉ predeclaredValues)
    (hadds : AddsSteps s { b with iota := some iota } ops b₁) :
    AtBlock (xs ++ line.binds) s { b₁ with names := b₁.names.afterLine line } where
  linear := hadds.linear.of_count rfl fun _ => Nat.le_refl _
  free := by
    have hnames : b₁.names = b.names := hadds.names_eq
    refine (isShadowed_declareAll _ (fun hmem => ?_) _).trans (hnames ▸ h.free)
    exact hplain _ hmem (by decide)
  plain := List.forall_mem_append.mpr
    ⟨h.plain, fun x hx => hplain x (List.mem_filter.mp hx).1⟩

-- A constant block in the body of a function is compiled to its steps.
theorem leaves_compileLines {lines : List ConstSpec} (hlines : AreConstantLines xs lines)
    (hfits : ∀ line ∈ lines, line.values.length < pow2 16) (hat : AtBlock xs s b) (iota : Nat) :
    ∃ b', compileLines lines iota b = .ok () b' ∧ Linear s b' ∧
      LeavesSteps b (Names.blockSteps Names.afterLine b.names iota lines) b' := by
  induction hlines generalizing b iota with
  | nil xs =>
      exact ⟨{ b with iota := none }, rfl, hat.linear.of_count rfl fun _ => Nat.le_refl _,
        b, .nil b, rfl, rfl⟩
  | @cons xs line rest hvalues hconstant hplain hrest ih =>
      obtain ⟨hline, hfits⟩ := List.forall_mem_cons.mp hfits
      obtain ⟨b₁, hcompile, hadds⟩ :=
        (adds_compileLine hvalues hconstant hat.linear (hat.onLine iota)).1 hline
      obtain ⟨b', hblock, hlinear, hleaves⟩ := ih hfits (hat.next hplain hadds) (iota + 1)
      have hnames : b₁.names = b.names := hadds.names_eq
      have hfirst : LeavesSteps b (b.names.lineSteps iota line)
          { b₁ with names := b₁.names.afterLine line } :=
        ((LeavesSteps.of_lays hadds.lays).behind rfl rfl).before rfl rfl
      refine ⟨b', ?_, hlinear, hfirst.append (hnames ▸ hleaves)⟩
      unfold compileLines
      rw [bind_of_ok hcompile]
      exact hblock

-- It is not compiled where a line has too many values.
theorem compileLines_large {lines : List ConstSpec} (hlines : AreConstantLines xs lines)
    (hlarge : ∃ line ∈ lines, pow2 16 ≤ line.values.length) (hat : AtBlock xs s b) (iota : Nat) :
    ∃ e b', compileLines lines iota b = .error e b' := by
  induction hlines generalizing b iota with
  | nil xs =>
      obtain ⟨line, hmem, -⟩ := hlarge
      cases hmem
  | @cons xs line rest hvalues hconstant hplain hrest ih =>
      obtain ⟨hfit, hmany⟩ := adds_compileLine hvalues hconstant hat.linear (hat.onLine iota)
      unfold compileLines
      rcases Nat.lt_or_ge line.values.length (pow2 16) with hline | hline
      · obtain ⟨b₁, hcompile, hadds⟩ := hfit hline
        have hrest : ∃ line ∈ rest, pow2 16 ≤ line.values.length := by
          obtain ⟨other, hmem, hother⟩ := hlarge
          rcases List.mem_cons.mp hmem with rfl | hmem
          · exact absurd hother (Nat.not_le.mpr hline)
          · exact ⟨other, hmem, hother⟩
        obtain ⟨e, b', herror⟩ := ih hrest (hat.next hplain hadds) (iota + 1)
        refine ⟨e, b', ?_⟩
        rw [bind_of_ok hcompile]
        exact herror
      · obtain ⟨e, b', herror⟩ := hmany hline
        exact ⟨e, b', bind_of_error herror⟩

end Build

end StepGraph

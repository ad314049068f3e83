import StepGraph.Proofs.Operator.Integers
import StepGraph.Proofs.Stack.Updates

open EStateM (bind_eq_ok discard_eq_ok)

namespace StepGraph

open Build

section values

variable {h : Heap} {op : BinaryOp} {name : Option String} {a d : IntValue}

-- The operators that give an integer on two integers.
structure BinaryOp.IsArithmetic (op : BinaryOp) : Prop where
  shift : op.isShift = false
  logical : op.isLogical = false
  comparison : op.isComparison = false

-- Which kind wins.
theorem IntValue.commonKind_eq_left : a.commonKind d = a.kind ↔
    d.kind = a.kind ∨ d.kind.rank ≤ a.kind.rank := by
  unfold commonKind
  split
  · next hlt =>
    constructor
    · exact .inl
    · rintro (hk | hle)
      · exact hk
      · omega
  · next hle => exact ⟨fun _ => .inr (Nat.not_lt.mp hle), fun _ => rfl⟩

theorem IntValue.commonKind_eq_right : d.commonKind a = a.kind ↔
    d.kind = a.kind ∨ d.kind.rank < a.kind.rank := by
  unfold commonKind
  split
  · next hlt => exact ⟨fun _ => .inr hlt, fun _ => rfl⟩
  · next hle =>
    constructor
    · exact .inl
    · rintro (hk | hlt)
      · exact hk
      · omega

-- An integer and a constant that stands beside it, on either side: the operator works on both in a
-- kind, and that is the kind of the integer unless the constant has one that goes before it.
structure MeetsConstant (h : Heap) (op : BinaryOp) (name : Option String) (a : IntValue)
    (name' : Option String) (d : IntValue) : Prop where
  right : ∀ k, k = a.commonKind d →
    evaluateBinary h op (a.declared name) (d.declared name') =
      (Family.intOp op (.int (a.withKind k)) (a.withKind k) (d.withKind k)).map
        (·.wearing (name.or name'))
  left : ∀ k, k = d.commonKind a →
    evaluateBinary h op (d.declared name') (a.declared name) =
      (Family.intOp op (.int (d.withKind k)) (d.withKind k) (a.withKind k)).map
        (·.wearing (name'.or name))
  right_iff : a.commonKind d = a.kind ↔ d.kind = a.kind ∨ d.kind.rank ≤ a.kind.rank
  left_iff : d.commonKind a = a.kind ↔ d.kind = a.kind ∨ d.kind.rank < a.kind.rank

theorem arithmetic_ints (h : Heap) (hop : op.IsArithmetic) (name name' : Option String)
    (a b : IntValue) : evaluateBinary h op (a.declared name) (b.declared name') =
      (Family.intOp op (.int (a.withKind (a.commonKind b))) (a.withKind (a.commonKind b))
        (b.withKind (a.commonKind b))).map (·.wearing (name.or name')) := by
  have hequal : ¬(op = .eq ∨ op = .notEq) := by
    rintro (rfl | rfl)
    · exact absurd hop.comparison (by decide)
    · exact absurd hop.comparison (by decide)
  rw [evaluateBinary_ints h name name' a b hop.shift hop.logical hequal, hop.comparison,
    if_neg Bool.false_ne_true]

theorem meetsConstant (h : Heap) (hop : op.IsArithmetic) (name : Option String) (a : IntValue)
    (name' : Option String) (d : IntValue) : MeetsConstant h op name a name' d where
  right := by
    rintro k rfl
    exact arithmetic_ints h hop name name' a d
  left := by
    rintro k rfl
    exact arithmetic_ints h hop name' name d a
  right_iff := IntValue.commonKind_eq_left
  left_iff := IntValue.commonKind_eq_right

-- An integer or a rune of a literal.
def Literal.integer? : Literal → Option IntValue
  | .int n => some (.plain n)
  | .rune c => some (.ofInt .int32 c.toNat)
  | _ => none

theorem integer?_cases {lit : Literal} (h : lit.integer? = some d) :
    lit.value = .int d ∧ (d.kind = .int ∨ d.kind = .int32) := by
  cases lit with
  | int n =>
    cases h
    exact ⟨rfl, .inl rfl⟩
  | rune c =>
    cases h
    exact ⟨rfl, .inr rfl⟩
  | _ => cases h

-- The two kinds that a literal can have by itself go behind all other ones. Only a rune goes before
-- an `int`.
theorem literal_gives_way (hd : d.kind = .int ∨ d.kind = .int32)
    (hrune : d.kind = .int32 → a.kind ≠ .int) :
    a.commonKind d = a.kind ∧ d.commonKind a = a.kind := by
  rw [IntValue.commonKind_eq_left, IntValue.commonKind_eq_right]
  obtain hd | hd := hd
  · rw [hd]
    cases a.kind <;> decide
  · have hint := hrune hd
    rw [hd]
    generalize a.kind = k at hint ⊢
    cases k <;> first | exact absurd rfl hint | decide

end values

namespace Program

variable {p : Program} {steps : Array Step} {s : Site} {b b' : Builder} {op : BinaryOp}
  {note lnote : Note} {e : Expr} {lit : Literal} {hint : Option Ty} {arity : Arity}

-- `e op c`, and `c op e`, from the first step on: the value of `e`, the constant, and the operator
-- that looks at its operands.

def appliesToConstant (p : Program) (steps : Array Step) (op : BinaryOp) (c : Constant)
    (first mid : StepId) (k : Option StepId) : Stretch (Option StepId) := do
  p.across steps first mid
  p.does steps mid (.const c)
  applies steps (mid + 1) op none
  return k

def appliesConstant (p : Program) (steps : Array Step) (op : BinaryOp) (c : Constant)
    (first apply : StepId) (k : Option StepId) : Stretch (Option StepId) := do
  p.does steps first (.const c)
  p.across steps (first + 1) apply
  applies steps apply op none
  return k

-- Where nothing is known of the other operand, a literal takes what the context expects.
theorem operandHints_of_unknown (hop : op.IsArithmetic) {n : Names} {l r : Expr}
    (hl : n.staticType l = none) (hr : n.staticType r = none) :
    operandHints n op l r hint = (hint, hint) := by
  unfold operandHints
  simp [hop.shift, hop.comparison, hl, hr]

-- What an operator on two operands builds in turn.
theorem binary_parts (hop : op.isLogical = false) {l r : Expr} {b b' : Builder}
    (h : compile (.binary note op l r) (.value hint) b = .ok arity b') :
    ∃ b₁ b₂, discard (compile l (.value (operandHints b.names op l r hint).1)) b = .ok () b₁ ∧
      discard (compile r (.value (operandHints b.names op l r hint).2)) b₁ = .ok () b₂ ∧
      emit' (.binary op (resolved? op
        (operandType b.names l (operandHints b.names op l r hint).1)
        (operandType b.names r (operandHints b.names op l r hint).2))) note.span b₂ = .ok () b' := by
  unfold compile at h
  simp only [hop, Bool.false_eq_true, if_false] at h
  obtain ⟨n, _, hn, h⟩ := bind_eq_ok.mp h
  cases hn
  obtain ⟨_, b₁, hl, h⟩ := bind_eq_ok.mp h
  obtain ⟨_, b₂, hr, h⟩ := bind_eq_ok.mp h
  obtain ⟨_, b₃, hbinary, h⟩ := bind_eq_ok.mp h
  cases h
  exact ⟨b₁, b₂, hl, hr, hbinary⟩

theorem literal_parts (hlit : lnote.ty = none) {b b' : Builder}
    (h : discard (compile (.lit lnote lit) (.value hint)) b = .ok () b') :
    emit' (.const (b.names.constant lit.value hint)) lnote.span b = .ok () b' := by
  obtain ⟨_, h⟩ := discard_eq_ok.mp h
  unfold compile at h
  obtain ⟨_, b₁, hconst, h⟩ := bind_eq_ok.mp h
  cases h
  obtain ⟨n, _, hn, hemit⟩ := bind_eq_ok.mp hconst
  cases hn
  rw [hlit, Want.hint, Option.or_none] at hemit
  exact hemit

-- The operator at the end of an expression.
theorem follows_applies {resolved : Option Family} {b b' : Builder} {id : StepId}
    (he : Emitted (.binary op resolved) b id b') (hkept : StepsKept b'.steps steps) :
    ∃ k, p.Follows steps (some id) do
      applies steps id op resolved
      return k := by
  obtain ⟨s, hs, hop⟩ := he.kept hkept rfl
  rw [← does_binary p]
  exact ⟨s.next, .does hs hop rfl (.done s.next)⟩

theorem operandType_of_unknown {n : Names} (he : n.staticType e = none)
    (hliteral : ∀ note v, e ≠ .lit note v) : operandType n e hint = none := by
  unfold operandType
  rw [he]
  cases e with
  | lit note v => exact absurd rfl (hliteral note v)
  | _ => rfl

theorem staticType_lit (n : Names) (lit : Literal) (hlit : lnote.ty = none) :
    n.staticType (.lit lnote lit) = none := by
  rw [Names.staticType]
  exact hlit

theorem resolved?_none_left (op : BinaryOp) (t : Option Ty) : resolved? op none t = none := rfl

theorem resolved?_none_right (op : BinaryOp) (t : Option Ty) : resolved? op t none = none := by
  cases t <;> rfl

theorem follows_to_constant (hp : p.HasSteps steps) (hat : AtSite s b) (hop : op.IsArithmetic)
    (hlit : lnote.ty = none) (he : b.names.staticType e = none)
    (hliteral : ∀ note v, e ≠ .lit note v)
    (hbuild : compile (.binary note op e (.lit lnote lit)) (.value hint) b = .ok arity b')
    (hkept : StepsKept b'.steps steps) (htypes : b'.names.types.KeepsStructs p.types) :
    ∃ (names : Names) (mid : StepId) (k : Option StepId), b.names.types.KeepsStructs names.types ∧
      p.Evaluates steps (discard (compile e (.value hint))) () b.names [.one] b.steps.size mid ∧
      p.Follows steps (some b.steps.size)
        (p.appliesToConstant steps op (names.constant lit.value hint) b.steps.size mid k) := by
  obtain ⟨b₁, b₂, hvalue, hconst, hbinary⟩ := binary_parts hop.logical hbuild
  simp only [operandHints_of_unknown hop he (staticType_lit _ lit hlit),
    operandType_of_unknown he hliteral, resolved?_none_left] at hvalue hconst hbinary
  have hconst := literal_parts hlit hconst
  have c₁ := hat.performs (performs_value (compiles e) _) hvalue
  obtain ⟨e₂, c₂⟩ := c₁.site.emits (.one :: s.items) rfl rfl hconst
  obtain ⟨e₃, c₃⟩ := c₂.site.emits s.items rfl rfl hbinary
  have k₂ := hkept.of_extends c₃.extend
  have k₁ := k₂.of_extends c₂.extend
  have hfirst := hp.evaluates_value hat hvalue k₁ ((Begins.refl b₁).allLead e₂ k₂)
    (c₂.types.trans (c₃.types.trans htypes))
  obtain ⟨k, happly⟩ := follows_applies (p := p) e₃ hkept
  rw [e₂.size_eq] at happly
  refine ⟨b₁.names, b₁.steps.size, k, c₁.types, hfirst, .across hfirst.part hfirst.le ?_⟩
  exact .emitted e₂ k₂ rfl (fun _ => rfl) rfl (e₂.size_eq ▸ (Begins.refl b₂).allLead e₃ hkept) happly

theorem follows_from_constant (hp : p.HasSteps steps) (hat : AtSite s b) (hop : op.IsArithmetic)
    (hlit : lnote.ty = none) (he : b.names.staticType e = none)
    (hliteral : ∀ note v, e ≠ .lit note v)
    (hbuild : compile (.binary note op (.lit lnote lit) e) (.value hint) b = .ok arity b')
    (hkept : StepsKept b'.steps steps) (htypes : b'.names.types.KeepsStructs p.types) :
    ∃ (apply : StepId) (k : Option StepId),
      p.Evaluates steps (discard (compile e (.value hint))) () b.names [.one] (b.steps.size + 1)
        apply ∧
      p.Follows steps (some b.steps.size)
        (p.appliesConstant steps op (b.names.constant lit.value hint) b.steps.size apply k) := by
  obtain ⟨b₁, b₂, hconst, hvalue, hbinary⟩ := binary_parts hop.logical hbuild
  simp only [operandHints_of_unknown hop (staticType_lit _ lit hlit) he,
    operandType_of_unknown he hliteral, resolved?_none_right] at hvalue hconst hbinary
  have hconst := literal_parts hlit hconst
  obtain ⟨e₁, c₁⟩ := hat.emits s.items rfl rfl hconst
  have c₂ := c₁.site.performs (performs_value (compiles e) _) hvalue
  obtain ⟨e₃, c₃⟩ := c₂.site.emits s.items rfl rfl hbinary
  have k₂ := hkept.of_extends c₃.extend
  have k₁ := k₂.of_extends c₂.extend
  have hstart := ((leadsOff e).value _ _ _ _ hvalue).allLead e₃ hkept
  have hsecond := hp.evaluates_value c₁.site hvalue k₂ ((Begins.refl b₂).allLead e₃ hkept)
    (c₃.types.trans htypes)
  obtain ⟨k, happly⟩ := follows_applies (p := p) e₃ hkept
  have hnames : b₁.names = b.names := by rw [e₁.state]
  rw [e₁.size_eq, hnames] at hsecond
  rw [e₁.size_eq] at hstart
  refine ⟨b₂.steps.size, k, hsecond, ?_⟩
  exact .emitted e₁ k₁ rfl (fun _ => rfl) rfl hstart (.across hsecond.part hsecond.le happly)

end Program

-- An integer literal beside an expression of which nothing is known takes the type that the context
-- expects and is pushed as a constant of it, or of its own kind where the context expects none. Then
-- the operator looks at its operands: of two integers it takes the kind that was declared, where the
-- kind of an untyped literal counts as not declared, and the left one of two such kinds. So where the
-- context expects nothing, the literal adopts the kind of the expression, unless it is a rune and
-- the expression an `int`.
theorem literal_beside_unknown_operand {p : Program} (hhosts : p.hosts.Behaves)
    (hb : p.Bounded) (hp : p.Compiled) {steps : Array Step}
    (hfits : ∀ s ∈ steps, s.op.LiteralFits p.types) {s : Site} {b b' : Builder} (hat : AtSite s b)
    (hkept : StepsKept b'.steps steps) (htypes : b'.names.types.KeepsStructs p.types)
    {op : BinaryOp}
    (hop : op.IsArithmetic) (note lnote : Note) (hlit : lnote.ty = none) (lit : Literal) (e : Expr)
    (he : b.names.staticType e = none) (hliteral : ∀ note v, e ≠ .lit note v) (hint : Option Ty)
    (arity : Arity) :
    (compile (.binary note op e (.lit lnote lit)) (.value hint) b = .ok arity b' →
      ∃ (names : Names) (mid : StepId) (k : Option StepId), b.names.types.KeepsStructs names.types ∧
        p.Evaluates steps (discard (compile e (.value hint))) () b.names [.one] b.steps.size mid ∧
        p.Follows steps (some b.steps.size)
          (p.appliesToConstant steps op (names.constant lit.value hint) b.steps.size mid k)) ∧
    (compile (.binary note op (.lit lnote lit) e) (.value hint) b = .ok arity b' →
      ∃ (apply : StepId) (k : Option StepId),
        p.Evaluates steps (discard (compile e (.value hint))) () b.names [.one] (b.steps.size + 1)
          apply ∧
        p.Follows steps (some b.steps.size)
          (p.appliesConstant steps op (b.names.constant lit.value hint) b.steps.size apply k)) ∧
    (∀ h name a name' d, MeetsConstant h op name a name' d) ∧
    ∀ (names : Names) h name (a : IntValue) d, lit.integer? = some d →
      names.constant lit.value none = .int d ∧ ((d.kind = .int32 → a.kind ≠ .int) →
        evaluateBinary h op (a.declared name) (.int d) =
          (Family.intOp op (.int a) a (d.withKind a.kind)).map (·.wearing name) ∧
        evaluateBinary h op (.int d) (a.declared name) =
          (Family.intOp op (.int (d.withKind a.kind)) (d.withKind a.kind) a).map
            (·.wearing name)) := by
  have hruns : p.HasSteps steps := ⟨hb, Program.calls_of_verified hhosts hb hp.verified, hfits⟩
  refine ⟨fun hbuild => Program.follows_to_constant hruns hat hop hlit he hliteral hbuild hkept htypes,
    fun hbuild => Program.follows_from_constant hruns hat hop hlit he hliteral hbuild hkept htypes,
    fun h name a name' d => meetsConstant h hop name a name' d, fun names h name a d hd => ?_⟩
  obtain ⟨hvalue, hkind⟩ := integer?_cases hd
  refine ⟨by rw [hvalue]; rfl, fun hrune => ?_⟩
  obtain ⟨hright, hleft⟩ := literal_gives_way hkind hrune
  have hmeets := meetsConstant h hop name a none d
  have hself : a.withKind a.kind = a := IntValue.withKind_self rfl
  constructor
  · have hgives := hmeets.right _ hright.symm
    rw [hself, Option.or_none] at hgives
    exact hgives
  · have hgives := hmeets.left _ hleft.symm
    rw [hself, Option.none_or] at hgives
    exact hgives

-- `max(x, x)`, of which the builder does not know that it is an `int`.
def greater : Expr :=
  .call Note.empty (.ident Note.empty "max") [.ident Note.empty "x", .ident Note.empty "x"] false

def withRune : Expr := .binary Note.empty .add greater (.lit Note.empty (.rune 'a'))

-- Whether an expression is built in a context that expects nothing, with operands that all have a
-- place.
def isValueWithInt (e : Expr) : Bool :=
  match compile e (.value none) withInt with
  | .ok _ b => b.steps.all (·.op.hasPlaces b.names.types)
  | .error _ _ => false

theorem exists_value {e : Expr} (h : isValueWithInt e = true) : ∃ arity b,
    compile e (.value none) withInt = .ok arity b ∧
      ∀ s ∈ b.steps, s.op.LiteralFits b.names.types := by
  unfold isValueWithInt at h
  split at h
  · next arity b hb => exact ⟨arity, b, hb, fun s hs =>
      StepOp.literalFits_of_hasPlaces (Array.all_eq_true'.mp h s hs)⟩
  · cases h

theorem greater_is_unknown : withInt.names.staticType greater = none := by decide

theorem greater_is_no_literal (note : Note) (v : Literal) : greater ≠ .lit note v := by
  unfold greater
  exact Expr.noConfusion

def withOne : Expr := .binary Note.empty .add greater (.lit Note.empty (.int 1))

theorem one_adopts_int : ∃ (p : Program) (b : Builder) (arity : Arity) (names : Names)
    (mid : StepId) (k : Option StepId),
    compile withOne (.value none) withInt = .ok arity b ∧
    p.Follows b.steps (some 0)
      (p.appliesToConstant b.steps .add (names.constant (.plainInt 1) none) 0 mid k) ∧
    evaluateBinary .empty .add (.plainInt 5) (.plainInt 1) = .ok (.plainInt 6) := by
  have hat : AtSite .start withInt := .start _ _ _
  have hbuilt : isValueWithInt withOne = true := by decide +kernel
  obtain ⟨arity, b, hb, hfits⟩ := exists_value hbuilt
  obtain ⟨hright, -, -, hadopts⟩ := literal_beside_unknown_operand
    (Program.behaves_bare b.names.types) (Program.bounded_bare b.names.types)
    (Program.compiled_bare b.names.types) hfits hat (.refl b.steps) (.refl _)
    (⟨rfl, rfl, rfl⟩ : BinaryOp.IsArithmetic .add) Note.empty Note.empty rfl (.int 1) greater greater_is_unknown
    greater_is_no_literal none arity
  obtain ⟨names, mid, k, -, -, hfollows⟩ := hright hb
  obtain ⟨-, hsum⟩ := hadopts names .empty none (.plain 5) (.plain 1) rfl
  refine ⟨_, b, arity, names, mid, k, hb, hfollows, (hsum (by decide)).1.trans rfl⟩

-- The sum of an `int` and the rune `'a'` is an `int32`, and a literal that an `int64` is expected of
-- makes the sum with an `int8` an `int64`.
theorem rune_overrules_int : (∃ (p : Program) (b : Builder) (arity : Arity) (names : Names)
      (mid : StepId) (k : Option StepId),
      compile withRune (.value none) withInt = .ok arity b ∧
      p.Evaluates b.steps (discard (compile greater (.value none))) () withInt.names [.one] 0 mid ∧
      p.Follows b.steps (some 0)
        (p.appliesToConstant b.steps .add (names.constant (.rune 'a') none) 0 mid k) ∧
      names.constant (.rune 'a') none = .int (.ofInt .int32 97)) ∧
    IntKind.int.Holds 97 ∧
    evaluateBinary .empty .add (.plainInt 5) (.rune 'a') = .ok (.intOf .int32 102) ∧
    evaluateBinary .empty .add (.plainInt 5) (.rune 'a') ≠ .ok (.plainInt 102) ∧
    withInt.names.constant (.plainInt 1) (some (.int .int64)) = .int (.ofInt .int64 1) ∧
    evaluateBinary .empty .add (.intOf .int64 1) (.intOf .int8 127) = .ok (.intOf .int64 128) := by
  have hat : AtSite .start withInt := .start _ _ _
  have hbuilt : isValueWithInt withRune = true := by decide +kernel
  obtain ⟨arity, b, hb, hfits⟩ := exists_value hbuilt
  let types := b.names.types
  have hruns : (Program.bare types).HasSteps b.steps :=
    ⟨Program.bounded_bare types, Program.calls_of_verified (Program.behaves_bare types)
      (Program.bounded_bare types) (Program.compiled_bare types).verified, hfits⟩
  obtain ⟨names, mid, k, -, hvalue, hfollows⟩ := Program.follows_to_constant hruns hat
    ⟨rfl, rfl, rfl⟩ rfl greater_is_unknown greater_is_no_literal hb (.refl b.steps) (.refl _)
  refine ⟨⟨_, b, arity, names, mid, k, hb, hvalue, hfollows, rfl⟩, by decide, rfl, ?_, rfl, rfl⟩
  intro h
  have hsum : (.ok (.intOf .int32 102) : Except Failure Value) = .ok (.plainInt 102) := h
  have hkind : IntKind.int32 = .int := congrArg IntValue.kind (Value.int.inj (Except.ok.inj hsum))
  cases hkind

end StepGraph

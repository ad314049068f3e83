import StepGraph.Proofs.Compile.Units
import StepGraph.Proofs.Machine.LockstepUnits

open EStateM (bind_eq_ok discard_eq_ok)

namespace StepGraph

-- Literals, names and operators on these. The blank name stands for no value.
inductive Expr.IsPure : Expr → Prop
  | lit (note : Note) (v : Literal) : IsPure (.lit note v)
  | ident (note : Note) {x : String} (hx : x ≠ Names.blank) : IsPure (.ident note x)
  | binary (note : Note) (op : BinaryOp) {l r : Expr} (hl : IsPure l) (hr : IsPure r) :
      IsPure (.binary note op l r)
  | unary (note : Note) (op : UnaryOp) {x : Expr} (hx : IsPure x) : IsPure (.unary note op x)

-- Names of which the same is known, whatever the order in which they were declared.
structure SameNames (n n' : Names) : Prop where
  blocks : n'.blocks = n.blocks
  types : SameTypes n.types n'.types
  declares : ∀ x, x ≠ Names.blank → n'.package.declares x = n.package.declares x
  globals : ∀ x, x ≠ Names.blank → n'.package.globals.lookup x = n.package.globals.lookup x

namespace SameNames

variable {n n' : Names} (h : SameNames n n')

include h

theorem local?_eq (x : String) : n'.local? x = n.local? x := by
  unfold Names.local?
  rw [h.blocks]

theorem isShadowed_eq {x : String} (hx : x ≠ Names.blank) : n'.isShadowed x = n.isShadowed x := by
  unfold Names.isShadowed
  rw [h.local?_eq, h.declares x hx]

theorem variableType_eq {x : String} (hx : x ≠ Names.blank) :
    n'.variableType x = n.variableType x := by
  unfold Names.variableType
  rw [h.local?_eq, h.globals x hx]

theorem elem?_eq (ty : Ty) : n'.elem? ty = n.elem? ty := by
  unfold Names.elem? Names.resolve
  rw [h.types.resolve_eq]

theorem constant_eq (v : Value) (hint : Option Ty) : n'.constant v hint = n.constant v hint := by
  unfold Names.constant
  simp only [h.types.zero_eq, h.types.settle_eq]

theorem staticType_eq {e : Expr} (he : e.IsPure) : n'.staticType e = n.staticType e := by
  have helem : n'.elem? = n.elem? := funext h.elem?_eq
  induction he with
  | lit note v =>
    unfold Names.staticType
    rfl
  | ident note hx =>
    unfold Names.staticType
    rw [h.variableType_eq hx]
  | binary note op _ _ hl hr =>
    unfold Names.staticType
    rw [hl, hr]
  | unary note op _ hx =>
    unfold Names.staticType
    rw [hx, helem]

theorem operandHints_eq {l r : Expr} (hl : l.IsPure) (hr : r.IsPure) (op : BinaryOp)
    (hint : Option Ty) :
    Build.operandHints n' op l r hint = Build.operandHints n op l r hint := by
  unfold Build.operandHints
  rw [h.staticType_eq hl, h.staticType_eq hr]

theorem operandType_eq {e : Expr} (he : e.IsPure) (hint : Option Ty) :
    Build.operandType n' e hint = Build.operandType n e hint := by
  unfold Build.operandType
  rw [h.staticType_eq he]

end SameNames

-- The builder of the same function among other names and behind other code.
def Builder.moved (b : Builder) (n : Names) (code : Array Function) : Builder :=
  { b with names := n, code }

theorem StepOp.isPure_bare (op : StepOp) : op.bare.isPure = op.isPure := by
  cases op <;> rfl

-- A new step takes what is pending, and only its own successors are added.
theorem Build.Emitted.isLinkable {op : StepOp} {id : StepId} {b b' : Builder} {x : Slot}
    (he : Emitted op b id b') (h : IsLinkable b'.steps x) :
    x.step = id ∧ (x.edge = .other → (op.gives .other).isSome) ∨
      IsLinkable b.steps x ∧ x ∉ b.pending := by
  obtain ⟨s', hs', hnone⟩ := h.1
  have hforks : x.edge = .other → (s'.op.bare.gives .other).isSome := by
    intro hedge
    obtain ⟨s, hs, hgives⟩ := h.2 hedge
    obtain rfl := Option.some.inj (hs'.symm.trans hs)
    rwa [StepOp.gives_bare]
  rcases he.below hs' with ⟨hid, hbare⟩ | ⟨s, hs, hbelow⟩
  · refine .inl ⟨hid, fun hedge => ?_⟩
    rw [← StepOp.gives_bare, ← hbare]
    exact hforks hedge
  · refine .inr ⟨⟨⟨s, hs, ?_⟩, fun hedge => ⟨s, hs, ?_⟩⟩, fun hmem => ?_⟩
    · cases hfollow : s.follow x.edge with
      | none => rfl
      | some j =>
        rw [hbelow.keeps _ _ hfollow] at hnone
        cases hnone
    · rw [← StepOp.gives_bare, ← hbelow.bare]
      exact hforks hedge
    · obtain ⟨s₁, hs₁, hlead⟩ := he.leads (.refl _) x hmem
      obtain rfl := Option.some.inj (hs'.symm.trans hs₁)
      rw [hnone] at hlead
      cases hlead

namespace Build

variable {α β : Type}

-- The steps so far are those of literals, names and operators, and they lead forward. Successors
-- that lead nowhere yet are pending, or they are held back.
structure BuildsPurely (held : List Slot) (b : Builder) : Prop where
  op : ∀ {i : StepId} {s : Step}, b.steps[i]? = some s → s.op.isPure = true
  forward : ∀ {x : Slot} {j : StepId}, LeadsTo b.steps x (some j) → x.step < j ∧ j < b.steps.size
  pending : ∀ slot ∈ b.pending, slot.step < b.steps.size
  dangling : ∀ {x : Slot}, IsLinkable b.steps x → x ∈ held ∨ x ∈ b.pending

-- An action that depends on names only as far as `SameNames` tells, and that does not change them.
structure Portable (x : Build α) : Prop where
  names : ∀ {b a b'}, x b = .ok a b' → b'.names = b.names
  grows : ∀ {b a b'}, x b = .ok a b' → b.steps.size ≤ b'.steps.size
  purely : ∀ {held b a b'}, x b = .ok a b' → BuildsPurely held b → BuildsPurely held b'
  moved : ∀ {b : Builder} {n : Names} {a : α} {b' : Builder} (code : Array Function),
    SameNames b.names n → x b = .ok a b' → x (b.moved n code) = .ok a (b'.moved n code)

theorem linkAll_moved {slots : List Slot} {t : StepId} {u : Unit} {b b' : Builder} (n : Names)
    (code : Array Function) (h : linkAll slots t b = .ok u b') :
    linkAll slots t (b.moved n code) = .ok u (b'.moved n code) := by
  induction slots generalizing b with
  | nil =>
    cases h
    rfl
  | cons slot slots ih =>
    obtain ⟨_, b₁, h₁, h₂⟩ := bind_eq_ok.mp h
    refine bind_eq_ok.mpr ⟨(), b₁.moved n code, ?_, ih h₂⟩
    change link slot t b = _ at h₁
    change link slot t (b.moved n code) = _
    have hsame : ((b.moved n code).steps[slot.step]?.bind fun s => s.link? slot.edge t) =
        b.steps[slot.step]?.bind fun s => s.link? slot.edge t := rfl
    rw [link_eq] at h₁ ⊢
    rw [hsame]
    cases hs : b.steps[slot.step]?.bind fun s => s.link? slot.edge t with
    | none =>
      rw [hs] at h₁
      cases h₁
    | some s =>
      rw [hs] at h₁
      cases h₁
      rfl

theorem emit_moved {op : StepOp} {span : Span} {id : StepId} {b b' : Builder} (n : Names)
    (code : Array Function) (h : emit op span b = .ok id b') :
    emit op span (b.moved n code) = .ok id (b'.moved n code) := by
  obtain ⟨_, b₁, h₁, h⟩ := bind_eq_ok.mp h
  cases h₁
  obtain ⟨_, b₂, h₂, h⟩ := bind_eq_ok.mp h
  cases h₂
  obtain ⟨_, b₃, h₃, h⟩ := bind_eq_ok.mp h
  cases h₃
  obtain ⟨_, b₄, h₄, h⟩ := bind_eq_ok.mp h
  cases h
  exact bind_eq_ok.mpr ⟨_, _, rfl, bind_eq_ok.mpr ⟨_, _, rfl, bind_eq_ok.mpr ⟨_, _, rfl,
    bind_eq_ok.mpr ⟨_, _, linkAll_moved n code h₄, rfl⟩⟩⟩⟩

theorem BuildsPurely.emitted {held held' : List Slot} {op : StepOp} {id : StepId} {b b' : Builder}
    (h : BuildsPurely held b) (he : Emitted op b id b') (hop : op.isPure = true)
    (hother : op.other? = none) (hheld : held ⊆ held')
    (hfork : (op.gives .other).isSome → ⟨id, .other⟩ ∈ held') : BuildsPurely held' b' := by
  have hsize := he.size_lt
  refine ⟨fun hs => ?_, fun hlead => ?_, fun slot hslot => ?_, fun {x} hx => ?_⟩
  · rcases he.below hs with ⟨-, hnew⟩ | ⟨s, hold, hbelow⟩
    · rw [← StepOp.isPure_bare, hnew, StepOp.isPure_bare]
      exact hop
    · rw [← StepOp.isPure_bare, hbelow.bare, StepOp.isPure_bare]
      exact h.op hold
  · rcases he.edge hother hlead with hold | ⟨hmem, rfl⟩
    · obtain ⟨hlt, hle⟩ := h.forward hold
      exact ⟨hlt, Nat.lt_trans hle hsize⟩
    · rw [he.id_eq]
      exact ⟨h.pending _ hmem, hsize⟩
  · rw [he.pending, List.mem_singleton] at hslot
    rw [hslot, he.id_eq]
    exact hsize
  · rcases he.isLinkable hx with ⟨rfl, hgives⟩ | ⟨hold, hfree⟩
    · obtain ⟨i, edge⟩ := x
      cases edge with
      | next => exact .inr (he.pending ▸ List.mem_cons_self)
      | other => exact .inl (hfork (hgives rfl))
    · exact .inl (hheld ((h.dangling hold).resolve_right hfree))

namespace Portable

theorem pure (a : α) : Portable (Pure.pure a : Build α) := by
  refine ⟨fun h => ?_, fun h => ?_, fun h hb => ?_, fun code hn h => ?_⟩ <;> cases h
  · rfl
  · exact Nat.le_refl _
  · exact hb
  · rfl

theorem fail (e : CompileError) : Portable (Build.fail e : Build α) :=
  ⟨fun h => absurd h (fail_ne_ok e _), fun h => absurd h (fail_ne_ok e _),
    fun h => absurd h (fail_ne_ok e _), fun _ _ h => absurd h (fail_ne_ok e _)⟩

theorem bind {x : Build α} {f : α → Build β} (hx : Portable x) (hf : ∀ a, Portable (f a)) :
    Portable (x >>= f) where
  names h := by
    obtain ⟨a, b₁, h₁, h₂⟩ := bind_eq_ok.mp h
    exact ((hf a).names h₂).trans (hx.names h₁)
  grows h := by
    obtain ⟨a, b₁, h₁, h₂⟩ := bind_eq_ok.mp h
    exact Nat.le_trans (hx.grows h₁) ((hf a).grows h₂)
  purely h hb := by
    obtain ⟨a, b₁, h₁, h₂⟩ := bind_eq_ok.mp h
    exact (hf a).purely h₂ (hx.purely h₁ hb)
  moved code hn h := by
    obtain ⟨a, b₁, h₁, h₂⟩ := bind_eq_ok.mp h
    exact bind_eq_ok.mpr ⟨a, _, hx.moved code hn h₁, (hf a).moved code (hx.names h₁ ▸ hn) h₂⟩

theorem discard {x : Build α} (hx : Portable x) : Portable (Functor.discard x) where
  names h := (discard_eq_ok.mp h).elim fun _ h => hx.names h
  grows h := (discard_eq_ok.mp h).elim fun _ h => hx.grows h
  purely h := (discard_eq_ok.mp h).elim fun _ h => hx.purely h
  moved code hn h := (discard_eq_ok.mp h).elim fun a h => discard_eq_ok.mpr ⟨a, hx.moved code hn h⟩

-- What depends on the builder has to be the same among the other names.
theorem get {f : Builder → Build α} (hf : ∀ b, Portable (f b))
    (hsame : ∀ b n code, SameNames b.names n → f (b.moved n code) = f b) :
    Portable (MonadState.get >>= f) where
  names h := (hf _).names h
  grows h := (hf _).grows h
  purely h := (hf _).purely h
  moved {b n a b'} code hn h := by
    change f (b.moved n code) (b.moved n code) = _
    rw [hsame b n code hn]
    exact (hf b).moved code hn h

theorem ofNames {f : Names → Build α} (hf : ∀ n, Portable (f n))
    (hsame : ∀ n n', SameNames n n' → f n' = f n) : Portable (Build.names >>= f) :=
  get (f := fun b => f b.names) (fun b => hf b.names) fun _ _ _ hn => hsame _ _ hn

theorem emit' {op : StepOp} (hop : op.isPure = true) (hgives : op.gives .other = none)
    (span : Span) : Portable (Build.emit' op span) := by
  have hother : op.other? = none := by cases op <;> first | rfl | cases hgives
  refine discard ⟨fun h => (emit_ok h).names, fun h => Nat.le_of_lt (emit_ok h).size_lt,
    fun h hb => hb.emitted (emit_ok h) hop hother (List.Subset.refl _) fun hn => ?_,
    fun code _ h => emit_moved _ code h⟩
  rw [hgives] at hn
  cases hn

theorem emitConstant (v : Value) (hint : Option Ty) (span : Span) :
    Portable (Build.emitConstant v hint span) :=
  ofNames (fun _ => emit' rfl rfl span) fun n n' hn => by rw [hn.constant_eq]

theorem emitName {x : String} (hx : x ≠ Names.blank) (hint : Option Ty) (span : Span) :
    Portable (Build.emitName x hint span) := by
  have hload : Portable (Build.emit' (.load x) span) := emit' rfl rfl span
  refine get (fun b => ?_) fun b n code hn => ?_
  · split
    · exact hload
    · split
      · exact emitConstant _ hint span
      · exact hload
  · have hshadowed : (b.moved n code).names.isShadowed x = b.names.isShadowed x :=
      hn.isShadowed_eq hx
    have hiota : (b.moved n code).iota = b.iota := rfl
    rw [hshadowed, hiota]

theorem settle {want : Want} (hwant : want ≠ .discard) (span : Span) :
    Portable (Build.settle want span) := by
  cases want with
  | value | values => exact pure _
  | discard => exact absurd rfl hwant
  | address s => exact bind (emit' rfl rfl s) fun _ => pure _

-- The operator that may leave its second operand out.
theorem logical {l r : Build Arity} (hl : Portable l) (hr : Portable r) (stop : Bool)
    (span : Span) : Portable (do
      Functor.discard l
      let short ← emitFork (.shortCircuit stop none) span
      Functor.discard r
      addPending [short]) := by
  refine bind (discard hl) fun _ => ?_
  have hsplit : ∀ {b b' : Builder} {u : Unit}, (do
      let short ← emitFork (.shortCircuit stop none) span
      Functor.discard r
      addPending [short]) b = .ok u b' → ∃ id b₁ b₂ a,
        emit (.shortCircuit stop none) span b = .ok id b₁ ∧ r b₁ = .ok a b₂ ∧
          b' = { b₂ with pending := b₂.pending ++ [⟨id, .other⟩] } := by
    intro b b' u h
    obtain ⟨short, b₁, h₁, h⟩ := bind_eq_ok.mp h
    obtain ⟨id, _, hemit, h₁⟩ := bind_eq_ok.mp h₁
    cases h₁
    obtain ⟨_, b₂, h₂, h⟩ := bind_eq_ok.mp h
    obtain ⟨a, h₂⟩ := discard_eq_ok.mp h₂
    cases h
    exact ⟨id, b₁, b₂, a, hemit, h₂, rfl⟩
  refine ⟨fun h => ?_, fun h => ?_, fun h hb => ?_, fun {b n u b'} code hn h => ?_⟩
  all_goals obtain ⟨id, b₁, b₂, a, hemit, hrun, rfl⟩ := hsplit h
  all_goals have he := emit_ok hemit
  · exact (hr.names hrun).trans he.names
  · have hle := hr.grows hrun
    exact Nat.le_trans (Nat.le_of_lt he.size_lt) hle
  · have hle := hr.grows hrun
    have hb₂ := hr.purely hrun (hb.emitted he rfl rfl (List.subset_cons_self _ _)
      fun _ => List.mem_cons_self)
    refine ⟨hb₂.op, hb₂.forward, fun slot hslot => ?_, fun hx => ?_⟩
    · rcases List.mem_append.mp hslot with hold | hnew
      · exact hb₂.pending slot hold
      · obtain rfl := List.mem_singleton.mp hnew
        exact Nat.lt_of_lt_of_le (he.id_eq ▸ he.size_lt) hle
    · rcases hb₂.dangling hx with hheld | hpending
      · rcases List.mem_cons.mp hheld with rfl | hheld
        · exact .inr (List.mem_append_right _ List.mem_cons_self)
        · exact .inl hheld
      · exact .inr (List.mem_append_left _ hpending)
  · refine bind_eq_ok.mpr ⟨_, _, bind_eq_ok.mpr ⟨_, _, emit_moved n code hemit, rfl⟩, ?_⟩
    exact bind_eq_ok.mpr ⟨(), _, discard_eq_ok.mpr ⟨a, hr.moved code (he.names ▸ hn) hrun⟩, rfl⟩

end Portable

theorem portable_compile {e : Expr} (he : e.IsPure) {want : Want} (hwant : want ≠ .discard) :
    Portable (compile e want) := by
  have hvalue : ∀ hint, Want.value hint ≠ .discard := fun hint h => by cases h
  induction he generalizing want with
  | lit note v =>
    unfold compile
    exact .bind (.emitConstant _ _ _) fun _ => .settle hwant _
  | ident note hx =>
    unfold compile
    cases want with
    | address s => exact .bind (.emit' rfl rfl s) fun _ => .pure _
    | discard => exact absurd rfl hwant
    | value hint => exact .bind (.emitName hx _ _) fun _ => .settle hwant _
    | values => exact .bind (.emitName hx _ _) fun _ => .settle hwant _
  | @binary note op l r hl hr ihl ihr =>
    have hplain : Portable (do
        let n ← names
        let hints := operandHints n op l r want.hint
        Functor.discard (compile l (.value hints.1))
        Functor.discard (compile r (.value hints.2))
        emit' (.binary op (resolved? op (operandType n l hints.1) (operandType n r hints.2)))
          note.span) := by
      refine .ofNames (fun n => ?_) fun n n' hn => ?_
      · exact .bind (.discard (ihl (hvalue _))) fun _ => .bind (.discard (ihr (hvalue _))) fun _ =>
          .emit' rfl rfl _
      · simp only [hn.operandHints_eq hl hr, hn.operandType_eq hl, hn.operandType_eq hr]
    unfold compile
    split
    · have hlogical := Portable.logical (ihl (hvalue none)) (ihr (hvalue none)) (op = .logicalOr)
        note.span
      simpa only [bind_assoc] using hlogical.bind fun _ => Portable.settle hwant note.span
    · simpa only [bind_assoc] using hplain.bind fun _ => Portable.settle hwant note.span
  | @unary note op x hx ih =>
    have hsettle := Portable.settle hwant note.span
    have hplain : ∀ op : UnaryOp, op ≠ .addrOf → op ≠ .deref → op ≠ .recv → Portable (do
        Functor.discard (compile x (.value want.hint))
        emit' (.unary op) note.span
        settle want note.span) := by
      intro op haddr hderef hrecv
      have hop : (StepOp.unary op).isPure = true := by
        cases op <;> first | rfl | contradiction
      exact .bind (.discard (ih (hvalue _))) fun _ => .bind (.emit' hop rfl _) fun _ => hsettle
    have haddress : ∀ span, Want.address span ≠ .discard := fun span h => by cases h
    unfold compile
    split
    · exact .bind (.discard (ih (haddress _))) fun _ => hsettle
    · refine .bind (.discard (ih (hvalue _))) fun _ => ?_
      cases want with
      | address s => exact .pure _
      | discard => exact absurd rfl hwant
      | value | values => exact .bind (.emit' rfl rfl _) fun _ => hsettle
    · refine .bind (.discard (ih (hvalue _))) fun _ => ?_
      cases want with
      | values => exact .bind (.emit' rfl rfl _) fun _ => .pure _
      | discard => exact absurd rfl hwant
      | value | address => exact .bind (.emit' rfl rfl _) fun _ => hsettle
    · next haddr hderef hrecv =>
      split
      · split
        · exact .bind (.emitConstant _ _ _) fun _ => hsettle
        · exact hplain _ haddr hderef hrecv
      · exact hplain _ haddr hderef hrecv

theorem portable_compileEach {es : List Expr} (hes : ∀ e ∈ es, e.IsPure)
    (hints : List (Option Ty)) : Portable (compileEach es hints) := by
  induction es generalizing hints with
  | nil =>
    unfold compileEach
    exact .pure ()
  | cons e rest ih =>
    have he : Portable (compile e (.value hints.head?.join)) :=
      portable_compile (hes e List.mem_cons_self) fun h => by cases h
    unfold compileEach
    exact .bind (.discard he) fun _ => ih (fun e he => hes e (List.mem_cons_of_mem _ he)) _

theorem portable_countOperands (count : Nat) (span : Span) :
    Portable (countOperands count span) := by
  unfold countOperands
  split
  · exact .pure _
  · exact .fail _

theorem portable_compileValues {es : List Expr} (hes : ∀ e ∈ es, e.IsPure) (want : Nat)
    (hints : List (Option Ty)) : Portable (compileValues es want hints) := by
  cases es with
  | nil =>
    unfold compileValues
    exact .pure _
  | cons e rest =>
    have he := hes e List.mem_cons_self
    unfold compileValues
    split
    · exact portable_compile he fun h => by cases h
    · exact .bind (.discard (portable_compile he fun h => by cases h)) fun _ =>
        .bind (portable_compileEach (fun e he => hes e (List.mem_cons_of_mem _ he)) _) fun _ =>
          portable_countOperands _ _

-- Whatever the action gives is the number of operands that it leaves.
def GivesCount (x : Build Arity) : Prop := ∀ b a b', x b = .ok a b' → ∃ n, a = .fixed n

theorem GivesCount.pure (n : Nat) : GivesCount (Pure.pure (.fixed n)) := by
  intro b a b' h
  cases h
  exact ⟨n, rfl⟩

theorem GivesCount.bind {x : Build α} {f : α → Build Arity} (hf : ∀ a, GivesCount (f a)) :
    GivesCount (x >>= f) := by
  intro b a b' h
  obtain ⟨c, b₁, -, h⟩ := bind_eq_ok.mp h
  exact hf c b₁ a b' h

theorem givesCount_settle (want : Want) (span : Span) : GivesCount (settle want span) := by
  cases want with
  | value | values => exact .pure 1
  | discard | address => exact .bind fun _ => .pure 1

theorem givesCount_compile {e : Expr} (he : e.IsPure) (want : Want) :
    GivesCount (compile e want) := by
  cases he with
  | lit note v =>
    unfold compile
    exact .bind fun _ => givesCount_settle _ _
  | ident note hx =>
    unfold compile
    cases want with
    | address s => exact .bind fun _ => .pure 1
    | value | values | discard => exact .bind fun _ => givesCount_settle _ _
  | binary note op hl hr =>
    unfold compile
    split
    · exact .bind fun _ => .bind fun _ => .bind fun _ => .bind fun _ => givesCount_settle _ _
    · exact .bind fun n => .bind fun _ => .bind fun _ => .bind fun _ => givesCount_settle _ _
  | unary note op hx =>
    unfold compile
    split
    · exact .bind fun _ => givesCount_settle _ _
    · refine .bind fun _ => ?_
      cases want with
      | address s => exact .pure 1
      | value | values | discard => exact .bind fun _ => givesCount_settle _ _
    · refine .bind fun _ => ?_
      cases want with
      | values => exact .bind fun _ => .pure 2
      | value | address | discard => exact .bind fun _ => givesCount_settle _ _
    · split
      · split
        · exact .bind fun _ => givesCount_settle _ _
        · exact .bind fun _ => .bind fun _ => givesCount_settle _ _
      · exact .bind fun _ => .bind fun _ => givesCount_settle _ _

theorem givesCount_compileValues {es : List Expr} (hes : ∀ e ∈ es, e.IsPure) (want : Nat)
    (hints : List (Option Ty)) : GivesCount (compileValues es want hints) := by
  cases es with
  | nil =>
    unfold compileValues
    exact .pure 0
  | cons e rest =>
    unfold compileValues
    split
    · exact givesCount_compile (hes e List.mem_cons_self) _
    · refine .bind fun _ => .bind fun _ => ?_
      unfold countOperands
      split
      · exact .pure _
      · exact fun b a b' h => absurd h (unsupported_ne_ok _ _ _)

-- The last step of a unit binds its names.
theorem BuildsPurely.pureUnit {op : StepOp} {id : StepId} {b b' : Builder} {xs : List String}
    (h : BuildsPurely [] b) (he : Emitted op b id b') (hop : op.BindsTo xs) :
    PureUnit b'.steps xs := by
  have hother : op.other? = none := by cases op <;> first | rfl | exact hop.elim
  have hsize := he.size_lt
  have hforward : ∀ {x : Slot} {j : StepId}, LeadsTo b'.steps x (some j) →
      x.step < j ∧ j < b'.steps.size := by
    intro x j hlead
    rcases he.edge hother hlead with hold | ⟨hmem, rfl⟩
    · obtain ⟨hlt, hle⟩ := h.forward hold
      exact ⟨hlt, Nat.lt_trans hle hsize⟩
    · rw [he.id_eq]
      exact ⟨h.pending _ hmem, hsize⟩
  refine ⟨fun {i j s} hs hlead => ?_, fun {i s} hs => ?_,
    fun _ => Nat.lt_of_le_of_lt (Nat.zero_le _) hsize⟩
  · rcases hlead with hnext | hother'
    · exact hforward (x := ⟨i, .next⟩) ⟨s, hs, hnext⟩
    · exact hforward (x := ⟨i, .other⟩) ⟨s, hs, hother'⟩
  · rcases he.below hs with ⟨rfl, hnew⟩ | ⟨u, hold, hbelow⟩
    · refine .inr ⟨?_, ?_⟩
      · have hsame : s.op = op := by
          cases op <;> first
            | exact hop.elim
            | (cases hs' : s.op <;> rw [hs'] at hnew <;> first | exact hnew | cases hnew)
        rw [hsame]
        exact hop
      · cases hnext : s.next with
        | none => rfl
        | some j =>
          obtain ⟨hlt, hle⟩ := hforward (x := ⟨i, .next⟩) ⟨s, hs, hnext⟩
          rcases he.edge hother (x := ⟨i, .next⟩) ⟨s, hs, hnext⟩ with hold | ⟨-, rfl⟩
          · exact absurd hold.lt_size (he.id_eq ▸ Nat.lt_irrefl _)
          · exact absurd hlt (Nat.lt_irrefl _)
    · refine .inl ⟨?_, fun edge hedge => ?_⟩
      · rw [← StepOp.isPure_bare, hbelow.bare, StepOp.isPure_bare]
        exact h.op hold
      · cases hfollow : s.follow edge with
        | some j => exact ⟨j, rfl⟩
        | none =>
          rcases he.isLinkable (x := ⟨i, edge⟩) ⟨⟨s, hs, hfollow⟩, fun he => ⟨s, hs, hedge he⟩⟩ with
            ⟨rfl, -⟩ | ⟨hopen, hfree⟩
          · exact absurd (Array.getElem?_eq_some_iff.mp hold).1 (he.id_eq ▸ Nat.lt_irrefl _)
          · exact absurd ((h.dangling hopen).resolve_left List.not_mem_nil) hfree

theorem buildsPurely_start (names : Names) (code : Array Function) (iota : Option Nat) :
    BuildsPurely [] { Builder.start names code .empty with iota } := by
  refine ⟨fun {i s} hs => ?_, fun {x j} hlead => ?_, fun slot hslot => ?_, fun {x} hx => ?_⟩
  · cases hs
  · obtain ⟨s, hs, -⟩ := hlead
    cases hs
  · cases hslot
  · obtain ⟨s, hs, -⟩ := hx.1
    cases hs

end Build

namespace Origin

open Build

-- The names that a declaration of variables or constants binds.
def bound : Origin → List String
  | var spec => spec.names
  | const line _ => line.names
  | _ => []

def values : Origin → List Expr
  | var spec => spec.values
  | const line _ => line.values
  | _ => []

variable {o : Origin} {names names' : Names} {code : Array Function} {b : Builder}

-- The steps of a unit do not depend on the order of what was declared before.
structure Settled (x : Build Unit) (b b' : Builder) (xs : List String) : Prop where
  isPure : PureUnit b'.steps xs
  names : b'.names = b.names
  moved : ∀ n code, SameNames b.names n → x (b.moved n code) = .ok () (b'.moved n code)

theorem settled_emit' {op : StepOp} {span : Span} {b b' : Builder} {xs : List String}
    (hb : BuildsPurely [] b) (hop : op.BindsTo xs) (h : emit' op span b = .ok () b') :
    Settled (emit' op span) b b' xs := by
  obtain ⟨id, h⟩ := discard_eq_ok.mp h
  have he := emit_ok h
  exact ⟨hb.pureUnit he hop, he.names, fun n code _ => discard_eq_ok.mpr ⟨id, emit_moved n code h⟩⟩

theorem settled_values {es : List Expr} {want : Nat} {hints : List (Option Ty)}
    {f : Arity → StepOp} {span : Span} {b b' : Builder} {xs : List String}
    (hes : ∀ e ∈ es, e.IsPure) (hb : BuildsPurely [] b) (hop : ∀ n, (f (.fixed n)).BindsTo xs)
    (h : (do
      let arity ← compileValues es want hints
      emit' (f arity) span) b = .ok () b') :
    Settled (do
      let arity ← compileValues es want hints
      emit' (f arity) span) b b' xs := by
  obtain ⟨arity, b₁, h₁, h₂⟩ := bind_eq_ok.mp h
  have hportable := portable_compileValues hes want hints
  obtain ⟨n, rfl⟩ := givesCount_compileValues hes want hints b arity b₁ h₁
  have hlast := settled_emit' (hportable.purely h₁ hb) (hop n) h₂
  have hnames := hportable.names h₁
  exact ⟨hlast.isPure, hlast.names.trans hnames, fun n code hn =>
    bind_eq_ok.mpr ⟨_, _, hportable.moved code hn h₁, hlast.moved n code (hnames ▸ hn)⟩⟩

theorem settled_head (ho : o.isUnit = true) (hpure : ∀ e ∈ o.values, e.IsPure)
    (h : o.head (.start names code .empty) = .ok () b) :
    Settled o.head (.start names code .empty) b (boundNames o.bound) := by
  have hstart := buildsPurely_start names code
  rcases o with d | ⟨sig, body⟩ | ⟨xs, ty, values⟩ | ⟨⟨xs, ty, values⟩, iota⟩
  · cases ho
  · cases ho
  · unfold head at h ⊢
    dsimp only at h ⊢
    by_cases hempty : values.isEmpty = true
    · rw [if_pos hempty] at h ⊢
      cases ty with
      | some ty => exact settled_emit' (hstart none) rfl h
      | none => cases h
    · rw [if_neg hempty] at h ⊢
      exact settled_values hpure (hstart none) (fun _ => rfl) h
  · unfold head at h ⊢
    dsimp only at h ⊢
    by_cases hempty : values.isEmpty = true
    · rw [if_pos hempty] at h
      cases h
    · rw [if_neg hempty] at h ⊢
      obtain ⟨_, b₁, h₁, h₂⟩ := bind_eq_ok.mp h
      cases h₁
      have hrest := settled_values (f := .declare xs ty) hpure (hstart (some iota))
        (fun _ => rfl) h₂
      exact ⟨hrest.isPure, hrest.names, fun n code hn =>
        bind_eq_ok.mpr ⟨(), _, rfl, hrest.moved n code hn⟩⟩

-- The steps of a unit are the same whatever the order in which names were declared.
theorem steps_head_eq {b' : Builder} {code' : Array Function} (ho : o.isUnit = true)
    (hpure : ∀ e ∈ o.values, e.IsPure) (hn : SameNames names names')
    (h : o.head (.start names code .empty) = .ok () b)
    (h' : o.head (.start names' code' .empty) = .ok () b') : b'.steps = b.steps := by
  have hstart : Builder.start names' code' .empty =
      (Builder.start names code .empty).moved (Builder.start names' code' .empty).names code' := rfl
  have hblocks : SameNames (Builder.start names code .empty).names
      (Builder.start names' code' .empty).names :=
    ⟨congrArg (_ :: ·) hn.blocks, hn.types, hn.declares, hn.globals⟩
  rw [hstart, (settled_head ho hpure h).moved _ _ hblocks] at h'
  cases h'
  rfl

end Origin

end StepGraph

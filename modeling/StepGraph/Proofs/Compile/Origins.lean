import StepGraph.Compile.Declarations
import StepGraph.Proofs.Compile.Blocks

open EStateM (bind_eq_error)

namespace StepGraph.Build

section targets

theorem targets_ident (note : Note) (x : String) : Targets (.ident note x) := by
  intro types items
  unfold compileTarget
  refine .pure _ ?_
  split <;> rfl

theorem targets_index {e k : Expr} (he : Compiles e) (hk : Compiles k) (note : Note) :
    Targets (.index note e k) := by
  intro types items
  unfold compileTarget
  refine .bind operates_names fun n => .bind (he.value none) fun _ => ?_
  exact .bind (hk.value _) fun _ => .pure _ rfl

theorem targets_select {e : Expr} (he : Compiles e) (note : Note) (field : String) :
    Targets (.select note e field) := by
  intro types items
  unfold compileTarget
  exact .bind (he.value none) fun _ => .pure _ rfl

theorem targets_unary {e : Expr} (he : Compiles e) (note : Note) (op : UnaryOp) :
    Targets (.unary note op e) := by
  intro types items
  cases op with
  | deref =>
      unfold compileTarget
      exact .bind (he.value none) fun _ => .pure _ rfl
  | _ =>
      unfold compileTarget
      exact .fail fun i h => by cases h

-- No other expression is a destination.
theorem targets_other {e : Expr} (he : compileTarget e = fail (.invalidAssignTarget e.span)) :
    Targets e := by
  intro types items
  rw [he]
  exact .fail fun i h => by cases h

end targets

mutual

theorem compiles : ∀ e : Expr, Compiles e
  | .lit note v => compiles_lit note v
  | .ident note x => compiles_ident note x
  | .binary note op l r => compiles_binary (compiles l) (compiles r) note op
  | .unary note op x => compiles_unary (compiles x) note op
  | .call note f args spread => compiles_call (compiles f) (compiles_list args) note spread
  | .index note e k => compiles_index (compiles e) (compiles k) note
  | .slice note e low high max =>
      compiles_slice (compiles e) (compiles_option low) (compiles_option high) (compiles_option max)
        note
  | .select note e field => compiles_select (compiles e) note field
  | .composite note ty elems => compiles_composite (compiles_elements elems) note ty
  | .funcLit note _ body =>
      compiles_funcLit (builds_all (builds_list body) .start ⟨rfl, nofun⟩) note
  | .assert note e ty => compiles_assert (compiles e) note ty
  | .convert note ty e => compiles_convert (compiles e) note ty
  | .typeExpr note ty => compiles_typeExpr note ty

theorem compiles_list : ∀ es : List Expr, ∀ e ∈ es, Compiles e
  | [] => nofun
  | e :: rest => List.forall_mem_cons.mpr ⟨compiles e, compiles_list rest⟩

theorem compiles_option : ∀ e : Option Expr, ∀ x ∈ e, Compiles x
  | none => nofun
  | some e => fun _ hx => Option.mem_some.mp hx ▸ compiles e

theorem compiles_element : ∀ x : Element, CompilesElement x
  | .plain v => compiles v
  | .field _ v => compiles v
  | .keyed k v => ⟨compiles k, compiles v⟩

theorem compiles_elements : ∀ elems : List Element, ∀ x ∈ elems, CompilesElement x
  | [] => nofun
  | x :: rest => List.forall_mem_cons.mpr ⟨compiles_element x, compiles_elements rest⟩

theorem targets : ∀ e : Expr, Targets e
  | .ident note x => targets_ident note x
  | .index note e k => targets_index (compiles e) (compiles k) note
  | .select note e field => targets_select (compiles e) note field
  | .unary note op x => targets_unary (compiles x) note op
  | .lit .. | .binary .. | .call .. | .slice .. | .composite .. | .funcLit .. | .assert ..
  | .convert .. | .typeExpr .. => targets_other (by unfold compileTarget; rfl)

theorem targets_list : ∀ es : List Expr, ∀ e ∈ es, Targets e
  | [] => nofun
  | e :: rest => List.forall_mem_cons.mpr ⟨targets e, targets_list rest⟩

theorem targets_option : ∀ e : Option Expr, ∀ x ∈ e, Targets x
  | none => nofun
  | some e => fun _ hx => Option.mem_some.mp hx ▸ targets e

theorem builds : ∀ stmt : Stmt, Builds stmt
  | .empty span => builds_empty span
  | .expr span e => builds_expr (compiles e) span
  | .define span xs values => builds_define (compiles_list values) span xs
  | .var span ⟨_, _, values⟩ => builds_var (compiles_list values) span
  | .const span specs => builds_const (compiles_specs specs) span
  | .typeDecl span x ty => builds_typeDecl span x ty
  | .assign span ts values => builds_assign (targets_list ts) (compiles_list values) span
  | .opAssign span op t v => builds_opAssign (targets t) (compiles v) span op
  | .incDec span t increment => builds_incDec (targets t) span increment
  | .send span chan v => builds_send (compiles chan) (compiles v) span
  | .block span body => builds_block (builds_all (builds_list body)) span
  | .cond span init test yes no =>
      builds_cond (builds_optional (builds_option init)) (compiles test)
        (builds_all (builds_list yes)) (builds_optional (builds_option no)) span
  | .loop span init test post body =>
      builds_loop (builds_optional (builds_option init)) (compiles_option test)
        (builds_optional (builds_option post)) (builds_all (builds_list body)) span
  | .range span key value define subject body =>
      builds_range (targets_option key) (targets_option value) (compiles subject)
        (builds_all (builds_list body)) span define
  | .switch span init tag clauses =>
      builds_switch (builds_optional (builds_option init)) (compiles_option tag)
        (builds_clauses clauses) span
  | .typeSwitch span init binding subject clauses =>
      builds_typeSwitch (builds_optional (builds_option init)) (compiles subject)
        (builds_typeClauses clauses) span binding
  | .labeled span l body => builds_labeled (builds body) span l
  | .ret span values => builds_ret (compiles_list values) span
  | .brk span l => builds_brk span l
  | .cont span l => builds_cont span l
  | .goto span l => builds_goto span l
  | .fallthrough span => builds_fallthrough span
  | .defer span call => builds_defer span call
  | .go span call => builds_go span call

-- A deferred expression has to be a call.
theorem builds_defer (span : Span) : ∀ call : Expr, Builds (.defer span call)
  | .call note f args spread =>
      builds_deferCall (compiles f) (compiles_list args) span note spread
  | .lit .. | .ident .. | .binary .. | .unary .. | .index .. | .slice .. | .select ..
  | .composite .. | .funcLit .. | .assert .. | .convert .. | .typeExpr .. =>
      builds_deferOther (fun label => by unfold compileStmt; rfl)

theorem builds_list : ∀ body : List Stmt, ∀ stmt ∈ body, Builds stmt
  | [] => nofun
  | stmt :: rest => List.forall_mem_cons.mpr ⟨builds stmt, builds_list rest⟩

theorem builds_option : ∀ stmt : Option Stmt, ∀ x ∈ stmt, Builds x
  | none => nofun
  | some stmt => fun _ hx => Option.mem_some.mp hx ▸ builds stmt

theorem compiles_specs : ∀ specs : List ConstSpec, ∀ spec ∈ specs, ∀ e ∈ spec.values, Compiles e
  | [] => nofun
  | ⟨_, _, values⟩ :: rest =>
      List.forall_mem_cons.mpr ⟨compiles_list values, compiles_specs rest⟩

theorem builds_clauses : ∀ clauses : List Clause, ∀ c ∈ clauses, BuildsClause c
  | [] => nofun
  | ⟨values, _, body⟩ :: rest =>
      List.forall_mem_cons.mpr ⟨⟨compiles_list values, builds_list body⟩, builds_clauses rest⟩

theorem builds_typeClauses : ∀ clauses : List TypeClause, ∀ c ∈ clauses, BuildsAll c.body
  | [] => nofun
  | ⟨_, _, body⟩ :: rest =>
      List.forall_mem_cons.mpr ⟨builds_all (builds_list body), builds_typeClauses rest⟩

end

-- The body of a function starts without operands, scopes, and ways that lead nowhere.
theorem performs_body (body : List Stmt) :
    Performs .start (compileStmts body) (fun _ => .start) (marksOf body 0) (startsOfAll body) :=
  builds_all (builds_list body) .start ⟨rfl, nofun⟩

end StepGraph.Build

namespace StepGraph

-- What becomes a function of its own: the declaration of one, a function literal, or the
-- declaration of variables or constants of a package.
inductive Origin where
  | func (d : FuncDecl)
  | literal (signature : Signature) (body : List Stmt)
  | var (spec : VarSpec)
  | const (line : ConstSpec) (iota : Nat)

namespace Origin

open Build

def sig : Origin → Signature
  | func d => d.sig
  | literal sig _ => sig
  | _ => .empty

def build : Origin → Build CodeRef
  | func d => buildFunc d
  | literal _ body => do
      compileStmts body
      finish "func" none true
  | var spec => buildVar spec
  | const line iota => buildConst line iota

def body : Origin → List Stmt
  | func d => d.body
  | literal _ body => body
  | _ => []

def name : Origin → String
  | func d => d.name
  | literal .. => "func"
  | _ => unitName

def recv : Origin → Option Receiver
  | func d => d.recv
  | _ => none

def isLiteral : Origin → Bool
  | literal .. => true
  | _ => false

-- What is done in front of the statements.
def head : Origin → Build Unit
  | func d =>
      match d.recv with
      | some ⟨some x, typeName, pointer⟩ =>
          let ty : Ty := .named typeName
          declare x (some (if pointer then .pointer ty else ty))
      | _ => pure ()
  | literal .. => pure ()
  | var spec =>
      if spec.values.isEmpty then
        match spec.ty with
        | some ty => emit' (.declareZero spec.names ty) Span.none
        | none => unsupported "variable without type or value" Span.none
      else do
        let arity ← compileValues spec.values spec.names.length
          (List.replicate spec.names.length spec.ty)
        emit' (.declare spec.names spec.ty arity) Span.none
  | const line iota => do
      if line.values.isEmpty then unsupported "constant without a value" Span.none
      modify fun b => { b with iota := some iota }
      let arity ← compileValues line.values line.names.length
        (List.replicate line.names.length line.ty)
      emit' (.declare line.names line.ty arity) Span.none

theorem build_eq (o : Origin) : o.build = (do
    o.head
    compileStmts o.body
    finish o.name o.recv o.isLiteral) := by
  rcases o with ⟨name, _ | ⟨_ | x, _, _⟩, sig, body⟩ | ⟨sig, body⟩ | ⟨xs, _ | ty, values⟩ | ⟨line, iota⟩
  · rfl
  · rfl
  · rfl
  · rfl
  · unfold build buildVar head body compileStmts
    dsimp only
    split_ifs <;> simp only [bind_assoc, pure_bind] <;> rfl
  · unfold build buildVar head body compileStmts
    dsimp only
    split_ifs <;> simp only [bind_assoc, pure_bind] <;> rfl
  · unfold build buildConst head body compileStmts
    dsimp only
    split_ifs <;> simp only [bind_assoc, pure_bind] <;> rfl

theorem performs_head (o : Origin) : Performs .start o.head (fun _ => .start) [] noStarts := by
  cases o with
  | func d =>
      change Performs .start (match d.recv with
        | some ⟨some x, typeName, pointer⟩ =>
            declare x (some (if pointer then .pointer (.named typeName) else .named typeName))
        | _ => pure ()) _ _ _
      split
      · exact performs_declare _ _
      · exact .pure () rfl
  | literal => exact .pure () rfl
  | var spec =>
      unfold head
      dsimp only
      split
      · split
        · exact performs_emit' [] rfl rfl
        · exact .fail fun i h => by cases h
      · exact .quiet (performs_values (compiles_list _) _ _) fun arity => performs_emit' [] rfl rfl
  | const line iota =>
      have hrest : Performs .start (do
          modify fun b => { b with iota := some iota }
          let arity ← compileValues line.values line.names.length
            (List.replicate line.names.length line.ty)
          emit' (.declare line.names line.ty arity) Span.none) (fun _ => .start) [] noStarts := by
        refine .quiet (performs_setIota _) fun _ => ?_
        exact .quiet (performs_values (compiles_list _) _ _) fun arity => performs_emit' [] rfl rfl
      unfold head
      dsimp only
      split
      · exact .fail (e := .unsupported "constant without a value" Span.none) fun i h => by cases h
      · exact hrest

-- The first steps of the statements of a function.
def starts (o : Origin) : Starts := after o.head fun _ => startsOfAll o.body

theorem performs (o : Origin) : Performs .start (do
    o.head
    compileStmts o.body) (fun _ => .start) (marksOf o.body 0) o.starts :=
  .step o.performs_head fun _ => performs_body o.body

end Origin

namespace Step

theorem forks_of_link? {s s' : Step} {t : StepId} (h : s.link? .other t = some s') :
    (s.op.gives .other).isSome := by
  obtain ⟨op, hop, -⟩ := Option.map_eq_some_iff.mp h
  generalize s.op = op' at hop
  cases op' with
  | branch o | shortCircuit _ o | rangeNext _ _ o => rfl
  | _ => cases hop

end Step

namespace Build

variable {b b' : Builder}

-- A link is only refused where a successor would be set twice or is none of the step.
theorem link_ok_iff (slot : Slot) (t : StepId) :
    (∃ b', link slot t b = .ok () b') ↔ IsLinkable b.steps slot := by
  constructor
  · rintro ⟨b', h⟩
    rw [link_eq] at h
    split at h
    · next s' hs' =>
        obtain ⟨s, hs, hl⟩ := Option.bind_eq_some_iff.mp hs'
        refine ⟨⟨s, hs, (Step.link?_eq hl).1⟩, fun hedge => ⟨s, hs, ?_⟩⟩
        rw [hedge] at hl
        exact Step.forks_of_link? hl
    · cases h
  · rintro ⟨hopen, hforks⟩
    cases hr : link slot t b with
    | ok u b' => exact ⟨b', rfl⟩
    | error e b' => exact absurd hr (link_ne_error t hopen hforks e)

-- A function literal is built from nothing, whatever stands around it.
theorem nested_ne_doubleLink (sig : Signature) (body : List Stmt) (i : StepId) :
    nested sig (compileStmts body) b ≠ .error (.doubleLink i) b' := by
  intro h
  have hbody := performs_body body (.start b.names b.code sig) (fits_start ..)
  have hlinear := linear_start b.names b.code sig
  rcases bind_eq_error.mp h with h | ⟨_, b₁, h₁, h⟩
  · cases h
  cases h₁
  rcases bind_eq_error.mp h with h | ⟨_, b₂, h₂, h⟩
  · cases h
  cases h₂
  rcases bind_eq_error.mp h with h | ⟨_, b₃, h₃, h⟩
  · exact hbody.linkable hlinear i b' h
  rcases bind_eq_error.mp h with h | ⟨_, b₄, -, h⟩
  · exact finish_ne_doubleLink ((hbody.progress () b₃ h₃).linear hlinear) h
  · cases h

end Build

namespace Origin

theorem build_ne_doubleLink (o : Origin) (names : Names) (code : Array Function) (i : StepId)
    (b' : Builder) : o.build (.start names code o.sig) ≠ .error (.doubleLink i) b' := by
  intro h
  have hwork := o.performs (.start names code o.sig) (Build.fits_start ..)
  have hlinear := Build.linear_start names code o.sig
  rw [o.build_eq, ← bind_assoc] at h
  rcases bind_eq_error.mp h with h | ⟨_, b₁, h₁, h⟩
  · exact hwork.linkable hlinear i b' h
  · exact Build.finish_ne_doubleLink ((hwork.progress () b₁ h₁).linear hlinear) h

end Origin

namespace Compile

variable {α β : Type} {names : PackageNames}

theorem function_ne_doubleLink (o : Origin) (lib lib' : Library) (i : StepId) :
    function names o.sig o.build lib ≠ .error (.doubleLink i) lib' := by
  intro h
  unfold function at h
  cases hr : o.build (.start ⟨names, lib.types, []⟩ lib.code o.sig) with
  | ok ref b =>
      rw [hr] at h
      cases h
  | error e b =>
      rw [hr] at h
      cases h
      exact o.build_ne_doubleLink _ _ i b hr

theorem mapM_ne_doubleLink {l : List α} {f : α → Compile β}
    (hf : ∀ a lib lib' i, f a lib ≠ .error (.doubleLink i) lib') (lib lib' : Library) (i : StepId) :
    l.mapM f lib ≠ .error (.doubleLink i) lib' := by
  have hbind : ∀ {α β : Type} {x : Compile α} {g : α → Compile β},
      (∀ lib lib' i, x lib ≠ .error (.doubleLink i) lib') →
      (∀ a lib lib' i, g a lib ≠ .error (.doubleLink i) lib') →
      ∀ lib lib' i, (x >>= g) lib ≠ .error (.doubleLink i) lib' := by
    intro α β x g hx hg lib lib' i h
    rcases bind_eq_error.mp h with h | ⟨a, lib₁, -, h⟩
    · exact hx lib lib' i h
    · exact hg a lib₁ lib' i h
  exact Compositional.mapM (M := Compile)
    (P := fun x => ∀ lib lib' i, x lib ≠ .error (.doubleLink i) lib')
    ⟨fun _ _ _ _ h => (by cases h), hbind⟩ hf lib lib' i

theorem unitsOf_ne_doubleLink (d : Decl) (lib lib' : Library) (i : StepId) :
    unitsOf names d lib ≠ .error (.doubleLink i) lib' := by
  cases d with
  | var spec =>
      intro h
      rcases bind_eq_error.mp h with h | ⟨ref, lib₁, -, h⟩
      · exact function_ne_doubleLink (.var spec) lib lib' i h
      · cases h
  | const specs =>
      exact mapM_ne_doubleLink (fun line lib lib' i =>
        function_ne_doubleLink (.const line.1 line.2) lib lib' i) lib lib' i
  | type | func => exact nofun

theorem package_ne_doubleLink (pkg : Package) (lib lib' : Library) (i : StepId) :
    package pkg names lib ≠ .error (.doubleLink i) lib' := by
  intro h
  rcases bind_eq_error.mp h with h | ⟨built, lib₁, -, h⟩
  · refine mapM_ne_doubleLink (fun d lib lib' i h => ?_) lib lib' i h
    rcases bind_eq_error.mp h with h | ⟨ref, lib₂, -, h⟩
    · exact function_ne_doubleLink (.func d) lib lib' i h
    · cases h
  rcases bind_eq_error.mp h with h | ⟨units, lib₂, -, h⟩
  · exact mapM_ne_doubleLink unitsOf_ne_doubleLink lib₁ lib' i h
  · cases h

-- No successor of a step is ever linked twice, and no second one is linked that the step does not
-- have. A link checks just that, and no function, function literal, unit or package that is built
-- fails in the check.
theorem no_successor_is_linked_twice :
    (∀ (b : Builder) (slot : Slot) (t : StepId),
      ((∃ b', Build.link slot t b = .ok () b') ↔ IsLinkable b.steps slot) ∧
      ∀ e b', Build.link slot t b = .error e b' → e = .doubleLink slot.step) ∧
    (∀ (o : Origin) (names : PackageNames) (lib lib' : Library) (i : StepId),
      function names o.sig o.build lib ≠ .error (.doubleLink i) lib') ∧
    (∀ (sig : Signature) (body : List Stmt) (b b' : Builder) (i : StepId),
      Build.nested sig (Build.compileStmts body) b ≠ .error (.doubleLink i) b') ∧
    ∀ (pkg : Package) (names : PackageNames) (lib lib' : Library) (i : StepId),
      package pkg names lib ≠ .error (.doubleLink i) lib' := by
  refine ⟨fun b slot t => ⟨Build.link_ok_iff slot t, fun e b' h => ?_⟩,
    fun o _ lib lib' i => function_ne_doubleLink o lib lib' i,
    fun sig body _ _ i => Build.nested_ne_doubleLink sig body i,
    fun pkg _ lib lib' i => package_ne_doubleLink pkg lib lib' i⟩
  rw [Build.link_eq] at h
  split at h <;> cases h
  rfl

end Compile

end StepGraph

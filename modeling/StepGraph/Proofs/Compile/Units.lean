import StepGraph.Proofs.Compile.Code
import StepGraph.Proofs.Machine.Blocked

open EStateM (bind_eq_ok discard_eq_ok)

namespace StepGraph

-- The steps that evaluate expressions.
def StepOp.evaluates (op : StepOp) : Bool := op.isTacit || op.acts

theorem StepOp.evaluates_bare (op : StepOp) : op.bare.evaluates = op.evaluates := by
  cases op <;> rfl

theorem Step.Below.evaluates {s s' : Step} (h : s.Below s') : s'.op.evaluates = s.op.evaluates := by
  rw [← StepOp.evaluates_bare, h.bare, StepOp.evaluates_bare]

theorem StepOp.evaluates_of_isOperation {op : StepOp} (h : op.isOperation = true) :
    op.evaluates = true := by
  cases op with
  | callBuiltin b => exact Bool.or_not_self b.isTacit
  | compose _ shape =>
      cases shape with
      | fields names => exact Bool.or_not_self (decide names.Nodup)
      | _ => rfl
  | unary op => cases op <;> rfl
  | _ => first | rfl | cases h

def AllEvaluate (steps : Array Step) : Prop :=
  ∀ (i : StepId) (s : Step), steps[i]? = some s → s.op.evaluates = true

theorem evaluate_empty : AllEvaluate #[] := by
  intro i s hs
  rw [Array.getElem?_empty] at hs
  cases hs

-- An expression adds nothing but steps of expressions.
theorem Progress.evaluate {s s' : Site} {b b' : Builder} {marks : List Mark} {starts : List StepId}
    (h : Progress .expr s b marks starts s' b') (hb : AllEvaluate b.steps) :
    AllEvaluate b'.steps := by
  generalize hstage : Stage.expr = stage at h
  induction h with
  | refl | names | take | put | forget | literal => exact hb
  | trans _ _ ih₁ ih₂ => exact ih₂ (ih₁ hb hstage) hstage
  | emit hop he =>
      intro i u hu
      rcases he.below hu with ⟨-, hbare⟩ | ⟨v, hv, hbelow⟩
      · rw [← StepOp.evaluates_bare, hbare, StepOp.evaluates_bare]
        exact StepOp.evaluates_of_isOperation (hop.stage hstage.symm)
      · exact hbelow.evaluates ▸ hb i v hv
  | _ => cases hstage

namespace Build

variable {α β : Type} {b b' : Builder}

-- The last step of a unit leads nowhere.
theorem areOfUnit_emitted {op : StepOp} {id : StepId} (he : Emitted op b id b')
    (hb : AllEvaluate b.steps) (hpending : ∀ slot ∈ b.pending, slot.step < b.steps.size)
    (hop : op.binds = true) : AreOfUnit b'.steps := by
  intro i s hs
  rcases he.below hs with ⟨rfl, hbare⟩ | ⟨u, hu, hbelow⟩
  · refine .inr (.inr ⟨?_, ?_⟩)
    · cases op with
      | declare | declareZero =>
          cases hop' : s.op <;> rw [hop'] at hbare <;> first | rfl | cases hbare
      | _ => cases hop
    · cases hnext : s.next with
      | none => rfl
      | some k =>
          have hother : op.other? = none := by cases op <;> first | rfl | cases hop
          rcases he.edge hother (x := ⟨_, .next⟩) ⟨s, hs, hnext⟩ with hold | ⟨hmem, -⟩
          · exact absurd hold.lt_size (he.id_eq ▸ Nat.lt_irrefl _)
          · exact absurd (hpending _ hmem) (he.id_eq ▸ Nat.lt_irrefl _)
  · have hevaluates := hbelow.evaluates ▸ hb i u hu
    rcases Bool.or_eq_true_iff.mp hevaluates with htacit | hacts
    · exact .inl htacit
    · exact .inr (.inl hacts)

-- The function that a number stands for is a unit.
def IsUnit (code : Array Function) (ref : CodeRef) : Prop :=
  ∃ f, code[ref.id]? = some f ∧ AreOfUnit f.steps

theorem IsUnit.extend {code code' : Array Function} {ref : CodeRef} (h : IsUnit code ref)
    (he : Code.Extends code code') : IsUnit code' ref := by
  obtain ⟨f, hf, hunit⟩ := h
  exact ⟨f, he _ f hf, hunit⟩

-- The values of a declaration are expressions, and its last step binds them.
theorem areOfUnit_values {es : List Expr} {want : Nat} {hints : List (Option Ty)} {names : Names}
    {code : Array Function} (iota : Option Nat) {op : Arity → StepOp} {span : Span}
    (hop : ∀ arity, (op arity).binds = true)
    (h : (do
      let arity ← compileValues es want hints
      emit' (op arity) span) { Builder.start names code .empty with iota } = .ok () b') :
    AreOfUnit b'.steps ∧ b'.gotos = [] := by
  obtain ⟨arity, b₁, h₁, h₂⟩ := bind_eq_ok.mp h
  obtain ⟨id, h₂⟩ := discard_eq_ok.mp h₂
  have he := emit_ok h₂
  have hvalues : Operates names.types [] (compileValues es want hints) fun a => a.items ++ [] :=
    operates_compileValues (compiles_list es) want hints
  have hp := (hvalues .expr .start { Builder.start names code .empty with iota := iota } rfl
    ⟨rfl, rfl⟩ (.refl _)).progress arity b₁ h₁
  have hlinear := hp.linear ⟨fun _ => ⟨Nat.zero_le 1, fun hx => absurd hx (Nat.lt_irrefl 0)⟩, nofun⟩
  refine ⟨areOfUnit_emitted he (hp.evaluate evaluate_empty) (fun slot hslot => ?_) (hop arity), ?_⟩
  · exact hlinear.lt_size (List.mem_append_left _ hslot)
  · rw [he.gotos]
    exact (hp.since nofun (n := 0) ⟨Nat.zero_le _, nofun⟩).2.gotos

end Build

namespace Origin

open Build

variable {names : Names} {code : Array Function} {ref : CodeRef} {b b' : Builder}

-- The declarations of variables and constants.
def isUnit : Origin → Bool
  | var _ | const .. => true
  | _ => false

theorem sig_of_isUnit {o : Origin} (ho : o.isUnit = true) : o.sig = .empty := by
  cases o <;> first | rfl | cases ho

theorem areOfUnit_head {o : Origin} (ho : o.isUnit = true)
    (h : o.head (.start names code .empty) = .ok () b) : AreOfUnit b.steps ∧ b.gotos = [] := by
  unfold head at h
  rcases o with d | ⟨sig, body⟩ | ⟨xs, ty, values⟩ | ⟨line, iota⟩
  · cases ho
  · cases ho
  · dsimp only at h
    split at h
    · cases ty with
      | some ty =>
          obtain ⟨id, h⟩ := discard_eq_ok.mp h
          have he := emit_ok h
          exact ⟨areOfUnit_emitted he evaluate_empty nofun rfl, he.gotos⟩
      | none => cases h
    · exact areOfUnit_values none (fun _ => rfl) h
  · dsimp only at h
    split at h
    · cases h
    · obtain ⟨_, b₁, h₁, h⟩ := bind_eq_ok.mp h
      cases h₁
      exact areOfUnit_values _ (fun _ => rfl) h

theorem isUnit_build {o : Origin} (ho : o.isUnit = true)
    (h : o.build (.start names code o.sig) = .ok ref b') : IsUnit b'.code ref := by
  rw [sig_of_isUnit ho, o.build_eq] at h
  obtain ⟨_, b, h₁, h⟩ := bind_eq_ok.mp h
  obtain ⟨hunit, hgotos⟩ := areOfUnit_head ho h₁
  have hbody : compileStmts o.body = pure () := by
    cases o with
    | func | literal => cases ho
    | var | const =>
        unfold body compileStmts
        rfl
  rw [hbody, pure_bind] at h
  obtain ⟨steps, hresolves, rfl, rfl⟩ := finish_ok h
  rw [hgotos] at hresolves
  cases hresolves
  exact ⟨_, Array.getElem?_push_size, hunit⟩

end Origin

namespace Compile

open Build (IsUnit)

variable {α β : Type} {lib lib' : Library}

theorem isUnit_function (o : Origin) {names : PackageNames} {ref : CodeRef} (ho : o.isUnit = true)
    (h : function names o.sig o.build lib = .ok ref lib') : IsUnit lib'.code ref := by
  obtain ⟨b, hb, rfl⟩ := function_ok h
  exact o.isUnit_build ho hb

-- What holds of the result of each call, whatever is built later, holds of all results.
theorem mapM_ok {f : α → Compile β} {G : Array Function → β → Prop}
    (hadds : ∀ a, AddsFunctions (f a)) (hf : ∀ a lib b lib', f a lib = .ok b lib' → G lib'.code b)
    (hgood : ∀ code code' b, Code.Extends code code' → G code b → G code' b) {l : List α}
    {bs : List β} (h : l.mapM f lib = .ok bs lib') : ∀ b ∈ bs, G lib'.code b := by
  induction l generalizing lib bs with
  | nil =>
      cases h
      nofun
  | cons a l ih =>
      rw [List.mapM_cons] at h
      obtain ⟨b, lib₁, h₁, h⟩ := bind_eq_ok.mp h
      obtain ⟨bs', lib₂, h₂, h⟩ := bind_eq_ok.mp h
      cases h
      have hextends := (AddsFunctions.mapM hadds lib₁ bs' lib' h₂).keeps
      rintro b' (_ | ⟨_, hb'⟩)
      · exact hgood _ _ _ hextends (hf a lib b lib₁ h₁)
      · exact ih h₂ b' hb'

theorem isUnit_unitsOf {names : PackageNames} {d : Decl} {units : List CodeRef}
    (h : unitsOf names d lib = .ok units lib') : ∀ unit ∈ units, IsUnit lib'.code unit := by
  cases d with
  | var spec =>
      obtain ⟨ref, lib₁, h₁, h⟩ := bind_eq_ok.mp h
      cases h
      intro unit hunit
      obtain rfl := List.mem_singleton.mp hunit
      exact isUnit_function (.var spec) rfl h₁
  | const specs =>
      exact mapM_ok (G := IsUnit)
        (fun (line : ConstSpec × Nat) => adds_function (.const line.1 line.2))
        (fun line lib ref lib' h => isUnit_function (.const line.1 line.2) rfl h)
        (fun _ _ _ he h => h.extend he) h
  | type | func =>
      cases h
      nofun

-- The numbers of new functions, in the order in which they were built.
structure Numbered (code : Array Function) (refs : List CodeRef) (code' : Array Function) :
    Prop where
  le : code.size ≤ code'.size
  within : ∀ ref ∈ refs, code.size ≤ ref.id ∧ ref.id < code'.size
  sorted : refs.Pairwise (·.id < ·.id)

theorem Numbered.append {code code₁ code' : Array Function} {refs refs' : List CodeRef}
    (h₁ : Numbered code refs code₁) (h₂ : Numbered code₁ refs' code') :
    Numbered code (refs ++ refs') code' := by
  refine ⟨Nat.le_trans h₁.le h₂.le, fun ref href => ?_, List.pairwise_append.mpr
    ⟨h₁.sorted, h₂.sorted, fun ref href ref' href' =>
      Nat.lt_of_lt_of_le (h₁.within ref href).2 (h₂.within ref' href').1⟩⟩
  rcases List.mem_append.mp href with href | href
  · exact ⟨(h₁.within ref href).1, Nat.lt_of_lt_of_le (h₁.within ref href).2 h₂.le⟩
  · exact ⟨Nat.le_trans h₁.le (h₂.within ref href).1, (h₂.within ref href).2⟩

-- A function gets the number behind those of all that are finished before it.
theorem numbered_function (o : Origin) {names : PackageNames} {ref : CodeRef}
    (h : function names o.sig o.build lib = .ok ref lib') : Numbered lib.code [ref] lib'.code := by
  obtain ⟨b, hb, rfl⟩ := function_ok h
  obtain ⟨b₁, steps, hprogress, -, rfl, rfl⟩ := Origin.build_ok hb
  have hle := hprogress.code.1.size_le
  refine ⟨?_, fun ref href => ?_, List.pairwise_singleton _ _⟩
  · rw [Array.size_push]
    exact Nat.le_succ_of_le hle
  · obtain rfl := List.mem_singleton.mp href
    rw [Array.size_push]
    exact ⟨hle, Nat.lt_succ_self _⟩

theorem numbered_mapM {f : α → Compile (List CodeRef)}
    (hf : ∀ a lib refs lib', f a lib = .ok refs lib' → Numbered lib.code refs lib'.code)
    {l : List α} {refs : List (List CodeRef)} (h : l.mapM f lib = .ok refs lib') :
    Numbered lib.code refs.flatten lib'.code := by
  induction l generalizing lib refs with
  | nil =>
      cases h
      exact ⟨Nat.le_refl _, nofun, .nil⟩
  | cons a l ih =>
      rw [List.mapM_cons] at h
      obtain ⟨first, lib₁, h₁, h⟩ := bind_eq_ok.mp h
      obtain ⟨rest, lib₂, h₂, h⟩ := bind_eq_ok.mp h
      cases h
      exact (hf a lib first lib₁ h₁).append (ih h₂)

theorem numbered_unitsOf {names : PackageNames} {d : Decl} {units : List CodeRef}
    (h : unitsOf names d lib = .ok units lib') : Numbered lib.code units lib'.code := by
  cases d with
  | var spec =>
      obtain ⟨ref, lib₁, h₁, h⟩ := bind_eq_ok.mp h
      cases h
      exact numbered_function (.var spec) h₁
  | const specs =>
      change ((ConstSpec.filled none specs).zipIdx.mapM fun (line, iota) =>
        function names .empty (Build.buildConst line iota)) lib = _ at h
      generalize (ConstSpec.filled none specs).zipIdx = lines at h
      induction lines generalizing lib units with
      | nil =>
          cases h
          exact ⟨Nat.le_refl _, nofun, .nil⟩
      | cons line lines ih =>
          rw [List.mapM_cons] at h
          obtain ⟨ref, lib₁, h₁, h⟩ := bind_eq_ok.mp h
          obtain ⟨rest, lib₂, h₂, h⟩ := bind_eq_ok.mp h
          cases h
          exact (numbered_function (.const line.1 line.2) h₁).append (ih h₂)
  | type | func =>
      cases h
      exact ⟨Nat.le_refl _, nofun, .nil⟩

theorem nodup_units {pkg : Package} {names : PackageNames} {compiled : CompiledPackage}
    (h : package pkg names lib = .ok compiled lib') : compiled.units.Nodup := by
  obtain ⟨built, lib₁, -, h⟩ := bind_eq_ok.mp h
  obtain ⟨units, lib₂, h₂, h⟩ := bind_eq_ok.mp h
  cases h
  refine (numbered_mapM (fun _ _ _ _ h => numbered_unitsOf h) h₂).sorted.imp fun hlt => ?_
  rintro rfl
  exact Nat.lt_irrefl _ hlt

-- Each unit of a package is made of the steps of expressions and binds its names at the end.
theorem isUnit_of_package {pkg : Package} {names : PackageNames} {compiled : CompiledPackage}
    (h : package pkg names lib = .ok compiled lib') :
    ∀ unit ∈ compiled.units, IsUnit lib'.code unit := by
  obtain ⟨built, lib₁, -, h⟩ := bind_eq_ok.mp h
  obtain ⟨units, lib₂, h₂, h⟩ := bind_eq_ok.mp h
  cases h
  have hall := mapM_ok (G := fun code units => ∀ unit ∈ units, IsUnit code unit)
    (fun d => adds_unitsOf d) (fun d lib units lib' h => isUnit_unitsOf h)
    (fun _ _ units he h unit hunit => (h unit hunit).extend he) h₂
  intro unit hunit
  obtain ⟨us, hus, hunit⟩ := List.mem_flatten.mp hunit
  exact hall us hus unit hunit

end Compile

end StepGraph

import StepGraph.Proofs.Compile.Origins

open EStateM (bind_eq_ok)

namespace StepGraph

-- Finished functions stay what they are under their numbers.
def Code.Extends (code code' : Array Function) : Prop :=
  ∀ (i : Nat) f, code[i]? = some f → code'[i]? = some f

namespace Code.Extends

variable {code code' code'' : Array Function}

theorem refl (code : Array Function) : Code.Extends code code := fun _ _ => id

theorem trans (h₁ : Code.Extends code code') (h₂ : Code.Extends code' code'') :
    Code.Extends code code'' := fun i f hf => h₂ i f (h₁ i f hf)

theorem push (code : Array Function) (f : Function) : Code.Extends code (code.push f) := by
  intro i g hg
  rw [Array.getElem?_push, if_neg (Nat.ne_of_lt (Array.getElem?_eq_some_iff.mp hg).1), hg]

theorem size_le (h : Code.Extends code code') : code.size ≤ code'.size := by
  by_contra hlt
  have hold := Array.getElem?_eq_getElem (Nat.lt_of_not_le hlt)
  exact absurd (Array.getElem?_eq_some_iff.mp (h _ _ hold)).1 (Nat.lt_irrefl _)

end Code.Extends

-- A function is what was built last from its origin. The types are those that are declared by then
-- or later.
def Origin.Makes (o : Origin) (names : Names) (code : Array Function) (types : TypeTable)
    (f : Function) : Prop :=
  ∃ ref b, o.build (.start names code o.sig) = .ok ref b ∧ b.code[ref.id]? = some f ∧
    b.names.types.KeepsStructs types

-- All functions in addition to those were built from origins of their own.
def Code.Made (types : TypeTable) (code code' : Array Function) : Prop :=
  ∀ (i : Nat) f, code'[i]? = some f → code.size ≤ i →
    ∃ (o : Origin) (names : Names) (around : Array Function), o.Makes names around types f

namespace Origin

variable {o : Origin} {names : Names} {code : Array Function} {types types' : TypeTable}
  {f : Function}

theorem Makes.mono (h : o.Makes names code types f) (ht : types.KeepsStructs types') :
    o.Makes names code types' f := by
  obtain ⟨ref, b, hb, hf, htypes⟩ := h
  exact ⟨ref, b, hb, hf, htypes.trans ht⟩

-- The work on a function comes to an end where its jumps to labels are resolved.
theorem build_ok {ref : CodeRef} {b' : Builder}
    (h : o.build (.start names code o.sig) = .ok ref b') : ∃ b steps,
      Progress .stmt .start (.start names code o.sig) (marksOf o.body 0)
        (o.starts (.start names code o.sig)) .start b ∧
      GotosResolve b.labels b.gotos b.steps steps ∧ ref = ⟨b.code.size, o.name⟩ ∧
      b' = { b with
        steps
        code := b.code.push ⟨o.name, b.sig, o.recv, o.isLiteral, b.hasDefer, steps⟩ } := by
  rw [o.build_eq, ← bind_assoc] at h
  obtain ⟨_, b, h₁, h₂⟩ := bind_eq_ok.mp h
  obtain ⟨steps, hresolves, href, hb'⟩ := Build.finish_ok h₂
  have hwork := o.performs (.start names code o.sig) (Build.fits_start ..)
  exact ⟨b, steps, hwork.progress () b h₁, hresolves, href, hb'⟩

-- What a function is made of.
theorem Makes.work (h : o.Makes names code types f) : ∃ b,
    Progress .stmt .start (.start names code o.sig) (marksOf o.body 0)
      (o.starts (.start names code o.sig)) .start b ∧
    GotosResolve b.labels b.gotos b.steps f.steps ∧ f.hasDefer = b.hasDefer ∧
    b.names.types.KeepsStructs types := by
  obtain ⟨ref, b', hb', hf, htypes⟩ := h
  obtain ⟨b, steps, hprogress, hresolves, rfl, rfl⟩ := build_ok hb'
  rw [Array.getElem?_push_size] at hf
  cases hf
  exact ⟨b, hprogress, hresolves, rfl, htypes⟩

end Origin

namespace Code.Made

variable {code code' code'' : Array Function} {types types' : TypeTable}

theorem refl (types : TypeTable) (code : Array Function) : Code.Made types code code := by
  intro i f hf hi
  exact absurd (Array.getElem?_eq_some_iff.mp hf).1 (Nat.not_lt.mpr hi)

theorem mono (h : Code.Made types code code') (ht : types.KeepsStructs types') :
    Code.Made types' code code' := by
  intro i f hf hi
  obtain ⟨o, names, around, hmakes⟩ := h i f hf hi
  exact ⟨o, names, around, hmakes.mono ht⟩

theorem trans (h₁ : Code.Made types code code') (he : Code.Extends code' code'')
    (h₂ : Code.Made types code' code'') : Code.Made types code code'' := by
  intro i f hf hi
  rcases Nat.lt_or_ge i code'.size with hlt | hge
  · have hold := Array.getElem?_eq_getElem hlt
    obtain rfl := Option.some.inj ((he i _ hold).symm.trans hf)
    exact h₁ i _ hold hi
  · exact h₂ i f hf hge

theorem push {f : Function} {o : Origin} {names : Names} (h : Code.Made types code code')
    {around : Array Function} (hf : o.Makes names around types f) :
    Code.Made types code (code'.push f) := by
  intro i g hg hi
  rw [Array.getElem?_push] at hg
  split at hg
  · cases hg
    exact ⟨o, names, around, hf⟩
  · exact h i g hg hi

end Code.Made

open Build in
-- What is built adds the functions of its literals to the code.
theorem Progress.code {stage : Stage} {s s' : Site} {b b' : Builder} {marks : List Mark}
    {starts : List StepId} (h : Progress stage s b marks starts s' b') :
    Code.Extends b.code b'.code ∧ Code.Made b'.names.types b.code b'.code := by
  induction h with
  | refl | names | take | put | forget | drop | start | flag | push | pop =>
      exact ⟨.refl _, .refl _ _⟩
  | emit _ he | ret _ he | leave _ _ _ he | again _ _ _ he | goto _ _ _ he | label _ _ _ he
  | round _ _ _ _ he =>
      simp only [he.code]
      exact ⟨.refl _, .refl _ _⟩
  | defer _ _ _ _ he ih =>
      simp only [he.code, he.names]
      exact ih
  | trans _ hrest ih₁ ih₂ =>
      exact ⟨ih₁.1.trans ih₂.1, (ih₁.2.mono hrest.types).trans ih₂.1 ih₂.2⟩
  | @literal _ s b b₁ b₂ sig body ref hbody hinner hfinish ih =>
      have hmakes : ∀ f, b₂.code[ref.id]? = some f →
          (Origin.literal sig body).Makes b.names b.code b₂.names.types f := by
        intro f hf
        refine ⟨ref, b₂, ?_, hf, .refl _⟩
        exact bind_eq_ok.mpr ⟨(), b₁, hbody, hfinish⟩
      obtain ⟨steps, -, rfl, rfl⟩ := finish_ok hfinish
      exact ⟨ih.1.trans (.push _ _), ih.2.push (hmakes _ Array.getElem?_push_size)⟩

theorem Origin.types_build {o : Origin} {names : Names} {code : Array Function} {ref : CodeRef}
    {b : Builder} (h : o.build (.start names code o.sig) = .ok ref b) :
    names.types.KeepsStructs b.names.types := by
  obtain ⟨b₁, steps, hprogress, -, rfl, rfl⟩ := build_ok h
  exact hprogress.types

-- So does a function, and it is the last one that is added.
theorem Origin.code_build {o : Origin} {names : Names} {code : Array Function} {ref : CodeRef}
    {b : Builder} (h : o.build (.start names code o.sig) = .ok ref b) :
    Code.Extends code b.code ∧ Code.Made b.names.types code b.code := by
  have hmakes : ∀ f, b.code[ref.id]? = some f → o.Makes names code b.names.types f :=
    fun f hf => ⟨ref, b, h, hf, .refl _⟩
  obtain ⟨b₁, steps, hprogress, -, rfl, rfl⟩ := build_ok h
  obtain ⟨hextends, hmade⟩ := hprogress.code
  exact ⟨hextends.trans (.push _ _), hmade.push (hmakes _ Array.getElem?_push_size)⟩

-- A library that was built on has the functions that it had, and others with origins of their own.
structure Library.BuiltOn (lib lib' : Library) : Prop where
  types : lib.types.KeepsStructs lib'.types
  keeps : Code.Extends lib.code lib'.code
  made : Code.Made lib'.types lib.code lib'.code

namespace Library.BuiltOn

variable {lib lib₁ lib' : Library}

theorem refl (lib : Library) : lib.BuiltOn lib := ⟨.refl _, .refl _, .refl _ _⟩

theorem trans (h₁ : lib.BuiltOn lib₁) (h₂ : lib₁.BuiltOn lib') : lib.BuiltOn lib' where
  types := h₁.types.trans h₂.types
  keeps := h₁.keeps.trans h₂.keeps
  made := (h₁.made.mono h₂.types).trans h₂.keeps h₂.made

end Library.BuiltOn

namespace Compile

variable {α β : Type} {names : PackageNames} {lib lib' : Library}

def AddsFunctions (x : Compile α) : Prop := ∀ lib a lib', x lib = .ok a lib' → lib.BuiltOn lib'

namespace AddsFunctions

theorem pure (a : α) : AddsFunctions (pure a) := by
  intro lib c lib' h
  cases h
  exact .refl lib

theorem bind {x : Compile α} {f : α → Compile β} (hx : AddsFunctions x)
    (hf : ∀ a, AddsFunctions (f a)) :
    AddsFunctions (x >>= f) := by
  intro lib c lib' h
  obtain ⟨a, lib₁, h₁, h₂⟩ := bind_eq_ok.mp h
  exact (hx lib a lib₁ h₁).trans (hf a lib₁ c lib' h₂)

theorem mapM {l : List α} {f : α → Compile β} (hf : ∀ a, AddsFunctions (f a)) :
    AddsFunctions (l.mapM f) :=
  Compositional.mapM ⟨pure, bind⟩ hf

end AddsFunctions

theorem function_ok {o : Origin} {ref : CodeRef}
    (h : function names o.sig o.build lib = .ok ref lib') :
    ∃ b, o.build (.start ⟨names, lib.types, []⟩ lib.code o.sig) = .ok ref b ∧
      lib' = ⟨b.names.types, b.code⟩ := by
  unfold function at h
  split at h
  · next ref' b hb =>
      cases h
      exact ⟨b, hb, rfl⟩
  · cases h

theorem adds_function (o : Origin) : AddsFunctions (function names o.sig o.build) := by
  intro lib ref lib' h
  obtain ⟨b, hb, rfl⟩ := function_ok h
  obtain ⟨hkeeps, hmade⟩ := Origin.code_build hb
  exact ⟨Origin.types_build hb, hkeeps, hmade⟩

theorem adds_declareTypes (decls : List Decl) : AddsFunctions (declareTypes decls) := by
  induction decls with
  | nil => exact .pure _
  | cons d rest ih =>
      cases d with
      | type name ty =>
          intro lib u lib' h
          unfold declareTypes at h
          obtain ⟨_, lib₁, hget, h⟩ := bind_eq_ok.mp h
          cases hget
          cases htypes : lib.types.declare? name ty with
          | none =>
              rw [htypes] at h
              cases h
          | some types =>
              rw [htypes] at h
              have hgrows : lib.BuiltOn { lib with types } :=
                ⟨TypeTable.keepsStructs_declare htypes, .refl _, .refl _ _⟩
              exact hgrows.trans (ih _ u lib' h)
      | _ =>
          unfold declareTypes
          exact ih

theorem adds_unitsOf (d : Decl) : AddsFunctions (unitsOf names d) := by
  cases d with
  | var spec => exact .bind (adds_function (.var spec)) fun _ => .pure _
  | const specs => exact .mapM fun line => adds_function (.const line.1 line.2)
  | type | func => exact .pure _

theorem adds_package (pkg : Package) : AddsFunctions (package pkg names) :=
  .bind (.mapM fun d => .bind (adds_function (.func d)) fun _ => .pure _) fun _ =>
    .bind (.mapM adds_unitsOf) fun _ => .pure _

end Compile

-- Whether a step keeps a call for the end of the function.
def StepOp.registers : StepOp → Bool
  | defer .. => true
  | _ => false

theorem StepOp.registers_bare (op : StepOp) : op.bare.registers = op.registers := by
  cases op <;> rfl

theorem Step.Below.registers {s s' : Step} (h : s.Below s') : s'.op.registers = s.op.registers := by
  rw [← StepOp.registers_bare, h.bare, StepOp.registers_bare]

-- A function with a step that keeps calls is known to do so.
def Function.Flagged (f : Function) : Prop :=
  ∀ s ∈ f.steps, s.op.registers = true → f.hasDefer = true

-- The same of steps in the making.
def Flagged (steps : Array Step) (hasDefer : Bool) : Prop :=
  ∀ (i : StepId) (s : Step), steps[i]? = some s → s.op.registers = true → hasDefer = true

namespace Flagged

variable {b b' : Builder} {op : StepOp} {id : StepId} {slots : List Slot} {t : StepId}
  {steps steps' : Array Step} {flag : Bool}

theorem empty : Flagged #[] flag := by
  intro i s hs
  rw [Array.getElem?_empty] at hs
  cases hs

theorem emitted (he : Build.Emitted op b id b') (h : Flagged b.steps flag)
    (hop : op.registers = true → flag = true) : Flagged b'.steps flag := by
  intro i s' hs' hr
  rcases he.below hs' with ⟨-, hbare⟩ | ⟨s, hs, hbelow⟩
  · rw [← StepOp.registers_bare, hbare, StepOp.registers_bare] at hr
    exact hop hr
  · exact h i s hs (hbelow.registers ▸ hr)

theorem linked (h : Flagged steps flag) (hl : Linked steps slots t steps') :
    Flagged steps' flag := by
  intro i s' hs' hr
  obtain ⟨s, hs, hbelow⟩ := hl.below hs'
  exact h i s hs (hbelow.registers ▸ hr)

end Flagged

theorem StepOp.registers_of_isPlain {op : StepOp} (h : op.isPlain = true) :
    op.registers = false := by
  cases op <;> first | rfl | cases h

-- The flag is never taken back, and no step keeps calls without it.
theorem Progress.flagged {stage : Stage} {s s' : Site} {b b' : Builder} {marks : List Mark}
    {starts : List StepId} (h : Progress stage s b marks starts s' b') :
    (b.hasDefer = true → b'.hasDefer = true) ∧
      (Flagged b.steps b.hasDefer → Flagged b'.steps b'.hasDefer) := by
  induction h with
  | refl | names | take | put | forget | literal | drop | start | push | pop => exact ⟨id, id⟩
  | trans _ _ ih₁ ih₂ => exact ⟨ih₂.1 ∘ ih₁.1, ih₂.2 ∘ ih₁.2⟩
  | flag => exact ⟨fun _ => rfl, fun _ _ _ _ _ => rfl⟩
  | emit hop he =>
      rw [he.hasDefer]
      have hnone := StepOp.registers_of_isPlain hop.plain
      exact ⟨id, fun hb => (Flagged.emitted he hb fun hr => absurd hr (Bool.eq_false_iff.mp hnone) :)⟩
  | ret _ he | goto _ _ _ he | label _ _ _ he | leave _ _ _ he | again _ _ _ he =>
      rw [he.hasDefer]
      exact ⟨id, fun hb => (Flagged.emitted he hb nofun :)⟩
  | round _ _ _ _ he hlinked _ _ hrounds =>
      rw [he.hasDefer]
      exact ⟨id, fun hb => ((Flagged.emitted he hb nofun :).linked hlinked).linked hrounds⟩
  | defer _ hflag _ _ he ih =>
      rw [he.hasDefer]
      exact ⟨ih.1, fun hb => (Flagged.emitted he (ih.2 hb) fun _ => ih.1 hflag :)⟩

theorem Origin.Makes.flagged {o : Origin} {names : Names} {code : Array Function}
    {types : TypeTable} {f : Function} (h : o.Makes names code types f) : f.Flagged := by
  obtain ⟨b, hprogress, hresolves, hdefer, -⟩ := h.work
  intro s' hs' hr
  obtain ⟨i, hi⟩ := Array.getElem?_of_mem hs'
  obtain ⟨s, hs, hbare | ⟨g, -, -, target, -, hop⟩⟩ := hresolves.step hi
  · rw [← StepOp.registers_bare, hbare, StepOp.registers_bare] at hr
    rw [hdefer]
    exact hprogress.flagged.2 Flagged.empty i s hs hr
  · rw [hop] at hr
    cases hr

-- Every function in a library that keeps calls is known to do so.
def Library.Flagged (lib : Library) : Prop := ∀ f ∈ lib.code, f.Flagged

theorem Library.flagged_initial : Library.Flagged ⟨.initial, #[]⟩ := nofun

theorem Library.BuiltOn.flagged {lib lib' : Library} (h : lib.BuiltOn lib') (hlib : lib.Flagged) :
    lib'.Flagged := by
  intro f hf
  obtain ⟨i, hi⟩ := Array.getElem?_of_mem hf
  rcases Nat.lt_or_ge i lib.code.size with hlt | hge
  · have hold := Array.getElem?_eq_getElem hlt
    obtain rfl := Option.some.inj ((h.keeps i _ hold).symm.trans hi)
    exact hlib _ (Array.getElem_mem hlt)
  · obtain ⟨o, names, around, hmakes⟩ := h.made i f hi hge
    exact hmakes.flagged

end StepGraph

import StepGraph.Proofs.Package.Settling
import StepGraph.Proofs.Stack.Constants

open EStateM (bind_apply bind_of_ok bind_of_error bind_eq_ok)

namespace StepGraph

namespace Program

variable {p : Program} {steps : Array Step} {k : Option StepId} {ops : List StepOp}
  {first last i : StepId} {s : Step} {m m' : Machine}

theorem step_of_isOfConstant {op : StepOp} (h : op.isOfConstant = true) :
    p.step op = (do p.work op; return .next) := by
  cases op <;> first | rfl | cases h

theorem annotated_fails {α : Type} {x : Exec α} (h : FailsAt x m) (span : Span) :
    FailsAt (annotated span x) m := by
  obtain ⟨u, m', hx, hu⟩ := h
  cases hu with
  | panic e => exact ⟨_, annotated.keepTrace m', by simp only [annotated, hx], .panic e⟩
  | fatal e =>
      exact ⟨.fatal (annotated.locate span e m'), m', by simp only [annotated, hx], .fatal _⟩

theorem advance_fails (hs : steps[i]? = some s) (hop : s.op.isOfConstant = true)
    (h : FailsAt (p.work s.op) m) (n : Nat) : FailsAt (p.advance n steps i) m := by
  unfold advance
  simp only [hs]
  rw [step_of_isOfConstant hop]
  exact (annotated_fails (h.bind _) _).bind _

theorem advance_works (hs : steps[i]? = some s) (hop : s.op.isOfConstant = true)
    (h : p.work s.op m = .ok () m') (n : Nat) : p.advance n steps i m = .ok (some s.next) m' := by
  refine advance_next p n hs ?_
  rw [step_of_isOfConstant hop]
  exact bind_of_ok h

-- A run over a row of steps does their work one after the other.
theorem run_inLine (h : InLine steps k ops first last)
    (hops : ∀ op ∈ ops, op.isOfConstant = true) (hwork : p.workAll ops m = .ok () m') (n : Nat) :
    p.run (n + ops.length) steps (heading last k first) m = p.run n steps k m' := by
  induction h generalizing m with
  | nil i =>
      cases hwork
      rw [heading_last]
      rfl
  | @cons ops i last s hs hnext hrest ih =>
      obtain ⟨hop, hops⟩ := List.forall_mem_cons.mp hops
      obtain ⟨_, m₁, hfirst, hwork⟩ := bind_eq_ok.mp hwork
      rw [heading_of_lt k (Nat.lt_of_succ_le hrest.le), List.length_cons, ← Nat.add_assoc, run_succ,
        advance_works hs hop hfirst, hnext]
      exact ih hops hwork

theorem run_inLine_fails (h : InLine steps k ops first last)
    (hops : ∀ op ∈ ops, op.isOfConstant = true) (hfails : FailsAt (p.workAll ops) m) (n : Nat) :
    FailsAt (p.run (n + ops.length) steps (heading last k first)) m := by
  induction h generalizing m with
  | nil i =>
      obtain ⟨u, m', hwork, -⟩ := hfails
      cases hwork
  | @cons ops i last s hs hnext hrest ih =>
      obtain ⟨hop, hops⟩ := List.forall_mem_cons.mp hops
      obtain ⟨u, m', hwork, hu⟩ := hfails
      unfold FailsAt
      rw [heading_of_lt k (Nat.lt_of_succ_le hrest.le), List.length_cons, ← Nat.add_assoc, run_succ]
      cases hfirst : p.work s.op m with
      | error e m₁ =>
          have hworks : p.workAll (s.op :: ops) m = .error e m₁ := bind_of_error hfirst
          obtain ⟨rfl, rfl⟩ : u = e ∧ m' = m₁ := by
            rw [hworks] at hwork
            cases hwork
            exact ⟨rfl, rfl⟩
          obtain ⟨u', m'', hadvance, hu'⟩ :=
            advance_fails (p := p) hs hop ⟨u, m', hfirst, hu⟩ (n + ops.length)
          rw [hadvance]
          exact ⟨u', m'', rfl, hu'⟩
      | ok _ m₁ =>
          rw [advance_works hs hop hfirst, hnext]
          exact ih hops ⟨u, m', (bind_of_ok hfirst).symm.trans hwork, hu⟩

end Program

theorem InLine.length {steps : Array Step} {k : Option StepId} {ops : List StepOp}
    {first last : StepId} (h : InLine steps k ops first last) : ops.length = last - first := by
  induction h with
  | nil i => exact (Nat.sub_self i).symm
  | cons hs hnext hrest ih =>
      rw [List.length_cons, ih, ← Nat.sub_add_comm hrest.le, Nat.add_sub_add_right]

-- The lines of a block, each with its values.
abbrev ConstSpec.lines (specs : List ConstSpec) : List ConstSpec := filled none specs

-- The names that a block takes.
abbrev ConstSpec.taken (specs : List ConstSpec) : List String := (lines specs).flatMap (·.names)

-- The types of a block stand for the same where it runs.
def Program.MeansSame (p : Program) (types : TypeTable) (specs : List ConstSpec) : Prop :=
  ∀ line ∈ ConstSpec.lines specs, ∀ ty ∈ line.ty, p.types.resolve ty = types.resolve ty

theorem head_has_values {specs : List ConstSpec}
    (hblock : AreConstantLines [] (ConstSpec.lines specs)) :
    ∀ line ∈ specs.head?, line.values ≠ [] := by
  cases specs with
  | nil => exact nofun
  | cons line rest =>
      intro line' hline
      obtain rfl := Option.some.inj hline
      cases hblock with
      | cons hvalues => exact hvalues

namespace Names

variable {next : Names → ConstSpec → Names} {n : Names} {iota : Nat} {known : Constants}
  {lines : List ConstSpec}

-- A block with too many values on a line has no constants.
theorem blockValues_large (hlarge : ¬ ∀ line ∈ lines, line.values.length < pow2 16) :
    blockValues next n iota known lines = none := by
  induction lines generalizing n iota known with
  | nil => exact absurd (List.forall_mem_nil _) hlarge
  | cons line rest ih =>
      unfold blockValues
      by_cases hline : line.values.length < pow2 16
      · have hrest : ¬ ∀ line ∈ rest, line.values.length < pow2 16 :=
          fun hrest => hlarge (List.forall_mem_cons.mpr ⟨hline, hrest⟩)
        cases n.lineValues iota known line with
        | none => rfl
        | some vs => exact ih hrest
      · have hnone : n.lineValues iota known line = none := by
          unfold lineValues
          rw [if_neg (fun h => hline h.2)]
        rw [hnone]
        rfl

end Names

namespace Build

-- What a constant block in the body of a function comes to: it is compiled, and whoever runs its
-- steps has these constants in the present scope then. Without constants either the block is not
-- compiled or the run of its steps fails.
def BlockOf (b : Builder) (specs : List ConstSpec) : Option Constants → Prop
  | some known => ∃ b', compileConsts specs 0 none b = .ok () b' ∧
      ∀ ⦃steps : Array Step⦄ ⦃k : Option StepId⦄, StepsKept b'.steps steps →
        AllLead steps b'.pending k → ∀ ⦃p : Program⦄ ⦃m : Machine⦄,
        p.MeansSame b.names.types specs →
        m.heap.HasConstants m.frame.scope (ConstSpec.taken specs) [] →
        ∃ h', (∀ n, p.run (n + (b'.steps.size - b.steps.size)) steps
            (heading b'.steps.size k b.steps.size) m = p.run n steps k { m with heap := h' }) ∧
          h'.HasConstants m.frame.scope (ConstSpec.taken specs) known
  | none => (∃ e b', compileConsts specs 0 none b = .error e b') ∨
      ∃ b', compileConsts specs 0 none b = .ok () b' ∧
      ∀ ⦃steps : Array Step⦄ ⦃k : Option StepId⦄, StepsKept b'.steps steps →
        AllLead steps b'.pending k → ∀ ⦃p : Program⦄ ⦃m : Machine⦄,
        p.MeansSame b.names.types specs →
        m.heap.HasConstants m.frame.scope (ConstSpec.taken specs) [] →
        ∀ n, FailsAt (p.run (n + (b'.steps.size - b.steps.size)) steps
          (heading b'.steps.size k b.steps.size)) m

theorem taken_of_line {specs : List ConstSpec} :
    ∀ line ∈ ConstSpec.lines specs, ∀ x ∈ line.names, x ∈ ConstSpec.taken specs :=
  fun line hline _ hx => List.mem_flatMap.mpr ⟨line, hline, hx⟩

theorem types_afterLine (n : Names) (line : ConstSpec) : (n.afterLine line).types = n.types :=
  types_declareAll n line.names _

-- A block in the body of a function has the constants that the static types in front of each line
-- lead to.
theorem block_in_body {s : Site} {b : Builder} {specs : List ConstSpec}
    (hblock : AreConstantLines [] (ConstSpec.lines specs)) (hl : Linear s b)
    (hfree : b.names.isShadowed "iota" = false) :
    BlockOf b specs (Names.blockValues Names.afterLine b.names 0 [] (ConstSpec.lines specs)) := by
  have hat : AtBlock [] s b := ⟨hl, hfree, List.forall_mem_nil _⟩
  have hcompile := compileConsts_none 0 (head_has_values hblock)
  by_cases hfits : ∀ line ∈ ConstSpec.lines specs, line.values.length < pow2 16
  · obtain ⟨b', hlines, -, c, hlays, hsteps, hpending⟩ := leaves_compileLines hblock hfits hat 0
    have hops := Names.blockSteps_isOfConstant Names.afterLine b.names 0 hblock
    have hline : ∀ {steps : Array Step} {k : Option StepId}, StepsKept b'.steps steps →
        AllLead steps b'.pending k → InLine steps k
          (Names.blockSteps Names.afterLine b.names 0 (ConstSpec.lines specs)) b.steps.size
          b'.steps.size := fun hkept hleads => by
      rw [hsteps] at hkept ⊢
      rw [hpending] at hleads
      exact hlays.inLine hkept hleads fun op hop => StepOp.isSerial_of_isOfConstant (hops op hop)
    have hdefines : ∀ {p : Program} {m : Machine}, p.MeansSame b.names.types specs →
        m.heap.HasConstants m.frame.scope (ConstSpec.taken specs) [] →
        p.Defines (Names.blockSteps Names.afterLine b.names 0 (ConstSpec.lines specs)) m
          (ConstSpec.taken specs)
          (Names.blockValues Names.afterLine b.names 0 [] (ConstSpec.lines specs)) :=
      fun htypes hh => Program.defines_block hblock types_afterLine hfits b.names 0 nofun
        (List.forall_mem_nil _) taken_of_line hh htypes
    cases hvalues : Names.blockValues Names.afterLine b.names 0 [] (ConstSpec.lines specs) with
    | some known =>
        refine ⟨b', hcompile ▸ hlines, fun steps k hkept hleads p m htypes hh => ?_⟩
        have hrow := hline hkept hleads
        have hdefined := hdefines (p := p) htypes hh
        rw [hvalues] at hdefined
        obtain ⟨h', hwork, hh'⟩ := hdefined
        exact ⟨h', fun n => hrow.length ▸ Program.run_inLine hrow hops hwork n, hh'⟩
    | none =>
        refine .inr ⟨b', hcompile ▸ hlines, fun steps k hkept hleads p m htypes hh n => ?_⟩
        have hrow := hline hkept hleads
        have hdefined := hdefines (p := p) htypes hh
        rw [hvalues] at hdefined
        exact hrow.length ▸ Program.run_inLine_fails hrow hops hdefined n
  · rw [Names.blockValues_large hfits]
    push Not at hfits
    exact .inl (hcompile ▸ compileLines_large hblock hfits hat 0)

end Build

-- What the units of a package know of names.
def PackageNames.inUnit (names : PackageNames) (types : TypeTable) : Names := ⟨names, types, [[]]⟩

-- Nothing that a line of a package declares is a local name.
def Names.ofUnit (n : Names) (_ : ConstSpec) : Names := n

namespace Compile

variable {xs : List String} {line : ConstSpec} {names : PackageNames} {lib : Library}

-- The steps of a line stand in a function of their own.
def IsLine (n : Names) (code : Array Function) (line : ConstSpec × Nat) (ref : CodeRef) : Prop :=
  ∃ f, code[ref.id]? = some f ∧ InLine f.steps none (n.lineSteps line.2 line.1) 0 f.steps.size

theorem IsLine.extend {n : Names} {code code' : Array Function} {line : ConstSpec × Nat}
    {ref : CodeRef} (h : IsLine n code line ref) (he : Code.Extends code code') :
    IsLine n code' line ref := by
  obtain ⟨f, hf, hline⟩ := h
  exact ⟨f, he _ _ hf, hline⟩

theorem buildConst_eq (hvalues : line.values ≠ []) (iota : Nat) : Build.buildConst line iota = (do
    Build.compileLine line iota
    Build.finish Build.unitName none false) := by
  unfold Build.buildConst Build.compileLine
  simp only [List.isEmpty_iff, hvalues, if_false, bind_assoc]

theorem finish_eq {b : Builder} (hgotos : b.gotos = []) (name : String) (recv : Option Receiver)
    (literal : Bool) : Build.finish name recv literal b = .ok ⟨b.code.size, name⟩
      { b with code := b.code.push ⟨name, b.sig, recv, literal, b.hasDefer, b.steps⟩ } := by
  have hresolve : Build.resolveGotos b = .ok () b := by
    rw [Build.resolveGotos_eq]
    change b.gotos.forM Build.resolveGoto b = _
    rw [hgotos]
    rfl
  exact bind_of_ok hresolve

-- A line is built as a unit, unless it has too many values.
theorem function_of_line (hvalues : line.values ≠ [])
    (hconstant : ∀ e ∈ line.values, IsConstant xs e) (hxs : ∀ x ∈ xs, x ∉ predeclaredValues)
    (hfree : (names.inUnit lib.types).isShadowed "iota" = false) (iota : Nat) :
    (line.values.length < pow2 16 → ∃ ref lib',
      function names .empty (Build.buildConst line iota) lib = .ok ref lib' ∧
      lib'.types = lib.types ∧ Code.Extends lib.code lib'.code ∧
      IsLine (names.inUnit lib.types) lib'.code (line, iota) ref) ∧
    (pow2 16 ≤ line.values.length → ∃ e lib',
      function names .empty (Build.buildConst line iota) lib = .error e lib') := by
  let b : Builder := .start ⟨names, lib.types, []⟩ lib.code .empty
  have hl : Linear .start b := Build.linear_start ..
  have hon : Build.OnLine xs iota { b with iota := some iota } := ⟨rfl, hfree, hxs⟩
  obtain ⟨hfits, hlarge⟩ := Build.adds_compileLine hvalues hconstant hl hon
  refine ⟨fun h => ?_, fun h => ?_⟩
  · obtain ⟨b', hcompile, hadds⟩ := hfits h
    have hgotos : b'.gotos = [] := congrArg (·.gotos) hadds.state
    have hnames : b'.names = names.inUnit lib.types := congrArg (·.names) hadds.state
    have hcode : b'.code = lib.code := congrArg (·.code) hadds.state
    have hfunction : function names .empty (Build.buildConst line iota) lib =
        .ok ⟨lib.code.size, Build.unitName⟩ ⟨b'.names.types, b'.code.push
          ⟨Build.unitName, b'.sig, none, false, b'.hasDefer, b'.steps⟩⟩ := by
      unfold function
      rw [buildConst_eq hvalues, bind_of_ok hcompile, finish_eq hgotos, hcode]
    have hopen : AllLead b'.steps b'.pending none := fun slot hslot =>
      (hadds.linear.isOpen slot).2 (List.count_pos_iff.mpr (List.mem_append_left _ hslot))
    refine ⟨_, _, hfunction, congrArg Names.types hnames, ?_,
      ⟨Build.unitName, b'.sig, none, false, b'.hasDefer, b'.steps⟩, ?_, ?_⟩
    · rw [hcode]
      exact .push _ _
    · rw [hcode]
      exact Array.getElem?_push_size
    · exact hadds.lays.inLine (.refl _) hopen fun op hop =>
        StepOp.isSerial_of_isOfConstant (Names.lineSteps_isOfConstant _ _ hconstant op hop)
  · obtain ⟨e, b', herror⟩ := hlarge h
    refine ⟨e, ⟨b'.names.types, b'.code⟩, ?_⟩
    unfold function
    rw [buildConst_eq hvalues, bind_of_error herror]

-- The units of a block.
def lineUnits (names : PackageNames) (lines : List ConstSpec) (iota : Nat) :
    Compile (List CodeRef) :=
  (lines.zipIdx iota).mapM fun line => function names .empty (Build.buildConst line.1 line.2)

theorem unitsOf_const (names : PackageNames) (specs : List ConstSpec) :
    unitsOf names (.const specs) = lineUnits names (ConstSpec.lines specs) 0 := rfl

theorem lineUnits_cons (names : PackageNames) (line : ConstSpec) (rest : List ConstSpec)
    (iota : Nat) : lineUnits names (line :: rest) iota = (do
      let ref ← function names .empty (Build.buildConst line iota)
      let refs ← lineUnits names rest (iota + 1)
      return ref :: refs) := by
  unfold lineUnits
  rw [List.zipIdx_cons, List.mapM_cons]

variable {lines : List ConstSpec}

-- Each line of a block has a unit of its own.
theorem lineUnits_ok (hlines : AreConstantLines xs lines)
    (hfits : ∀ line ∈ lines, line.values.length < pow2 16) (hxs : ∀ x ∈ xs, x ∉ predeclaredValues)
    (hfree : (names.inUnit lib.types).isShadowed "iota" = false) (iota : Nat) :
    ∃ units lib', lineUnits names lines iota lib = .ok units lib' ∧
      Code.Extends lib.code lib'.code ∧
      List.Forall₂ (IsLine (names.inUnit lib.types) lib'.code) (lines.zipIdx iota) units := by
  induction hlines generalizing lib iota with
  | nil xs => exact ⟨[], lib, rfl, .refl _, .nil⟩
  | @cons xs line rest hvalues hconstant hplain hrest ih =>
      obtain ⟨hline, hfits⟩ := List.forall_mem_cons.mp hfits
      obtain ⟨ref, lib₁, hfirst, htypes, hextends, hisLine⟩ :=
        (function_of_line hvalues hconstant hxs hfree iota).1 hline
      have hfree₁ : (names.inUnit lib₁.types).isShadowed "iota" = false := htypes ▸ hfree
      obtain ⟨refs, lib', hothers, hextends', hareLines⟩ := ih hfits
        (List.forall_mem_append.mpr ⟨hxs, fun x hx => hplain x (List.mem_filter.mp hx).1⟩)
        hfree₁ (iota + 1)
      rw [htypes] at hareLines
      refine ⟨ref :: refs, lib', ?_, hextends.trans hextends', ?_⟩
      · rw [lineUnits_cons, bind_of_ok hfirst, bind_of_ok hothers]
        rfl
      · rw [List.zipIdx_cons]
        exact .cons (hisLine.extend hextends') hareLines

theorem lineUnits_large (hlines : AreConstantLines xs lines)
    (hlarge : ∃ line ∈ lines, pow2 16 ≤ line.values.length) (hxs : ∀ x ∈ xs, x ∉ predeclaredValues)
    (hfree : (names.inUnit lib.types).isShadowed "iota" = false) (iota : Nat) :
    ∃ e lib', lineUnits names lines iota lib = .error e lib' := by
  induction hlines generalizing lib iota with
  | nil xs =>
      obtain ⟨line, hmem, -⟩ := hlarge
      cases hmem
  | @cons xs line rest hvalues hconstant hplain hrest ih =>
      rw [lineUnits_cons]
      obtain ⟨hfit, hmany⟩ := function_of_line hvalues hconstant hxs hfree iota
      rcases Nat.lt_or_ge line.values.length (pow2 16) with hline | hline
      · obtain ⟨ref, lib₁, hfirst, htypes, -, -⟩ := hfit hline
        have hlarge' : ∃ line ∈ rest, pow2 16 ≤ line.values.length := by
          obtain ⟨other, hmem, hother⟩ := hlarge
          rcases List.mem_cons.mp hmem with rfl | hmem
          · exact absurd hother (Nat.not_le.mpr hline)
          · exact ⟨other, hmem, hother⟩
        have hfree₁ : (names.inUnit lib₁.types).isShadowed "iota" = false := htypes ▸ hfree
        obtain ⟨e, lib', herror⟩ := ih hlarge'
          (List.forall_mem_append.mpr ⟨hxs, fun x hx => hplain x (List.mem_filter.mp hx).1⟩)
          hfree₁ (iota + 1)
        refine ⟨e, lib', ?_⟩
        rw [bind_of_ok hfirst]
        exact bind_of_error herror
      · obtain ⟨e, lib', herror⟩ := hmany hline
        exact ⟨e, lib', bind_of_error herror⟩

end Compile

namespace Program

variable {p : Program} {names : List String} {known : Constants} {m : Machine}

-- The run of the unit of a line binds the values of the line, or fails if there are none.
theorem runUnit_line {xs : List String} {line : ConstSpec} {n : Names} {iota : Nat}
    {f : Function} {scope : ScopeId} (hconstant : ∀ e ∈ line.values, IsConstant xs e)
    (hfits : line.values.length < pow2 16)
    (hsteps : InLine f.steps none (n.lineSteps iota line) 0 f.steps.size)
    (hknown : known.AreBasic) (hxs : ∀ x ∈ xs, (known.lookup x).isSome)
    (hnames : ∀ x ∈ line.names, x ∈ names) (hh : m.heap.HasConstants scope names known)
    (htypes : ∀ ty ∈ line.ty, p.types.resolve ty = n.types.resolve ty) {fuel : Nat}
    (hfuel : f.steps.size ≤ fuel) :
    match n.lineValues iota known line with
    | some values => ∃ h', p.runUnit fuel f scope m = .ok () { m with heap := h' } ∧
        h'.HasConstants scope names (known.bind line.names values)
    | none => FailsAt (p.runUnit fuel f scope) m := by
  let m₀ : Machine := { m with frame := .start scope }
  have hdefines :=
    defines_line (p := p) (m := m₀) hconstant hfits n iota hknown hxs hnames hh htypes
  have hops := n.lineSteps_isOfConstant iota hconstant
  have hstart : (if f.steps.isEmpty then none else some 0) = heading f.steps.size none 0 := by
    unfold heading
    simp only [Array.isEmpty_iff_size_eq_zero, Nat.pos_iff_ne_zero, ite_not]
  have hlength : (n.lineSteps iota line).length = f.steps.size := hsteps.length
  have henough : fuel - f.steps.size + (n.lineSteps iota line).length = fuel := by omega
  cases hvalues : n.lineValues iota known line with
  | some values =>
      rw [hvalues] at hdefines
      obtain ⟨h', hwork, hh'⟩ := hdefines
      have hrun := run_inLine hsteps hops hwork (fuel - f.steps.size)
      rw [henough, run_none] at hrun
      refine ⟨h', ?_, hh'⟩
      rw [runUnit_apply, hstart, hrun]
  | none =>
      rw [hvalues] at hdefines
      obtain ⟨u, m', hrun, hu⟩ := run_inLine_fails hsteps hops hdefines (fuel - f.steps.size)
      rw [henough] at hrun
      refine ⟨u, { m' with frame := m.frame }, ?_, hu⟩
      rw [runUnit_apply, hstart, hrun]

end Program

namespace Link

open Compile (IsLine lineUnits lineUnits_ok lineUnits_large unitsOf_const)

variable {o : BuildOptions} {p : Program} {scope : ScopeId} {l : Linker} {known : Constants}

-- A pass over these units binds the constants in the scope of the package and goes on. Where there
-- are none, it ends with an error.
def BindsAll (o : BuildOptions) (p : Program) (scope : ScopeId) (units : List CodeRef) (l : Linker)
    (taken : List String) : Option Constants → Prop
  | some known => ∃ h', (∀ rest, runPass o p scope (units ++ rest) l =
      runPass o p scope rest { l with machine := { l.machine with heap := h' } }) ∧
      h'.HasConstants scope taken known
  | none => ∀ rest, ∃ e l', runPass o p scope (units ++ rest) l = .error e l'

-- What a constant block of a package comes to: it is compiled, and a pass over its units has these
-- constants in the scope of the package then. Without constants either the block is not compiled or
-- the pass ends with an error.
def BlockOf (o : BuildOptions) (names : PackageNames) (lib : Library) (specs : List ConstSpec) :
    Option Constants → Prop
  | some known => ∃ units lib', Compile.unitsOf names (.const specs) lib = .ok units lib' ∧
      ∀ ⦃p : Program⦄ ⦃scope : ScopeId⦄ ⦃l : Linker⦄, Code.Extends lib'.code p.code →
        (∀ unit ∈ units, ∀ f ∈ p.code[unit.id]?, f.steps.size ≤ o.fuel) →
        p.MeansSame lib.types specs →
        l.machine.heap.HasConstants scope (ConstSpec.taken specs) [] →
        BindsAll o p scope units l (ConstSpec.taken specs) (some known)
  | none => (∃ e lib', Compile.unitsOf names (.const specs) lib = .error e lib') ∨
      ∃ units lib', Compile.unitsOf names (.const specs) lib = .ok units lib' ∧
      ∀ ⦃p : Program⦄ ⦃scope : ScopeId⦄ ⦃l : Linker⦄, Code.Extends lib'.code p.code →
        (∀ unit ∈ units, ∀ f ∈ p.code[unit.id]?, f.steps.size ≤ o.fuel) →
        p.MeansSame lib.types specs →
        l.machine.heap.HasConstants scope (ConstSpec.taken specs) [] →
        BindsAll o p scope units l (ConstSpec.taken specs) none

theorem failInit_of_fails {u : Unwind} (hu : u.Fails) {α : Type} (l : Linker) :
    ∃ e l', (failInit o p u : Link α) l = .error e l' := by
  obtain ⟨e, m, herror, -⟩ := p.evalError_of_fails o.fuel hu l.machine
  refine ⟨.init e, { l with machine := m }, ?_⟩
  unfold failInit
  rw [bind_apply, exec_eq, herror]
  rfl

theorem runPass_ok_cons {unit : CodeRef} {f : Function} {m : Machine}
    (hf : p.code[unit.id]? = some f) (hrun : p.runUnit o.fuel f scope l.machine = .ok () m)
    (rest : List CodeRef) :
    runPass o p scope (unit :: rest) l = runPass o p scope rest { l with machine := m } := by
  rw [runPass, hf]
  simp only
  rw [bind_apply, exec_eq, hrun]

theorem runPass_fails_cons {unit : CodeRef} {f : Function} (hf : p.code[unit.id]? = some f)
    (hrun : FailsAt (p.runUnit o.fuel f scope) l.machine) (rest : List CodeRef) :
    ∃ e l', runPass o p scope (unit :: rest) l = .error e l' := by
  obtain ⟨u, m, hrun, hu⟩ := hrun
  rw [runPass, hf]
  simp only
  rw [bind_apply, exec_eq, hrun]
  cases hu with
  | panic e => exact failInit_of_fails (.panic e) _
  | fatal e => exact failInit_of_fails (.fatal e) _

theorem binds_units {xs : List String} {lines : List ConstSpec} (hlines : AreConstantLines xs lines)
    {n : Names} {iota : Nat} {units : List CodeRef} {taken : List String}
    (hunits : List.Forall₂ (IsLine n p.code) (lines.zipIdx iota) units)
    (hfits : ∀ line ∈ lines, line.values.length < pow2 16)
    (hfuel : ∀ unit ∈ units, ∀ f ∈ p.code[unit.id]?, f.steps.size ≤ o.fuel)
    (hknown : known.AreBasic) (hxs : ∀ x ∈ xs, (known.lookup x).isSome)
    (htaken : ∀ line ∈ lines, ∀ x ∈ line.names, x ∈ taken)
    (hh : l.machine.heap.HasConstants scope taken known)
    (htypes : ∀ line ∈ lines, ∀ ty ∈ line.ty, p.types.resolve ty = n.types.resolve ty) :
    BindsAll o p scope units l taken (Names.blockValues Names.ofUnit n iota known lines) := by
  induction hlines generalizing iota units known l with
  | nil xs =>
      cases hunits
      exact ⟨l.machine.heap, fun rest => rfl, hh⟩
  | @cons xs line rest hvalues hconstant hplain hrest ih =>
      rw [List.zipIdx_cons] at hunits
      obtain ⟨unit, units, ⟨f, hf, hsteps⟩, hothers, rfl⟩ := List.forall₂_cons_left_iff.mp hunits
      obtain ⟨hline, hfits⟩ := List.forall_mem_cons.mp hfits
      obtain ⟨hlineFuel, hfuel⟩ := List.forall_mem_cons.mp hfuel
      obtain ⟨hlineTaken, htaken⟩ := List.forall_mem_cons.mp htaken
      obtain ⟨hlineTypes, htypes⟩ := List.forall_mem_cons.mp htypes
      have hrun := Program.runUnit_line (p := p) hconstant hline hsteps hknown hxs hlineTaken hh
        hlineTypes (hlineFuel f hf)
      unfold Names.blockValues
      cases hvs : n.lineValues iota known line with
      | none =>
          rw [hvs] at hrun
          exact fun rest => runPass_fails_cons hf hrun _
      | some vs =>
          rw [hvs] at hrun
          obtain ⟨h₁, hrun, hh₁⟩ := hrun
          obtain ⟨hknown₁, hxs₁⟩ := Names.known_behind_line hconstant hknown hxs hvs
          have hlast := ih (l := { l with machine := { l.machine with heap := h₁ } }) hothers hfits
            hfuel hknown₁ hxs₁ htaken hh₁ htypes
          have hfirst := fun rest => runPass_ok_cons (o := o) (l := l) hf hrun (units ++ rest)
          change BindsAll o p scope (unit :: units) l taken
            (Names.blockValues Names.ofUnit n (iota + 1) (known.bind line.names vs) rest)
          cases hblock : Names.blockValues Names.ofUnit n (iota + 1)
              (known.bind line.names vs) rest with
          | none =>
              rw [hblock] at hlast
              intro others
              obtain ⟨e, l', herror⟩ := hlast others
              exact ⟨e, l', (hfirst others).trans herror⟩
          | some known' =>
              rw [hblock] at hlast
              obtain ⟨h', hpass, hh'⟩ := hlast
              exact ⟨h', fun others => (hfirst others).trans (hpass others), hh'⟩

-- A block of a package has the constants that the types of the package lead to.
theorem block_in_package {names : PackageNames} {lib : Library} {specs : List ConstSpec}
    (hblock : AreConstantLines [] (ConstSpec.lines specs))
    (hfree : (names.inUnit lib.types).isShadowed "iota" = false) (o : BuildOptions) :
    BlockOf o names lib specs (Names.blockValues Names.ofUnit (names.inUnit lib.types) 0 []
      (ConstSpec.lines specs)) := by
  by_cases hfits : ∀ line ∈ ConstSpec.lines specs, line.values.length < pow2 16
  · obtain ⟨units, lib', hcompile, -, hunits⟩ :=
      lineUnits_ok hblock hfits (List.forall_mem_nil _) hfree 0
    rw [← unitsOf_const] at hcompile
    have hbinds : ∀ {p : Program} {scope : ScopeId} {l : Linker}, Code.Extends lib'.code p.code →
        (∀ unit ∈ units, ∀ f ∈ p.code[unit.id]?, f.steps.size ≤ o.fuel) →
        p.MeansSame lib.types specs →
        l.machine.heap.HasConstants scope (ConstSpec.taken specs) [] →
        BindsAll o p scope units l (ConstSpec.taken specs) (Names.blockValues Names.ofUnit
          (names.inUnit lib.types) 0 [] (ConstSpec.lines specs)) :=
      fun hextends hfuel htypes hh => binds_units hblock
        (hunits.imp fun _ _ h => h.extend hextends) hfits hfuel nofun (List.forall_mem_nil _)
        Build.taken_of_line hh htypes
    cases hvalues : Names.blockValues Names.ofUnit (names.inUnit lib.types) 0 []
        (ConstSpec.lines specs) with
    | some known =>
        rw [hvalues] at hbinds
        exact ⟨units, lib', hcompile, fun _ _ _ => hbinds⟩
    | none =>
        rw [hvalues] at hbinds
        exact .inr ⟨units, lib', hcompile, fun _ _ _ => hbinds⟩
  · rw [Names.blockValues_large hfits]
    push Not at hfits
    obtain ⟨e, lib', herror⟩ :=
      lineUnits_large hblock hfits (List.forall_mem_nil _) hfree 0
    exact .inl ⟨e, lib', herror⟩

end Link

end StepGraph

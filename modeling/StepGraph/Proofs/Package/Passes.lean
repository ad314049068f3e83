import StepGraph.Package.Executable
import StepGraph.Proofs.Compile.Units
import StepGraph.Proofs.Package.Declarations

open EStateM (bind_apply bind_eq_ok)

namespace StepGraph.Link

open Program (entry RunLeads)

variable {o : BuildOptions} {p : Program} {scope : ScopeId} {l l' : Linker}

theorem exec_eq {α : Type} (x : Exec α) (l : Linker) : exec x l = match x l.machine with
    | .ok a machine => .ok (.ok a) { l with machine }
    | .error u machine => .ok (.error u) { l with machine } := rfl

-- Attempts to run units, one after the other in one machine. What an attempt has done stays, also
-- if it stops at a variable that is not there yet. The name of the variable stands beside the unit.
inductive Attempted (p : Program) (fuel : Nat) (scope : ScopeId) :
    Machine → List (CodeRef × Option String) → Machine → Prop
  | nil (m : Machine) : Attempted p fuel scope m [] m
  | finished {unit : CodeRef} {f : Function} {m m₁ m' : Machine}
      {rest : List (CodeRef × Option String)} (hf : p.code[unit.id]? = some f)
      (hrun : p.runUnit fuel f scope m = .ok () m₁) (hrest : Attempted p fuel scope m₁ rest m') :
      Attempted p fuel scope m ((unit, none) :: rest) m'
  | blocked {unit : CodeRef} {f : Function} {x : String} {m m₁ m' : Machine}
      {rest : List (CodeRef × Option String)} (hf : p.code[unit.id]? = some f)
      (hrun : p.runUnit fuel f scope m = .error (.undeclared x) m₁)
      (hrest : Attempted p fuel scope m₁ rest m') :
      Attempted p fuel scope m ((unit, some x) :: rest) m'

theorem Attempted.append {fuel : Nat} {m m₁ m' : Machine}
    {before after : List (CodeRef × Option String)} (h₁ : Attempted p fuel scope m before m₁)
    (h₂ : Attempted p fuel scope m₁ after m') : Attempted p fuel scope m (before ++ after) m' := by
  induction h₁ with
  | nil => exact h₂
  | finished hf hrun _ ih => exact .finished hf hrun (ih h₂)
  | blocked hf hrun _ ih => exact .blocked hf hrun (ih h₂)

-- The units that were run to their ends.
def finished (attempts : List (CodeRef × Option String)) : List CodeRef :=
  attempts.filterMap fun (unit, missing) => if missing.isNone then some unit else none

-- The units of a pass are finished or left for the next one.
theorem runPass_ok {units blocked : List CodeRef} {missing : List String}
    (hunits : ∀ unit ∈ units, ∃ f, p.code[unit.id]? = some f)
    (h : runPass o p scope units l = .ok (blocked, missing) l') :
    ∃ attempts, Attempted p o.fuel scope l.machine attempts l'.machine ∧
      (finished attempts ++ blocked).Perm units ∧ l'.library = l.library := by
  induction units generalizing l blocked missing with
  | nil =>
      cases h
      exact ⟨[], .nil _, .refl _, rfl⟩
  | cons unit rest ih =>
      have ih := @ih
      obtain ⟨f, hf⟩ := hunits unit List.mem_cons_self
      have hrest : ∀ unit ∈ rest, ∃ f, p.code[unit.id]? = some f :=
        fun unit hunit => hunits unit (List.mem_cons_of_mem _ hunit)
      unfold runPass at h
      rw [hf] at h
      obtain ⟨r, l₁, h₁, h⟩ := bind_eq_ok.mp h
      rw [exec_eq] at h₁
      cases hr : p.runUnit o.fuel f scope l.machine with
      | ok a m =>
          rw [hr] at h₁
          cases h₁
          obtain ⟨attempts, hattempted, hperm, hlib⟩ := ih hrest h
          exact ⟨_, .finished hf hr hattempted, hperm.cons unit, hlib⟩
      | error u m =>
          rw [hr] at h₁
          cases h₁
          cases u with
          | undeclared x =>
              obtain ⟨⟨blocked', missing'⟩, l₂, h₂, h⟩ := bind_eq_ok.mp h
              cases h
              obtain ⟨attempts, hattempted, hperm, hlib⟩ := ih hrest h₂
              exact ⟨_, .blocked hf hr hattempted, List.perm_middle.trans (hperm.cons unit), hlib⟩
          | _ =>
              obtain ⟨e, l₂, -, h⟩ := bind_eq_ok.mp h
              cases e <;> cases h

-- Where all passes come to their end, each unit is run to its end once, with the attempts that
-- were blocked before.
theorem runUnits_ok {units : List CodeRef} {n : Nat}
    (hunits : ∀ unit ∈ units, ∃ f, p.code[unit.id]? = some f)
    (h : runUnits o p scope n units l = .ok () l') :
    ∃ attempts, Attempted p o.fuel scope l.machine attempts l'.machine ∧
      (finished attempts).Perm units ∧ l'.library = l.library := by
  induction n generalizing units l with
  | zero =>
      cases units with
      | nil =>
          cases h
          exact ⟨[], .nil _, .refl _, rfl⟩
      | cons => cases h
  | succ n ih =>
      cases units with
      | nil =>
          cases h
          exact ⟨[], .nil _, .refl _, rfl⟩
      | cons unit rest =>
          unfold runUnits at h
          obtain ⟨⟨blocked, missing⟩, l₁, h₁, h⟩ := bind_eq_ok.mp h
          obtain ⟨first, hfirst, hperm, hlib⟩ := runPass_ok hunits h₁
          dsimp only at h
          split at h
          · cases h
          · obtain ⟨later, hlater, hperm', hlib'⟩ := ih (fun unit hunit => hunits unit
              (hperm.subset (List.mem_append_right _ hunit))) h
            refine ⟨first ++ later, hfirst.append hlater, ?_, hlib'.trans hlib⟩
            unfold finished at hperm' ⊢
            rw [List.filterMap_append]
            exact (hperm'.append_left _).trans hperm

-- What comes before the units are run: types are declared, the package is compiled, and its
-- functions and methods are bound.
def prepare (scope : ScopeId) (pkg : Package) (imports : List String) : Link CompiledPackage := do
  compile (Compile.declareTypes pkg.decls)
  let compiled ← compile (Compile.package pkg (.ofPackage pkg imports))
  onHeap (compiled.funcs.forM fun (name, code) => Heap.declare scope name (closure code scope))
  addMethods scope compiled.methods
  return compiled

-- The program that runs the units of a package.
def initializer (o : BuildOptions) (lib : Library) : Program :=
  ⟨lib.code, lib.types, o.hosts, o.maxDepth, true⟩

theorem linkDecls_eq (o : BuildOptions) (scope : ScopeId) (pkg : Package) (imports : List String) :
    linkDecls o scope pkg imports = (do
      let compiled ← prepare scope pkg imports
      runUnits o (← program o true) scope (compiled.units.length + 1) compiled.units
      runInits o (← program o false) scope compiled.inits) := by
  funext l
  simp only [linkDecls, prepare, bind_apply]
  cases compile (Compile.declareTypes pkg.decls) l with
  | error e l => rfl
  | ok u l =>
      simp only
      cases compile (Compile.package pkg (.ofPackage pkg imports)) l with
      | error e l => rfl
      | ok compiled l =>
          simp only
          cases onHeap (compiled.funcs.forM fun (name, code) =>
            Heap.declare scope name (closure code scope)) l with
          | error e l => rfl
          | ok u l =>
              simp only
              cases addMethods scope compiled.methods l <;> rfl

theorem code_addMethods (scope : ScopeId) {methods : List (Receiver × String × CodeRef)} {u : Unit}
    (h : addMethods scope methods l = .ok u l') : l'.library.code = l.library.code := by
  induction methods generalizing l with
  | nil =>
      cases h
      rfl
  | cons method rest ih =>
      unfold addMethods at h
      obtain ⟨_, l₁, h₁, h⟩ := bind_eq_ok.mp h
      cases h₁
      obtain ⟨recv, name, code⟩ := method
      cases ht : l.library.types.addMethod? recv.typeName name ⟨code, scope, recv.pointer⟩ with
      | none =>
          rw [ht] at h
          cases h
      | some types =>
          rw [ht] at h
          obtain ⟨_, l₂, h₂, h⟩ := bind_eq_ok.mp h
          cases h₂
          exact (ih h).trans rfl

theorem prepare_ok {pkg : Package} {imports : List String} {compiled : CompiledPackage}
    (h : prepare scope pkg imports l = .ok compiled l') : ∃ lib lib',
      Compile.package pkg (.ofPackage pkg imports) lib = .ok compiled lib' ∧
        l'.library.code = lib'.code := by
  obtain ⟨_, l₁, h₁, h⟩ := bind_eq_ok.mp h
  obtain ⟨compiled', l₂, h₂, h⟩ := bind_eq_ok.mp h
  obtain ⟨_, l₃, h₃, h⟩ := bind_eq_ok.mp h
  obtain ⟨_, l₄, h₄, h⟩ := bind_eq_ok.mp h
  cases h
  cases h₃
  unfold compile at h₂
  split at h₂
  · next lib hlib =>
      cases h₂
      exact ⟨_, _, hlib, code_addMethods scope h₄⟩
  · cases h₂

-- Nothing is undone when a unit stops at a variable that is not there yet. What its calls and
-- receive operations have done, and literals that fill a field twice, stays. Where these leave
-- everything untouched, the unit has bound, changed and printed nothing. Where a package is built,
-- the attempts follow each other in one machine, and each unit is run to its end exactly once.
theorem blocked_units_are_not_undone {o : BuildOptions} {scope : ScopeId} {pkg : Package}
    {imports : List String} {compiled : CompiledPackage} {l l₁ : Linker}
    (h : prepare scope pkg imports l = .ok compiled l₁) :
    (∀ unit ∈ compiled.units, ∃ f, (initializer o l₁.library).code[unit.id]? = some f ∧
      ∀ (fuel : Nat) (m : Machine) (x : String) (m' : Machine),
        (initializer o l₁.library).runUnit fuel f scope m = .error (.undeclared x) m' →
        (∀ n id s m₁, RunLeads (initializer o l₁.library) f.steps fuel (entry f.steps)
            { m with frame := .start scope } (n + 1) (some id) m₁ →
          f.steps[id]? = some s → s.op.acts = true →
            Exec.TacitAt m₁ ((initializer o l₁.library).advance n f.steps id)) →
        Untouched m m') ∧
    ∀ l', linkDecls o scope pkg imports l = .ok () l' →
      ∃ attempts m, Attempted (initializer o l₁.library) o.fuel scope l₁.machine attempts m ∧
        (finished attempts).Perm compiled.units ∧ (finished attempts).Nodup ∧
        ∃ l₂, l₂.machine = m ∧ runInits o { initializer o l₁.library with initializing := false } scope
          compiled.inits l₂ = .ok () l' := by
  obtain ⟨lib, lib', hpackage, hcode⟩ := prepare_ok h
  have hunits : ∀ unit ∈ compiled.units, Build.IsUnit l₁.library.code unit :=
    hcode ▸ Compile.isUnit_of_package hpackage
  refine ⟨fun unit hunit => ?_, fun l' hlink => ?_⟩
  · obtain ⟨f, hf, hof⟩ := hunits unit hunit
    exact ⟨f, hf, fun fuel m x m' hrun hacts => Program.untouched_of_runUnit _ hof hacts hrun⟩
  · rw [linkDecls_eq] at hlink
    obtain ⟨compiled', l₂, h₂, hlink⟩ := bind_eq_ok.mp hlink
    rw [h] at h₂
    cases h₂
    obtain ⟨p, l₂, h₂, hlink⟩ := bind_eq_ok.mp hlink
    cases h₂
    obtain ⟨_, l₃, h₃, hlink⟩ := bind_eq_ok.mp hlink
    obtain ⟨attempts, hattempted, hperm, hlib⟩ := runUnits_ok
      (fun unit hunit => (hunits unit hunit).imp fun _ hf => hf.1) h₃
    obtain ⟨p', l₄, h₄, hlink⟩ := bind_eq_ok.mp hlink
    cases h₄
    refine ⟨attempts, _, hattempted, hperm,
      hperm.nodup_iff.mpr (Compile.nodup_units hpackage), l₃, rfl, ?_⟩
    rw [← hlib]
    exact hlink

def smallOptions : BuildOptions := { BuildOptions.default with fuel := 20 }

-- `var a = b` and `var b = 1`.
def waiting : Package := ⟨"main", [], [
  .var ⟨["a"], none, [.ident Note.empty "b"]⟩, .var ⟨["b"], none, [.lit Note.empty (.int 1)]⟩]⟩

-- The linker with the scope of a package, in which nothing is bound.
def withScope (printer : Printer) : Linker :=
  { start printer with machine := { Machine.start printer with
    heap := { Heap.empty with scopes := #[⟨[], none, false⟩] } } }

-- Whether the steps of the first unit do nothing but evaluate expressions, and stop at a variable
-- that is not there yet.
def firstIsBlocked (compiled : CompiledPackage) (l : Linker) : Bool :=
  match compiled.units with
  | unit :: _ =>
      match (initializer smallOptions l.library).code[unit.id]? with
      | some f =>
          f.steps.all (fun s => !s.op.acts) &&
            match (initializer smallOptions l.library).runUnit 20 f 0 l.machine with
            | .error (.undeclared _) _ => true
            | _ => false
      | none => false
  | [] => false

-- The first of the units waits for the second one. Its first attempt leaves no trace, and then
-- each unit is run to its end.
def waitingIsBlocked : Bool :=
  match prepare 0 waiting [] (withScope .empty),
      linkDecls smallOptions 0 waiting [] (withScope .empty) with
  | .ok compiled l₁, .ok _ _ => firstIsBlocked compiled l₁
  | _, _ => false

theorem waiting_unit_leaves_no_trace : ∃ compiled l₁ unit f x m',
    prepare 0 waiting [] (withScope .empty) = .ok compiled l₁ ∧ unit ∈ compiled.units ∧
    (initializer smallOptions l₁.library).code[unit.id]? = some f ∧
    (initializer smallOptions l₁.library).runUnit 20 f 0 l₁.machine = .error (.undeclared x) m' ∧
    Untouched l₁.machine m' ∧
    ∃ l' attempts m, linkDecls smallOptions 0 waiting [] (withScope .empty) = .ok () l' ∧
      Attempted (initializer smallOptions l₁.library) 20 0 l₁.machine attempts m ∧
      (finished attempts).Perm compiled.units := by
  have hblocked : waitingIsBlocked = true := by decide +kernel
  unfold waitingIsBlocked at hblocked
  split at hblocked
  · next compiled l₁ u l' hprepare hlink =>
      obtain ⟨hunits, hbuild⟩ := blocked_units_are_not_undone hprepare
      unfold firstIsBlocked at hblocked
      split at hblocked
      · next unit rest hfirst =>
          have hmem : unit ∈ compiled.units := hfirst ▸ List.mem_cons_self
          obtain ⟨f, hf, htrace⟩ := hunits unit hmem
          rw [hf] at hblocked
          obtain ⟨hsteps, hrun⟩ := Bool.and_eq_true_iff.mp hblocked
          split at hrun
          · next x m' hr =>
              have hquiet : ∀ (id : StepId) s, f.steps[id]? = some s → s.op.acts ≠ true := by
                intro id s hs hacts
                have hs' := Array.all_eq_true'.mp hsteps s (Array.mem_of_getElem? hs)
                rw [hacts] at hs'
                cases hs'
              obtain ⟨attempts, m, hattempted, hperm, -⟩ := hbuild l' hlink
              exact ⟨compiled, l₁, unit, f, x, m', hprepare, hmem, hf, hr,
                htrace 20 _ x m' hr fun _ _ _ _ _ hs hacts => absurd hacts (hquiet _ _ hs),
                l', attempts, m, hlink, hattempted, hperm⟩
          · cases hrun
      · cases hblocked
  · cases hblocked

-- `func f() int { println("x"); return b }`, `var a = f()` and `var b = 1`.
def printing : Package := ⟨"main", [], [
  .func ⟨"f", none, ⟨[], [⟨none, .plainInt⟩], false⟩, [
    .expr Span.none (.call Note.empty (.ident Note.empty "println")
      [.lit Note.empty (.str "x")] false),
    .ret Span.none [.ident Note.empty "b"]]⟩,
  .var ⟨["a"], none, [.call Note.empty (.ident Note.empty "f") [] false]⟩,
  .var ⟨["b"], none, [.lit Note.empty (.int 1)]⟩]⟩

-- What the first unit has printed when it stops at a variable that is not there yet.
def printedByFirst (compiled : CompiledPackage) (l : Linker) : Option String :=
  match compiled.units with
  | unit :: _ =>
      match (initializer smallOptions l.library).code[unit.id]? with
      | some f =>
          match (initializer smallOptions l.library).runUnit 20 f 0 l.machine with
          | .error (.undeclared _) m => some m.printer.output
          | _ => none
      | none => none
  | [] => none

-- The call prints its line before the unit stops, and again in the next pass.
def printsTwice : Bool :=
  match prepare 0 printing [] (withScope .empty),
      linkDecls smallOptions 0 printing [] (withScope .empty) with
  | .ok compiled l₁, .ok _ l' => decide (l₁.machine.printer.output = "") &&
      decide (printedByFirst compiled l₁ = some "x\n") &&
      decide (l'.machine.printer.output = "x\nx\n")
  | _, _ => false

theorem blocked_unit_prints_twice : ∃ compiled l₁ unit f x m',
    prepare 0 printing [] (withScope .empty) = .ok compiled l₁ ∧ unit ∈ compiled.units ∧
    (initializer smallOptions l₁.library).code[unit.id]? = some f ∧
    (initializer smallOptions l₁.library).runUnit 20 f 0 l₁.machine = .error (.undeclared x) m' ∧
    l₁.machine.printer.output = "" ∧ m'.printer.output = "x\n" ∧
    ∃ l', linkDecls smallOptions 0 printing [] (withScope .empty) = .ok () l' ∧
      l'.machine.printer.output = "x\nx\n" := by
  have hprints : printsTwice = true := by decide +kernel
  unfold printsTwice at hprints
  split at hprints
  · next compiled l₁ u l' hprepare hlink =>
      simp only [Bool.and_eq_true, decide_eq_true_eq] at hprints
      obtain ⟨⟨hbefore, hfirst⟩, hafter⟩ := hprints
      unfold printedByFirst at hfirst
      split at hfirst
      · next unit rest hunits =>
          split at hfirst
          · next f hf =>
              split at hfirst
              · next x m' hr =>
                  exact ⟨compiled, l₁, unit, f, x, m', hprepare, hunits ▸ List.mem_cons_self, hf,
                    hr, hbefore, Option.some.inj hfirst, l', hlink, hafter⟩
              · cases hfirst
          · cases hfirst
      · cases hfirst
  · cases hprints

end StepGraph.Link

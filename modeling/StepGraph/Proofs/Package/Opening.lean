import StepGraph.Proofs.Package.Imports
import StepGraph.Proofs.Package.Lines
import StepGraph.Proofs.Package.Passes
import StepGraph.Proofs.Store.Cells

open EStateM (bind_eq_ok)

namespace StepGraph

namespace Heap

variable {h h' : Heap} {s : ScopeId} {env : Env}

-- A package whose variables refer to nothing on the heap, as they are before its units run.
structure HoldsPlain (h : Heap) (s : ScopeId) (env : Env) : Prop where
  root : h.parent? s = none
  inside : s < h.scopes.size
  binding : ∀ x, (env x = none ∧ h.binding? s x = none) ∨
    ∃ v, h.binding? s x = some (.plain v) ∧ v.unwrap.isPlain ∧ env x = some ⟨v.outline, none, []⟩

namespace HoldsPlain

theorem not_shared (hp : HoldsPlain h s env) (x : String) (a : Address) :
    h.binding? s x ≠ some (.shared a) := by
  intro hx
  rcases hp.binding x with ⟨-, hnone⟩ | ⟨v, hv, -⟩
  · rw [hnone] at hx
    cases hx
  · rw [hv] at hx
    cases hx

theorem knows (hp : HoldsPlain h s env) : Knows h s (fun _ => []) env := by
  have hnone : ∀ {a : Nat} {t : Source}, ¬ h.sourcesOf s (fun _ => []) a t := by
    rintro a t (hx | ha)
    · exact hp.not_shared _ _ hx
    · cases ha
  refine ⟨hp.root, hp.inside, fun ht => (hnone ht).elim,
    ⟨fun ht => (hnone ht).elim, fun ht => (hnone ht).elim⟩, fun {x} hx => ?_, fun {x r} hx => ?_⟩
  · rcases hp.binding x with ⟨-, hbinding⟩ | ⟨v, -, -, henv⟩
    · exact hbinding
    · rw [hx] at henv
      cases henv
  · rcases hp.binding x with ⟨henv, -⟩ | ⟨v, hv, hplain, henv⟩
    · rw [hx] at henv
      cases henv
    · rw [hx] at henv
      cases henv
      refine ⟨v, ?_, .plain _ v hplain⟩
      unfold local?
      rw [hv]
      rfl

theorem declare (hp : HoldsPlain h s env) (x : String) {v : Value} (hv : v.unwrap.isPlain) :
    HoldsPlain (Heap.declare s x v h).2 s
      (Function.update env x (some ⟨v.outline, none, []⟩)) := by
  have hdeclare : Heap.declare s x v h = Heap.bind s x (.plain v) h := by
    unfold Heap.declare
    rw [get_bind]
    cases hx : h.binding? s x with
    | none => rfl
    | some b =>
      cases b with
      | plain => rfl
      | shared a => exact absurd hx (hp.not_shared x a)
  rw [hdeclare]
  refine ⟨(parent?_bind ..).trans hp.root, ?_, fun y => ?_⟩
  · change s < (h.scopes.modify s _).size
    rw [Array.size_modify]
    exact hp.inside
  · rw [binding?_bind h s s x y _ hp.inside]
    by_cases hy : y = x
    · subst hy
      rw [if_pos ⟨rfl, rfl⟩, Function.update_self]
      exact .inr ⟨v, rfl, hv, rfl⟩
    · rw [if_neg fun h => hy h.2, Function.update_of_ne hy]
      exact hp.binding y

end HoldsPlain

-- The scope of a package whose imports are bound, and nothing else.
structure Imported (h : Heap) (s : ScopeId) (imports : List String) : Prop where
  root : h.parent? s = none
  inside : s < h.scopes.size
  binding : ∀ x b, h.binding? s x = some b → x ∈ imports ∧ ∃ ref, b = .plain (.package ref)

namespace Imported

variable {imports : List String}

theorem declare (hi : Imported h s imports) (x : String) (ref : PackageRef) :
    Imported (Heap.declare s x (.package ref) h).2 s (x :: imports) := by
  have hdeclare : Heap.declare s x (.package ref) h = Heap.bind s x (.plain (.package ref)) h := by
    unfold Heap.declare
    rw [get_bind]
    cases hx : h.binding? s x with
    | none => rfl
    | some b =>
      obtain ⟨-, ref, rfl⟩ := hi.binding x b hx
      rfl
  rw [hdeclare]
  refine ⟨(parent?_bind ..).trans hi.root, ?_, fun y b hb => ?_⟩
  · change s < (h.scopes.modify s _).size
    rw [Array.size_modify]
    exact hi.inside
  · rw [binding?_bind h s s x y _ hi.inside] at hb
    by_cases hy : y = x
    · subst hy
      rw [if_pos ⟨rfl, rfl⟩] at hb
      cases hb
      exact ⟨List.mem_cons_self, ref, rfl⟩
    · rw [if_neg fun h => hy h.2] at hb
      obtain ⟨hmem, hb⟩ := hi.binding y b hb
      exact ⟨List.mem_cons_of_mem _ hmem, hb⟩

theorem of_subset {imports' : List String} (hi : Imported h s imports)
    (hsub : imports ⊆ imports') : Imported h s imports' :=
  ⟨hi.root, hi.inside, fun x b hb => ⟨hsub (hi.binding x b hb).1, (hi.binding x b hb).2⟩⟩

-- How the imports of a package read.
def readings (h : Heap) (s : ScopeId) : Env := fun x =>
  (h.local? s x).map fun v => ⟨v.outline, none, []⟩

theorem holdsPlain (hi : Imported h s imports) : HoldsPlain h s (readings h s) := by
  refine ⟨hi.root, hi.inside, fun x => ?_⟩
  unfold readings local?
  cases hx : h.binding? s x with
  | none => exact .inl ⟨rfl, rfl⟩
  | some b =>
    obtain ⟨-, ref, rfl⟩ := hi.binding x b hx
    exact .inr ⟨.package ref, rfl, rfl, rfl⟩

theorem readings_eq_none (hi : Imported h s imports) {x : String} (hx : x ∉ imports) :
    readings h s x = none := by
  unfold readings local?
  cases hb : h.binding? s x with
  | none => rfl
  | some b => exact absurd (hi.binding x b hb).1 hx

end Imported

end Heap

namespace Link

open Heap (Env HoldsPlain Imported)

variable {o : BuildOptions} {fe : Option FrontEnd} {scope : ScopeId} {pkg : Package}
  {imports : List String} {l l' : Linker} {h : Heap} {env : Env}

-- Packages of the embedder are bound without a change to anything else.
theorem imported_bindImports {linking : List String} {link : String → Package → Link ScopeId}
    {is : List Import} {names : List String} (hhosts : ∀ i ∈ is, (o.hosts.lookup i.path).isSome)
    (hi : Imported l.machine.heap scope imports)
    (h : bindImports scope (resolveImport o fe linking link) is l = .ok names l') :
    Imported l'.machine.heap scope (names ++ imports) := by
  induction is generalizing l names imports with
  | nil =>
    cases h
    exact hi
  | cons i rest ih =>
    have hrest : ∀ j ∈ rest, (o.hosts.lookup j.path).isSome :=
      fun j hj => hhosts j (List.mem_cons_of_mem _ hj)
    unfold bindImports at h
    obtain ⟨ref, l₁, h₁, h⟩ := bind_eq_ok.mp h
    have hmachine : l₁.machine = l.machine := by
      rw [resolveImport_apply] at h₁
      split at h₁
      · cases h₁
        rfl
      · split at h₁
        · cases h₁
        · obtain ⟨host, hhost⟩ := Option.isSome_iff_exists.mp (hhosts i List.mem_cons_self)
          rw [hhost] at h₁
          cases h₁
          rfl
    rw [← hmachine] at hi
    split at h
    · exact ih hrest hi h
    · obtain ⟨_, l₂, h₂, h⟩ := bind_eq_ok.mp h
      cases h₂
      obtain ⟨names', l₃, h₃, h⟩ := bind_eq_ok.mp h
      cases h
      exact (ih hrest (hi.declare i.boundName ref) h₃).of_subset List.perm_middle.subset

-- How a function of a package reads.
def functionReading (x : String) : Reading := ⟨.func (some (.closure ⟨0, x⟩ 0)), none, []⟩

-- What is known of a package once its functions are bound.
def withFunctions (names : List String) (env : Env) : Env := fun x =>
  if x ∈ names then some (functionReading x) else env x

theorem withFunctions_congr {names names' : List String} (h : ∀ x, x ∈ names ↔ x ∈ names')
    (env : Env) : withFunctions names env = withFunctions names' env := by
  funext x
  unfold withFunctions
  simp only [h x]

theorem holdsPlain_functions {funcs : List (String × CodeRef)} (hp : HoldsPlain h scope env)
    (hnames : ∀ f ∈ funcs, f.2.name = f.1) :
    HoldsPlain (((funcs.forM fun (x, code) => Heap.declare scope x (closure code scope)) :
      HeapM Unit) h).2 scope (withFunctions (funcs.map (·.1)) env) := by
  induction funcs generalizing h env with
  | nil => exact hp
  | cons f rest ih =>
    obtain ⟨x, code⟩ := f
    have hname : code.name = x := hnames _ List.mem_cons_self
    have hfirst := hp.declare x (v := closure code scope) rfl
    have hread : (⟨(closure code scope).outline, none, []⟩ : Reading) = functionReading x := by
      unfold functionReading
      rw [← hname]
      rfl
    have hall := ih hfirst fun f hf => hnames f (List.mem_cons_of_mem _ hf)
    have henv : withFunctions (((x, code) :: rest).map (·.1)) env =
        withFunctions (rest.map (·.1)) (Function.update env x (some (functionReading x))) := by
      funext y
      unfold withFunctions
      by_cases hy : y = x
      · subst hy
        simp
      · simp only [Function.update_of_ne hy, List.map_cons, List.mem_cons, hy, false_or]
    rw [henv, ← hread]
    exact hall

end Link

namespace Compile

variable {names : PackageNames} {lib lib' : Library} {pkg : Package}

theorem function_name {o : Origin} {ref : CodeRef}
    (h : function names o.sig o.build lib = .ok ref lib') : ref.name = o.name := by
  obtain ⟨b, hb, rfl⟩ := function_ok h
  rw [o.build_eq] at hb
  obtain ⟨_, b₁, -, hb⟩ := bind_eq_ok.mp hb
  obtain ⟨_, b₂, -, hb⟩ := bind_eq_ok.mp hb
  obtain ⟨steps, -, rfl, -⟩ := Build.finish_ok hb
  rfl

theorem mapM_functions {decls : List FuncDecl} {built : List (FuncDecl × CodeRef)}
    (h : (decls.mapM fun (d : FuncDecl) => do
      return (d, ← function names d.sig (Build.buildFunc d))) lib = .ok built lib') :
    built.map (·.1) = decls ∧ ∀ f ∈ built, f.2.name = f.1.name := by
  induction decls generalizing lib built with
  | nil =>
    cases h
    exact ⟨rfl, fun f hf => (List.not_mem_nil hf).elim⟩
  | cons d decls ih =>
    rw [List.mapM_cons] at h
    obtain ⟨first, lib₁, h₁, h⟩ := bind_eq_ok.mp h
    obtain ⟨ref, lib₂, href, h₁⟩ := bind_eq_ok.mp h₁
    obtain ⟨rest, lib₃, h₃, h⟩ := bind_eq_ok.mp h
    cases h₁
    cases h
    obtain ⟨hdecls, hnames⟩ := ih h₃
    refine ⟨congrArg (d :: ·) hdecls, fun f hf => ?_⟩
    rcases List.mem_cons.mp hf with rfl | hf
    · exact function_name (o := .func d) href
    · exact hnames f hf

-- The functions of a package that none of its functions runs when it is initialized.
theorem functions_of_package {compiled : CompiledPackage}
    (hinit : ∀ d ∈ pkg.funcs, d.recv = none → d.name ≠ Build.unitName)
    (h : package pkg names lib = .ok compiled lib') :
    (∀ f ∈ compiled.funcs, f.2.name = f.1) ∧ compiled.inits = [] ∧
      ∀ x, x ∈ compiled.funcs.map (·.1) ↔ x ∈ pkg.funcNames := by
  obtain ⟨built, lib₁, h₁, h⟩ := bind_eq_ok.mp h
  obtain ⟨units, lib₂, -, h⟩ := bind_eq_ok.mp h
  cases h
  obtain ⟨hdecls, hnames⟩ := mapM_functions h₁
  have hmem : ∀ {f}, f ∈ built → f.1.recv = none → f.1.name ≠ Build.unitName :=
    fun {f} hf => hinit f.1 (hdecls ▸ List.mem_map_of_mem hf)
  refine ⟨fun f hf => ?_, ?_, fun x => ?_⟩
  · obtain ⟨g, hg, rfl⟩ := List.mem_map.mp hf
    exact hnames g (List.mem_of_mem_filter (List.mem_of_mem_filter hg))
  · refine List.map_eq_nil_iff.mpr (List.filter_eq_nil_iff.mpr fun f hf hname => ?_)
    obtain ⟨hf, hrecv⟩ := List.mem_filter.mp hf
    exact hmem hf (Option.isNone_iff_eq_none.mp hrecv) (of_decide_eq_true hname)
  · rw [Package.mem_funcNames, ← hdecls]
    simp only [List.mem_map, List.mem_filter, decide_eq_true_eq, Option.isNone_iff_eq_none]
    constructor
    · rintro ⟨-, ⟨f, ⟨⟨hf, hrecv⟩, -⟩, rfl⟩, rfl⟩
      exact ⟨f.1, ⟨f, hf, rfl⟩, hrecv, rfl⟩
    · rintro ⟨-, ⟨f, hf, rfl⟩, hrecv, rfl⟩
      exact ⟨_, ⟨f, ⟨⟨hf, hrecv⟩, hmem hf hrecv⟩, rfl⟩, rfl⟩

end Compile

namespace Link

open Heap (Env HoldsPlain Imported)

variable {scope : ScopeId} {pkg : Package} {imports : List String} {compiled : CompiledPackage}
  {l l₁ : Linker}

theorem addMethods_ok {methods : List (Receiver × String × CodeRef)} {u : Unit}
    (h : addMethods scope methods l = .ok u l₁) :
    SameTypes l.library.types l₁.library.types ∧ l₁.machine = l.machine := by
  induction methods generalizing l with
  | nil =>
    cases h
    exact ⟨.refl _, rfl⟩
  | cons method rest ih =>
    obtain ⟨recv, name, code⟩ := method
    unfold addMethods at h
    obtain ⟨_, l₂, h₂, h⟩ := bind_eq_ok.mp h
    cases h₂
    cases ht : l.library.types.addMethod? recv.typeName name ⟨code, scope, recv.pointer⟩ with
    | none =>
      rw [ht] at h
      cases h
    | some types =>
      rw [ht] at h
      obtain ⟨_, l₃, h₃, h⟩ := bind_eq_ok.mp h
      cases h₃
      obtain ⟨htypes, hmachine⟩ := ih h
      exact ⟨(SameTypes.of_addMethod? ht).trans htypes, hmachine⟩

-- A package that is ready for its units to run: it is compiled, and its functions are bound.
structure Prepared (scope : ScopeId) (pkg : Package) (imports : List String) (h : Heap)
    (compiled : CompiledPackage) (l₁ : Linker) : Prop where
  package : ∃ lib lib', Compile.package pkg (.ofPackage pkg imports) lib = .ok compiled lib' ∧
    l₁.library.code = lib'.code ∧ SameTypes lib'.types l₁.library.types
  heap : l₁.machine.heap = (((compiled.funcs.forM fun (x, code) =>
    Heap.declare scope x (closure code scope)) : HeapM Unit) h).2

theorem prepared (h : prepare scope pkg imports l = .ok compiled l₁) :
    Prepared scope pkg imports l.machine.heap compiled l₁ := by
  obtain ⟨_, l₂, h₂, h⟩ := bind_eq_ok.mp h
  obtain ⟨compiled', l₃, h₃, h⟩ := bind_eq_ok.mp h
  obtain ⟨_, l₄, h₄, h⟩ := bind_eq_ok.mp h
  obtain ⟨_, l₅, h₅, h⟩ := bind_eq_ok.mp h
  cases h
  cases h₄
  obtain ⟨htypes, hmachine⟩ := addMethods_ok h₅
  have hcode := code_addMethods scope h₅
  have hcompile : ∀ {α : Type} {x : Compile α} {a : α} {l l' : Linker}, compile x l = .ok a l' →
      x l.library = .ok a l'.library ∧ l'.machine = l.machine := by
    intro α x a l l' h
    unfold compile at h
    split at h
    · next hx =>
      cases h
      exact ⟨hx, rfl⟩
    · cases h
  obtain ⟨-, hsame⟩ := hcompile h₂
  obtain ⟨hpackage, hsame'⟩ := hcompile h₃
  refine ⟨⟨_, _, hpackage, hcode, htypes⟩, ?_⟩
  rw [hmachine, ← hsame, ← hsame']

-- What is known of a package before its units run. The order of its declarations makes no
-- difference to it.
theorem Prepared.holdsPlain {h : Heap} (hp : Prepared scope pkg imports h compiled l₁)
    (hinit : ∀ d ∈ pkg.funcs, d.recv = none → d.name ≠ Build.unitName)
    (hi : Imported h scope imports) :
    HoldsPlain l₁.machine.heap scope (withFunctions pkg.funcNames (Imported.readings h scope)) := by
  obtain ⟨⟨lib, lib', hpackage, -⟩, hheap⟩ := hp
  obtain ⟨hnames, -, hsame⟩ := Compile.functions_of_package hinit hpackage
  rw [hheap, ← withFunctions_congr hsame]
  exact holdsPlain_functions hi.holdsPlain hnames

end Link

end StepGraph

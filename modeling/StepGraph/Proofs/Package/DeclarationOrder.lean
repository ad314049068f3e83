import StepGraph.Proofs.Package.Orders

open EStateM (bind_apply bind_eq_ok)

namespace StepGraph.Link

open Heap (Env Imported Alike SourcesTell)
open StepGraph.Units (BetweenRuns Reaches Settles)

variable {o : BuildOptions} {p : Program} {scope : ScopeId} {l l' : Linker}

-- More passes than there are units make no difference.
theorem runUnits_succ {units : List CodeRef} {n : Nat} (hn : units.length ≤ n)
    (hunits : ∀ unit ∈ units, ∃ f, p.code[unit.id]? = some f) :
    runUnits o p scope (n + 1) units l = runUnits o p scope n units l := by
  induction n generalizing units l with
  | zero =>
    obtain rfl := List.eq_nil_of_length_eq_zero (Nat.le_zero.mp hn)
    rfl
  | succ n ih =>
    cases hlist : units with
    | nil => rfl
    | cons unit rest =>
      have hsome : units ≠ [] := by simp [hlist]
      rw [← hlist, runUnits_of_ne_nil hsome, runUnits_of_ne_nil hsome, bind_apply, bind_apply]
      cases hpass : runPass o p scope units l with
      | error e l₁ => rfl
      | ok r l₁ =>
        obtain ⟨blocked, missing⟩ := r
        obtain ⟨attempts, -, hperm, -⟩ := runPass_ok hunits hpass
        have hlength := hperm.length_eq
        rw [List.length_append] at hlength
        simp only
        by_cases hsame : blocked.length = units.length
        · rw [if_pos hsame, if_pos hsame]
        · rw [if_neg hsame, if_neg hsame]
          exact ih (by omega) fun unit hunit =>
            hunits unit (hperm.subset (List.mem_append_right _ hunit))

-- How the initialization of a package ends. The lines that are done have been run to their ends,
-- each of them once. Those that are left have not.
inductive InitializationEnds (p : Program) (fuel : Nat) (scope : ScopeId) (m : Machine)
    (done left : List (Origin × CodeRef)) : EStateM.Result BuildError Linker Unit → Prop
  | all {attempts : List (CodeRef × Option String)} {l' : Linker}
      (hrun : Attempted p fuel scope m attempts l'.machine)
      (hdone : finished attempts = done.map (·.2)) (hleft : left = []) :
      InitializationEnds p fuel scope m done left (.ok () l')
  | undefined {attempts : List (CodeRef × Option String)} {missing : List String} {l' : Linker}
      (hrun : Attempted p fuel scope m attempts l'.machine)
      (hdone : finished attempts = done.map (·.2)) (hleft : left ≠ []) :
      InitializationEnds p fuel scope m done left (.error (.undefined missing) l')
  | init {attempts : List (CodeRef × Option String)} {m₁ m₂ : Machine} {line : Origin × CodeRef}
      {f : Function} {u : Unwind} {e : EvalError} {l' : Linker}
      (hrun : Attempted p fuel scope m attempts m₁) (hdone : finished attempts = done.map (·.2))
      (hline : line ∈ left) (hf : p.code[line.2.id]? = some f) (hu : u.Fails)
      (hfails : p.runUnit fuel f scope m₁ = .error u m₂) :
      InitializationEnds p fuel scope m done left (.error (.init e) l')

-- The heap when the initialization of a package has ended.
def heapAfter : EStateM.Result BuildError Linker Unit → Heap
  | .ok _ l | .error _ l => l.machine.heap

-- What the end tells about the units of the package.
inductive Fate (u : Units) (scope : ScopeId) (done left : List Nat) (env : Env) :
    EStateM.Result BuildError Linker Unit → Prop
  | all {l' : Linker} (hleft : left = []) : Fate u scope done left env (.ok () l')
  | stuck {missing : List String} {l' : Linker} (hleft : left ≠ [])
      (hblocked : ∀ k ∈ left, u.Trial k env .blocked) :
      Fate u scope done left env (.error (.undefined missing) l')
  | broken {k : Nat} {e : EvalError} {l' : Linker} (hk : k ∈ left)
      (hfailed : u.Trial k env .failed) : Fate u scope done left env (.error (.init e) l')

variable {u : Units} {origin : Nat → Origin} {ref : Nat → CodeRef} {start env env' : Env}
  {keys done left done' left' : List Nat} {r r' : EStateM.Result BuildError Linker Unit}

-- The units of a package in one order, from the start to the end of its initialization.
structure Traced (u : Units) (scope : ScopeId) (start : Env) (keys done left : List Nat) (env : Env)
    (r : EStateM.Result BuildError Linker Unit) : Prop where
  perm : (done ++ left).Perm keys
  reaches : u.Reaches start done env
  stands : ∃ m, m.heap = heapAfter r ∧ u.BetweenRuns scope done env m
  fate : Fate u scope done left env r

theorem PassesEnd.traced (origin : Nat → Origin) (h : PassesEnd p u ref scope start [] keys l r) :
    ∃ done left env, Traced u scope start keys done left env r ∧
      InitializationEnds p u.fuel scope l.machine (done.reverse.map fun k => (origin k, ref k))
        (left.map fun k => (origin k, ref k)) r := by
  have hrefs : ∀ ks : List Nat, (ks.map fun k => (origin k, ref k)).map (·.2) = ks.map ref :=
    fun ks => List.map_map
  have hempty : ∀ ks : List Nat, (ks.map fun k => (origin k, ref k)) = [] ↔ ks = [] :=
    fun ks => List.map_eq_nil_iff
  have hreverse : ∀ ks : List Nat, (ks.reverse ++ []).reverse = ks := by simp
  have hback : ∀ {new left : List Nat}, (new ++ left).Perm keys →
      ((new.reverse ++ []) ++ left).Perm keys := by
    intro new left h
    rw [List.append_nil]
    exact ((List.reverse_perm new).append_right left).trans h
  cases h with
  | @all new env l' hgot =>
    obtain ⟨attempts, hrun, hdone⟩ := hgot.attempted
    refine ⟨_, [], env, ⟨hback hgot.perm, hgot.reaches, ⟨_, rfl, hgot.stands⟩, .all rfl⟩, ?_⟩
    exact .all hrun (by rw [hrefs, hreverse, hdone]) rfl
  | @stuck new left env missing l' hgot hleft hblocked =>
    obtain ⟨attempts, hrun, hdone⟩ := hgot.attempted
    refine ⟨_, left, env, ⟨hback hgot.perm, hgot.reaches, ⟨_, rfl, hgot.stands⟩,
      .stuck hleft hblocked⟩, ?_⟩
    exact .undefined hrun (by rw [hrefs, hreverse, hdone]) fun h => hleft ((hempty left).mp h)
  | @broken new left env k m e l' hgot hk hbroke hstands =>
    obtain ⟨attempts, hrun, hdone⟩ := hgot.attempted
    obtain ⟨f, u', m', hf, hu, hfails⟩ := hbroke.run
    refine ⟨_, left, env, ⟨hback hgot.perm, hgot.reaches, ⟨_, rfl, hstands⟩,
      .broken hk hbroke.trial⟩, ?_⟩
    exact .init hrun (by rw [hrefs, hreverse, hdone])
      (List.mem_map_of_mem (f := fun k => (origin k, ref k)) hk) hf hu hfails

namespace Traced

variable (h : Traced u scope start keys done left env r) (hkeys : keys.Perm (List.range u.count))

include h hkeys

theorem mem_iff (k : Nat) : k ∈ done ∨ k ∈ left ↔ k < u.count := by
  rw [← List.mem_append, h.perm.mem_iff, hkeys.mem_iff, List.mem_range]

theorem mem_left_iff (k : Nat) : k ∈ left ↔ k < u.count ∧ k ∉ done := by
  have hnodup := (h.perm.trans hkeys).nodup_iff.mpr List.nodup_range
  have hapart := (List.nodup_append.mp hnodup).2.2
  rw [← h.mem_iff hkeys k]
  exact ⟨fun hk => ⟨.inr hk, fun hd => hapart k hd k hk rfl⟩, fun hk => hk.1.resolve_left hk.2⟩

theorem nodup_left : left.Nodup :=
  (List.nodup_append.mp ((h.perm.trans hkeys).nodup_iff.mpr List.nodup_range)).2.1

theorem settles (hblocked : ∀ k ∈ left, u.Trial k env .blocked) : Settles u start done env :=
  ⟨h.reaches, fun k hk hdone => hblocked k ((h.mem_left_iff hkeys k).mpr ⟨hk, hdone⟩)⟩

-- The variables of the lines that are done are bound, and those of the lines that are left are not.
theorem bindings (hnames : ∀ k, k < u.count → u.names k = boundNames (origin k).bound) :
    (∀ k ∈ done, ∀ x ∈ boundNames (origin k).bound, ∃ v, (heapAfter r).local? scope x = some v) ∧
      ∀ k ∈ left, ∀ x ∈ boundNames (origin k).bound, (heapAfter r).binding? scope x = none := by
  obtain ⟨m, hheap, boxes, hknows, hfree⟩ := h.stands
  rw [hheap] at hknows
  refine ⟨fun k hk x hx => ?_, fun k hk x hx => ?_⟩
  · rw [← hnames k ((h.mem_iff hkeys k).mp (.inl hk))] at hx
    obtain ⟨reading, hreading⟩ := h.reaches.named hk x hx
    exact (hknows.bound hreading).imp fun v hv => hv.1
  · obtain ⟨hlt, hnew⟩ := (h.mem_left_iff hkeys k).mp hk
    rw [← hnames k hlt] at hx
    exact hknows.unbound ((hfree k hnew).2 x hx)

end Traced

-- All names are bound to the same values in two packages, apart from the numbers that the heaps and
-- the code give out. Pointers to the variable of one name, or to what one unit has made at one
-- place, are the same.
def SameValues (scope : ScopeId) (h h' : Heap) : Prop :=
  ∃ boxes boxes', SourcesTell (h.sourcesOf scope boxes) ∧ SourcesTell (h'.sourcesOf scope boxes') ∧
    ∀ x, (h.binding? scope x = none ∧ h'.binding? scope x = none) ∨
      ∃ v v', h.local? scope x = some v ∧ h'.local? scope x = some v' ∧
        Alike h (h.sourcesOf scope boxes) h' (h'.sourcesOf scope boxes') v v'

theorem sameValues_of_betweenRuns {m m' : Machine} (h : u.BetweenRuns scope done env m)
    (h' : u.BetweenRuns scope done' env m') : SameValues scope m.heap m'.heap := by
  obtain ⟨boxes, hknows, -⟩ := h
  obtain ⟨boxes', hknows', -⟩ := h'
  refine ⟨boxes, boxes', hknows.tells, hknows'.tells, fun x => ?_⟩
  cases hx : env x with
  | none => exact .inl ⟨hknows.unbound hx, hknows'.unbound hx⟩
  | some reading =>
    obtain ⟨v, hv, hr⟩ := hknows.bound hx
    obtain ⟨v', hv', hr'⟩ := hknows'.bound hx
    exact .inr ⟨v, v', hv, hv', reading, hr, hr'⟩

-- Two initializations end in the same way. Lines count as the same where their declarations are.
inductive EndAlike (scope : ScopeId) (left left' : List (Origin × CodeRef)) :
    EStateM.Result BuildError Linker Unit → EStateM.Result BuildError Linker Unit → Prop
  | all {l l' : Linker} (hvalues : SameValues scope l.machine.heap l'.machine.heap) :
      EndAlike scope left left' (.ok () l) (.ok () l')
  | undefined {missing missing' : List String} {l l' : Linker}
      (hvalues : SameValues scope l.machine.heap l'.machine.heap)
      (hleft : (left.map (·.1)).Perm (left'.map (·.1))) :
      EndAlike scope left left' (.error (.undefined missing) l) (.error (.undefined missing') l')
  | init {e e' : EvalError} {l l' : Linker} :
      EndAlike scope left left' (.error (.init e) l) (.error (.init e') l')

theorem Traced.alike {keys' : List Nat} {ref' : Nat → CodeRef}
    (h : Traced u scope start keys done left env r)
    (h' : Traced u scope start keys' done' left' env' r') (hkeys : keys.Perm (List.range u.count))
    (hkeys' : keys'.Perm (List.range u.count)) :
    EndAlike scope (left.map fun k => (origin k, ref k)) (left'.map fun k => (origin k, ref' k))
      r r' := by
  have hnone : ∀ {env : Env}, ∀ k ∈ ([] : List Nat), u.Trial k env .blocked :=
    fun k hk => (List.not_mem_nil hk).elim
  have hsame : (∀ k ∈ left, u.Trial k env .blocked) → (∀ k ∈ left', u.Trial k env' .blocked) →
      left.Perm left' ∧ SameValues scope (heapAfter r) (heapAfter r') := by
    intro hblocked hblocked'
    obtain ⟨hdone, rfl⟩ := (h.settles hkeys hblocked).unique (h'.settles hkeys' hblocked')
    obtain ⟨m, hm, hstands⟩ := h.stands
    obtain ⟨m', hm', hstands'⟩ := h'.stands
    refine ⟨?_, hm ▸ hm' ▸ sameValues_of_betweenRuns hstands hstands'⟩
    refine (List.perm_ext_iff_of_nodup (h.nodup_left hkeys) (h'.nodup_left hkeys')).mpr fun k => ?_
    rw [h.mem_left_iff hkeys, h'.mem_left_iff hkeys', hdone]
  have horigins : left.Perm left' → ((left.map fun k => (origin k, ref k)).map (·.1)).Perm
      ((left'.map fun k => (origin k, ref' k)).map (·.1)) := by
    intro hperm
    rw [List.map_map, List.map_map]
    exact hperm.map origin
  -- A unit that fails in one order does not let the other order come to an end.
  have hfails : ∀ {k : Nat}, (∀ k ∈ left, u.Trial k env .blocked) → k ∈ left' →
      ¬ u.Trial k env' .failed := fun hblocked hk =>
    (h.settles hkeys hblocked).not_failed h'.reaches ((h'.mem_iff hkeys' _).mp (.inr hk))
  have hfails' : ∀ {k : Nat}, (∀ k ∈ left', u.Trial k env' .blocked) → k ∈ left →
      ¬ u.Trial k env .failed := fun hblocked hk =>
    (h'.settles hkeys' hblocked).not_failed h.reaches ((h.mem_iff hkeys _).mp (.inr hk))
  cases h.fate with
  | all hleft =>
    subst hleft
    cases h'.fate with
    | all hleft' =>
      subst hleft'
      exact .all (hsame hnone hnone).2
    | stuck hleft' hblocked' => exact absurd (hsame hnone hblocked').1.symm.eq_nil hleft'
    | broken hk hfailed => exact absurd hfailed (hfails hnone hk)
  | stuck hleft hblocked =>
    cases h'.fate with
    | all hleft' =>
      subst hleft'
      exact absurd (hsame hblocked hnone).1.eq_nil hleft
    | stuck hleft' hblocked' =>
      obtain ⟨hperm, hvalues⟩ := hsame hblocked hblocked'
      exact .undefined hvalues (horigins hperm)
    | broken hk hfailed => exact absurd hfailed (hfails hblocked hk)
  | broken hk hfailed =>
    cases h'.fate with
    | all hleft' =>
      subst hleft'
      exact absurd hfailed (hfails' hnone hk)
    | stuck hleft' hblocked' => exact absurd hfailed (hfails' hblocked' hk)
    | broken => exact .init

-- The initialization of a package from where it is ready for its units to run. It takes no more
-- passes than there are units.
structure Initializes (o : BuildOptions) (scope : ScopeId) (pkg : Package)
    (compiled : CompiledPackage) (l₁ : Linker) (done left : List (Origin × CodeRef))
    (r : EStateM.Result BuildError Linker Unit) : Prop where
  passes : r = runUnits o (initializer o l₁.library) scope compiled.units.length compiled.units l₁
  ends : InitializationEnds (initializer o l₁.library) o.fuel scope l₁.machine done left r
  length : pkg.units.length = compiled.units.length
  lines : (done ++ left).Perm (pkg.units.zip compiled.units)
  bound : ∀ line ∈ done, ∀ x ∈ boundNames line.1.bound, ∃ v, (heapAfter r).local? scope x = some v
  free : ∀ line ∈ left, ∀ x ∈ boundNames line.1.bound, (heapAfter r).binding? scope x = none

variable {pkg pkg' : Package} {imports : List String} {compiled compiled' : CompiledPackage}
  {l₀ l₁ l₁' : Linker}

theorem Arranged.initializes
    (ha : Arranged u origin (initializer o l₁.library) pkg.units compiled.units keys ref)
    (hfuel : u.fuel = o.fuel) (hs : u.BetweenRuns scope [] start l₁.machine)
    (hr : r = runUnits o (initializer o l₁.library) scope compiled.units.length compiled.units l₁) :
    ∃ done left env, Traced u scope start keys done left env r ∧
      Initializes o scope pkg compiled l₁ (done.reverse.map fun k => (origin k, ref k))
        (left.map fun k => (origin k, ref k)) r := by
  have hlength : keys.length = compiled.units.length := by rw [ha.units, List.length_map]
  have hcomes : PassesEnd (initializer o l₁.library) u ref scope start [] keys l₁ r := by
    rw [hr, ha.units, List.length_map]
    exact passesEnd_runUnits ha.runs hfuel _ (Nat.le_refl _) .start hs
      (ha.perm.nodup_iff.mpr List.nodup_range) fun k hk =>
        ⟨List.mem_range.mp (ha.perm.subset hk), List.not_mem_nil⟩
  obtain ⟨done, left, env, htraced, hends⟩ := hcomes.traced origin
  obtain ⟨hbound, hfree⟩ := htraced.bindings ha.perm ha.names
  refine ⟨done, left, env, htraced, hr, hfuel ▸ hends, ?_, ?_, fun line hline => ?_,
    fun line hline => ?_⟩
  · rw [ha.origins, List.length_map, hlength]
  · rw [ha.origins, ha.units, List.zip_map', ← List.map_append]
    exact (((List.reverse_perm done).append_right left).trans htraced.perm).map _
  · obtain ⟨k, hk, rfl⟩ := List.mem_map.mp hline
    exact hbound k (List.mem_reverse.mp hk)
  · obtain ⟨k, hk, rfl⟩ := List.mem_map.mp hline
    exact hfree k hk

-- Nothing comes behind the units of a package none of whose functions runs by itself.
theorem linkDecls_eq_runUnits (hpure : pkg.IsPure imports)
    (h : prepare scope pkg imports l₀ = .ok compiled l₁) :
    linkDecls o scope pkg imports l₀ =
      runUnits o (initializer o l₁.library) scope compiled.units.length compiled.units l₁ := by
  obtain ⟨lib, lib', hpackage, hcode⟩ := prepare_ok h
  have hinits := (Compile.functions_of_package hpure.noInit hpackage).2.1
  have hunits : ∀ unit ∈ compiled.units,
      ∃ f, (initializer o l₁.library).code[unit.id]? = some f := by
    intro unit hunit
    obtain ⟨f, hf, -⟩ := Compile.isUnit_of_package hpackage unit hunit
    rw [← hcode] at hf
    exact ⟨f, hf⟩
  rw [linkDecls_eq, bind_apply, h, ← runUnits_succ (Nat.le_refl _) hunits]
  simp only
  rw [bind_apply]
  change (runUnits o (initializer o l₁.library) scope _ compiled.units >>= fun _ => _) l₁ = _
  rw [bind_apply, hinits]
  generalize runUnits o (initializer o l₁.library) scope _ compiled.units l₁ = r
  cases r <;> rfl

theorem Prepared.compiledUnits {h : Heap} (hp : Prepared scope pkg imports h compiled l₁)
    (hpure : pkg.IsPure imports) : UnitsCompiled pkg imports l₁.library compiled.units := by
  obtain ⟨lib, lib', hpackage, hcode, htypes⟩ := hp.package
  exact ⟨hpure, lib'.types, htypes, hcode ▸ Compile.isCompiled_package hpure.values hpackage⟩

-- What comes before the declarations of a package: it gets a scope, and its imports are bound.
def enter (o : BuildOptions) (fe : Option FrontEnd) (n : Nat) (linking : List String)
    (imports : List Import) : Link (ScopeId × List String) := do
  let scope ← onHeap (Heap.newScope none)
  let names ← bindImports scope
    (resolveImport o fe linking fun path => link o fe n (path :: linking)) imports
  return (scope, names)

variable {fe : Option FrontEnd} {n : Nat} {linking : List String}

theorem link_succ (pkg : Package) : link o fe (n + 1) linking pkg = (do
    let (scope, names) ← enter o fe n linking pkg.imports
    linkDecls o scope pkg names
    return scope) := by
  unfold link enter
  simp only [bind_assoc, pure_bind]

theorem imported_enter {is : List Import} (hhosts : ∀ i ∈ is, (o.hosts.lookup i.path).isSome)
    (h : enter o fe n linking is l = .ok (scope, imports) l₀) :
    Imported l₀.machine.heap scope imports := by
  obtain ⟨s, l₂, h₂, h⟩ := bind_eq_ok.mp h
  obtain ⟨names, l₃, h₃, h⟩ := bind_eq_ok.mp h
  cases h
  cases h₂
  have hnew : Imported
      { l.machine.heap with scopes := l.machine.heap.scopes.push ⟨[], none, false⟩ }
      l.machine.heap.scopes.size [] := by
    have hscope : (l.machine.heap.scopes.push ⟨[], none, false⟩)[l.machine.heap.scopes.size]? =
        some ⟨[], none, false⟩ := Array.getElem?_push_size
    refine ⟨?_, ?_, fun x b hb => ?_⟩
    · unfold Heap.parent?
      rw [hscope]
      rfl
    · rw [Array.size_push]
      exact Nat.lt_succ_self _
    · obtain ⟨sc, hsc, hx⟩ := Heap.binding?_eq_some.mp hb
      cases hscope.symm.trans hsc
      cases hx
  have hall := imported_bindImports hhosts hnew h₃
  rw [List.append_nil] at hall
  exact hall

-- The order of declarations makes no difference to the initialization of a package that imports
-- packages of the embedder only, and whose variables and constants start with literals, names and
-- operators on these, as long as its declarations make the same types known in either order.
theorem initialization_does_not_depend_on_order
    (hhosts : ∀ i ∈ pkg.imports, (o.hosts.lookup i.path).isSome)
    (henter : enter o fe n linking pkg.imports l = .ok (scope, imports) l₀)
    (himports : pkg'.imports = pkg.imports) (hperm : pkg'.decls.Perm pkg.decls)
    (hpure : pkg.IsPure imports)
    (h : prepare scope pkg imports l₀ = .ok compiled l₁)
    (h' : prepare scope pkg' imports l₀ = .ok compiled' l₁')
    (htypes : SameTypes l₁.library.types l₁'.library.types)
    (hfuel : ∀ unit ∈ compiled.units, ∀ f, l₁.library.code[unit.id]? = some f →
      f.steps.size ≤ o.fuel) :
    (∀ pkg₁, pkg₁ = pkg ∨ pkg₁ = pkg' → link o fe (n + 1) linking pkg₁ l =
      (linkDecls o scope pkg₁ imports >>= fun _ => pure scope) l₀) ∧
    ∃ done left done' left',
      Initializes o scope pkg compiled l₁ done left (linkDecls o scope pkg imports l₀) ∧
      Initializes o scope pkg' compiled' l₁' done' left' (linkDecls o scope pkg' imports l₀) ∧
      EndAlike scope left left' (linkDecls o scope pkg imports l₀)
        (linkDecls o scope pkg' imports l₀) := by
  have hpure' := hpure.of_perm hperm
  have hlink : ∀ pkg₁, pkg₁ = pkg ∨ pkg₁ = pkg' → link o fe (n + 1) linking pkg₁ l =
      (linkDecls o scope pkg₁ imports >>= fun _ => pure scope) l₀ := by
    intro pkg₁ hpkg
    have hsame : pkg₁.imports = pkg.imports := by rcases hpkg with rfl | rfl <;> simp [himports]
    rw [link_succ, bind_apply, hsame, henter]
  have hopen := imported_enter hhosts henter
  have hp := prepared h
  have hp' := prepared h'
  have hcompiled := hp.compiledUnits hpure
  -- The numbers of the units are their places in the first order.
  have horigin : pkg.units = (List.range pkg.units.length).map fun k =>
      pkg.units[k]?.getD (.var ⟨[], none, []⟩) := by
    refine List.ext_getElem (by simp) fun k hk hk' => ?_
    simp [hk]
  obtain ⟨keys, ref, ha⟩ := hcompiled.arranged hcompiled (.refl _) (.refl _) hfuel horigin
  obtain ⟨keys', ref', ha'⟩ :=
    hcompiled.arranged (hp'.compiledUnits hpure') hperm htypes hfuel horigin
  have hstands : ∀ {m : Machine}, m.heap.HoldsPlain scope
      (withFunctions pkg.funcNames (Imported.readings l₀.machine.heap scope)) →
      (hcompiled.shared o.fuel hfuel).BetweenRuns scope []
        (withFunctions pkg.funcNames (Imported.readings l₀.machine.heap scope)) m := by
    intro m hholds
    refine ⟨_, hholds.knows, fun k _ => ⟨rfl, fun x hx => ?_⟩⟩
    change x ∈ unitNames pkg.units k at hx
    unfold unitNames at hx
    cases ho : pkg.units[k]? with
    | none =>
      rw [ho] at hx
      cases hx
    | some d =>
      rw [ho] at hx
      obtain ⟨himport, hfunc⟩ := hpure.free (List.mem_of_getElem? ho) hx
      unfold withFunctions
      rw [if_neg hfunc]
      exact hopen.readings_eq_none himport
  have hfuncs : ∀ x, x ∈ pkg'.funcNames ↔ x ∈ pkg.funcNames :=
    fun x => (hperm.flatMap_right _).mem_iff
  have hholds' := hp'.holdsPlain hpure'.noInit hopen
  rw [withFunctions_congr hfuncs] at hholds'
  obtain ⟨done, left, env, htraced, hinit⟩ := ha.initializes rfl
    (hstands (hp.holdsPlain hpure.noInit hopen)) (linkDecls_eq_runUnits hpure h)
  obtain ⟨done', left', env', htraced', hinit'⟩ := ha'.initializes rfl (hstands hholds')
    (linkDecls_eq_runUnits hpure' h')
  exact ⟨hlink, _, _, _, _, hinit, hinit', htraced.alike htraced' ha.perm ha'.perm⟩

-- `var b = 1` and `var a = b`.
def ready : Package := { waiting with decls := waiting.decls.reverse }

def hasInitialTypes (t : TypeTable) : Bool :=
  match t.types with
  | [(name, ⟨.interface [method], [], none⟩)] =>
    name = TypeTable.errorName && method = TypeTable.errorMethod
  | _ => false

theorem eq_initial {t : TypeTable} (h : hasInitialTypes t = true) : t = .initial := by
  obtain ⟨types⟩ := t
  unfold hasInitialTypes at h
  split at h
  · next name method htypes =>
    simp only [Bool.and_eq_true, decide_eq_true_eq] at h
    obtain ⟨rfl, rfl⟩ := h
    exact congrArg TypeTable.mk htypes
  · cases h

-- Both orders get as far as their units, with the types that there are from the start.
def areInitial : Bool :=
  match prepare 0 waiting [] (withScope .empty), prepare 0 ready [] (withScope .empty) with
  | .ok compiled l, .ok _ l' =>
    hasInitialTypes l.library.types && hasInitialTypes l'.library.types &&
      compiled.units.all fun unit =>
        (l.library.code[unit.id]?.map fun f => decide (f.steps.size ≤ 20)).getD true
  | _, _ => false

-- One order needs two passes and the other one does not. They end in the same way.
theorem waiting_ends_like_ready : ∃ compiled compiled' l₁ l₁' done left done' left',
    Initializes smallOptions 0 waiting compiled l₁ done left
      (linkDecls smallOptions 0 waiting [] (withScope .empty)) ∧
    Initializes smallOptions 0 ready compiled' l₁' done' left'
      (linkDecls smallOptions 0 ready [] (withScope .empty)) ∧
    EndAlike 0 left left' (linkDecls smallOptions 0 waiting [] (withScope .empty))
      (linkDecls smallOptions 0 ready [] (withScope .empty)) := by
  have hinitial : areInitial = true := by decide +kernel
  unfold areInitial at hinitial
  split at hinitial
  · next compiled l₁ compiled' l₁' h h' =>
    simp only [Bool.and_eq_true, List.all_eq_true] at hinitial
    obtain ⟨⟨htypes, htypes'⟩, hfuel⟩ := hinitial
    have hsame : SameTypes l₁.library.types l₁'.library.types := by
      rw [eq_initial htypes, eq_initial htypes']
      exact .refl _
    have hpure : waiting.IsPure [] := by
      refine ⟨fun d hd => ?_, by decide, fun o ho e he => ?_⟩
      · cases hd
      · simp only [Package.units, waiting, Decl.units, List.flatMap_cons, List.flatMap_nil,
          List.append_nil, List.cons_append, List.nil_append, List.mem_cons, List.not_mem_nil,
          or_false] at ho
        rcases ho with rfl | rfl
        · obtain rfl := List.mem_singleton.mp he
          exact .ident _ (by decide)
        · obtain rfl := List.mem_singleton.mp he
          exact .lit _ _
    have henter : enter smallOptions none 0 [] waiting.imports (Link.start .empty) =
        .ok (0, []) (withScope .empty) := rfl
    have himports : ready.imports = waiting.imports := rfl
    have hperm : ready.decls.Perm waiting.decls := List.reverse_perm _
    obtain ⟨-, done, left, done', left', hall⟩ := initialization_does_not_depend_on_order
      (fun i hi => (List.not_mem_nil hi).elim) henter himports hperm hpure h h' hsame
      fun unit hunit f hf => by simpa [hf, smallOptions] using hfuel unit hunit
    exact ⟨compiled, compiled', l₁, l₁', done, left, done', left', hall⟩
  · cases hinitial

-- `func f() { type A []C }`.
def declaringA : Decl :=
  .func ⟨"f", none, .empty, [.typeDecl Span.none "A" (.slice (.named "C"))]⟩

-- `func g(x A) { var v D = x[0] + {1, func() { type U uint8 }} }`. The literal is of the type `C`
-- where the type of `x[0]` is known, and else of the type `D`. A `D` has one field, and what stands
-- behind the value for it is not compiled.
def usingA : Decl :=
  .func ⟨"g", none, ⟨[⟨some "x", .named "A"⟩], [], false⟩, [
    .var Span.none ⟨["v"], some (.named "D"), [.binary Note.empty .add
      (.index Note.empty (.ident Note.empty "x") (.lit Note.empty (.int 0)))
      (.composite Note.empty none [.plain (.lit Note.empty (.int 1)),
        .plain (.funcLit Note.empty .empty [.typeDecl Span.none "U" (.int .uint8)])])]⟩]⟩

-- `type C struct { a int; b func() }`, `type D struct { a int }`, functions, and `var q U = 300`.
def typedBy (funcs : List Decl) : Package := ⟨"main", [],
  [.type "C" (.struct [⟨"a", .plainInt, false⟩, ⟨"b", .func [] [] false, false⟩]),
    .type "D" (.struct [⟨"a", .plainInt, false⟩])] ++ funcs ++
  [.var ⟨["q"], some (.named "U"), [.lit Note.empty (.int 300)]⟩]⟩

-- The declared type of `q` and the number in it, where the package can be built.
def builtQ (funcs : List Decl) : Option (String × IntValue) :=
  match link smallOptions none 1 [] (typedBy funcs) (Link.start .empty) with
  | .ok scope l =>
    match l.machine.heap.local? scope "q" with
    | some (.named name (.int n)) => some (name, n)
    | _ => none
  | .error _ _ => none

-- Types in the bodies of functions are declared for the whole package, and functions are compiled
-- in the order of their declarations. So the order may decide which types there are, and with
-- that what a variable is bound to.
theorem order_decides_what_a_variable_is_bound_to :
    (typedBy [usingA, declaringA]).decls.Perm (typedBy [declaringA, usingA]).decls ∧
    (typedBy [declaringA, usingA]).IsPure [] ∧
    builtQ [declaringA, usingA] = some ("U", .ofInt .uint8 44) ∧
    builtQ [usingA, declaringA] = some ("U", .plain 300) := by
  refine ⟨?_, ⟨fun d hd _ => ?_, by decide, fun o ho e he => ?_⟩, by decide +kernel,
    by decide +kernel⟩
  · exact ((List.Perm.swap _ _ _).append_left _).append_right _
  · simp only [Package.funcs, typedBy, declaringA, usingA, List.cons_append, List.nil_append,
      List.filterMap_cons, List.filterMap_nil, List.mem_cons, List.not_mem_nil, or_false] at hd
    rcases hd with rfl | rfl <;> decide
  · simp only [Package.units, typedBy, declaringA, usingA, Decl.units, List.cons_append,
      List.nil_append, List.flatMap_cons, List.flatMap_nil, List.append_nil, List.mem_cons,
      List.not_mem_nil, or_false] at ho
    subst ho
    obtain rfl := List.mem_singleton.mp he
    exact .lit _ _

end StepGraph.Link

import StepGraph.Proofs.Package.Opening
import StepGraph.Proofs.Package.Settling

namespace StepGraph

open Heap (Env HoldsPlain Imported)

namespace Package

variable {pkg : Package} {imports : List String} {o : Origin}

theorem isUnit_of_mem (ho : o ∈ pkg.units) : o.isUnit = true := by
  obtain ⟨d, -, hd⟩ := List.mem_flatMap.mp ho
  cases d with
  | var spec =>
    obtain rfl := List.mem_singleton.mp hd
    rfl
  | const specs =>
    obtain ⟨line, -, rfl⟩ := List.mem_map.mp hd
    rfl
  | type | func => cases hd

theorem perm_names (pkg : Package) (imports : List String) :
    (boundNames (imports ++ pkg.valueNames)).Perm
      ((pkg.units.flatMap fun o => boundNames o.bound) ++
        boundNames (imports ++ pkg.funcNames)) := by
  have hvalues : pkg.valueNames.Perm (pkg.units.flatMap Origin.bound ++ pkg.funcNames) := by
    unfold valueNames units funcNames
    rw [List.flatMap_assoc]
    exact (List.flatMap_append_perm _ _ _).symm
  have hunits : (pkg.units.flatMap fun o => boundNames o.bound) =
      boundNames (pkg.units.flatMap Origin.bound) := by
    unfold boundNames
    rw [List.filter_flatMap]
  rw [hunits]
  unfold boundNames
  rw [← List.filter_append]
  refine List.Perm.filter _ ((hvalues.append_left imports).trans ?_)
  rw [← List.append_assoc, ← List.append_assoc]
  exact List.perm_append_comm.append_right _

theorem IsPure.nodup_names (h : pkg.IsPure imports) :
    (pkg.units.flatMap fun o => boundNames o.bound).Nodup :=
  (List.nodup_append.mp ((pkg.perm_names imports).nodup_iff.mp h.distinct)).1

-- What a unit binds is neither an import nor a function.
theorem IsPure.free (h : pkg.IsPure imports) (ho : o ∈ pkg.units) {x : String}
    (hx : x ∈ boundNames o.bound) : x ∉ imports ∧ x ∉ pkg.funcNames := by
  have hapart := (List.nodup_append.mp ((pkg.perm_names imports).nodup_iff.mp h.distinct)).2.2
  have hblank : x ≠ Names.blank := by simpa using (List.mem_filter.mp hx).2
  have hnew : x ∉ imports ++ pkg.funcNames := fun hmem =>
    hapart x (List.mem_flatMap.mpr ⟨o, ho, hx⟩) x
      (List.mem_filter.mpr ⟨hmem, by simpa using hblank⟩) rfl
  exact ⟨fun hn => hnew (List.mem_append_left _ hn), fun hn => hnew (List.mem_append_right _ hn)⟩

end Package

namespace Link

variable {pkg pkg' : Package} {imports : List String}

-- The units of a package by their numbers, in the order in which they are declared.

def unitSteps (code : Array Function) (units : List CodeRef) (k : Nat) : Array Step :=
  ((units[k]?.bind fun ref => code[ref.id]?).map (·.steps)).getD #[]

def unitNames (origins : List Origin) (k : Nat) : List String :=
  (origins[k]?.map fun o => boundNames o.bound).getD []

-- A package whose units are compiled.
structure UnitsCompiled (pkg : Package) (imports : List String) (lib : Library)
    (units : List CodeRef) :
    Prop where
  pure : pkg.IsPure imports
  units : ∃ types, SameTypes types lib.types ∧
    List.Forall₂ (Origin.IsCompiled (.ofPackage pkg imports) types lib.code) pkg.units units

namespace UnitsCompiled

variable {lib lib' : Library} {units units' : List CodeRef} {k : Nat} {o : Origin}

theorem unitNames_eq (ho : pkg.units[k]? = some o) :
    unitNames pkg.units k = boundNames o.bound := by
  unfold unitNames
  rw [ho]
  rfl

theorem pureUnit (h : UnitsCompiled pkg imports lib units) (k : Nat) :
    PureUnit (unitSteps lib.code units k) (unitNames pkg.units k) := by
  obtain ⟨types, -, hunits⟩ := h.units
  unfold unitSteps unitNames
  rcases Lists.getElem?_of_forall₂ hunits k with ⟨ho, hu⟩ |
    ⟨o, ref, ho, hu, code₀, b, f, hhead, hf, hsteps⟩
  · rw [ho, hu]
    refine ⟨fun {i j s} hs => ?_, fun {i s} hs => ?_, fun hnames => absurd rfl hnames⟩ <;> cases hs
  · have hmem := List.mem_of_getElem? ho
    have hpure := (Origin.settled_head (Package.isUnit_of_mem hmem)
      (h.pure.values o hmem) hhead).isPure
    rw [ho, hu]
    simp only [Option.bind_some, hf, Option.map_some, Option.getD_some, hsteps]
    exact hpure

-- What the orders have in common is taken from one of them.
def shared (h : UnitsCompiled pkg imports lib units) (fuel : Nat)
    (hfuel : ∀ unit ∈ units, ∀ f, lib.code[unit.id]? = some f → f.steps.size ≤ fuel) : Units where
  types := lib.types
  fuel := fuel
  count := pkg.units.length
  steps := unitSteps lib.code units
  names := unitNames pkg.units
  isPure := h.pureUnit
  nodup k := by
    unfold unitNames
    cases ho : pkg.units[k]? with
    | none => exact .nil
    | some o =>
      exact (List.nodup_flatMap.mp h.pure.nodup_names).1 o (List.mem_of_getElem? ho)
  short k := by
    unfold unitSteps
    cases hu : units[k]? with
    | none => exact Nat.zero_le _
    | some ref =>
      cases hf : lib.code[ref.id]? with
      | none => simp [hf]
      | some f => simpa [hf] using hfuel ref (List.mem_of_getElem? hu) f hf
  apart j k hne := by
    have hpairs := List.pairwise_iff_getElem.mp (List.nodup_flatMap.mp h.pure.nodup_names).2
    unfold unitNames
    cases hj : pkg.units[j]? with
    | none => exact fun _ hx => (List.not_mem_nil hx).elim
    | some a =>
      cases hk : pkg.units[k]? with
      | none => exact fun _ _ hx => (List.not_mem_nil hx).elim
      | some b =>
        obtain ⟨hj', rfl⟩ := List.getElem?_eq_some_iff.mp hj
        obtain ⟨hk', rfl⟩ := List.getElem?_eq_some_iff.mp hk
        rcases Nat.lt_or_gt_of_ne hne with hlt | hlt
        · exact hpairs j k hj' hk' hlt
        · exact fun x hx hx' => hpairs k j hk' hj' hlt hx' hx

end UnitsCompiled

-- Numbers stand for whatever is at their places.
theorem exists_map_eq {α : Type} [Inhabited α] {keys : List Nat} (hkeys : keys.Nodup) {l : List α}
    (hlength : keys.length = l.length) : ∃ f : Nat → α, keys.map f = l := by
  induction keys generalizing l with
  | nil => exact ⟨fun _ => default, (List.eq_nil_of_length_eq_zero hlength.symm).symm⟩
  | cons k keys ih =>
    cases l with
    | nil => cases hlength
    | cons a l =>
      obtain ⟨hk, hkeys⟩ := List.nodup_cons.mp hkeys
      obtain ⟨f, rfl⟩ := ih hkeys (Nat.succ.inj hlength)
      refine ⟨Function.update f k a, ?_⟩
      rw [List.map_cons, Function.update_self]
      refine congrArg (a :: ·) (List.map_congr_left fun j hj => ?_)
      exact Function.update_of_ne (fun he : j = k => hk (he ▸ hj)) _ _

-- The units of a package in some order: `keys` are their numbers as they are declared.
structure Arranged (u : Units) (origin : Nat → Origin) (p : Program) (origins : List Origin)
    (units : List CodeRef) (keys : List Nat) (ref : Nat → CodeRef) : Prop where
  perm : keys.Perm (List.range u.count)
  origins : origins = keys.map origin
  units : units = keys.map ref
  names : ∀ k, k < u.count → u.names k = boundNames (origin k).bound
  runs : u.InProgram p ref

-- Declarations in another order have the same units.
theorem UnitsCompiled.arranged {lib lib' : Library} {units units' : List CodeRef}
    (h : UnitsCompiled pkg imports lib units) (h' : UnitsCompiled pkg' imports lib' units')
    (hperm : pkg'.decls.Perm pkg.decls) (ht : SameTypes lib.types lib'.types) {o : BuildOptions}
    (hfuel : ∀ unit ∈ units, ∀ f, lib.code[unit.id]? = some f → f.steps.size ≤ o.fuel)
    {origin : Nat → Origin} (horigin : pkg.units = (List.range pkg.units.length).map origin) :
    ∃ keys ref, Arranged (h.shared o.fuel hfuel) origin (initializer o lib') pkg'.units units' keys
      ref := by
  obtain ⟨types, htypes, hunits⟩ := h.units
  obtain ⟨types', htypes', hunits'⟩ := h'.units
  have hperms : pkg'.units.Perm ((List.range pkg.units.length).map origin) :=
    horigin ▸ hperm.flatMap_right _
  obtain ⟨keys, horigins, hkeys⟩ : ∃ keys : List Nat, pkg'.units = keys.map origin ∧
      keys.Perm (List.range pkg.units.length) :=
    (congrFun (congrFun (List.eq_map_comp_perm origin) _) _).mpr hperms
  have hlength : keys.length = units'.length := by
    rw [← hunits'.length_eq, horigins, List.length_map]
  have : Inhabited CodeRef := ⟨⟨0, ""⟩⟩
  obtain ⟨ref, rfl⟩ := exists_map_eq (hkeys.nodup_iff.mpr List.nodup_range) hlength
  have hnames : SameNames ⟨.ofPackage pkg imports, types, []⟩
      ⟨.ofPackage pkg' imports, types', []⟩ :=
    PackageNames.sameNames_of_perm h.pure hperm (htypes.trans (ht.trans htypes'.symm))
  rw [horigins, List.forall₂_map_left_iff, List.forall₂_map_right_iff, List.forall₂_same] at hunits'
  have horigin_k : ∀ k, k < pkg.units.length → pkg.units[k]? = some (origin k) := by
    intro k hk
    rw [horigin, List.getElem?_map, List.getElem?_range hk]
    rfl
  refine ⟨keys, ref, hkeys, horigins, rfl, fun k hk =>
    UnitsCompiled.unitNames_eq (horigin_k k hk), rfl,
    ht, fun k hk => ?_⟩
  obtain ⟨code₀', b', f', hhead', hf', hsteps'⟩ :=
    hunits' k (hkeys.mem_iff.mpr (List.mem_range.mpr hk))
  refine ⟨f', hf', ?_⟩
  have horigin_k := horigin_k k hk
  rcases Lists.getElem?_of_forall₂ hunits k with ⟨ho, -⟩ |
    ⟨o₁, unit, ho, hu, code₀, b, f, hhead, hf, hsteps⟩
  · rw [ho] at horigin_k
    cases horigin_k
  · rw [ho] at horigin_k
    obtain rfl := Option.some.inj horigin_k
    have hmem := List.mem_of_getElem? ho
    have hsame := Origin.steps_head_eq (Package.isUnit_of_mem hmem) (h.pure.values _ hmem) hnames
      hhead hhead'
    change f'.steps = unitSteps lib.code units k
    unfold unitSteps
    rw [hu, hsteps', hsame, ← hsteps]
    simp [hf]

end Link

end StepGraph

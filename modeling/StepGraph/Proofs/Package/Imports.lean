import StepGraph.Proofs.Package.Declarations
import Mathlib.Data.List.Basic
import Mathlib.Data.List.Forall2
import Mathlib.Logic.Relation
import Mathlib.Tactic.Common

open EStateM (bind_apply bind_eq_error)

namespace StepGraph.Link

variable {α : Type}

variable (o : BuildOptions) (fe : Option FrontEnd)

-- Something that changes nothing of what is linked, and does not depend on it.
def OnlyReads (x : Link α) (r : Except BuildError α) : Prop :=
  ∀ l, x l = match r with
    | .ok a => .ok a l
    | .error e => .error e l

theorem exists_reads_loadSource (path : String) : ∃ r, OnlyReads (loadSource o fe path) r ∧
    ∀ e, r = .error e → e.isOfPackage = false ∧ ∀ q, e ≠ .importCycle q := by
  have hthrow : ∀ e : BuildError, (e.isOfPackage = false ∧ ∀ q, e ≠ .importCycle q) →
      ∃ r, OnlyReads (throw e : Link Package) r ∧
        ∀ e, r = .error e → e.isOfPackage = false ∧ ∀ q, e ≠ .importCycle q := by
    intro e he
    refine ⟨.error e, fun _ => rfl, ?_⟩
    rintro _ ⟨⟩
    exact he
  unfold loadSource
  split
  · dsimp only
    split
    · exact hthrow _ ⟨rfl, nofun⟩
    · split
      · exact hthrow _ ⟨rfl, nofun⟩
      · split
        · exact ⟨.ok _, fun _ => rfl, nofun⟩
        · exact hthrow _ ⟨rfl, nofun⟩
  · exact hthrow _ ⟨rfl, nofun⟩

-- The source package of an import path.
def source (path : String) : Except BuildError Package :=
  match loadSource o fe path (start .silent) with
  | .ok pkg _ => .ok pkg
  | .error e _ => .error e

theorem reads_loadSource (path : String) : OnlyReads (loadSource o fe path) (source o fe path) := by
  obtain ⟨r, hr, -⟩ := exists_reads_loadSource o fe path
  have hsource : source o fe path = r := by
    unfold source
    rw [hr]
    cases r <;> rfl
  rwa [hsource]

-- What is imported under a path: nothing by a package of the embedder.
def IsSource (path : String) (pkg : Package) : Prop :=
  o.hosts.lookup path = none ∧ source o fe path = .ok pkg

def Imports (path path' : String) : Prop :=
  ∃ pkg, IsSource o fe path pkg ∧ ∃ i ∈ pkg.imports, i.path = path'

-- What a package imports, directly or through other packages.
def Reaches (pkg : Package) (path : String) : Prop :=
  ∃ i ∈ pkg.imports, Relation.ReflTransGen (Imports o fe) i.path path

variable {o fe} {pkg : Package} {path path' : String}

theorem Reaches.trans {pkg' : Package} (h : Reaches o fe pkg path)
    (hsource : IsSource o fe path pkg') (h' : Reaches o fe pkg' path') : Reaches o fe pkg path' := by
  obtain ⟨i, hi, hpath⟩ := h
  obtain ⟨j, hj, hpath'⟩ := h'
  exact ⟨i, hi, (hpath.tail ⟨pkg', hsource, j, hj, rfl⟩).trans hpath'⟩

-- The packages that are linked for a package: itself, and the source packages that it reaches.
def Involves (o : BuildOptions) (fe : Option FrontEnd) (root pkg : Package) : Prop :=
  pkg = root ∨ ∃ path, Reaches o fe root path ∧ IsSource o fe path pkg

theorem Involves.reaches {root : Package} (h : Involves o fe root pkg)
    (hreach : Reaches o fe pkg path) : Reaches o fe root path := by
  rcases h with rfl | ⟨_, hroot, hsource⟩
  · exact hreach
  · exact hroot.trans hsource hreach

-- The source packages whose imports are being resolved import each other, the first one last.
def ImportsStacked (o : BuildOptions) (fe : Option FrontEnd) (linking : List String)
    (pkg : Package) :
    Prop :=
  linking.IsChain (fun newer older => Imports o fe older newer) ∧
    ∀ path ∈ linking.head?, IsSource o fe path pkg

def loading (path : String) (ref : PackageRef) (l : Linker) : Linker :=
  { l with loaded := (path, ref) :: l.loaded }

theorem resolveImport_apply (linking : List String) (link : String → Package → Link ScopeId)
    (path : String) (l : Linker) : resolveImport o fe linking link path l =
      match l.loaded.lookup path with
      | some ref => .ok ref l
      | none =>
          if path ∈ linking then .error (.importCycle path) l
          else match o.hosts.lookup path with
            | some host => .ok ⟨path, host.name, none⟩ (loading path ⟨path, host.name, none⟩ l)
            | none =>
                match source o fe path with
                | .error e => .error e l
                | .ok pkg =>
                    match link path pkg l with
                    | .error e l => .error e l
                    | .ok scope l => .ok ⟨path, pkg.name, some scope⟩
                        (loading path ⟨path, pkg.name, some scope⟩ l) := by
  unfold resolveImport
  rw [bind_apply]
  change (match l.loaded.lookup path with
    | some ref => _
    | none => _ : Link PackageRef) l = _
  cases l.loaded.lookup path with
  | some ref => rfl
  | none =>
      dsimp only
      by_cases hpath : path ∈ linking
      · rw [if_pos hpath, if_pos (List.contains_iff_mem.mpr hpath)]
        rfl
      · rw [if_neg hpath, if_neg fun h => hpath (List.contains_iff_mem.mp h)]
        cases o.hosts.lookup path with
        | some host => rfl
        | none =>
            dsimp only
            rw [bind_apply, reads_loadSource]
            cases source o fe path with
            | error e => rfl
            | ok pkg =>
                dsimp only
                rw [bind_apply]
                cases link path pkg l <;> rfl

-- How many of the paths are not among those that are being linked.
def room (paths linking : List String) : Nat := (paths.filter (· ∉ linking)).length

theorem ImportsStacked.reaches {linking : List String} (h : ImportsStacked o fe linking pkg)
    (hpath : path ∈ linking) {i : Import} (hi : i ∈ pkg.imports) :
    Relation.TransGen (Imports o fe) path i.path := by
  obtain ⟨hchain, hsource⟩ := h
  have hhead : ∀ newest ∈ linking.head?, Relation.ReflTransGen (Imports o fe) path newest := by
    clear hsource
    induction linking with
    | nil => cases hpath
    | cons newest rest ih =>
        rintro _ ⟨⟩
        rcases List.mem_cons.mp hpath with rfl | hrest
        · exact .refl
        · obtain ⟨older, rest, rfl⟩ := List.exists_cons_of_ne_nil (List.ne_nil_of_mem hrest)
          rw [List.isChain_cons_cons] at hchain
          exact (ih hrest hchain.2 older rfl).tail hchain.1
  obtain ⟨newest, rest, rfl⟩ := List.exists_cons_of_ne_nil (List.ne_nil_of_mem hpath)
  exact .tail' (hhead newest rfl) ⟨pkg, hsource newest rfl, i, hi, rfl⟩

theorem ImportsStacked.cons {linking : List String} (h : ImportsStacked o fe linking pkg)
    {i : Import} (hi : i ∈ pkg.imports) {pkg' : Package} (hsource : IsSource o fe i.path pkg') :
    ImportsStacked o fe (i.path :: linking) pkg' := by
  obtain ⟨hchain, hhead⟩ := h
  refine ⟨?_, ?_⟩
  · cases linking with
    | nil => exact .singleton _
    | cons newest rest => exact .cons_cons ⟨pkg, hhead newest rfl, i, hi, rfl⟩ hchain
  · rintro _ ⟨⟩
    exact hsource

end StepGraph.Link

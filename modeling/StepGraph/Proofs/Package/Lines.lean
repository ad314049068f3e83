import StepGraph.Proofs.Compile.PureValues
import Mathlib.Data.List.Nodup

open EStateM (bind_eq_ok)

namespace StepGraph

namespace Decl

-- The declarations that are run when a package is initialized, one for each line of a constant
-- block.
def units : Decl → List Origin
  | .var spec => [.var spec]
  | .const specs => (ConstSpec.filled none specs).zipIdx.map fun (line, iota) => .const line iota
  | .type .. | .func _ => []

-- The name of a function that is declared, unless it is a method.
def funcNames : Decl → List String
  | .func d => if d.recv.isNone then [d.name] else []
  | _ => []

-- The names of the values that are declared.
def valueNames (d : Decl) : List String := d.units.flatMap Origin.bound ++ d.funcNames

end Decl

namespace Package

def units (pkg : Package) : List Origin := pkg.decls.flatMap Decl.units

def funcNames (pkg : Package) : List String := pkg.decls.flatMap Decl.funcNames

def valueNames (pkg : Package) : List String := pkg.decls.flatMap Decl.valueNames

theorem mem_funcNames {pkg : Package} {x : String} :
    x ∈ pkg.funcNames ↔ ∃ d ∈ pkg.funcs, d.recv = none ∧ d.name = x := by
  unfold funcNames funcs
  induction pkg.decls with
  | nil => simp
  | cons d rest ih =>
    rw [List.flatMap_cons, List.mem_append, ih]
    cases d with
    | func d =>
      have hhead : x ∈ (Decl.func d).funcNames ↔ d.recv = none ∧ d.name = x := by
        unfold Decl.funcNames
        simp only
        split <;> simp_all [@eq_comm _ x]
      simp [hhead, or_and_right, exists_or]
    | _ => simp [Decl.funcNames]

-- A package whose variables and constants start with literals, names and operators on these. No
-- name has two meanings, and no function runs when the package is initialized.
structure IsPure (pkg : Package) (imports : List String) : Prop where
  noInit : ∀ d ∈ pkg.funcs, d.recv = none → d.name ≠ Build.unitName
  distinct : (boundNames (imports ++ pkg.valueNames)).Nodup
  values : ∀ o ∈ pkg.units, ∀ e ∈ o.values, e.IsPure

variable {pkg pkg' : Package} {imports : List String}

theorem IsPure.of_perm (h : pkg.IsPure imports) (hperm : pkg'.decls.Perm pkg.decls) :
    pkg'.IsPure imports := by
  refine ⟨fun d hd => h.noInit d ((hperm.filterMap _).subset hd), ?_, fun o ho =>
    h.values o ((hperm.flatMap_right _).subset ho)⟩
  have hnames : (boundNames (imports ++ pkg'.valueNames)).Perm
      (boundNames (imports ++ pkg.valueNames)) :=
    ((hperm.flatMap_right _).append_left imports).filter _
  exact hnames.nodup_iff.mpr h.distinct

end Package

-- Names of which none is declared twice mean the same whatever the order.

-- A name that is not blank stands in front of one entry only.
theorem entry_unique {β : Type} {l : List (String × β)} (h : (boundNames (l.map (·.1))).Nodup)
    {x : String} (hx : x ≠ Names.blank) : ∀ v w, (x, v) ∈ l → (x, w) ∈ l → v = w := by
  have hkeys : boundNames (l.map (·.1)) = (l.filter (·.1 ≠ Names.blank)).map (·.1) := by
    unfold boundNames
    rw [List.filter_map]
    rfl
  rw [hkeys] at h
  intro v w hv hw
  have hkept : ∀ {v}, (x, v) ∈ l → (x, v) ∈ l.filter (·.1 ≠ Names.blank) :=
    fun hv => List.mem_filter.mpr ⟨hv, by simpa using hx⟩
  have hsame := List.inj_on_of_nodup_map h (hkept hv) (hkept hw) rfl
  exact congrArg Prod.snd hsame

namespace PackageNames

-- What a declaration tells about variables and constants.
def globalsOf (names : List String) (ty : Option Ty) (values : List Expr) :
    List (String × Option Ty) :=
  names.zip (if ty.isSome then List.replicate names.length ty
    else if values.length = names.length then values.map initializerType
    else List.replicate names.length none)

theorem keys_globalsOf (names : List String) (ty : Option Ty) (values : List Expr) :
    (globalsOf names ty values).map (·.1) = names := by
  refine List.map_fst_zip ?_
  split_ifs with hty hlength <;> simp_all

theorem addGlobals_eq (p : PackageNames) (names : List String) (ty : Option Ty)
    (values : List Expr) : p.addGlobals names ty values =
      { p with globals := (globalsOf names ty values).reverse ++ p.globals } := by
  change (globalsOf names ty values).foldl (fun p x => p.addGlobal x.1 x.2) p = _
  generalize globalsOf names ty values = l
  induction l generalizing p with
  | nil => rfl
  | cons x l ih =>
    rw [List.foldl_cons, ih, List.reverse_cons, List.append_assoc]
    rfl

end PackageNames

namespace Decl

open PackageNames (globalsOf)

-- The variables and constants that a declaration makes known, with their types.
def globals : Decl → List (String × Option Ty)
  | .var spec => globalsOf spec.names spec.ty spec.values
  | .const specs => (ConstSpec.filled none specs).flatMap fun s => globalsOf s.names s.ty s.values
  | .type .. | .func _ => []

-- The functions that it makes known.
def funcs : Decl → List (String × FuncTy)
  | .func d =>
    if d.recv.isNone ∧ d.name ≠ Build.unitName then [(d.name, .ofSignature d.sig)] else []
  | _ => []

theorem addDecl_globals (p : PackageNames) (d : Decl) :
    (p.addDecl d).globals = d.globals.reverse ++ p.globals := by
  cases d with
  | var spec => exact congrArg (·.globals) (p.addGlobals_eq _ _ _)
  | type => rfl
  | func d =>
    unfold PackageNames.addDecl
    dsimp only
    split
    · rfl
    · split <;> rfl
  | const specs =>
    unfold PackageNames.addDecl globals
    dsimp only
    generalize ConstSpec.filled none specs = lines
    induction lines generalizing p with
    | nil => rfl
    | cons line lines ih =>
      rw [List.foldl_cons, ih, p.addGlobals_eq, List.flatMap_cons, List.reverse_append,
        List.append_assoc]

theorem addDecl_funcs (p : PackageNames) (d : Decl) :
    (p.addDecl d).funcs = d.funcs ++ p.funcs ∧ (p.addDecl d).imports = p.imports := by
  cases d with
  | var spec =>
    unfold PackageNames.addDecl
    dsimp only
    rw [p.addGlobals_eq]
    exact ⟨rfl, rfl⟩
  | type => exact ⟨rfl, rfl⟩
  | func d =>
    unfold PackageNames.addDecl funcs
    dsimp only
    cases hrecv : d.recv with
    | some recv => exact ⟨rfl, rfl⟩
    | none =>
      by_cases hname : d.name = Build.unitName
      · simp [hname]
      · simp only [hname, if_false, Option.isNone_none, ne_eq, not_false_eq_true, and_self, if_true]
        exact ⟨rfl, rfl⟩
  | const specs =>
    unfold PackageNames.addDecl funcs
    dsimp only
    generalize ConstSpec.filled none specs = lines
    induction lines generalizing p with
    | nil => exact ⟨rfl, rfl⟩
    | cons line lines ih =>
      rw [List.foldl_cons]
      have hrest := ih (p.addGlobals line.names line.ty line.values)
      rw [p.addGlobals_eq] at hrest ⊢
      exact hrest

-- The names that its units bind.
theorem bound_units (d : Decl) : d.units.flatMap Origin.bound = d.globals.map (·.1) := by
  cases d with
  | var spec => exact (List.append_nil _).trans (PackageNames.keys_globalsOf _ _ _).symm
  | type | func => rfl
  | const specs =>
    change ((ConstSpec.filled none specs).zipIdx.map _).flatMap Origin.bound =
      ((ConstSpec.filled none specs).flatMap _).map _
    generalize ConstSpec.filled none specs = lines
    rw [List.map_flatMap, List.flatMap_map]
    calc lines.zipIdx.flatMap (fun line => line.1.names)
      _ = (lines.zipIdx.map Prod.fst).flatMap (·.names) := by rw [List.flatMap_map]
      _ = lines.flatMap (·.names) := by rw [List.zipIdx_map_fst]
      _ = lines.flatMap fun s => (globalsOf s.names s.ty s.values).map (·.1) := by
        simp only [PackageNames.keys_globalsOf]

theorem keys_globals_sublist (d : Decl) : (d.globals.map (·.1)).Sublist d.valueNames := by
  rw [← bound_units]
  exact List.sublist_append_left _ _

end Decl

namespace PackageNames

variable {pkg pkg' : Package} {imports : List String}

theorem foldl_addDecl (decls : List Decl) (p : PackageNames) :
    (decls.foldl addDecl p).globals = (decls.flatMap Decl.globals).reverse ++ p.globals ∧
      (decls.foldl addDecl p).funcs = (decls.map Decl.funcs).reverse.flatten ++ p.funcs ∧
      (decls.foldl addDecl p).imports = p.imports := by
  induction decls generalizing p with
  | nil => exact ⟨rfl, rfl, rfl⟩
  | cons d rest ih =>
    obtain ⟨hglobals, hfuncs, himports⟩ := ih (p.addDecl d)
    obtain ⟨hfirst, hsame⟩ := Decl.addDecl_funcs p d
    rw [List.foldl_cons, hglobals, hfuncs, himports, Decl.addDecl_globals, hfirst, hsame]
    simp

theorem foldl_addImport (imports : List String) (p : PackageNames) :
    imports.foldl addImport p = { p with imports := imports.reverse ++ p.imports } := by
  induction imports generalizing p with
  | nil => rfl
  | cons x rest ih => simp [ih, addImport]

theorem ofPackage_globals (pkg : Package) (imports : List String) :
    (ofPackage pkg imports).globals = (pkg.decls.flatMap Decl.globals).reverse := by
  unfold ofPackage
  rw [(foldl_addDecl _ _).1, foldl_addImport]
  exact List.append_nil _

theorem ofPackage_funcs (pkg : Package) (imports : List String) :
    (ofPackage pkg imports).funcs = (pkg.decls.map Decl.funcs).reverse.flatten := by
  unfold ofPackage
  rw [(foldl_addDecl _ _).2.1, foldl_addImport]
  exact List.append_nil _

theorem ofPackage_imports (pkg : Package) (imports : List String) :
    (ofPackage pkg imports).imports = imports.reverse := by
  unfold ofPackage
  rw [(foldl_addDecl _ _).2.2, foldl_addImport]
  exact List.append_nil _

-- The order of the declarations makes no difference to the names.
theorem sameNames_of_perm {types types' : TypeTable} (hpure : pkg.IsPure imports)
    (hperm : pkg'.decls.Perm pkg.decls) (ht : SameTypes types types') :
    SameNames ⟨ofPackage pkg imports, types, []⟩ ⟨ofPackage pkg' imports, types', []⟩ := by
  have hglobals : (ofPackage pkg' imports).globals.Perm (ofPackage pkg imports).globals := by
    rw [ofPackage_globals, ofPackage_globals]
    exact (List.reverse_perm _).trans ((hperm.flatMap_right _).trans (List.reverse_perm _).symm)
  have hfuncs : (ofPackage pkg' imports).funcs.Perm (ofPackage pkg imports).funcs := by
    rw [ofPackage_funcs, ofPackage_funcs]
    exact ((List.reverse_perm _).trans
      ((hperm.map _).trans (List.reverse_perm _).symm)).flatten
  refine ⟨rfl, ht, fun x _ => ?_, fun x hx => ?_⟩
  · unfold declares isGlobal isImport
    rw [Lists.lookup_isSome_of_perm hglobals, Lists.lookup_isSome_of_perm hfuncs, ofPackage_imports,
      ofPackage_imports]
  · refine Lists.lookup_eq_of_perm (entry_unique ?_ hx) hglobals
    have hkeys : ((ofPackage pkg imports).globals.map (·.1)).Perm
        ((pkg.decls.flatMap Decl.globals).map (·.1)) := by
      rw [ofPackage_globals]
      exact (List.reverse_perm _).map _
    have hsub : ((pkg.decls.flatMap Decl.globals).map (·.1)).Sublist
        (imports ++ pkg.valueNames) := by
      rw [List.map_flatMap]
      exact (Lists.sublist_flatMap _ Decl.keys_globals_sublist).trans (List.sublist_append_right _ _)
    exact (hkeys.filter _).nodup_iff.mpr (hpure.distinct.sublist (hsub.filter _))

end PackageNames

-- The function under this number has the steps that the declaration is compiled to.
def Origin.IsCompiled (names : PackageNames) (types : TypeTable) (code : Array Function)
    (o : Origin) (ref : CodeRef) : Prop :=
  ∃ code₀ b f, o.head (.start ⟨names, types, []⟩ code₀ .empty) = .ok () b ∧
    code[ref.id]? = some f ∧ f.steps = b.steps

theorem Origin.IsCompiled.extend {names : PackageNames} {types : TypeTable}
    {code code' : Array Function} {o : Origin} {ref : CodeRef}
    (h : o.IsCompiled names types code ref) (he : Code.Extends code code') :
    o.IsCompiled names types code' ref := by
  obtain ⟨code₀, b, f, hhead, hf, hsteps⟩ := h
  exact ⟨code₀, b, f, hhead, he _ _ hf, hsteps⟩

namespace Compile

open Build

variable {α β : Type} {names : PackageNames} {types : TypeTable} {lib lib' : Library}

-- What each call does with the types and the code, all of them do in turn.
theorem mapM_made {f : α → Compile β} {R : Array Function → α → β → Prop} {l : List α}
    (hadds : ∀ a, AddsFunctions (f a)) (hf : ∀ a ∈ l, ∀ lib b lib', lib.types = types →
      f a lib = .ok b lib' → lib'.types = types ∧ R lib'.code a b)
    (hgood : ∀ code code' a b, Code.Extends code code' → R code a b → R code' a b)
    {bs : List β} (hlib : lib.types = types) (h : l.mapM f lib = .ok bs lib') :
    lib'.types = types ∧ List.Forall₂ (R lib'.code) l bs := by
  induction l generalizing lib bs with
  | nil =>
    cases h
    exact ⟨hlib, .nil⟩
  | cons a l ih =>
    rw [List.mapM_cons] at h
    obtain ⟨b, lib₁, h₁, h⟩ := bind_eq_ok.mp h
    obtain ⟨bs', lib₂, h₂, h⟩ := bind_eq_ok.mp h
    cases h
    obtain ⟨htypes, hfirst⟩ := hf a List.mem_cons_self lib b lib₁ hlib h₁
    obtain ⟨htypes', hrest⟩ := ih (fun a ha => hf a (List.mem_cons_of_mem _ ha)) htypes h₂
    have hextends := (AddsFunctions.mapM hadds lib₁ bs' lib' h₂).keeps
    exact ⟨htypes', .cons (hgood _ _ _ _ hextends hfirst) hrest⟩

theorem isCompiled_function {o : Origin} {ref : CodeRef} (ho : o.isUnit = true)
    (hpure : ∀ e ∈ o.values, e.IsPure) (hlib : lib.types = types)
    (h : function names .empty o.build lib = .ok ref lib') :
    lib'.types = types ∧ o.IsCompiled names types lib'.code ref := by
  rw [← Origin.sig_of_isUnit ho] at h
  obtain ⟨b', hb', rfl⟩ := function_ok h
  rw [Origin.sig_of_isUnit ho, o.build_eq, hlib] at hb'
  obtain ⟨_, b, hhead, hrest⟩ := bind_eq_ok.mp hb'
  obtain ⟨-, hgotos⟩ := Origin.areOfUnit_head ho hhead
  have hbody : compileStmts o.body = pure () := by
    cases o with
    | func | literal => cases ho
    | var | const =>
      unfold Origin.body compileStmts
      rfl
  rw [hbody, pure_bind] at hrest
  obtain ⟨steps, hresolves, rfl, rfl⟩ := finish_ok hrest
  rw [hgotos] at hresolves
  cases hresolves
  have hnames := (Origin.settled_head ho hpure hhead).names
  exact ⟨congrArg (·.types) hnames, _, b, _, hhead, Array.getElem?_push_size, rfl⟩

theorem isCompiled_unitsOf {d : Decl} (hpure : ∀ o ∈ d.units, ∀ e ∈ o.values, e.IsPure)
    {units : List CodeRef} (hlib : lib.types = types) (h : unitsOf names d lib = .ok units lib') :
    lib'.types = types ∧ List.Forall₂ (Origin.IsCompiled names types lib'.code) d.units units := by
  cases d with
  | var spec =>
    obtain ⟨ref, lib₁, h₁, h⟩ := bind_eq_ok.mp h
    cases h
    obtain ⟨htypes, hcompiled⟩ := isCompiled_function (o := .var spec) rfl
      (hpure _ List.mem_cons_self) hlib h₁
    exact ⟨htypes, .cons hcompiled .nil⟩
  | const specs =>
    change ((ConstSpec.filled none specs).zipIdx.mapM fun (line, iota) =>
      function names .empty (Build.buildConst line iota)) lib = _ at h
    change ∀ o ∈ (ConstSpec.filled none specs).zipIdx.map _, _ at hpure
    obtain ⟨htypes, hcompiled⟩ := mapM_made
      (R := fun code (line : ConstSpec × Nat) =>
        Origin.IsCompiled names types code (.const line.1 line.2))
      (fun line => adds_function (.const line.1 line.2))
      (fun line hline lib ref lib' hlib h =>
        isCompiled_function (o := .const line.1 line.2) rfl
          (hpure _ (List.mem_map_of_mem hline)) hlib h)
      (fun _ _ _ _ he h => h.extend he) hlib h
    exact ⟨htypes, List.forall₂_map_left_iff.mpr hcompiled⟩
  | type | func =>
    cases h
    exact ⟨hlib, .nil⟩

-- The units of a package are those of its declarations in turn.
theorem isCompiled_package {pkg : Package} (hpure : ∀ o ∈ pkg.units, ∀ e ∈ o.values, e.IsPure)
    {compiled : CompiledPackage} (h : package pkg names lib = .ok compiled lib') :
    List.Forall₂ (Origin.IsCompiled names lib'.types lib'.code) pkg.units compiled.units := by
  obtain ⟨built, lib₁, -, h⟩ := bind_eq_ok.mp h
  obtain ⟨units, lib₂, h₂, h⟩ := bind_eq_ok.mp h
  cases h
  obtain ⟨htypes, hunits⟩ := mapM_made
    (R := fun code d units => List.Forall₂ (Origin.IsCompiled names lib₁.types code) d.units units)
    adds_unitsOf
    (fun d hd lib units lib' hlib h => isCompiled_unitsOf
      (fun o ho => hpure o (List.mem_flatMap.mpr ⟨d, hd, ho⟩)) hlib h)
    (fun _ _ _ _ he h => h.imp fun _ _ h => h.extend he) rfl h₂
  rw [htypes]
  unfold Package.units
  rw [List.flatMap_def]
  exact List.rel_flatten (List.forall₂_map_left_iff.mpr hunits)

end Compile

end StepGraph

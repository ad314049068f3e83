import StepGraph.Package.Executable
import StepGraph.Proofs.Compile.Code
import StepGraph.Proofs.Structured.Calls

open EStateM (bind_of_ok bind_eq_ok)

namespace StepGraph.Structured

open Build

variable {funcs : Funcs} {ds : List (FuncDecl × FuncType)} {f : String} {t : FuncType}
  {p : Program} {pkg : ScopeId} {n : Nat} {lib lib' : Library} {pn : PackageNames} {α β : Type}
  {callee : String → Value}

-- The functions that can be called by their names. Initializers cannot.
def callable (ds : List (FuncDecl × FuncType)) : List (FuncDecl × FuncType) :=
  ds.filter fun d => d.1.name ≠ unitName

def funcsOf (ds : List (FuncDecl × FuncType)) : Funcs := (callable ds).map fun d => (d.1.name, d.2)

-- The declarations of a structured program with the types of its functions.
structure IsStructured (ds : List (FuncDecl × FuncType)) : Prop where
  distinct : ((callable ds).map fun d => d.1.name).Nodup
  declares : ∀ d ∈ ds, DeclaresFunc (funcsOf ds) d.1 d.2
  inits : ∀ d ∈ ds, d.1.name = unitName → d.2.params = []

-- The evaluation of a call of one of the functions.
def evaluate (ds : List FuncDecl) (n room : Nat) (f : String) (args : List Value) :
    Eval (Option Value) := do
  let call ← ofOption (calls (ds.filter fun d => d.name ≠ unitName) n room f)
  call args

theorem find?_of_lookup (h : (funcsOf ds).lookup f = some t) :
    ∃ d, ((callable ds).map (·.1)).find? (fun d => d.name = f) = some d ∧ (d, t) ∈ callable ds ∧
      d.name = f := by
  unfold funcsOf at h
  generalize callable ds = l at h ⊢
  induction l with
  | nil => cases h
  | cons d l ih =>
      rw [List.map_cons, Lists.lookup_cons_eq] at h
      by_cases hd : f = d.1.name
      · rw [if_pos hd] at h
        cases h
        exact ⟨d.1, by simp [hd], by simp, hd.symm⟩
      · rw [if_neg hd] at h
        obtain ⟨d', hfind, hmem, hname⟩ := ih h
        refine ⟨d', ?_, List.mem_cons_of_mem _ hmem, hname⟩
        rw [List.map_cons, List.find?_cons_of_neg (by simpa using Ne.symm hd), hfind]

theorem find?_of_lookup_none (h : (funcsOf ds).lookup f = none) :
    ((callable ds).map (·.1)).find? (fun d => d.name = f) = none := by
  unfold funcsOf at h
  generalize callable ds = l at h ⊢
  induction l with
  | nil => rfl
  | cons d l ih =>
      rw [List.map_cons, Lists.lookup_cons_eq] at h
      by_cases hd : f = d.1.name
      · rw [if_pos hd] at h
        cases h
      · rw [if_neg hd] at h
        rw [List.map_cons, List.find?_cons_of_neg (by simpa using Ne.symm hd), ih h]

-- The function value leads to code that was built from the declaration.
def LeadsToCode (ds : List (FuncDecl × FuncType)) (p : Program) (pkg : ScopeId) (d : FuncDecl × FuncType)
    (v : Value) : Prop :=
  ∃ ref f, v = .func (some (.closure ref pkg)) ∧ p.code[ref.id]? = some f ∧
    Implements (funcsOf ds) d.1 d.2 f

-- With so much room among the active calls, each call of a function does what its evaluation does.
def AnswersCalls (ds : List (FuncDecl × FuncType)) (p : Program) (callee : String → Value)
    (pkg : ScopeId) (n room : Nat) : Prop :=
  ∀ f t, (funcsOf ds).lookup f = some t →
    ∃ call, calls ((callable ds).map (·.1)) n room f = some call ∧
      ∀ args, List.Forall₂ Base.Has t.params args → ∀ span m, p.maxDepth - m.calls.size = room →
        Package (funcsOf ds) callee pkg m.heap →
        AnswersCall n (call args) t.result (fun k => p.call k (callee f) args false span m) m

-- A function that finds one place more among the active calls does what its evaluation does.
theorem AnswersCalls.body {room : Nat} (hcalls : AnswersCalls ds p callee pkg n room)
    (hp : IsStructured ds) {d : FuncDecl × FuncType} (hd : d ∈ ds) {ref : CodeRef} {fn : Function}
    (hfn : p.code[ref.id]? = some fn) (himpl : Implements (funcsOf ds) d.1 d.2 fn) {m : Machine}
    (hroom : p.maxDepth - m.calls.size = room + 1) (hpkg : Package (funcsOf ds) callee pkg m.heap)
    {args : List Value} (hargs : List.Forall₂ Base.Has d.2.params args) (span : Span) :
    AnswersCall n (function (calls ((callable ds).map (·.1)) n room) n d.1 args) d.2.result
      (fun k => p.call k (.func (some (.closure ref pkg))) args false span m) m := by
  refine answers_function (hp.declares d hd) himpl hfn (by omega) hpkg hargs (fun g t hg => ?_)
    fun g hg => ?_
  · obtain ⟨call, hcall, hanswers⟩ := hcalls g t hg
    exact ⟨call, hcall, fun args hargs span m' hm' hpkg' =>
      hanswers args hargs span m' (by omega) hpkg'⟩
  · have hnone := find?_of_lookup_none hg
    cases room <;> simp [calls, hnone]

-- Calls answer by induction on the number of those that may stand inside each other.
theorem answers_calls (hp : IsStructured ds)
    (hcode : ∀ d ∈ callable ds, LeadsToCode ds p pkg d (callee d.1.name)) (room : Nat) :
    AnswersCalls ds p callee pkg n room := by
  induction room with
  | zero =>
      intro f t hf
      obtain ⟨d, hfind, hmem, rfl⟩ := find?_of_lookup hf
      obtain ⟨ref, fn, hvalue, -⟩ := hcode _ hmem
      refine ⟨fun _ => throw .overflow, by simp [calls, hfind], fun args _ span m hroom _ => ?_⟩
      refine ⟨1, fun k => ⟨fun hk => ?_, fun hk => ?_⟩⟩
      · obtain rfl : k = 0 := by omega
        exact ⟨m, rfl⟩
      · obtain ⟨j, rfl⟩ := Nat.exists_eq_add_of_le' hk
        simp only [hvalue]
        unfold Program.call
        change StopsAlike _ _ ((get >>= fun m => if p.maxDepth ≤ m.calls.size then _ else _ :
          Exec (List Value)) m)
        rw [bind_of_ok (Exec.get_apply m), if_pos (by omega)]
        exact ⟨rfl, ⟨_, rfl⟩, rfl⟩
  | succ room ih =>
      intro f t hf
      obtain ⟨d, hfind, hmem, rfl⟩ := find?_of_lookup hf
      obtain ⟨ref, fn, hvalue, hfn, himpl⟩ := hcode _ hmem
      refine ⟨function (calls ((callable ds).map (·.1)) n room) n d, by simp [calls, hfind],
        fun args hargs span m hroom hpkg => ?_⟩
      rw [hvalue]
      exact ih.body hp (List.mem_filter.mp hmem).1 hfn himpl hroom hpkg hargs span

theorem DeclaresFunc.ofSignature {d : FuncDecl} (hd : DeclaresFunc funcs d t) :
    FuncTy.ofSignature d.sig = t.ty := by
  have hresults : d.sig.results.map (·.ty) = (t.result.map Base.ty).toList := by
    rw [hd.results]
    cases t.result <;> rfl
  unfold FuncTy.ofSignature FuncType.ty
  rw [hd.params, hd.variadic, hresults]

-- What the compiler knows of the names of a package.

theorem addDecls_eq (pn : PackageNames) (hds : ∀ d ∈ ds, DeclaresFunc funcs d.1 d.2) :
    (ds.map fun d => Decl.func d.1).foldl PackageNames.addDecl pn =
      { pn with
        funcs := ((callable ds).map fun d => (d.1.name, FuncType.ty d.2)).reverse ++ pn.funcs } := by
  induction ds generalizing pn with
  | nil => rfl
  | cons d ds ih =>
      have hd := hds d List.mem_cons_self
      rw [List.map_cons, List.foldl_cons, ih _ fun d hd => hds d (List.mem_cons_of_mem _ hd)]
      unfold PackageNames.addDecl callable
      simp only [hd.recv]
      by_cases hname : d.1.name = unitName
      · simp [hname]
      · simp [hname, PackageNames.addFunc, hd.ofSignature]

theorem knows_ofPackage (hp : IsStructured ds) {pk : StepGraph.Package}
    (hdecls : pk.decls = ds.map fun d => .func d.1) :
    KnowsFuncs (funcsOf ds) (.ofPackage pk []) := by
  unfold PackageNames.ofPackage
  rw [hdecls, addDecls_eq _ hp.declares]
  refine ⟨rfl, rfl, fun f => ?_⟩
  have hnodup : (((callable ds).map fun d => (d.1.name, FuncType.ty d.2)).map Prod.fst).Nodup := by
    rw [List.map_map]
    exact hp.distinct
  change (_ ++ []).lookup f = _
  rw [List.append_nil, Lists.lookup_reverse hnodup]
  have hmap := Lists.lookup_map (funcsOf ds) (fun _ => FuncType.ty) f
  unfold funcsOf at hmap
  rw [List.map_map] at hmap
  exact hmap

-- A function in the code that was built from the declaration.
def BuiltFrom (ds : List (FuncDecl × FuncType)) (code : Array Function) (d : FuncDecl × FuncType)
    (ref : CodeRef) : Prop :=
  ∃ f, code[ref.id]? = some f ∧ Implements (funcsOf ds) d.1 d.2 f

theorem compile_function (hk : KnowsFuncs (funcsOf ds) pn) {d : FuncDecl × FuncType}
    (hd : DeclaresFunc (funcsOf ds) d.1 d.2) {ref : CodeRef}
    (h : Compile.function pn d.1.sig (buildFunc d.1) lib = .ok ref lib') :
    lib'.types = lib.types ∧ Code.Extends lib.code lib'.code ∧ BuiltFrom ds lib'.code d ref := by
  unfold Compile.function at h
  cases hb : buildFunc d.1 (.start ⟨pn, lib.types, []⟩ lib.code d.1.sig) with
  | error e b =>
      rw [hb] at h
      cases h
  | ok ref' b =>
      rw [hb] at h
      cases h
      obtain ⟨steps, hid, htypes, hcode, hperforms⟩ := buildFunc_ok hd hk hb
      refine ⟨htypes, hcode ▸ Code.Extends.push _ _, ⟨d.1.name, d.1.sig, none, false, false, steps⟩, ?_,
        ⟨hperforms, rfl, rfl, rfl⟩⟩
      rw [hcode, hid, Array.getElem?_push_size]

theorem compile_functions (hk : KnowsFuncs (funcsOf ds) pn) {l : List (FuncDecl × FuncType)}
    (hl : ∀ d ∈ l, DeclaresFunc (funcsOf ds) d.1 d.2) {built : List (FuncDecl × CodeRef)}
    (h : ((l.map (·.1)).mapM fun d => do
      return (d, ← Compile.function pn d.sig (buildFunc d)) : Compile _) lib = .ok built lib') :
    lib'.types = lib.types ∧ Code.Extends lib.code lib'.code ∧
      List.Forall₂ (fun d b => b.1 = d.1 ∧ b.1.recv = none ∧ BuiltFrom ds lib'.code d b.2) l
        built := by
  induction l generalizing lib built with
  | nil =>
      cases h
      exact ⟨rfl, fun _ _ h => h, .nil⟩
  | cons d l ih =>
      rw [List.map_cons, List.mapM_cons] at h
      obtain ⟨b, lib₁, hfirst, h⟩ := bind_eq_ok.mp h
      obtain ⟨ref, lib₂, hfunction, hfirst⟩ := bind_eq_ok.mp hfirst
      cases hfirst
      obtain ⟨rest, lib₂, hrest, hlast⟩ := bind_eq_ok.mp h
      cases hlast
      obtain ⟨htypes, hadds, f, hf, himpl⟩ :=
        compile_function hk (hl d List.mem_cons_self) hfunction
      obtain ⟨htypes', hadds', hbuilt⟩ := ih (fun d hd => hl d (List.mem_cons_of_mem _ hd)) hrest
      exact ⟨htypes'.trans htypes, fun i g hg => hadds' i g (hadds i g hg),
        .cons ⟨rfl, (hl d List.mem_cons_self).recv, f, hadds' _ f hf, himpl⟩ hbuilt⟩

-- Declarations that are functions all the way have no units to run.
theorem mapM_unitsOf (l : List FuncDecl) :
    ((l.map Decl.func).mapM (Compile.unitsOf pn) : Compile _) lib = .ok (l.map fun _ => []) lib := by
  induction l generalizing lib with
  | nil => rfl
  | cons d l ih =>
      rw [List.map_cons, List.mapM_cons]
      refine bind_eq_ok.mpr ⟨[], lib, rfl, ?_⟩
      exact bind_eq_ok.mpr ⟨_, lib, ih, rfl⟩

-- A compiled package has code for each function.
theorem compile_package (hp : IsStructured ds) {pk : StepGraph.Package}
    (hdecls : pk.decls = ds.map fun d => .func d.1) {compiled : CompiledPackage}
    (h : Compile.package pk (.ofPackage pk []) lib = .ok compiled lib') :
    compiled.methods = [] ∧ compiled.units = [] ∧
      List.Forall₂ (fun d b => b.1 = d.1.name ∧ BuiltFrom ds lib'.code d b.2) (callable ds)
        compiled.funcs ∧
      List.Forall₂ (BuiltFrom ds lib'.code) (ds.filter fun d => d.1.name = unitName)
        compiled.inits := by
  have hfuncs : pk.funcs = ds.map (·.1) := by
    unfold StepGraph.Package.funcs
    rw [hdecls, List.filterMap_map, ← List.filterMap_eq_map]
    rfl
  have hunits : pk.decls = (ds.map (·.1)).map Decl.func := by rw [hdecls, List.map_map]; rfl
  unfold Compile.package at h
  rw [hfuncs, hunits] at h
  obtain ⟨built, lib₁, hbuilt, h⟩ := bind_eq_ok.mp h
  obtain ⟨units, lib₂, hrun, hlast⟩ := bind_eq_ok.mp h
  rw [mapM_unitsOf] at hrun
  cases hrun
  cases hlast
  obtain ⟨-, -, hall⟩ := compile_functions (knows_ofPackage hp hdecls) hp.declares hbuilt
  have hrecv := Lists.forall_of_forall₂ (q := fun b => b.1.recv = none) hall fun _ _ h => h.2.1
  have hplain : (built.filter fun b => b.1.recv.isNone) = built := by
    rw [List.filter_eq_self]
    intro b hb
    simp [hrecv b hb]
  refine ⟨?_, ?_, ?_, ?_⟩
  · rw [List.filterMap_eq_nil_iff]
    intro b hb
    simp [hrecv b hb]
  · simp
  · change List.Forall₂ _ _ (((built.filter fun b => b.1.recv.isNone).filter _).map _)
    rw [hplain, List.forall₂_map_right_iff]
    exact (List.rel_filter (fun d b hdb => by simp [hdb.1]) hall).imp fun d b hdb =>
      ⟨congrArg FuncDecl.name hdb.1, hdb.2.2⟩
  · change List.Forall₂ _ _ (((built.filter fun b => b.1.recv.isNone).filter _).map _)
    rw [hplain, List.forall₂_map_right_iff]
    exact (List.rel_filter (fun d b hdb => by simp [hdb.1]) hall).imp fun d b hdb => hdb.2.2

end StepGraph.Structured

import StepGraph.Package.Executable
import StepGraph.Proofs.Package.Imports

open EStateM (bind_apply bind_eq_ok)

namespace StepGraph.Link

-- A package that has been linked: its path, where it has been imported, its scope, and what its
-- imports stand for.
structure LinkedPackage where
  path : Option String
  pkg : Package
  scope : ScopeId
  refs : List PackageRef

variable {o : BuildOptions} {fe : Option FrontEnd} {pkg : Package} {path path' : String}
  {done done' : List LinkedPackage} {l l' l₁ : Linker} {scope : ScopeId} {n : Nat}
  {linking : List String}

-- What an import path is resolved to, and the packages that are linked for that in turn.
-- `links` tells how a source package that is new gets linked.
inductive ResolvesPath (o : BuildOptions) (fe : Option FrontEnd)
    (links : Package → Linker → List LinkedPackage → ScopeId → Linker → Prop)
    (linking : List String) (path : String) (l : Linker) :
    List LinkedPackage → PackageRef → Linker → Prop
  | loaded {ref : PackageRef} (h : l.loaded.lookup path = some ref) :
      ResolvesPath o fe links linking path l [] ref l
  | host {host : HostPackage} (hnew : l.loaded.lookup path = none) (hpath : path ∉ linking)
      (hhost : o.hosts.lookup path = some host) :
      ResolvesPath o fe links linking path l [] ⟨path, host.name, none⟩
        (loading path ⟨path, host.name, none⟩ l)
  | source {pkg : Package} {done : List LinkedPackage} {scope : ScopeId} {l' : Linker}
      (hnew : l.loaded.lookup path = none) (hpath : path ∉ linking)
      (hsource : IsSource o fe path pkg) (hlinks : links pkg l done scope l') :
      ResolvesPath o fe links linking path l done ⟨path, pkg.name, some scope⟩
        (loading path ⟨path, pkg.name, some scope⟩ l')

-- The imports of a package in turn, with the names that they are bound to.
inductive BindsImports (resolves : String → Linker → List LinkedPackage → PackageRef → Linker →
      Prop)
    (scope : ScopeId) :
    List Import → Linker → List LinkedPackage → List PackageRef → List String → Linker → Prop
  | nil (l : Linker) : BindsImports resolves scope [] l [] [] [] l
  | blank {i : Import} {rest : List Import} {l l₁ l' : Linker} {done done' : List LinkedPackage}
      {ref : PackageRef} {refs : List PackageRef} {names : List String}
      (hresolves : resolves i.path l done ref l₁) (hblank : i.boundName = Names.blank)
      (hrest : BindsImports resolves scope rest l₁ done' refs names l') :
      BindsImports resolves scope (i :: rest) l (done ++ done') (ref :: refs) names l'
  | named {i : Import} {rest : List Import} {l l₁ l₂ l' : Linker}
      {done done' : List LinkedPackage} {ref : PackageRef} {refs : List PackageRef}
      {names : List String} (hresolves : resolves i.path l done ref l₁)
      (hname : i.boundName ≠ Names.blank)
      (hbind : onHeap (Heap.declare scope i.boundName (.package ref)) l₁ = .ok () l₂)
      (hrest : BindsImports resolves scope rest l₂ done' refs names l') :
      BindsImports resolves scope (i :: rest) l (done ++ done') (ref :: refs)
        (i.boundName :: names) l'

-- How a package is linked: its imports are bound in a new scope, then its own declarations are
-- linked. The packages that were linked are in the order in which this was done.
def LinksPackage (o : BuildOptions) (fe : Option FrontEnd) :
    Nat → List String → Package → Linker → List LinkedPackage → ScopeId → Linker → Prop
  | 0, _, _, _, _, _, _ => False
  | n + 1, linking, pkg, l, done, scope, l' => ∃ l₁ l₂ earlier refs names,
      onHeap (Heap.newScope none) l = .ok scope l₁ ∧
      BindsImports (fun path => ResolvesPath o fe (LinksPackage o fe n (path :: linking)) linking
        path) scope
        pkg.imports l₁ earlier refs names l₂ ∧
      linkDecls o scope pkg names l₂ = .ok () l' ∧
      done = earlier ++ [⟨linking.head?, pkg, scope, refs⟩]

theorem resolveImport_ok {link : String → Package → Link ScopeId}
    {links : Package → Linker → List LinkedPackage → ScopeId → Linker → Prop}
    (hlink : ∀ pkg l scope l',
      link path pkg l = .ok scope l' ↔ ∃ done, links pkg l done scope l') {ref : PackageRef} :
    resolveImport o fe linking link path l = .ok ref l' ↔
      ∃ done, ResolvesPath o fe links linking path l done ref l' := by
  rw [resolveImport_apply]
  constructor
  · intro h
    split at h
    · next ref' hloaded =>
        cases h
        exact ⟨[], .loaded hloaded⟩
    · next hnew =>
        split at h
        · cases h
        · next hpath =>
            split at h
            · next host hhost =>
                cases h
                exact ⟨[], .host hnew hpath hhost⟩
            · next hhost =>
                split at h
                · cases h
                · next pkg hsource =>
                    split at h
                    · cases h
                    · next scope l₁ hok =>
                        cases h
                        obtain ⟨done, hlinks⟩ := (hlink pkg l scope l₁).mp hok
                        exact ⟨done, .source hnew hpath ⟨hhost, hsource⟩ hlinks⟩
  · rintro ⟨done, h⟩
    cases h with
    | loaded h => simp only [h]
    | host hnew hpath hhost => simp only [hnew, if_neg hpath, hhost]
    | source hnew hpath hsource hlinks =>
        have hok := (hlink _ l _ _).mpr ⟨done, hlinks⟩
        simp only [hnew, if_neg hpath, hsource.1, hsource.2, hok]

theorem bindImports_ok {resolve : String → Link PackageRef}
    {resolves : String → Linker → List LinkedPackage → PackageRef → Linker → Prop}
    (hresolve : ∀ path l ref l',
      resolve path l = .ok ref l' ↔ ∃ done, resolves path l done ref l')
    {imports : List Import} {names : List String} :
    bindImports scope resolve imports l = .ok names l' ↔
      ∃ done refs, BindsImports resolves scope imports l done refs names l' := by
  induction imports generalizing l names with
  | nil =>
      constructor
      · intro h
        cases h
        exact ⟨[], [], .nil _⟩
      · rintro ⟨_, _, h⟩
        cases h
        rfl
  | cons i rest ih =>
      unfold bindImports
      rw [bind_eq_ok]
      constructor
      · rintro ⟨ref, l₁, hfirst, h⟩
        obtain ⟨done, hdone⟩ := (hresolve _ _ _ _).mp hfirst
        split at h
        · next hblank =>
            obtain ⟨done', refs, hrest⟩ := ih.mp h
            exact ⟨_, _, .blank hdone hblank hrest⟩
        · next hname =>
            obtain ⟨_, l₂, hbind, h⟩ := bind_eq_ok.mp h
            obtain ⟨names', l₃, hnames, h⟩ := bind_eq_ok.mp h
            cases h
            obtain ⟨done', refs, hrest⟩ := ih.mp hnames
            exact ⟨_, _, .named hdone hname hbind hrest⟩
      · rintro ⟨_, _, h⟩
        cases h with
        | blank hdone hblank hrest =>
            refine ⟨_, _, (hresolve _ _ _ _).mpr ⟨_, hdone⟩, ?_⟩
            rw [if_pos hblank]
            exact ih.mpr ⟨_, _, hrest⟩
        | named hdone hname hbind hrest =>
            refine ⟨_, _, (hresolve _ _ _ _).mpr ⟨_, hdone⟩, ?_⟩
            rw [if_neg hname]
            exact bind_eq_ok.mpr ⟨_, _, hbind, bind_eq_ok.mpr ⟨_, _, ih.mpr ⟨_, _, hrest⟩, rfl⟩⟩

-- A package is linked if and only if it is linked in this way.
theorem link_ok {pkg : Package} : link o fe n linking pkg l = .ok scope l' ↔
    ∃ done, LinksPackage o fe n linking pkg l done scope l' := by
  induction n generalizing linking pkg l scope l' with
  | zero =>
      constructor
      · intro h
        cases h
      · rintro ⟨_, h⟩
        exact h.elim
  | succ n ih =>
      have hresolve : ∀ path l ref l',
          resolveImport o fe linking (fun path => link o fe n (path :: linking)) path l = .ok ref l' ↔
            ∃ done, ResolvesPath o fe (LinksPackage o fe n (path :: linking)) linking path l done
              ref l' :=
        fun _ _ _ _ => resolveImport_ok fun _ _ _ _ => ih
      have hbinds : ∀ {scope imports l names l'},
          bindImports scope (resolveImport o fe linking fun path => link o fe n (path :: linking))
            imports l = .ok names l' ↔ _ := bindImports_ok hresolve
      unfold link LinksPackage
      rw [bind_eq_ok]
      constructor
      · rintro ⟨scope', l₁, hnew, h⟩
        obtain ⟨names, l₂, hnames, h⟩ := bind_eq_ok.mp h
        obtain ⟨_, l₃, hdecls, h⟩ := bind_eq_ok.mp h
        cases h
        obtain ⟨earlier, refs, hearlier⟩ := hbinds.mp hnames
        exact ⟨_, l₁, l₂, earlier, refs, names, hnew, hearlier, hdecls, rfl⟩
      · rintro ⟨_, l₁, l₂, earlier, refs, names, hnew, hearlier, hdecls, -⟩
        exact ⟨scope, l₁, hnew, bind_eq_ok.mpr ⟨names, l₂, hbinds.mpr ⟨earlier, refs, hearlier⟩,
          bind_eq_ok.mpr ⟨(), l', hdecls, rfl⟩⟩⟩

-- The handles of the paths that are resolved so far, the latest first, and the packages that were
-- linked for them in that order. A package comes after all that it imports.
inductive BuiltInOrder (o : BuildOptions) (fe : Option FrontEnd) :
    List (String × PackageRef) → List LinkedPackage → Prop
  | nil : BuiltInOrder o fe [] []
  | host {loaded : List (String × PackageRef)} {done : List LinkedPackage} {path : String}
      {host : HostPackage} (hrest : BuiltInOrder o fe loaded done)
        (hnew : loaded.lookup path = none)
      (hhost : o.hosts.lookup path = some host) :
      BuiltInOrder o fe ((path, ⟨path, host.name, none⟩) :: loaded) done
  | source {loaded : List (String × PackageRef)} {done : List LinkedPackage} {path : String}
      {pkg : Package} {scope : ScopeId} {refs : List PackageRef}
      (hrest : BuiltInOrder o fe loaded done) (hnew : loaded.lookup path = none)
      (hsource : IsSource o fe path pkg)
      (hrefs : List.Forall₂ (fun i ref => loaded.lookup i.path = some ref) pkg.imports refs) :
      BuiltInOrder o fe ((path, ⟨path, pkg.name, some scope⟩) :: loaded)
        (done ++ [⟨some path, pkg, scope, refs⟩])

-- What linking adds to the paths that are resolved: some of those for which `new` holds, and none
-- that is being linked.
structure AddsPaths (o : BuildOptions) (fe : Option FrontEnd) (new : String → Prop)
    (linking : List String) (l l' : Linker) (done : List LinkedPackage) : Prop where
  built : ∀ before, BuiltInOrder o fe l.loaded before → BuiltInOrder o fe l'.loaded (before ++ done)
  keeps : ∀ path ref, l.loaded.lookup path = some ref → l'.loaded.lookup path = some ref
  new : ∀ path ref, l'.loaded.lookup path = some ref →
    l.loaded.lookup path = some ref ∨ new path ∧ path ∉ linking

namespace AddsPaths

variable {new new' : String → Prop}

theorem of_eq (h : l'.loaded = l.loaded) : AddsPaths o fe new linking l l' [] where
  built before hb := by rwa [h, List.append_nil]
  keeps _ _ hp := by rwa [h]
  new _ _ hp := .inl (by rwa [← h])

theorem trans (h₁ : AddsPaths o fe new linking l l₁ done)
    (h₂ : AddsPaths o fe new linking l₁ l' done') :
    AddsPaths o fe new linking l l' (done ++ done') where
  built before hb := by
    rw [← List.append_assoc]
    exact h₂.built _ (h₁.built _ hb)
  keeps path ref hp := h₂.keeps path ref (h₁.keeps path ref hp)
  new path ref hp := (h₂.new path ref hp).elim (h₁.new path ref) .inr

theorem mono (h : AddsPaths o fe new linking l l' done) (hle : ∀ path, new path → new' path) :
    AddsPaths o fe new' linking l l' done where
  built := h.built
  keeps := h.keeps
  new path ref hp := (h.new path ref hp).imp id (And.imp_left (hle path))

theorem lookups (h : AddsPaths o fe new linking l l' done) {imports : List Import}
    {refs : List PackageRef}
    (hrefs : List.Forall₂ (fun i ref => l.loaded.lookup i.path = some ref) imports refs) :
    List.Forall₂ (fun i ref => l'.loaded.lookup i.path = some ref) imports refs :=
  hrefs.imp fun _ _ hp => h.keeps _ _ hp

end AddsPaths

theorem lookup_loading (path path' : String) (ref : PackageRef) (l : Linker) :
    (loading path ref l).loaded.lookup path' =
      if path' = path then some ref else l.loaded.lookup path' := by
  change List.lookup path' ((path, ref) :: l.loaded) = _
  by_cases h : path' = path
  · rw [if_pos h, h, List.lookup_cons_self]
  · rw [if_neg h, List.lookup_cons, beq_false_of_ne h]

-- What a source package that is linked adds, and the handles of its imports.
structure LinksWell (o : BuildOptions) (fe : Option FrontEnd) (linking : List String)
    (pkg : Package) (l : Linker) (done : List LinkedPackage) (scope : ScopeId) (l' : Linker) :
    Prop where
  out : ∃ earlier refs, done = earlier ++ [⟨linking.head?, pkg, scope, refs⟩] ∧
    AddsPaths o fe (Reaches o fe pkg) linking l l' earlier ∧
    List.Forall₂ (fun i ref => l'.loaded.lookup i.path = some ref) pkg.imports refs

theorem ResolvesPath.adds {links : Package → Linker → List LinkedPackage → ScopeId → Linker → Prop}
    (hlinks : ∀ pkg l done scope l', links pkg l done scope l' →
      LinksWell o fe (path :: linking) pkg l done scope l') {ref : PackageRef}
    (h : ResolvesPath o fe links linking path l done ref l') :
    AddsPaths o fe (Relation.ReflTransGen (Imports o fe) path) linking l l' done ∧
      l'.loaded.lookup path = some ref := by
  have hkeeps : ∀ {l₁ : Linker} (ref : PackageRef), l₁.loaded.lookup path = none →
      ∀ q r, l₁.loaded.lookup q = some r → (loading path ref l₁).loaded.lookup q = some r := by
    intro l₁ ref hnew q r hq
    rw [lookup_loading]
    split
    · next heq =>
        rw [heq, hnew] at hq
        cases hq
    · exact hq
  cases h with
  | loaded h => exact ⟨.of_eq rfl, h⟩
  | @host host hnew hpath hhost =>
      refine ⟨⟨fun before hb => ?_, hkeeps _ hnew, fun q r hq => ?_⟩, ?_⟩
      · rw [List.append_nil]
        exact hb.host hnew hhost
      · rw [lookup_loading] at hq
        split at hq
        · next heq => exact .inr ⟨heq ▸ .refl, heq ▸ hpath⟩
        · exact .inl hq
      · rw [lookup_loading, if_pos rfl]
  | @source pkg done scope l₁ hnew hpath hsource hlinked =>
      obtain ⟨earlier, refs, rfl, hadds, hrefs⟩ := (hlinks _ _ _ _ _ hlinked).out
      have hstill : l₁.loaded.lookup path = none := by
        cases hl : l₁.loaded.lookup path with
        | none => rfl
        | some ref =>
            rcases hadds.new path ref hl with h | h
            · rw [hnew] at h
              cases h
            · exact absurd List.mem_cons_self h.2
      refine ⟨⟨fun before hb => ?_, fun q r hq => hkeeps _ hstill q r (hadds.keeps q r hq),
        fun q r hq => ?_⟩, ?_⟩
      · rw [← List.append_assoc]
        exact (hadds.built before hb).source hstill hsource hrefs
      · rw [lookup_loading] at hq
        split at hq
        · next heq => exact .inr ⟨heq ▸ .refl, heq ▸ hpath⟩
        · rcases hadds.new q r hq with h | ⟨⟨i, hi, hreach⟩, hq⟩
          · exact .inl h
          · exact .inr ⟨.head ⟨pkg, hsource, i, hi, rfl⟩ hreach,
              fun h => hq (List.mem_cons_of_mem _ h)⟩
      · rw [lookup_loading, if_pos rfl]

theorem BindsImports.adds {resolves : String → Linker → List LinkedPackage → PackageRef → Linker →
      Prop}
    (hresolves : ∀ path l done ref l', resolves path l done ref l' →
      AddsPaths o fe (Relation.ReflTransGen (Imports o fe) path) linking l l' done ∧
        l'.loaded.lookup path = some ref)
    {imports : List Import} {refs : List PackageRef} {names : List String}
    (h : BindsImports resolves scope imports l done refs names l') :
    AddsPaths o fe (fun path => ∃ i ∈ imports, Relation.ReflTransGen (Imports o fe) i.path path)
      linking
        l l' done ∧
      List.Forall₂ (fun i ref => l'.loaded.lookup i.path = some ref) imports refs := by
  induction h with
  | nil => exact ⟨.of_eq rfl, .nil⟩
  | @blank i rest l l₁ l' done done' ref refs names hfirst _ _ ih =>
      obtain ⟨hadds, hlookup⟩ := hresolves _ _ _ _ _ hfirst
      obtain ⟨hrest, hrefs⟩ := ih
      refine ⟨.trans (hadds.mono fun q hq => ⟨i, List.mem_cons_self, hq⟩)
        (hrest.mono fun q ⟨j, hj, hq⟩ => ⟨j, List.mem_cons_of_mem _ hj, hq⟩), ?_⟩
      exact .cons (hrest.keeps _ _ hlookup) hrefs
  | @named i rest l l₁ l₂ l' done done' ref refs names hfirst _ hbind _ ih =>
      obtain ⟨hadds, hlookup⟩ := hresolves _ _ _ _ _ hfirst
      obtain ⟨hrest, hrefs⟩ := ih
      cases hbind
      refine ⟨.trans (hadds.mono fun q hq => ⟨i, List.mem_cons_self, hq⟩)
        ⟨hrest.built, hrest.keeps, fun q r hq => (hrest.new q r hq).imp id
          fun ⟨⟨j, hj, hreach⟩, hq⟩ => ⟨⟨j, List.mem_cons_of_mem _ hj, hreach⟩, hq⟩⟩, ?_⟩
      exact .cons (hrest.keeps _ _ hlookup) hrefs

theorem LinksPackage.well (h : LinksPackage o fe n linking pkg l done scope l') :
    LinksWell o fe linking pkg l done scope l' := by
  induction n generalizing linking pkg l done scope l' with
  | zero => exact h.elim
  | succ n ih =>
      obtain ⟨l₁, l₂, earlier, refs, names, hnew, hbinds, hdecls, rfl⟩ := h
      obtain ⟨hadds, hrefs⟩ := hbinds.adds (o := o) fun path _ _ _ _ hr => hr.adds fun _ _ _ _ _ => ih
      have hloaded := internal_linkDecls o scope pkg names l₂
      rw [hdecls] at hloaded
      cases hnew
      have hsame : AddsPaths o fe (Reaches o fe pkg) linking l₂ l' [] := .of_eq hloaded.1
      refine ⟨earlier, refs, rfl, ?_, hsame.lookups hrefs⟩
      have hall : AddsPaths o fe (Reaches o fe pkg) linking l l' (earlier ++ []) :=
        .trans ⟨hadds.built, hadds.keeps, hadds.new⟩ hsame
      rwa [List.append_nil] at hall

namespace BuiltInOrder

variable {loaded : List (String × PackageRef)}

theorem lookup_cons_of_new {ref ref' : PackageRef} (hnew : loaded.lookup path = none)
    (h : loaded.lookup path' = some ref) :
    ((path, ref') :: loaded).lookup path' = some ref := by
  have hne : path' ≠ path := by
    rintro rfl
    rw [hnew] at h
    cases h
  rw [List.lookup_cons, beq_false_of_ne hne]
  exact h

-- Each linked package has its handle, and so have all that it imports.
theorem linked (h : BuiltInOrder o fe loaded done) : ∀ p ∈ done, ∃ path, p.path = some path ∧
    loaded.lookup path = some ⟨path, p.pkg.name, some p.scope⟩ ∧ IsSource o fe path p.pkg ∧
    List.Forall₂ (fun i ref => loaded.lookup i.path = some ref) p.pkg.imports p.refs := by
  induction h with
  | nil => nofun
  | @host loaded done path host hrest hnew hhost ih =>
      intro p hp
      obtain ⟨path, hpath, hlookup, hsource, hrefs⟩ := ih p hp
      exact ⟨path, hpath, lookup_cons_of_new hnew hlookup, hsource,
        hrefs.imp fun _ _ h => lookup_cons_of_new hnew h⟩
  | source _ hnew hsource hrefs ih =>
      intro p hp
      rcases List.mem_append.mp hp with hp | hp
      · obtain ⟨path, hpath, hlookup, hsource, hrefs⟩ := ih p hp
        exact ⟨path, hpath, lookup_cons_of_new hnew hlookup, hsource,
          hrefs.imp fun _ _ h => lookup_cons_of_new hnew h⟩
      · obtain rfl := List.mem_singleton.mp hp
        exact ⟨_, rfl, List.lookup_cons_self, hsource,
          hrefs.imp fun _ _ h => lookup_cons_of_new hnew h⟩

theorem mem_of_lookup (h : BuiltInOrder o fe loaded done) {ref : PackageRef}
    (hlookup : loaded.lookup path = some ref) :
    match o.hosts.lookup path with
    | some host' => ref = ⟨path, host'.name, none⟩
    | none => some path ∈ done.map (·.path) := by
  induction h with
  | nil => cases hlookup
  | @host loaded done q host _ hnew hhost ih =>
      by_cases heq : path = q
      · subst heq
        rw [List.lookup_cons_self] at hlookup
        cases hlookup
        rw [hhost]
      · rw [List.lookup_cons, beq_false_of_ne heq] at hlookup
        exact ih hlookup
  | @source loaded done q pkg scope refs _ hnew hsource hrefs ih =>
      by_cases heq : path = q
      · subst heq
        rw [hsource.1]
        simp
      · rw [List.lookup_cons, beq_false_of_ne heq] at hlookup
        have hmem := ih hlookup
        revert hmem
        cases o.hosts.lookup path with
        | some host => exact id
        | none =>
            intro hmem
            rw [List.map_append]
            exact List.mem_append_left _ hmem

theorem lookup_of_mem (h : BuiltInOrder o fe loaded done) (hmem : some path ∈ done.map (·.path)) :
    ∃ ref, loaded.lookup path = some ref := by
  obtain ⟨p, hp, hpath⟩ := List.mem_map.mp hmem
  obtain ⟨q, hq, hlookup, -⟩ := h.linked p hp
  obtain rfl : q = path := Option.some.inj (hq.symm.trans hpath)
  exact ⟨_, hlookup⟩

theorem nodup (h : BuiltInOrder o fe loaded done) : (done.map (·.path)).Nodup := by
  induction h with
  | nil => exact .nil
  | host _ _ _ ih => exact ih
  | source hrest hnew _ _ ih =>
      rw [List.map_append, List.map_singleton, List.nodup_append]
      refine ⟨ih, by simp, fun a ha b hb heq => ?_⟩
      obtain rfl := List.mem_singleton.mp hb
      subst heq
      obtain ⟨ref, hlookup⟩ := hrest.lookup_of_mem ha
      rw [hnew] at hlookup
      cases hlookup

theorem order (h : BuiltInOrder o fe loaded done) {before after : List LinkedPackage}
    {p : LinkedPackage} (hsplit : done = before ++ p :: after) {i : Import}
    (hi : i ∈ p.pkg.imports) (hhost : o.hosts.lookup i.path = none) :
    some i.path ∈ before.map (·.path) := by
  induction h generalizing after with
  | nil => simp at hsplit
  | host _ _ _ ih => exact ih hsplit
  | @source loaded done q pkg scope refs hrest hnew hsource hrefs ih =>
      rcases List.eq_nil_or_concat after with rfl | ⟨after, last, rfl⟩
      · obtain ⟨rfl, hp⟩ := List.append_inj' hsplit rfl
        cases hp
        obtain ⟨ref, hlookup⟩ := Lists.exists_of_mem hrefs hi
        have hmem := hrest.mem_of_lookup hlookup
        rwa [hhost] at hmem
      · have hfirst : done = before ++ p :: after := by
          rw [List.concat_eq_append, ← List.cons_append, ← List.append_assoc] at hsplit
          exact (List.append_inj' hsplit rfl).1
        exact ih hfirst

-- What a linked package imports is there, so what is there is closed under imports.
theorem closed (h : BuiltInOrder o fe loaded done) {ref : PackageRef}
    (hlookup : loaded.lookup path = some ref) (himports : Imports o fe path path') :
    ∃ ref', loaded.lookup path' = some ref' := by
  obtain ⟨pkg, hsource, i, hi, rfl⟩ := himports
  have hmem := h.mem_of_lookup hlookup
  rw [hsource.1] at hmem
  obtain ⟨p, hp, hpath⟩ := List.mem_map.mp hmem
  obtain ⟨q, hq, -, hsource', hrefs⟩ := h.linked p hp
  obtain rfl : q = path := Option.some.inj (hq.symm.trans hpath)
  have hpkg : p.pkg = pkg := Except.ok.inj (hsource'.2.symm.trans hsource.2)
  obtain ⟨ref', hlookup'⟩ := Lists.exists_of_mem hrefs (hpkg ▸ hi)
  exact ⟨ref', hlookup'⟩

theorem closed_all (h : BuiltInOrder o fe loaded done) {ref : PackageRef}
    (hlookup : loaded.lookup path = some ref)
    (hreach : Relation.ReflTransGen (Imports o fe) path path') :
    ∃ ref', loaded.lookup path' = some ref' := by
  induction hreach with
  | refl => exact ⟨ref, hlookup⟩
  | tail _ himports ih =>
      obtain ⟨_, hmiddle⟩ := ih
      exact h.closed hmiddle himports

end BuiltInOrder

-- The right order for a package and all that it imports: each source package once, after those that
-- it imports, and the package itself at the end. Wherever a package is imported it has one handle.
structure InOrder (o : BuildOptions) (fe : Option FrontEnd) (root : Package)
    (done : List LinkedPackage) (scope : ScopeId) : Prop where
  last : ∃ earlier refs, done = earlier ++ [⟨none, root, scope, refs⟩]
  once : (done.map (·.path)).Nodup
  all : ∀ path, some path ∈ done.map (·.path) ↔
    Reaches o fe root path ∧ o.hosts.lookup path = none
  sources : ∀ p ∈ done, ∀ path, p.path = some path → IsSource o fe path p.pkg
  order : ∀ before p after, done = before ++ p :: after → ∀ i ∈ p.pkg.imports,
    o.hosts.lookup i.path = none → some i.path ∈ before.map (·.path)
  handles : ∀ p ∈ done, List.Forall₂ (fun i ref =>
    match o.hosts.lookup i.path with
    | some host => ref = ⟨i.path, host.name, none⟩
    | none => ∃ q ∈ done, q.path = some i.path ∧ ref = ⟨i.path, q.pkg.name, some q.scope⟩)
    p.pkg.imports p.refs

theorem BuiltInOrder.handle {loaded : List (String × PackageRef)}
    (h : BuiltInOrder o fe loaded done)
    {ref : PackageRef} (hlookup : loaded.lookup path = some ref) :
    match o.hosts.lookup path with
    | some host' => ref = ⟨path, host'.name, none⟩
    | none => ∃ q ∈ done, q.path = some path ∧ ref = ⟨path, q.pkg.name, some q.scope⟩ := by
  have hmem := h.mem_of_lookup hlookup
  revert hmem
  cases o.hosts.lookup path with
  | some host => exact id
  | none =>
      intro hmem
      obtain ⟨q, hq, hpath⟩ := List.mem_map.mp hmem
      obtain ⟨path', hpath', hlookup', -⟩ := h.linked q hq
      obtain rfl : path' = path := Option.some.inj (hpath'.symm.trans hpath)
      exact ⟨q, hq, hpath, Option.some.inj (hlookup.symm.trans hlookup')⟩

-- What a root package leaves when it is linked where nothing was linked before.
theorem LinksPackage.built (h : LinksPackage o fe n [] pkg l done scope l')
    (hnone : l.loaded = []) :
    ∃ earlier refs, done = earlier ++ [⟨none, pkg, scope, refs⟩] ∧
    BuiltInOrder o fe l'.loaded earlier ∧
      (∀ path ref, l'.loaded.lookup path = some ref → Reaches o fe pkg path) ∧
      List.Forall₂ (fun i ref => l'.loaded.lookup i.path = some ref) pkg.imports refs := by
  obtain ⟨earlier, refs, rfl, hadds, hrefs⟩ := h.well.out
  refine ⟨earlier, refs, rfl, hadds.built [] (hnone ▸ .nil), fun path ref hlookup => ?_, hrefs⟩
  rcases hadds.new path ref hlookup with hold | hnew
  · rw [hnone] at hold
    cases hold
  · exact hnew.1

theorem LinksPackage.lookup_of_reaches (h : LinksPackage o fe n [] pkg l done scope l')
    (hnone : l.loaded = [])
    (hreach : Reaches o fe pkg path) : ∃ ref, l'.loaded.lookup path = some ref := by
  obtain ⟨earlier, refs, -, hbuilt, -, hrefs⟩ := h.built hnone
  obtain ⟨i, hi, hpath⟩ := hreach
  obtain ⟨ref, hlookup⟩ := Lists.exists_of_mem hrefs hi
  exact hbuilt.closed_all hlookup hpath

theorem LinksPackage.inOrder (h : LinksPackage o fe n [] pkg l done scope l')
    (hnone : l.loaded = []) :
    InOrder o fe pkg done scope := by
  obtain ⟨earlier, refs, rfl, hbuilt, hreach, hrefs⟩ := h.built hnone
  have hhandle : ∀ {i : Import} {ref : PackageRef}, l'.loaded.lookup i.path = some ref →
      match o.hosts.lookup i.path with
      | some host => ref = ⟨i.path, host.name, none⟩
      | none => ∃ q ∈ earlier ++ [⟨none, pkg, scope, refs⟩],
          q.path = some i.path ∧ ref = ⟨i.path, q.pkg.name, some q.scope⟩ := by
    intro i ref hlookup
    have hfound := hbuilt.handle hlookup
    revert hfound
    cases o.hosts.lookup i.path with
    | some host => exact id
    | none => exact fun ⟨q, hq, hpath, href⟩ => ⟨q, List.mem_append_left _ hq, hpath, href⟩
  refine ⟨⟨earlier, refs, rfl⟩, ?once, fun path => ⟨?reached, ?linked⟩, ?sources, ?order, ?handles⟩
  case once =>
    rw [List.map_append, List.nodup_append]
    refine ⟨hbuilt.nodup, by simp, fun a ha b hb heq => ?_⟩
    obtain ⟨p, hp, rfl⟩ := List.mem_map.mp ha
    obtain ⟨path, hpath, -⟩ := hbuilt.linked p hp
    obtain rfl := List.mem_singleton.mp hb
    rw [hpath] at heq
    cases heq
  case reached =>
    intro hmem
    obtain ⟨p, hp, hpath⟩ := List.mem_map.mp hmem
    rcases List.mem_append.mp hp with hp | hp
    · obtain ⟨path', hpath', hlookup, hsource, -⟩ := hbuilt.linked p hp
      obtain rfl : path' = path := Option.some.inj (hpath'.symm.trans hpath)
      exact ⟨hreach _ _ hlookup, hsource.1⟩
    · obtain rfl := List.mem_singleton.mp hp
      cases hpath
  case linked =>
    rintro ⟨hreach, hhost⟩
    obtain ⟨ref, hlookup⟩ := h.lookup_of_reaches hnone hreach
    have hmem := hbuilt.mem_of_lookup hlookup
    rw [hhost] at hmem
    rw [List.map_append]
    exact List.mem_append_left _ hmem
  case sources =>
    intro p hp path hpath
    rcases List.mem_append.mp hp with hp | hp
    · obtain ⟨path', hpath', -, hsource, -⟩ := hbuilt.linked p hp
      obtain rfl : path' = path := Option.some.inj (hpath'.symm.trans hpath)
      exact hsource
    · obtain rfl := List.mem_singleton.mp hp
      cases hpath
  case order =>
    intro before p after hsplit i hi hhost
    rcases List.eq_nil_or_concat after with rfl | ⟨after, last, rfl⟩
    · obtain ⟨rfl, hp⟩ := List.append_inj' hsplit rfl
      cases hp
      obtain ⟨ref, hlookup⟩ := Lists.exists_of_mem hrefs hi
      have hmem := hbuilt.mem_of_lookup hlookup
      rwa [hhost] at hmem
    · have hfirst : earlier = before ++ p :: after := by
        rw [List.concat_eq_append, ← List.cons_append, ← List.append_assoc] at hsplit
        exact (List.append_inj' hsplit rfl).1
      exact hbuilt.order hfirst hi hhost
  case handles =>
    intro p hp
    rcases List.mem_append.mp hp with hp | hp
    · obtain ⟨path, -, -, -, hlinked⟩ := hbuilt.linked p hp
      exact hlinked.imp fun _ _ => hhandle
    · obtain rfl := List.mem_singleton.mp hp
      exact hrefs.imp fun _ _ => hhandle

theorem finish_eq (o : BuildOptions) (fe : Option FrontEnd) (pkg : Package) (printer : Printer) :
    Executable.finish o fe pkg (start printer) =
      match link o fe o.fuel [] pkg (start printer) with
      | .ok scope l => .ok ⟨pkg.name, ⟨l.library.code, l.library.types, o.hosts, o.maxDepth, false⟩,
          scope, o.fuel⟩ l
      | .error e l => .error e l := by
  unfold Executable.finish
  rw [bind_apply]
  cases link o fe o.fuel [] pkg (start printer) <;> rfl

end StepGraph.Link

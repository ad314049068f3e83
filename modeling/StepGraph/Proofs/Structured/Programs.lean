import StepGraph.Proofs.Structured.Packages

open EStateM (bind_of_ok bind_eq_ok map_apply)

namespace StepGraph.Structured

variable {ds : List (FuncDecl × FuncType)} {p : Program} {scope : ScopeId} {n : Nat}
  {f : String} {t : FuncType} {α β : Type} {callee : String → Value} {m m' : Machine}
  {args : List Value} {o : BuildOptions} {l l' : Linker}

-- How a call ends.
inductive Ending where
  | returns (values : List Value)
  | panics (message : String)
  | overflows

-- How the run of a call has ended and what it has printed, if the run was not stopped. A panic of
-- the program has a runtime error for its payload.
def ending : Outcome (List Value) → Option (Ending × Printer)
  | .ok values m => some (.returns values, m.printer)
  | .error (.panic (.error ⟨_, message, true⟩)) m => some (.panics message, m.printer)
  | .error (.fatal e) m =>
      match e.cause with
      | .stackOverflow _ => some (.overflows, m.printer)
      | _ => none
  | _ => none

-- The same for an evaluation that was given enough rounds for its loops.
def evaluated : EStateM.Result Stop Printer (Option Value) → Option (Ending × Printer)
  | .ok v printer => some (.returns v.toList, printer)
  | .error (.panic f) printer => some (.panics f.message, printer)
  | .error .overflow printer => some (.overflows, printer)
  | .error _ _ => none

theorem ending_of_exhausted {r : Outcome (List Value)} (h : IsExhausted r) : ending r = none := by
  obtain ⟨m, rfl⟩ := h
  rfl

-- What stops as the evaluation does ends as it does.
theorem StopsAlike.ending_eq {stop : Stop} {printer : Printer} {r : Outcome (List Value)}
    (h : StopsAlike stop printer r) :
    ending r = evaluated (.error stop printer) ∧ (ending r).isSome := by
  cases r with
  | ok => exact h.elim
  | error u m =>
      cases u with
      | panic v =>
          obtain ⟨⟨f, id, rfl, rfl⟩, rfl⟩ := h
          exact ⟨rfl, rfl⟩
      | fatal e =>
          obtain ⟨rfl, ⟨limit, hlimit⟩, rfl⟩ := h
          unfold ending
          simp only [hlimit]
          exact ⟨rfl, rfl⟩
      | _ => exact h.elim

-- Runs that answer an evaluation for whatever number of rounds end if and only if it does, and
-- in the same way.
theorem ending_iff {x : Nat → Eval (Option Value)} {result : Option Base}
    {run : Nat → Outcome (List Value)} (h : ∀ n, AnswersCall n (x n) result run m) :
    (∀ k, IsExhausted (run k) ∨ (ending (run k)).isSome) ∧
      ∀ e, (∃ k, ending (run k) = some e) ↔ ∃ n, evaluated (x n m.printer) = some e := by
  -- Each answer settles what the runs come to.
  have hsettled : ∀ n, (∀ k ≤ n, IsExhausted (run k)) ∧ evaluated (x n m.printer) = none ∨
      ∃ e, evaluated (x n m.printer) = some e ∧ SettlesFrom run (ending · = some e) := by
    intro n
    have hn := h n
    unfold AnswersCall at hn
    cases hx : x n m.printer with
    | ok v printer =>
        simp only [hx] at hn
        obtain ⟨m', rfl, -, -, -, -, hsettles⟩ := hn
        refine .inr ⟨_, rfl, hsettles.imp (fun _ h => h) fun k hk => ?_⟩
        rw [hk]
        rfl
    | error stop printer =>
        simp only [hx] at hn
        have hstops : SettlesFrom run (StopsAlike stop printer) → ∃ e,
            evaluated (.error stop printer) = some e ∧ SettlesFrom run (ending · = some e) := by
          rintro ⟨k, hk⟩
          obtain ⟨heq, hsome⟩ := ((hk k).2 (Nat.le_refl k)).ending_eq
          obtain ⟨e, he⟩ := Option.isSome_iff_exists.mp hsome
          exact ⟨e, heq.symm.trans he, k, fun j => ⟨(hk j).1, fun hj =>
            ((hk j).2 hj).ending_eq.1.trans (heq.symm.trans he)⟩⟩
        cases stop with
        | timeout => exact .inl ⟨hn, rfl⟩
        | _ => exact .inr (hstops hn)
  refine ⟨fun k => ?_, fun e => ⟨?_, ?_⟩⟩
  · rcases hsettled k with ⟨hall, -⟩ | ⟨e, -, t, ht⟩
    · exact .inl (hall k (Nat.le_refl k))
    · by_cases hk : k < t
      · exact .inl ((ht k).1 hk)
      · have he : ending (run k) = some e := (ht k).2 (Nat.le_of_not_lt hk)
        exact .inr (by rw [he]; rfl)
  · rintro ⟨k, hk⟩
    have hne : ¬ IsExhausted (run k) := fun he => by
      rw [ending_of_exhausted he] at hk
      cases hk
    rcases hsettled k with ⟨hall, -⟩ | ⟨e', he', t, ht⟩
    · exact absurd (hall k (Nat.le_refl k)) hne
    · have hle : t ≤ k := Nat.le_of_not_lt fun hlt => hne ((ht k).1 hlt)
      have he : ending (run k) = some e' := (ht k).2 hle
      exact ⟨k, by rw [he', ← he, hk]⟩
  · rintro ⟨n, hn⟩
    rcases hsettled n with ⟨-, hnone⟩ | ⟨e', he', t, ht⟩
    · rw [hnone] at hn
      cases hn
    · have he : ending (run t) = some e' := (ht t).2 (Nat.le_refl t)
      exact ⟨t, by rw [he, ← he', hn]⟩

-- A call that has ended leaves the position of its caller alone.
theorem AnswersCall.of_ok {x : Eval (Option Value)} {result : Option Base}
    {run : Nat → Outcome (List Value)} {values : List Value} (h : AnswersCall n x result run m)
    (hrun : run n = .ok values m') :
    m'.frame = m.frame ∧ m'.calls = m.calls ∧ Later m.heap.scopes.size m.heap m'.heap := by
  have hne : ¬ IsExhausted (run n) := by
    rintro ⟨m₁, h₁⟩
    rw [hrun] at h₁
    cases h₁
  unfold AnswersCall at h
  split at h
  · obtain ⟨m₁, -, hframe, hcalls, hlater, -, t, ht⟩ := h
    have hle : t ≤ n := Nat.le_of_not_lt fun hlt => hne ((ht n).1 hlt)
    have hsame := (ht n).2 hle
    rw [hrun] at hsame
    cases hsame
    exact ⟨hframe, hcalls, hlater⟩
  · exact absurd (h n (Nat.le_refl n)) hne
  · obtain ⟨t, ht⟩ := h
    have hle : t ≤ n := Nat.le_of_not_lt fun hlt => hne ((ht n).1 hlt)
    have hstops := (ht n).2 hle
    rw [hrun] at hstops
    exact hstops.elim

-- The functions of a package are bound in its scope.

theorem binds_all {h : Heap} {b : List (String × Value)} (hb : ScopeBinds h scope b)
    (value : α → Value) (items : List (String × α)) :
    ∃ h', (items.forM fun i => Heap.declare scope i.1 (value i.2)) h = ((), h') ∧
      ScopeBinds h' scope ((items.map fun i => (i.1, value i.2)).reverse ++ b) := by
  induction items generalizing h b with
  | nil => exact ⟨h, rfl, hb⟩
  | cons i items ih =>
      obtain ⟨h', hrest, hb'⟩ := ih (hb.bind i.1 (value i.2))
      refine ⟨h', ?_, ?_⟩
      · change (items.forM fun i => Heap.declare scope i.1 (value i.2))
          (Heap.declare scope i.1 (value i.2) h).2 = _
        rw [hb.declare_eq]
        exact hrest
      · rw [List.map_cons, List.reverse_cons, List.append_assoc]
        exact hb'

theorem binds_newScope (h : Heap) (parent : Option ScopeId) :
    ScopeBinds (Heap.newScope parent h).2 h.scopes.size [] := by
  have hscope : (Heap.newScope parent h).2.scopes[h.scopes.size]? = some ⟨[], parent, false⟩ := by
    change (h.scopes.push _)[h.scopes.size]? = _
    simp
  refine ⟨(Array.getElem?_eq_some_iff.mp hscope).1, fun x => ?_⟩
  unfold Heap.binding?
  rw [hscope]
  rfl

-- A call that gives results has found room among the active calls.
theorem room_of_ok {k : Nat} {code : CodeRef} {span : Span} {values : List Value}
    (h : p.call k (.func (some (.closure code scope))) args false span m = .ok values m') :
    m.calls.size < p.maxDepth := by
  by_contra hle
  cases k with
  | zero => cases h
  | succ k =>
      unfold Program.call at h
      change ((get >>= fun m => if p.maxDepth ≤ m.calls.size then _ else _ : Exec (List Value)) m)
        = _ at h
      rw [bind_of_ok (Exec.get_apply m), if_pos (Nat.not_lt.mp hle)] at h
      exact Exec.fatal_ne_ok _ _ _ _ h

theorem call_of_callFunction {k : Nat} {v : Value} {values : List Value}
    (h : p.callFunction k v args m = .ok (.ok values) m') :
    p.call k v args false Span.none m = .ok values m' := by
  unfold Program.callFunction at h
  cases hcall : p.call k v args false Span.none m with
  | ok values' m₁ =>
      rw [hcall] at h
      cases h
      rfl
  | error u m₁ =>
      rw [hcall] at h
      simp only [map_apply] at h
      split at h <;> cases h

-- What is bound in the scope of a package, and the calls that are active while nothing runs.
structure PackageReady (ds : List (FuncDecl × FuncType)) (callee : String → Value) (scope : ScopeId)
    (m : Machine) : Prop where
  package : Package (funcsOf ds) callee scope m.heap
  calls : m.calls = #[]

-- Initializers leave the package as it is.
theorem runInits_ok (hp : IsStructured ds)
    (hcode : ∀ d ∈ callable ds, LeadsToCode ds p scope d (callee d.1.name))
    {inits : List CodeRef} {ds' : List (FuncDecl × FuncType)}
    (hinits : List.Forall₂ (BuiltFrom ds p.code) ds' inits)
    (hds' : ∀ d ∈ ds', d ∈ ds ∧ d.2.params = [])
    (h : Link.runInits o p scope inits l = .ok () l')
    (hl : PackageReady ds callee scope l.machine) :
    l'.library = l.library ∧ PackageReady ds callee scope l'.machine := by
  induction hinits generalizing l with
  | nil =>
      cases h
      exact ⟨rfl, hl⟩
  | @cons d init ds' inits hbuilt _ ih =>
      obtain ⟨r, l₁, hexec, hrest⟩ := bind_eq_ok.mp h
      unfold Link.exec at hexec
      cases hcall : p.callFunction o.fuel (Link.closure init scope) [] l.machine with
      | error u m =>
          rw [hcall] at hexec
          cases hexec
          cases hrest
      | ok r m =>
          rw [hcall] at hexec
          cases hexec
          cases r with
          | error e => cases hrest
          | ok values =>
              have hok := call_of_callFunction hcall
              obtain ⟨hd, hparams⟩ := hds' d List.mem_cons_self
              obtain ⟨fn, hfn, himpl⟩ := hbuilt
              have hroom := room_of_ok hok
              have hargs : List.Forall₂ Base.Has d.2.params [] := by
                rw [hparams]
                exact .nil
              have hspare : p.maxDepth - l.machine.calls.size =
                  p.maxDepth - l.machine.calls.size - 1 + 1 := by omega
              have hanswers := (answers_calls (n := o.fuel) hp hcode _).body hp hd hfn himpl
                hspare hl.package hargs Span.none
              obtain ⟨-, hcalls, hlater⟩ := hanswers.of_ok hok
              exact ih (l := { l with machine := m }) (fun d hd => hds' d (List.mem_cons_of_mem _ hd))
                hrest ⟨hl.package.later hlater hl.package.lt, hcalls.trans hl.calls⟩

theorem declareTypes_funcs (fs : List FuncDecl) (lib : Library) :
    Compile.declareTypes (fs.map Decl.func) lib = .ok () lib := by
  induction fs with
  | nil => rfl
  | cons _ _ ih => exact ih

theorem compile_ok {x : Compile α} {a : α} (h : Link.compile x l = .ok a l') :
    ∃ lib, x l.library = .ok a lib ∧ l' = { l with library := lib } := by
  unfold Link.compile at h
  cases hx : x l.library with
  | ok a' lib =>
      rw [hx] at h
      cases h
      exact ⟨lib, rfl, rfl⟩
  | error e lib =>
      rw [hx] at h
      cases h

-- A linked package is ready, with code for each function.
theorem link_ready (hp : IsStructured ds) {pk : StepGraph.Package} (himports : pk.imports = [])
    (hdecls : pk.decls = ds.map fun d => .func d.1) {linking : List String} {k : Nat}
    (hcalls : l.machine.calls = #[]) (h : Link.link o none k linking pk l = .ok scope l') :
    ∃ callee, PackageReady ds callee scope l'.machine ∧
      ∀ d ∈ callable ds, LeadsToCode ds ⟨l'.library.code, l'.library.types, o.hosts, o.maxDepth, false⟩
        scope d (callee d.1.name) := by
  have hfuncs : pk.decls = (ds.map (·.1)).map Decl.func := by rw [hdecls, List.map_map]; rfl
  cases k with
  | zero => cases h
  | succ k =>
      unfold Link.link at h
      rw [himports] at h
      obtain ⟨s, _, hscope, h⟩ := bind_eq_ok.mp h
      cases hscope
      obtain ⟨_, _, hbind, h⟩ := bind_eq_ok.mp h
      cases hbind
      obtain ⟨_, l₃, hlinked, hlast⟩ := bind_eq_ok.mp h
      cases hlast
      unfold Link.linkDecls at hlinked
      obtain ⟨_, l₄, htypes, hlinked⟩ := bind_eq_ok.mp hlinked
      obtain ⟨lib, hdeclared, rfl⟩ := compile_ok htypes
      rw [hfuncs, declareTypes_funcs] at hdeclared
      cases hdeclared
      obtain ⟨compiled, l₅, hcompiled, hlinked⟩ := bind_eq_ok.mp hlinked
      obtain ⟨lib, hpackage, rfl⟩ := compile_ok hcompiled
      obtain ⟨hmethods, hunits, hnamed, hinits⟩ := compile_package hp hdecls hpackage
      obtain ⟨_, l₆, hbound, hlinked⟩ := bind_eq_ok.mp hlinked
      rw [hmethods, hunits] at hlinked
      obtain ⟨_, l₇, hadded, hlinked⟩ := bind_eq_ok.mp hlinked
      cases hadded
      obtain ⟨_, l₈, hprogram, hlinked⟩ := bind_eq_ok.mp hlinked
      cases hprogram
      obtain ⟨_, l₉, hrun, hlinked⟩ := bind_eq_ok.mp hlinked
      cases hrun
      obtain ⟨p, l₁₀, hprogram, hlinked⟩ := bind_eq_ok.mp hlinked
      cases hprogram
      obtain ⟨h, hdeclare, hbinds⟩ := binds_all (binds_newScope l.machine.heap none)
        (fun code => Link.closure code l.machine.heap.scopes.size) compiled.funcs
      have hbound' : l₆ = { l with
          machine := { l.machine with heap := h }, library := lib } := by
        unfold Link.onHeap at hbound
        simp only at hbound
        erw [hdeclare] at hbound
        cases hbound
        rfl
      subst hbound'
      have hkeys : (compiled.funcs.map Prod.fst).Nodup := Lists.keys_of_forall₂ hnamed ▸ hp.distinct
      have hlookup := Lists.lookup_of_forall₂ hp.distinct hnamed
      let callee := fun f => ((compiled.funcs.lookup f).map
        fun code => Link.closure code l.machine.heap.scopes.size).getD .nil
      have hcode : ∀ d ∈ callable ds,
          LeadsToCode ds ⟨lib.code, lib.types, o.hosts, o.maxDepth, false⟩ l.machine.heap.scopes.size d
            (callee d.1.name) := by
        intro d hd
        obtain ⟨ref, href, fn, hfn, himpl⟩ := hlookup d hd
        exact ⟨ref, fn, by simp only [callee, href]; rfl, hfn, himpl⟩
      have hready : PackageReady ds callee l.machine.heap.scopes.size { l.machine with heap :=
        h } := by
        refine ⟨⟨hbinds.lt, fun f t hf => ?_⟩, hcalls⟩
        obtain ⟨d, -, hd, rfl⟩ := find?_of_lookup hf
        obtain ⟨ref, href, -⟩ := hlookup _ hd
        rw [hbinds.binding, List.append_nil, Lists.lookup_reverse (by rwa [List.map_map])]
        rw [Lists.lookup_map _ fun _ code => Link.closure code l.machine.heap.scopes.size, href]
        simp only [callee, href]
        rfl
      obtain ⟨hlibrary, hready'⟩ := runInits_ok hp hcode hinits (fun d hd => by
        obtain ⟨hmem, hname⟩ := List.mem_filter.mp hd
        exact ⟨hmem, hp.inits d hmem (by simpa using hname)⟩) hlinked hready
      refine ⟨callee, hready', ?_⟩
      rw [hlibrary]
      exact hcode

-- A built package has code for each of its functions, and nothing of it runs.
theorem executable_ready (hp : IsStructured ds) {pk : StepGraph.Package}
    (himports : pk.imports = []) (hdecls : pk.decls = ds.map fun d => .func d.1) {e : Executable}
    {printer : Printer} (h : Executable.ofTree o printer pk = (.ok e, m)) :
    ∃ callee, PackageReady ds callee e.scope m ∧ e.program.maxDepth = o.maxDepth ∧
      ∀ d ∈ callable ds, LeadsToCode ds e.program e.scope d (callee d.1.name) := by
  unfold Executable.ofTree at h
  cases hfinish : Executable.finish o none pk (Link.start printer) with
  | error _ l =>
      rw [hfinish] at h
      cases h
  | ok e' l =>
      rw [hfinish] at h
      cases h
      unfold Executable.finish at hfinish
      obtain ⟨scope, l₁, hlink, hlast⟩ := bind_eq_ok.mp hfinish
      cases hlast
      obtain ⟨callee, hready, hcode⟩ := link_ready hp himports hdecls rfl hlink
      exact ⟨callee, hready, rfl, hcode⟩

-- A call of a function of a built package ends if and only if its evaluation ends, given enough
-- rounds, and then both end in the same way: with the same results or the same panic, or with too
-- many calls inside each other, after the same text was printed. A run that its bound stopped
-- shows none of these.
theorem call_iff_evaluation (hp : IsStructured ds) {pk : StepGraph.Package}
    (himports : pk.imports = []) (hdecls : pk.decls = ds.map fun d => .func d.1) {e : Executable}
    {printer : Printer} (hbuild : Executable.ofTree o printer pk = (.ok e, m))
    (hf : (funcsOf ds).lookup f = some t) (hargs : List.Forall₂ Base.Has t.params args) :
    ∃ callee, e.global? f m = .ok (some callee) m ∧
      (∀ k, IsExhausted (e.program.call k callee args false Span.none m) ∨
        (ending (e.program.call k callee args false Span.none m)).isSome) ∧
      ∀ x, (∃ k, ending (e.program.call k callee args false Span.none m) = some x) ↔
        ∃ n, evaluated (evaluate (ds.map (·.1)) n o.maxDepth f args m.printer) = some x := by
  obtain ⟨callee, hready, hdepth, hcode⟩ := executable_ready hp himports hdecls hbuild
  have hnames : (ds.map (·.1)).filter (fun d => d.name ≠ Build.unitName) = (callable ds).map (·.1) := by
    unfold callable
    rw [List.filter_map]
    rfl
  have hanswers : ∀ n, AnswersCall n (evaluate (ds.map (·.1)) n o.maxDepth f args) t.result
      (fun k => e.program.call k (callee f) args false Span.none m) m := by
    intro n
    obtain ⟨call, hcall, hall⟩ := answers_calls (n := n) hp hcode o.maxDepth f t hf
    have heval : evaluate (ds.map (·.1)) n o.maxDepth f args = call args := by
      unfold evaluate
      rw [hnames, hcall]
      rfl
    rw [heval]
    exact hall args hargs Span.none m (by rw [hready.calls, hdepth]; rfl) hready.package
  refine ⟨callee f, ?_, ending_iff hanswers⟩
  have hlocal : m.heap.local? e.scope f = some (callee f) := by
    unfold Heap.local?
    rw [hready.package.binding f t hf]
    rfl
  exact congrArg (EStateM.Result.ok · m) hlocal

def parameter : Expr := .ident Note.empty "n"

def literal (i : Int) : Expr := .lit Note.empty (.int i)

-- `func fact(n int) int { if n < 2 { return 1 }; println(n); return n * fact(n - 1) }`.
def fact : FuncDecl :=
  ⟨"fact", none, ⟨[⟨some "n", .plainInt⟩], [⟨none, .plainInt⟩], false⟩,
    [.cond Span.none none (.binary Note.empty .lt parameter (literal 2))
      [.ret Span.none [literal 1]] none,
      .expr Span.none (.call Note.empty (.ident Note.empty "println") [parameter] false),
      .ret Span.none [.binary Note.empty .mul parameter (.call Note.empty
        (.ident Note.empty "fact") [.binary Note.empty .sub parameter (literal 1)] false)]]⟩

def factType : FuncType := ⟨[.int], some .int⟩

theorem fact_isStructured : IsStructured [(fact, factType)] := by
  have hfree : FreeName (funcsOf [(fact, factType)]) [[("n", .int)]] "println" :=
    ⟨rfl, by decide +kernel, by decide⟩
  have hlookup : (funcsOf [(fact, factType)]).lookup "fact" = some factType := rfl
  have hn : HasType (funcsOf [(fact, factType)]) [[("n", .int)]] parameter .int :=
    .var _ "n" .int (.inl rfl) rfl (by decide)
  have hinner : HasType (funcsOf [(fact, factType)]) [[], [("n", .int)]] parameter .int :=
    .var _ "n" .int (.inl rfl) rfl (by decide)
  have hlit : ∀ vars i, HasType (funcsOf [(fact, factType)]) vars (literal i) .int :=
    fun _ i => .int _ i (.inl rfl)
  refine ⟨by decide +kernel, fun d hd => ?_, fun d hd hname => ?_⟩
  · obtain rfl := List.mem_singleton.mp hd
    refine ⟨rfl, rfl, rfl, rfl, [[("n", .int)]], ?_⟩
    refine .cons _ _ _ _ _ (.cond _ _ _ _ _ _ _ _ (.none _)
      (.binary _ _ _ _ .int _ (.inl rfl) rfl hinner (hlit _ _))
      (.cons _ _ _ _ _ (.retValue _ _ _ _ rfl (hlit _ _)) (.nil _)) (.none _)) ?_
    refine .cons _ _ _ _ _ (.simple _ _ _ (.print _ _ _ _ _ _ _ (.inr rfl) hfree
      (.cons _ _ _ _ hn .nil))) ?_
    exact .cons _ _ _ _ _ (.retValue _ _ _ _ rfl (.binary _ _ _ _ .int _ (.inl rfl) rfl hn
      (.call _ _ _ _ factType _ (.inl rfl) hlookup rfl (by decide) rfl
        (.cons _ _ _ _ (.binary _ _ _ _ .int _ (.inl rfl) rfl hn (hlit _ _)) .nil)))) (.nil _)
  · obtain rfl := List.mem_singleton.mp hd
    exact absurd hname (by decide +kernel)

def factPackage : StepGraph.Package := ⟨"main", [], [.func fact]⟩

def factOptions : BuildOptions := { BuildOptions.default with maxDepth := 5, fuel := 3 }

-- The integers that a call gave, and what was printed until then.
def integers : Ending × Printer → Option (List Int × String)
  | (.returns values, printer) => some (values.filterMap fun v => v.int?.map (·.val), printer.output)
  | _ => none

theorem call_fact_three : ∃ e m callee k,
    Executable.ofTree factOptions .empty factPackage = (.ok e, m) ∧
    e.global? "fact" m = .ok (some callee) m ∧
    (ending (e.program.call k callee [.plainInt 3] false Span.none m)).bind integers =
      some ([6], "3\n2\n") := by
  have hok : (Executable.ofTree factOptions .empty factPackage).1.isOk := by decide +kernel
  have heval : (evaluated (evaluate [fact] 1 5 "fact" [.plainInt 3]
      (Executable.ofTree factOptions .empty factPackage).2.printer)).bind integers =
        some ([6], "3\n2\n") := by decide +kernel
  generalize hbuild : Executable.ofTree factOptions .empty factPackage = built at hok heval
  obtain ⟨_ | e, m⟩ := built
  · cases hok
  obtain ⟨x, heval, hx⟩ := Option.bind_eq_some_iff.mp heval
  have hlookup : (funcsOf [(fact, factType)]).lookup "fact" = some factType := rfl
  have hargs : List.Forall₂ Base.Has factType.params [.plainInt 3] := .cons (.int _ rfl) .nil
  obtain ⟨callee, hglobal, -, hiff⟩ := call_iff_evaluation fact_isStructured rfl rfl hbuild hlookup
    hargs
  obtain ⟨k, hk⟩ := (hiff x).mpr ⟨1, heval⟩
  exact ⟨e, m, callee, k, rfl, hglobal, by rw [hk]; exact hx⟩

end StepGraph.Structured

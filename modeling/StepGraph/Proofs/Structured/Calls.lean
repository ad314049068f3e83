import StepGraph.Compile.Declarations
import StepGraph.Proofs.Structured.Clauses

open EStateM (bind_of_ok bind_of_error bind_eq_ok)

namespace StepGraph.Structured

open Build

variable {funcs : Funcs} {d : FuncDecl} {sig : FuncType} {pn : PackageNames} {types : TypeTable}
  {code : Array Function} {α β : Type}

-- The names of a package of functions.
structure KnowsFuncs (funcs : Funcs) (pn : PackageNames) : Prop where
  globals : pn.globals = []
  imports : pn.imports = []
  funcs : ∀ f, pn.funcs.lookup f = (funcs.lookup f).map FuncType.ty

-- The steps do what the body of the function does, in whatever world they stand.
def PerformsBody (funcs : Funcs) (d : FuncDecl) (sig : FuncType) (steps : Array Step) : Prop :=
  ∀ w : World, w.WellFormed → w.funcs = funcs → w.steps = steps → w.result = sig.result →
    ∃ inner, RunsStmt w [] [] [paramBlock d.sig sig.params] (LeavesBlock inner)
      (if steps.isEmpty then none else some 0) none fun env => stmts w.calls w.rounds d.body env

-- The block of the parameters, in an evaluation, for the types and in the builder.

theorem paramBlock_cons {p : Param} {ps rs : List Param} {v : Bool} {a : α} {items : List α} :
    paramBlock ⟨p :: ps, rs, v⟩ (a :: items) = paramBlock ⟨ps, rs, v⟩ items ++ paramEntry p a := by
  have hentry : (paramEntry p a).reverse = paramEntry p a := by
    unfold paramEntry
    split
    · split <;> rfl
    · rfl
  unfold paramBlock
  rw [List.zip_cons_cons, List.flatMap_cons, List.reverse_append, hentry]

theorem rel_or {r : α → β → Prop} {a a' : Option α} {b b' : Option β} (h : Option.Rel r a b)
    (h' : Option.Rel r a' b') : Option.Rel r (a.or a') (b.or b') := by
  cases h with
  | some h => exact .some h
  | none => exact h'

theorem lookup_paramEntry {r : α → β → Prop} {a : α} {b : β} (h : r a b) (p : Param) (x : String) :
    Option.Rel r ((paramEntry p a).lookup x) ((paramEntry p b).lookup x) := by
  unfold paramEntry
  split
  · split
    · exact .none
    · rw [Lists.lookup_cons_eq, Lists.lookup_cons_eq]
      split
      · exact .some h
      · exact .none
  · exact .none

theorem lookup_paramBlock {r : α → β → Prop} {ps rs : List Param} {v : Bool} {items : List α}
    {others : List β} (h : List.Forall₂ r items others) (x : String) :
    Option.Rel r ((paramBlock ⟨ps, rs, v⟩ items).lookup x)
      ((paramBlock ⟨ps, rs, v⟩ others).lookup x) := by
  induction h generalizing ps with
  | nil => cases ps <;> exact .none
  | cons hab _ ih =>
      cases ps with
      | nil => exact .none
      | cons p ps =>
          rw [paramBlock_cons, paramBlock_cons, List.lookup_append, List.lookup_append]
          exact rel_or ih (lookup_paramEntry hab p x)

theorem signatureNames_go (ps : List Param) :
    Builder.signatureNames.go false ps = ps.flatMap fun p => (Builder.signatureNames.bind p).toList := by
  induction ps with
  | nil => rfl
  | cons p ps ih =>
      cases ps with
      | nil => simp [Builder.signatureNames.go]
      | cons q ps =>
          rw [Builder.signatureNames.go, ih, List.flatMap_cons]
          · rfl
          · simp

theorem lookup_signatureNames {ps rs : List Param} (hrs : ∀ r ∈ rs, r.name = none) {x : String}
    (hx : x ≠ Names.blank) : (Builder.signatureNames ⟨ps, rs, false⟩).lookup x =
      (paramBlock ⟨ps, rs, false⟩ (ps.map fun p => some p.ty)).lookup x := by
  have hresults : rs.filterMap Builder.signatureNames.bind = [] := by
    refine List.filterMap_eq_nil_iff.mpr fun r hr => ?_
    simp [Builder.signatureNames.bind, hrs r hr]
  unfold Builder.signatureNames
  simp only [hresults, List.append_nil, signatureNames_go]
  induction ps with
  | nil => rfl
  | cons p ps ih =>
      rw [List.map_cons, paramBlock_cons, List.flatMap_cons, List.reverse_append, List.lookup_append,
        List.lookup_append, ih]
      congr 1
      unfold paramEntry Builder.signatureNames.bind
      cases p.name with
      | none => rfl
      | some y =>
          by_cases hy : y = Names.blank
          · have hne : (x == y) = false := by rw [hy]; exact beq_eq_false_iff_ne.mpr hx
            simp [hy, List.lookup_cons, hy ▸ hne]
          · simp [hy]

theorem lookup_paramBlock_blank (ps rs : List Param) (v : Bool) (items : List α) :
    (paramBlock ⟨ps, rs, v⟩ items).lookup Names.blank = none := by
  induction items generalizing ps with
  | nil => cases ps <;> rfl
  | cons a items ih =>
      cases ps with
      | nil => rfl
      | cons p ps =>
          rw [paramBlock_cons, List.lookup_append, ih, Option.none_or]
          unfold paramEntry
          split
          · split
            · rfl
            · next y hy =>
                rw [Lists.lookup_cons_eq, if_neg (Ne.symm hy)]
                rfl
          · rfl

theorem forall₂_of_map_eq {ps : List Param} {ts : List Base}
    (h : ps.map (·.ty) = ts.map Base.ty) :
    List.Forall₂ (fun (t : Base) (ty : Option Ty) => t.Hints ty) ts (ps.map fun p => some p.ty) := by
  induction ps generalizing ts with
  | nil =>
      cases ts with
      | nil => exact .nil
      | cons => cases h
  | cons p ps ih =>
      cases ts with
      | nil => cases h
      | cons t ts =>
          obtain ⟨hty, hrest⟩ := List.cons.inj h
          exact .cons (.inr (congrArg some hty)) (ih hrest)

theorem DeclaresFunc.unnamed (hd : DeclaresFunc funcs d sig) :
    ∀ r ∈ d.sig.results, r.name = none := by
  intro r hr
  rw [hd.results] at hr
  cases hresult : sig.result with
  | none => simp [hresult] at hr
  | some t =>
      rw [hresult] at hr
      rw [List.mem_singleton.mp hr]

theorem DeclaresFunc.hasNamedResults (hd : DeclaresFunc funcs d sig) :
    d.sig.hasNamedResults = false := by
  unfold Signature.hasNamedResults
  rw [List.any_eq_false]
  intro r hr
  simp [hd.unnamed r hr]

-- What the builder of a function starts with.
theorem DeclaresFunc.suits (hd : DeclaresFunc funcs d sig) (hk : KnowsFuncs funcs pn) :
    BuilderSuits funcs sig.result [paramBlock d.sig sig.params]
    (.start ⟨pn, types, []⟩ code d.sig) := by
  refine ⟨⟨by simp [Builder.start], by simp, ?_, fun x hx => ?_, hk.globals, hk.imports, hk.funcs⟩,
    hd.hasNamedResults, ?_⟩
  · exact List.findSome?_singleton.trans (lookup_paramBlock_blank _ _ _ _)
  · have hlocal : Names.local? (Builder.start ⟨pn, types, []⟩ code d.sig).names x =
        (Builder.signatureNames d.sig).lookup x := List.findSome?_singleton
    have htype : Vars.type? [paramBlock d.sig sig.params] x =
        (paramBlock d.sig sig.params).lookup x := List.findSome?_singleton
    have hsame : (Builder.signatureNames ⟨d.sig.params, d.sig.results, false⟩).lookup x = _ :=
      lookup_signatureNames hd.unnamed hx
    rw [← hd.variadic] at hsame
    rw [hlocal, htype, hsame]
    exact lookup_paramBlock (forall₂_of_map_eq hd.params) x
  · change d.sig.results.map (·.ty) = _
    rw [hd.results]
    cases sig.result <;> rfl

-- The builder of a function gives it a number, under which its steps do what its body does.
theorem buildFunc_ok {ref : CodeRef} {b' : Builder} (hd : DeclaresFunc funcs d sig)
    (hk : KnowsFuncs funcs pn)
    (h : buildFunc d (.start ⟨pn, types, []⟩ code d.sig) = .ok ref b') :
    ∃ steps, ref.id = code.size ∧ b'.names.types = types ∧
      b'.code = code.push ⟨d.name, d.sig, none, false, false, steps⟩ ∧
      PerformsBody funcs d sig steps := by
  obtain ⟨inner, hbody⟩ := hd.body
  unfold buildFunc at h
  rw [hd.recv] at h
  obtain ⟨_, b₁, hstmts, hfinish⟩ := bind_eq_ok.mp h
  have hcompiled := compile_stmts hbody (hd.suits hk) hstmts
  have hsetting := hcompiled.grown.setting
  have hcode : b₁.code = code := congrArg (fun s => s.1) hsetting
  have hsig : b₁.sig = d.sig := congrArg (fun s => s.2.1) hsetting
  have hgotos : b₁.gotos = [] := congrArg (fun s => s.2.2.1) hsetting
  have hdefer : b₁.hasDefer = false := congrArg (fun s => s.2.2.2.1) hsetting
  have htypes : b₁.names.types = types := congrArg (fun s => s.2.2.2.2.2) hsetting
  obtain ⟨_, b₂, hresolve, hnumber⟩ := bind_eq_ok.mp hfinish
  obtain ⟨_, _, hget, hresolve⟩ := bind_eq_ok.mp hresolve
  cases hget
  rw [hgotos] at hresolve
  cases hresolve
  cases hnumber
  refine ⟨b₁.steps, by rw [hcode], htypes, by rw [hcode, hsig, hdefer], ?_⟩
  intro w hw hfuncs hsteps hresult
  have hopen := hcompiled.grown.opened [] (fun x => ⟨by simp [Builder.start], by simp [Builder.start]⟩)
  have hleads : AllLead w.steps b₁.pending none := by
    intro slot hslot
    rw [hsteps]
    refine (hopen slot).2 (List.count_pos_iff.mpr ?_)
    exact List.mem_append_left _ hslot
  have hcontexts : b₁.contexts = [] := by
    have hgrow := hcompiled.grown.contexts
    generalize b₁.contexts = contexts at hgrow
    cases hgrow
    rfl
  have hstands : WorldHasBuilder funcs sig.result w [] b₁ none :=
    ⟨⟨hw, hfuncs, hsteps ▸ .refl _, hleads⟩, hresult, hcontexts ▸ .nil⟩
  obtain ⟨-, hruns⟩ := hcompiled.code w [] [] none ⟨rfl, nofun, fun _ => .inl rfl⟩ hstands
  refine ⟨inner, ?_⟩
  have hentry : Builder.entry (.start ⟨pn, types, []⟩ code d.sig) b₁ none =
      if b₁.steps.isEmpty then none else some 0 := by
    unfold Builder.entry
    change (if 0 < b₁.steps.size then some 0 else none) = _
    cases hsize : b₁.steps.isEmpty with
    | true => simp_all [Array.isEmpty]
    | false => simp_all [Array.isEmpty, Nat.pos_iff_ne_zero]
  rwa [hentry] at hruns

end StepGraph.Structured

namespace StepGraph.Structured

open Exec

variable {funcs : Funcs} {d : FuncDecl} {sig : FuncType} {f : Function} {p : Program}
  {m m' : Machine} {pkg base : ScopeId} {args : List Value} {span : Span} {ref : CodeRef}
  {callee : String → Value} {calls : Calls} {n : Nat}

-- A function in the code of a program that was built from a declaration.
structure Implements (funcs : Funcs) (d : FuncDecl) (sig : FuncType) (f : Function) : Prop where
  performs : PerformsBody funcs d sig f.steps
  sig : f.sig = d.sig
  recv : f.recv = none
  hasDefer : f.hasDefer = false

-- The parameters are bound one after the other in the scope of the function.
theorem bindEach_ok {ps rs : List Param} {v : Bool} {ts : List Base} {b : List (String × Value)}
    (hps : ps.map (·.ty) = ts.map Base.ty) (hargs : List.Forall₂ Base.Has ts args)
    (hl : Layout m.heap pkg base [] [b] base) :
    ∃ h, ((ps.zip args).forM fun (param, v) => do
        Program.bindName base param.name (← p.passed param.ty v) : Exec Unit) m =
          .ok () { m with heap := h } ∧
      Layout h pkg base [] [paramBlock ⟨ps, rs, v⟩ args ++ b] base ∧ Later base m.heap h := by
  induction hargs generalizing ps b m with
  | nil =>
      obtain rfl : ps = [] := List.map_eq_nil_iff.mp hps
      exact ⟨m.heap, rfl, hl, .refl _ _⟩
  | @cons t a ts args ha _ ih =>
      cases ps with
      | nil => cases hps
      | cons q ps =>
          obtain ⟨hty, hps⟩ := List.cons.inj hps
          have hpassed : p.passed q.ty a m = .ok a m := by
            have hty : q.ty = t.ty := hty
            unfold Program.passed
            rw [hty, bind_of_ok (monadLift_apply _ m), ha.copy]
            exact ha.coerce p m
          obtain ⟨h₁, hbind, hl₁, hlater₁⟩ : ∃ h, Program.bindName base q.name a m =
              .ok () { m with heap := h } ∧
              Layout h pkg base [] [paramEntry q a ++ b] base ∧ Later base m.heap h := by
            unfold Program.bindName paramEntry
            cases q.name with
            | none => exact ⟨m.heap, rfl, hl, .refl _ _⟩
            | some x =>
                by_cases hx : x = Names.blank
                · simp only [if_pos hx]
                  exact ⟨m.heap, rfl, hl, .refl _ _⟩
                · obtain ⟨hdeclare, hl'⟩ := hl.declare (.inl rfl) hx a
                  simp only [if_neg hx]
                  refine ⟨(Heap.bind base x (.plain a) m.heap).2, ?_, ?_,
                    Later.bind (Nat.le_refl _) x _ _⟩
                  · rw [monadLift_apply, hdeclare]
                  · unfold Env.declare at hl'
                    rwa [if_neg hx] at hl'
          obtain ⟨h₂, hrest, hl₂, hlater₂⟩ := ih (m := { m with heap := h₁ }) hps hl₁
          refine ⟨h₂, ?_, ?_, hlater₁.trans hlater₂⟩
          · exact (bind_of_ok ((bind_of_ok hpassed).trans hbind)).trans hrest
          · rw [paramBlock_cons, List.append_assoc]
            exact hl₂

theorem bindParams_ok {ts : List Base} (hps : f.sig.params.map (·.ty) = ts.map Base.ty)
    (hvariadic : f.sig.variadic = false) (hargs : List.Forall₂ Base.Has ts args)
    (hl : Layout m.heap pkg base [] [[]] base) :
    ∃ h, p.bindParams base f args false m = .ok () { m with heap := h } ∧
      Layout h pkg base [] [paramBlock f.sig args] base ∧ Later base m.heap h := by
  have hlen : args.length = f.sig.params.length := by
    rw [← List.Forall₂.length_eq hargs, ← List.length_map Base.ty, ← hps, List.length_map]
  have haccepts : (!Program.acceptsArgs f.sig args.length false) = false := by
    simp [Program.acceptsArgs, hvariadic, hlen]
  have hfixed : Program.fixedParams f.sig = f.sig.params.length := by
    simp [Program.fixedParams, hvariadic]
  obtain ⟨h, heach, hl', hlater⟩ : ∃ h, ((f.sig.params.zip args).forM fun (param, v) => do
        Program.bindName base param.name (← p.passed param.ty v) : Exec Unit) m =
          .ok () { m with heap := h } ∧
      Layout h pkg base [] [paramBlock f.sig args ++ []] base ∧ Later base m.heap h :=
    bindEach_ok hps hargs hl
  refine ⟨h, ?_, by simpa using hl', hlater⟩
  unfold Program.bindParams
  simp only [haccepts, hfixed, hvariadic, List.take_length, Bool.false_eq_true, if_false]
  exact (bind_of_ok heach).trans rfl

-- What the call of a function starts with.
theorem enter_ok (hd : DeclaresFunc funcs d sig) (hf : Implements funcs d sig f)
    (hargs : List.Forall₂ Base.Has sig.params args) :
    ∃ m', p.enter f pkg none args false span m = .ok (m.heap.scopes.size, m.calls.size) m' ∧
      m'.frame = m.frame ∧ m'.printer = m.printer ∧ (∃ r, m'.calls = m.calls.push r) ∧
      Later m.heap.scopes.size m.heap m'.heap ∧
      At ⟨pkg, m.heap.scopes.size, m'.heap, m'.calls⟩ [] [paramBlock d.sig args] []
        { m' with frame := .start m.heap.scopes.size } := by
  have hnew : Layout (Heap.newScope (some pkg) m.heap).2 pkg m.heap.scopes.size [] [[]]
      m.heap.scopes.size := by
    have hscope : (Heap.newScope (some pkg) m.heap).2.scopes[m.heap.scopes.size]? =
        some ⟨[], some pkg, false⟩ := by
      change (m.heap.scopes.push _)[m.heap.scopes.size]? = _
      simp
    refine .base [] ⟨(Array.getElem?_eq_some_iff.mp hscope).1, fun x => ?_⟩ ?_
    · unfold Heap.binding?
      rw [hscope]
      rfl
    · unfold Heap.parent?
      rw [hscope]
      rfl
  obtain ⟨h, hbind, hl, hlater⟩ := bindParams_ok (p := p) (f := f)
    (m := { m with deferring := none, heap := (Heap.newScope (some pkg) m.heap).2 })
    (hf.sig ▸ hd.params) (hf.sig ▸ hd.variadic) hargs hnew
  have hresults : ∀ s, p.declareResults s f.sig = pure () := by
    intro s
    unfold Program.declareResults
    rw [hf.sig, hd.hasNamedResults]
    rfl
  refine ⟨{ m with
      heap := h, deferring := none, calls := m.calls.push ⟨f.name, span, none, m.deferring⟩ },
    ?_, rfl, rfl, ⟨_, rfl⟩, (Later.newScope m.heap _).trans hlater,
    hf.sig ▸ hl, rfl, rfl, rfl, rfl, .refl _ _⟩
  unfold Program.enter
  have htake : Program.takeDeferring m = .ok m.deferring { m with deferring := none } := rfl
  rw [bind_of_ok htake,
    bind_of_ok (monadLift_apply _ _), hf.recv,
    bind_of_ok (show Program.bindReceiver _ none none _ = .ok () _ from rfl)]
  refine (bind_of_ok hbind).trans ?_
  rw [hresults]
  rfl

-- The values of a call that has ended.
theorem collectResults_ok (hd : DeclaresFunc funcs d sig) {v : Option Value}
    (hv : Option.Rel Base.Has sig.result v)
    (hresults : m.frame.results = v.map (fun v => [v]) ∨
      m.frame.results = none ∧ v = sig.result.map Base.zero) :
    p.collectResults d.sig m = .ok v.toList m := by
  have hvalues : p.resultValues d.sig m.frame m = .ok v.toList m := by
    unfold Program.resultValues
    rw [hd.hasNamedResults, hd.results]
    rcases hresults with hresults | ⟨hresults, hzero⟩
    · rw [hresults]
      generalize sig.result = result at hv
      cases hv <;> rfl
    · rw [hresults, hzero]
      cases sig.result with
      | none => rfl
      | some t => exact bind_of_ok (t.zeroValue_eq p m)
  rw [p.collectResults_of_values hvalues, hd.results]
  generalize sig.result = result at hv
  cases hv with
  | none => rfl
  | some hv => exact bind_of_ok (hv.coerce p m)

-- What becomes of the run of a body in the call of its function.

section

variable {run : Array Step → Option StepId → Exec Unit} {steps : Array Step} {scope : ScopeId}
  {record : Nat} {α : Type} {x : Exec α}

theorem body_of_ok (h : run steps (if steps.isEmpty then none else some 0) m = .ok () m') :
    ∃ scope d, Program.body run steps m =
      .ok () { m' with frame := { m'.frame with scope, depth := d } } := by
  unfold Program.body
  simp only [h]
  exact Program.unwindTo_ok 0 m'

theorem body_of_error {u : Unwind}
    (h : run steps (if steps.isEmpty then none else some 0) m = .error u m') :
    ∃ fr, Program.body run steps m = .error u { m' with frame := fr } := by
  obtain ⟨scope, d, hunwind⟩ := Program.unwindTo_ok 0 m'
  unfold Program.body
  simp only [h, hunwind]
  exact ⟨_, rfl⟩

theorem inFrame_of_error {u : Unwind} (h : run steps (if steps.isEmpty then none else some 0)
      { m with frame := .start scope } = .error u m') :
    ∃ calls, Program.inFrame scope (do
        Program.endingCall record (Program.body run steps)
        x) m = .error u { m' with frame := m.frame, calls } := by
  obtain ⟨fr, hbody⟩ := body_of_error h
  have hend : Program.endingCall record (Program.body run steps) { m with frame := .start scope } =
      .error u { m' with frame := fr, calls := m'.calls.shrink record } := by
    unfold Program.endingCall
    simp only [hbody]
  unfold Program.inFrame
  simp only [bind_of_error hend]
  exact ⟨_, rfl⟩

-- A body that is stopped or stops makes its call do so.

theorem exhausted_of_body (h : IsExhausted (run steps (if steps.isEmpty then none else some 0)
      { m with frame := .start scope })) :
    IsExhausted (Program.inFrame scope (do
      Program.endingCall record (Program.body run steps)
      x) m) := by
  obtain ⟨m', hrun⟩ := h
  obtain ⟨calls, hframe⟩ := inFrame_of_error hrun
  exact ⟨_, hframe⟩

theorem stops_of_body {stop : Stop} {printer : Printer}
    (h : StopsAlike stop printer (run steps (if steps.isEmpty then none else some 0)
      { m with frame := .start scope })) :
    StopsAlike stop printer (Program.inFrame scope (do
      Program.endingCall record (Program.body run steps)
      x) m) := by
  cases hrun : run steps (if steps.isEmpty then none else some 0)
      { m with frame := .start scope } with
  | ok =>
      rw [hrun] at h
      exact h.elim
  | error u m' =>
      obtain ⟨calls, hframe⟩ := inFrame_of_error hrun
      rw [hrun] at h
      rw [hframe]
      cases u <;> exact h

theorem inFrame_of_ok {a : α} (h : run steps (if steps.isEmpty then none else some 0)
      { m with frame := .start scope } = .ok () m')
    (hx : ∀ fr calls, fr.results = m'.frame.results →
      x { m' with frame := fr, calls } = .ok a { m' with frame := fr, calls }) :
    Program.inFrame scope (do
        Program.endingCall record (Program.body run steps)
        x) m = .ok a { m' with frame := m.frame, calls := m'.calls.shrink record } := by
  obtain ⟨s, d, hbody⟩ := body_of_ok h
  have hend := Program.endingCall_ok record hbody
  have hx' := hx { m'.frame with scope := s, depth := d } (m'.calls.shrink record) rfl
  unfold Program.inFrame
  simp only [bind_of_ok hend, hx']

end

theorem call_closure (hroom : m.calls.size < p.maxDepth) (hcode : p.code[ref.id]? = some f)
    (hdefer : f.hasDefer = false) {m' : Machine} {scope : ScopeId} {record : Nat}
    (henter : p.enter f pkg none args false span m = .ok (scope, record) m') (k : Nat) :
    p.call (k + 1) (.func (some (.closure ref pkg))) args false span m =
      Program.inFrame scope (do
        Program.endingCall record (Program.body (p.run k) f.steps)
        p.collectResults f.sig) m' := by
  have hinvoke := fun perform => p.invoke_of_enter (p.run k) perform henter
  simp only [hdefer, Bool.false_eq_true, if_false] at hinvoke
  rw [← hinvoke]
  unfold Program.call
  change ((get >>= fun m => if p.maxDepth ≤ m.calls.size then _ else _ : Exec (List Value)) m) = _
  rw [bind_of_ok (get_apply m), if_neg (Nat.not_le.mpr hroom), hcode]

theorem function_apply (printer : Printer) : function calls n d args printer =
    match stmts calls n d.body [paramBlock d.sig args] printer with
    | .ok (_, .ret v) printer => .ok v printer
    | .ok (_, .done) printer => .ok (d.sig.results.head?.map fun r => zero r.ty) printer
    | .ok _ printer => .error .stuck printer
    | .error stop printer => .error stop printer := by
  unfold function
  change EStateM.bind _ _ _ = _
  unfold EStateM.bind
  cases stmts calls n d.body [paramBlock d.sig args] printer with
  | error => rfl
  | ok a printer =>
      obtain ⟨env, signal⟩ := a
      cases signal <;> rfl

-- A call of a function does what its evaluation does.
theorem answers_function (hd : DeclaresFunc funcs d sig) (hf : Implements funcs d sig f)
    (hcode : p.code[ref.id]? = some f) (hroom : m.calls.size < p.maxDepth)
    (hpkg : Package funcs callee pkg m.heap) (hargs : List.Forall₂ Base.Has sig.params args)
    (hanswers : ∀ g t, funcs.lookup g = some t → ∃ call, calls g = some call ∧
      ∀ args, List.Forall₂ Base.Has t.params args →
        ∀ span m', m'.calls.size = m.calls.size + 1 → Package funcs callee pkg m'.heap →
          AnswersCall n (call args) t.result (fun k => p.call k (callee g) args false span m') m')
    (hothers : ∀ g, funcs.lookup g = none → calls g = none) :
    AnswersCall n (function calls n d args) sig.result
      (fun k => p.call k (.func (some (.closure ref pkg))) args false span m) m := by
  obtain ⟨m', henter, hframe, hprinter, ⟨r, hcalls⟩, hlater, hat⟩ := enter_ok hd hf hargs
  have hcall := call_closure hroom hcode hf.hasDefer henter
  generalize hscope : m.heap.scopes.size = base at *
  have hlt : pkg < base := hscope ▸ hpkg.lt
  let w : World :=
    ⟨p, f.steps, sig.result, n, funcs, calls, callee, ⟨pkg, base, m'.heap, m'.calls⟩⟩
  have hsound : w.WellFormed := by
    refine ⟨hlt, hpkg.later hlater hlt, fun g t hg => ?_, hothers⟩
    obtain ⟨call, hcall, hanswer⟩ := hanswers g t hg
    refine ⟨call, hcall, fun args hargs span m₁ hm₁ hpkg₁ => hanswer args hargs span m₁ ?_ hpkg₁⟩
    rw [hm₁]
    change m'.calls.size = _
    rw [hcalls, Array.size_push]
  obtain ⟨inner, hruns⟩ := hf.performs w hsound rfl rfl rfl
  have hsim := hruns [paramBlock d.sig args] _ (.cons (fun x => lookup_paramBlock hargs x) .nil) hat
  unfold World.Sim Structured.Sim at hsim
  unfold AnswersCall
  rw [← hprinter, function_apply]
  have hzero : IsExhausted (p.call 0 (.func (some (.closure ref pkg))) args false span m) :=
    ⟨m, rfl⟩
  have hexhausted : ∀ k, IsExhausted (p.run k f.steps (if f.steps.isEmpty then none else some 0)
        { m' with frame := .start base }) →
      IsExhausted (p.call (k + 1) (.func (some (.closure ref pkg))) args false span m) :=
    fun k hk => hcall k ▸ exhausted_of_body hk
  cases hstmts : stmts calls n d.body [paramBlock d.sig args] m'.printer with
  | error stop printer =>
      simp only [w, hstmts] at hsim
      cases stop with
      | timeout =>
          rintro (_ | k) hk
          · exact hzero
          · exact hexhausted k (hsim k (Nat.le_of_succ_le hk))
      | _ => exact hsim.succ hzero hexhausted fun k hk => hcall k ▸ stops_of_body hk
  | ok a printer =>
      obtain ⟨env, signal⟩ := a
      simp only [w, hstmts] at hsim
      obtain ⟨cost, k', m₂, hmoves, hprinter₂, -, hlands⟩ := hsim
      -- The call ends with the value `v` where the run of the body ends.
      have hends : ∀ v, k' = none → m₂.calls = m'.calls → Later base m'.heap m₂.heap →
          Option.Rel Base.Has sig.result v →
          (m₂.frame.results = v.map (fun v => [v]) ∨
            m₂.frame.results = none ∧ v = sig.result.map Base.zero) →
          ∃ m₃, m₃.printer = printer ∧ m₃.frame = m.frame ∧ m₃.calls = m.calls ∧
            Later m.heap.scopes.size m.heap m₃.heap ∧ Option.Rel Base.Has sig.result v ∧
            SettlesFrom (fun k => p.call k (.func (some (.closure ref pkg))) args false span m)
              (· = .ok v.toList m₃) := by
        rintro v rfl hcalls₂ hlater₂ hv hresults
        refine ⟨{ m₂ with frame := m'.frame, calls := m₂.calls.shrink m.calls.size }, hprinter₂,
          hframe, ?_, hscope.symm ▸ hlater.trans hlater₂, hv, ?_⟩
        · simp [hcalls₂, hcalls]
        · have hrun : SettlesFrom (fun k =>
            p.run k f.steps (if f.steps.isEmpty then none else some 0)
              { m' with frame := .start base }) (· = .ok () m₂) :=
            hmoves.settles ⟨0, fun k => ⟨fun hk => absurd hk (Nat.not_lt_zero k), fun _ =>
              p.run_none k f.steps m₂⟩⟩
          refine hrun.succ hzero hexhausted fun k hk => ?_
          rw [hcall k]
          refine inFrame_of_ok hk fun fr cs hfr => ?_
          rw [hf.sig]
          exact collectResults_ok hd hv (hresults.imp hfr.trans (And.imp_left hfr.trans))
      cases signal with
      | done =>
          obtain ⟨hk, hat₂⟩ := hlands
          have hdefault : (d.sig.results.head?.map fun r => zero r.ty) = sig.result.map Base.zero := by
            rw [hd.results]
            cases sig.result with
            | none => rfl
            | some t => exact congrArg some t.zero_eq
          simp only [hdefault]
          refine hends _ hk hat₂.calls hat₂.later ?_ (.inr ⟨hat₂.results, rfl⟩)
          cases sig.result with
          | none => exact .none
          | some t => exact .some t.has_zero
      | brk l =>
          obtain ⟨x, stale, hx, -⟩ := hlands
          cases hx
      | cont l =>
          obtain ⟨x, hx, -⟩ := hlands
          cases hx
      | ret v =>
          obtain ⟨hk, hreturned⟩ := hlands
          exact hends v hk hreturned.calls hreturned.later hreturned.has (.inl hreturned.results)

end StepGraph.Structured

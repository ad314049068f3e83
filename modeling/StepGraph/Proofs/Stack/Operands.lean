import StepGraph.Proofs.Compile.Shape
import StepGraph.Proofs.Compile.Stances
import StepGraph.Proofs.Machine.Hosts

namespace StepGraph

open Build

-- A program of compiled functions. No struct literal without field names has more values than its
-- type has fields.
structure Program.Compiled (p : Program) : Prop where
  made : Code.Made p.types #[] p.code
  fits : ∀ (i : Nat) f, p.code[i]? = some f → ∀ s ∈ f.steps, s.op.LiteralFits p.types

-- A builder at work: what leads to the next step comes from steps, and the scopes are counted.
structure Builder.AtWork (b : Builder) : Prop where
  pending : ∀ x ∈ b.pending, x.step < b.steps.size
  depth : b.depth = emissionDepth b.steps b.steps.size

-- The steps from one on have become a part of a function. What led nowhere then leads behind them
-- at most.
structure StepsBecome (first : StepId) (steps steps' : Array Step) : Prop where
  step : ∀ (i : StepId) u, first ≤ i → steps[i]? = some u → ∃ s, steps'[i]? = some s ∧ u.Below s
  behind : ∀ (i : StepId) edge k, first ≤ i → LeadsTo steps ⟨i, edge⟩ none →
    LeadsTo steps' ⟨i, edge⟩ (some k) → steps.size ≤ k

-- A run enters a part of a function at a step and leaves it once.
inductive Program.Passes (p : Program) (steps : Array Step) (first last : StepId) :
    Nat → StepId → Machine → Machine → Prop
  | leave {n : Nat} {i : StepId} {k : Option StepId} {m m' : Machine} (hin : first ≤ i ∧ i < last)
      (hstep : p.advance n steps i m = .ok (some k) m')
      (hout : ∀ j, k = some j → ¬ (first ≤ j ∧ j < last)) : Passes p steps first last (n + 1) i m m'
  | next {n : Nat} {i j : StepId} {m m₁ m' : Machine} (hin : first ≤ i ∧ i < last)
      (hstep : p.advance n steps i m = .ok (some (some j)) m₁)
      (hrest : Passes p steps first last n j m₁ m') : Passes p steps first last (n + 1) i m m'

section expressions

variable {α : Type} {b b' : Builder} {x : Build α} {a : α} {left : α → List Item}

-- The steps of an expression on their own: whoever comes to the first one with nothing comes out
-- with what the expression leaves.
theorem exists_plotted_of_operates (hx : ∀ types, Operates types [] x left) (hb : b.AtWork)
    (h : x b = .ok a b') : ∃ log : Log, (∀ i st, log i = some st → b.steps.size ≤ i) ∧
      (b.steps.size < b'.steps.size →
        log b.steps.size = some ⟨b.depth, [], some (b.depth, left a)⟩) ∧
      (∀ i u, b.steps.size ≤ i → b'.steps[i]? = some u → u.op.bare.isPlain = true) ∧
      ∃ s, s.depth = b.depth ∧ s.items = left a ∧ s.held = [] ∧
        Plotted (fun _ _ => True) b.steps.size (some (b.depth, left a)) s b' log := by
  set s : Site := ⟨b.depth, [], [], [], b.contexts.map (·.bare)⟩ with hs
  have hfits : SiteFits s b := ⟨rfl, rfl⟩
  have hprogress := (hx b.names.types .expr s b rfl hfits (.refl _)).progress a b' h
  have hstart : Plotted (fun i st => i = b.steps.size →
      st = ⟨b.depth, [], some (b.depth, left a)⟩) b.steps.size (some (b.depth, left a)) s b
      fun _ => none := {
    size := Nat.le_refl _
    charted := ⟨fun i st hi => (by cases hi), fun i u st _ hi => (by cases hi)⟩
    total := fun i hi hlt => absurd hlt (Nat.not_lt.mpr hi)
    depth := hb.depth
    depths := fun i st hi => (by cases hi)
    downward := fun i u st _ hi => (by cases hi)
    pending := fun y hy => ⟨_, Array.getElem?_eq_getElem (hb.pending y hy), fun st hst => (by cases hst)⟩
    held := fun y hy => absurd hy List.not_mem_nil
    heads := fun y hy => absurd hy List.not_mem_nil
    logged := fun i st hi => (by cases hi)
    next := fun _ => rfl
    later := fun i st hi hsize => absurd hsize (Nat.ne_of_gt hi)
    around := fun hexit => (by cases hexit) }
  obtain ⟨log, hlog, hp⟩ := hprogress.plotted hfits nofun nofun hstart
  refine ⟨log, fun i st hi => ?_, fun hlt => ?_, hprogress.plain nofun fun i u hi hu => ?_,
    s.withItems (left a), rfl, rfl, rfl, hp.watch_mono fun _ _ _ => trivial⟩
  · by_contra hlt
    rw [hlog i (Nat.lt_of_not_le hlt)] at hi
    cases hi
  · obtain ⟨st, hst⟩ := Option.isSome_iff_exists.mp (hp.total _ (Nat.le_refl _) hlt)
    rw [hst, (hp.logged _ st hst).1 rfl]
  · exact absurd (Array.getElem?_eq_some_iff.mp hu).1 (Nat.not_lt.mpr hi)

end expressions

theorem StepOp.ne_of_isPlain {op : StepOp} (h : op.bare.isPlain = true) : (∀ arity, op ≠ .ret arity) ∧
    ∀ entry args spread builtin, op ≠ .defer entry args spread builtin := by
  refine ⟨fun arity hop => ?_, fun entry args spread builtin hop => ?_⟩
  · subst hop
    cases h
  · subst hop
    cases h

-- Outside of the part that is plotted everything has the stance of its end.
theorem stepConsistent_of_becomes {first i : StepId} {d : Nat} {left : List Item} {s : Site}
    {b : Builder} {log : Log} {watch : StepId → Stance → Prop} {types : TypeTable}
    {steps : Array Step} {v : Step} {st : Stance}
    (hp : Plotted watch first (some (d, left)) s b log) (hsite : s.depth = d ∧ s.items = left)
    (hheld : s.held = []) (hplain : ∀ i u, first ≤ i → b.steps[i]? = some u → u.op.bare.isPlain = true)
    (hb : StepsBecome first b.steps steps) (htypes : b.names.types.KeepsStructs types)
    (hfits : v.op.LiteralFits types) (hfirst : first ≤ i) (hv : steps[i]? = some v)
    (hst : log i = some st) (hexit : st.exit = some (d, left)) :
    StepConsistent True (fun i => (log i).getD ⟨d, left, some (d, left)⟩) i v := by
  have hlt := hp.charted.bound i st hst
  have hu := Array.getElem?_eq_getElem hlt
  set u := b.steps[i]
  obtain ⟨w, hw, hbelow⟩ := hb.step i u hfirst hu
  cases hv.symm.trans hw
  have hstep := hp.charted.step i u st hu hst
  have hufits : u.op.LiteralFits b.names.types :=
    (StepOp.literalFits_of_bare hbelow.bare).mp (hfits.mono htypes)
  have hgives : ∀ edge, v.op.gives edge = u.op.gives edge := fun edge => by
    rw [← StepOp.gives_bare, hbelow.bare, StepOp.gives_bare]
  have hturns : ∀ {edge st'}, u.op.Turns (u.op.LiteralFits b.names.types) edge st st' →
      v.op.Turns True edge st st' := fun h => (h.of_bare hbelow.bare).mono fun _ => hufits
  have hstance : (log i).getD ⟨d, left, some (d, left)⟩ = st := by
    rw [hst]
    rfl
  -- What leads nowhere in the part leaves it as it should.
  have hends : ∀ edge, u.follow edge = none → (v.op.gives edge).isSome →
      v.op.Turns True edge st ⟨d, left, some (d, left)⟩ := by
    intro edge hnone hsome
    rw [hgives] at hsome
    rcases hstep.ends edge d left hnone hsome hexit with hmem | hend
    · rw [Site.slots, hheld, List.map_nil, List.append_nil] at hmem
      obtain ⟨w, hw, hleaves⟩ := hp.pending _ hmem
      cases hu.symm.trans hw
      rw [hsite.1, hsite.2] at hleaves
      exact hturns (hleaves st hst)
    · exact hturns hend
  obtain ⟨hret, hdefer⟩ := StepOp.ne_of_isPlain (hbelow.bare ▸ hplain i u hfirst hu)
  refine ⟨fun _ => ?_, fun edge k hk hsome => ?_, fun edge d' left' hnone hsome hend => ?_,
    fun arity hop => absurd hop (hret arity), fun _ _ _ _ hop => absurd hop (hdefer _ _ _ _)⟩
  · rw [hstance, ← StepOp.needs_bare, hbelow.bare, StepOp.needs_bare]
    exact hstep.needs hufits
  · rw [hstance]
    cases hfollow : u.follow edge with
    | some k' =>
        cases (hbelow.keeps edge k' hfollow).symm.trans hk
        obtain ⟨st', hst', hleads⟩ := hstep.leads edge k hfollow
        rw [hst']
        exact hturns hleads
    | none =>
        have hbehind := hb.behind i edge k hfirst ⟨u, hu, hfollow⟩ ⟨v, hv, hk⟩
        have hout : log k = none := by
          by_contra hsome
          obtain ⟨st', hst'⟩ := Option.ne_none_iff_exists'.mp hsome
          exact absurd (hp.charted.bound k st' hst') (Nat.not_lt.mpr hbehind)
        rw [hout]
        exact hends edge hfollow hsome
  · rw [hstance] at hend ⊢
    cases hexit.symm.trans hend
    refine hends edge ?_ hsome
    cases hfollow : u.follow edge with
    | none => rfl
    | some k' =>
        rw [hbelow.keeps edge k' hfollow] at hnone
        cases hnone

namespace Program

variable {p : Program} {o : Origin} {names : Names} {code : Array Function} {f : Function}

-- The stances of a function that is a part of the program.
theorem exists_consistent (h : o.Makes names code p.types f)
    (hfits : ∀ s ∈ f.steps, s.op.LiteralFits p.types) : ∃ stance, Consistent True f.steps stance ∧
      (f.steps.isEmpty = false → (stance 0).items = []) ∧
      ∀ i ∈ o.starts (.start names code o.sig), i < f.steps.size → (stance i).items = [] := by
  obtain ⟨log, hlog⟩ := h.stanced
  refine ⟨log.stance, hlog.charted.consistent hlog.total fun _ => hfits, fun hempty => ?_,
    fun i hi hlt => ?_⟩
  · have hpos : 0 < f.steps.size := Nat.pos_of_ne_zero fun hzero => by
      rw [Array.isEmpty_iff_size_eq_zero.mpr hzero] at hempty
      cases hempty
    obtain ⟨st, hst⟩ := Option.isSome_iff_exists.mp (hlog.total 0 hpos)
    rw [Log.stance_of_eq hst]
    exact hlog.first st hst
  · obtain ⟨st, hst⟩ := Option.isSome_iff_exists.mp (hlog.total i hlt)
    rw [Log.stance_of_eq hst]
    exact hlog.starts i hi st hst

theorem Compiled.verified (h : p.Compiled) : p.Verified := by
  intro i f hf
  obtain ⟨o, names, code, hmakes⟩ := h.made i f hf (Nat.zero_le i)
  obtain ⟨stance, hconsistent, hfirst, -⟩ := exists_consistent hmakes (h.fits i f hf)
  exact ⟨stance, hconsistent, hfirst⟩

-- What holds of the machine at the first step of a part holds of it at the end as the stances tell.
theorem Passes.lies {steps : Array Step} (stance : StepId → Stance) {first last : StepId} (d : Nat)
    {left : List Item} {base : List Value}
    (hpart : ∀ i, first ≤ i → i < last → (stance i).exit = some (d, left) →
      ∃ s, steps[i]? = some s ∧ StepConsistent True stance i s ∧
        ∀ entry args spread builtin, s.op ≠ .defer entry args spread builtin)
    (hout : ∀ i, ¬ (first ≤ i ∧ i < last) → (stance i).items = left)
    (hb : p.Bounded) (hcalls : ∀ k callee args spread span,
      Exec.Calls True (p.call k callee args spread span)) {n : Nat} {i : StepId} {m m' : Machine}
    (h : p.Passes steps first last n i m m') (hexit : (stance i).exit = some (d, left))
    (hm : OperandsLie base (stance i).items m.frame.operands) :
    OperandsLie base left m'.frame.operands := by
  have hadvance : ∀ {n i m}, first ≤ i ∧ i < last → (stance i).exit = some (d, left) →
      OperandsLie base (stance i).items m.frame.operands → ∃ s, StepConsistent True stance i s ∧
        Exec.ComesToEnd True (fun k m' => Arrives True stance base False 0 i s m' k)
          (p.advance n steps i m) := by
    intro n i m hin hexit hm
    obtain ⟨s, hs, hc, hdefer⟩ := hpart i hin.1 hin.2 hexit
    exact ⟨s, hc, comes_advance hs hc False.elim (fun _ => hb) (hcalls n)
      (fun _ _ _ _ hop => absurd hop (hdefer _ _ _ _)) ⟨fun _ => hm, False.elim⟩⟩
  induction h with
  | leave hin hstep hleave =>
      obtain ⟨s, hc, hcomes⟩ := hadvance hin hexit hm
      rw [hstep] at hcomes
      rename_i k _ _
      cases k with
      | none =>
          obtain ⟨edge, st, hfollow, hturns, hstands⟩ := hcomes
          have hends := hc.ends edge d left hfollow hturns.possible hexit
          have hitems : st.items = left := hturns.items_eq hends trivial
          exact hitems ▸ hstands.operands trivial
      | some j =>
          have hstands := (Arrives.hasStance hc hcomes).1
          rw [← hout j (hleave j rfl)]
          exact hstands.operands trivial
  | next hin hstep _ ih =>
      obtain ⟨s, hc, hcomes⟩ := hadvance hin hexit hm
      rw [hstep] at hcomes
      obtain ⟨hstands, hsame⟩ := Arrives.hasStance hc hcomes
      exact ih (hsame.trans hexit) (hstands.operands trivial)

-- An expression leaves what is wanted of it on top of what was there.
theorem lies_of_passes (hb : p.Bounded) (hcalls : ∀ k callee args spread span,
    Exec.Calls True (p.call k callee args spread span))
    {α : Type} {x : Build α} {left : α → List Item} (hx : ∀ types, Operates types [] x left) {b b' : Builder}
    {a : α} (hwork : b.AtWork) (hbuild : x b = .ok a b') {steps : Array Step}
    (htypes : b'.names.types.KeepsStructs p.types) (hfits : ∀ s ∈ steps, s.op.LiteralFits p.types)
    (hbecomes : StepsBecome b.steps.size b'.steps steps) {n : Nat} {m m' : Machine}
    (h : p.Passes steps b.steps.size b'.steps.size n b.steps.size m m') :
    OperandsLie m.frame.operands (left a) m'.frame.operands := by
  obtain ⟨log, hlog, hfirst, hplain, s, hdepth, hitems, hheld, hp⟩ :=
    exists_plotted_of_operates hx hwork hbuild
  have hlt : b.steps.size < b'.steps.size := by
    cases h with
    | leave hin | next hin => exact hin.2
  refine h.lies (fun i => (log i).getD ⟨b.depth, left a, some (b.depth, left a)⟩) b.depth
    (fun i hge hilt hexit => ?_) (fun i hout => ?_) hb hcalls ?_ ?_
  · obtain ⟨st, hst⟩ := Option.isSome_iff_exists.mp (hp.total i hge hilt)
    obtain ⟨v, hv, hbelow⟩ := hbecomes.step i _ hge (Array.getElem?_eq_getElem hilt)
    obtain ⟨hlt', hget⟩ := Array.getElem?_eq_some_iff.mp hv
    rw [hst] at hexit
    refine ⟨v, hv, stepConsistent_of_becomes hp ⟨hdepth, hitems⟩ hheld hplain hbecomes htypes
      (hfits v (hget ▸ Array.getElem_mem hlt')) hge hv hst hexit, ?_⟩
    refine (StepOp.ne_of_isPlain ?_).2
    rw [hbelow.bare]
    exact hplain i _ hge (Array.getElem?_eq_getElem hilt)
  · have hnone : log i = none := by
      by_contra hsome
      obtain ⟨st, hst⟩ := Option.ne_none_iff_exists'.mp hsome
      exact hout ⟨hlog i st hst, hp.charted.bound i st hst⟩
    rw [hnone]
    rfl
  · rw [hfirst hlt]
    rfl
  · rw [hfirst hlt]
    exact .base

end Program

-- Every step of a run finds the operands that it needs, nothing is left of them where a statement
-- begins, and an expression leaves what is wanted of it on top of what was there: one value, or as
-- many as its arity tells.
theorem operand_stack_is_disciplined {p : Program} (hhosts : p.hosts.Behaves) (hb : p.Bounded)
    (hp : p.Compiled) {o : Origin} {names : Names} {code : Array Function} {f : Function}
    (h : o.Makes names code p.types f) (hfits : ∀ s ∈ f.steps, s.op.LiteralFits p.types) :
    (∀ n m n' i m', m.frame.operands = [] → p.Reaches f.steps n 0 m n' i m' →
      (i ∈ o.starts (.start names code o.sig) → m'.frame.operands = []) ∧
        ∀ k u m'', p.advance k f.steps i m' = .error u m'' → ¬ u.Underflows) ∧
    (∀ n callee args spread span m u m', p.call n callee args spread span m = .error u m' →
      ¬ u.Underflows) ∧
    ∀ e want b arity b', b.AtWork → compile e want b = .ok arity b' →
      b'.names.types.KeepsStructs p.types → StepsBecome b.steps.size b'.steps f.steps →
        ∀ n m m', p.Passes f.steps b.steps.size b'.steps.size n b.steps.size m m' →
          OperandsLie m.frame.operands (want.layout arity) m'.frame.operands := by
  have hcalls := Program.calls_of_verified hhosts hb hp.verified
  obtain ⟨stance, hconsistent, hfirst, hstarts⟩ := Program.exists_consistent h hfits
  have hmissing : ∀ {k i m u m''}, f.steps[i]? = none →
      p.advance k f.steps i m = .error u m'' → ¬ u.Underflows := by
    intro k i m u m'' hnone herror
    obtain ⟨u', hu', hok⟩ := Program.advance_of_none (p := p) (m := m) (n := k) hnone
    cases herror.symm.trans hu'
    exact hok
  refine ⟨fun n m n' i m' hm hr => ?_, fun n callee args spread span m u m' hcall => ?_,
    fun e want b arity b' hwork hbuild htypes hbecomes n m m' hpasses => ?_⟩
  · rcases Nat.eq_zero_or_pos f.steps.size with hzero | hpos
    · have hnone : ∀ j : StepId, f.steps[j]? = none := fun j =>
        Array.getElem?_eq_none (hzero ▸ Nat.zero_le j)
      cases hr with
      | here => exact ⟨fun _ => hm, fun _ _ _ => hmissing (hnone _)⟩
      | next hstep =>
          obtain ⟨s, hs⟩ := Program.exists_step_of_advance hstep
          cases (hnone _).symm.trans hs
      | deferred hs => cases (hnone _).symm.trans hs
    · have hstands : HasStance True [] False 0 (stance 0).depth (stance 0).items m := by
        refine ⟨fun _ => ?_, False.elim⟩
        rw [hfirst ?_, hm]
        · exact .base
        · by_contra hempty
          exact absurd (Array.isEmpty_iff_size_eq_zero.mp ((Bool.not_eq_false _).mp hempty))
            (Nat.ne_of_gt hpos)
      have hreached := Program.hasStance_of_reaches hconsistent False.elim (fun _ => hb) hcalls hr hstands
      refine ⟨fun hi => ?_, fun k u m'' herror => ?_⟩
      · have hlies := hreached.operands trivial
        rw [hstarts i hi (h.shaped.reached p n m n' i m' hpos hr)] at hlies
        exact OperandsLie.nil_iff.mp hlies
      · cases hs : f.steps[i]? with
        | none => exact hmissing hs herror
        | some s =>
            have hcomes := Program.comes_advance_of_calls hconsistent False.elim (fun _ => hb) hcalls k hs
              hreached
            rw [herror] at hcomes
            exact hcomes trivial
  · have hworks := hcalls n callee args spread span m
    rw [hcall] at hworks
    exact hworks.2 trivial
  · refine Program.lies_of_passes hb hcalls (fun types => ?_) hwork hbuild htypes hfits hbecomes hpasses
    have hcompiles := compiles e want types []
    simpa using hcompiles

-- `type pair struct { a, b int }`, `x := pair{1, 2}` and `println(x.b)`.
def printPair : List Stmt :=
  [.typeDecl Span.none "pair" (.struct [⟨"a", .plainInt, false⟩, ⟨"b", .plainInt, false⟩]),
    .define Span.none ["x"] [.composite Note.empty (some (.named "pair"))
      [.plain (.lit Note.empty (.int 1)), .plain (.lit Note.empty (.int 2))]],
    .expr Span.none (.call Note.empty (.ident Note.empty "println")
      [.select Note.empty (.ident Note.empty "x") "b"] false)]

-- The literal takes the two values of its fields at step 2, and nothing of it is left where the
-- call begins, which is at step 4.
-- Whether its one function takes both values of the pair from the stack in its third step.
def pairIsPrinted : Bool :=
  match (Origin.literal .empty printPair).build (.start ⟨.empty, .initial, []⟩ #[] .empty) with
  | .ok ref b => ref.id == 0 && b.code.size == 1 && b.code.all fun f =>
      f.sig.results.isEmpty && f.steps.all (·.op.hasPlaces b.names.types) &&
        f.steps[2]?.map (·.op.needs) == some [.one, .one]
  | .error _ _ => false

theorem pair_is_stored_before_the_call : ∃ (p : Program) (f : Function),
    p.code[0]? = some f ∧ (f.steps[2]?.map (·.op.needs)) = some [.one, .one] ∧
    (∀ n m n' m', m.frame.operands = [] → p.Reaches f.steps n 0 m n' 4 m' →
      m'.frame.operands = []) ∧
    ∀ n callee args spread span m u m', p.call n callee args spread span m = .error u m' →
      ¬ u.Underflows := by
  have hbuilt : pairIsPrinted = true := by decide +kernel
  unfold pairIsPrinted at hbuilt
  have hstart : 4 ∈ (Origin.literal .empty printPair).starts
      (.start ⟨.empty, .initial, []⟩ #[] (Origin.literal .empty printPair).sig) := by
    decide +kernel
  split at hbuilt
  · next ref b hb =>
      simp only [Bool.and_eq_true, beq_iff_eq, Array.all_eq_true', List.isEmpty_iff] at hbuilt
      obtain ⟨⟨hid, hsize⟩, hall⟩ := hbuilt
      have hf := Array.getElem?_eq_getElem (show 0 < b.code.size by rw [hsize]; decide)
      let p : Program := ⟨b.code, b.names.types, [], 10, false⟩
      have hhosts : p.hosts.Behaves := (HostRegistry.aloof_of_packages fun _ hx => (by cases hx)).behaves
      have hbounded : p.Bounded := by
        refine ⟨fun r g hg => ?_, fun i g hg => ?_⟩
        · cases hg
        · rw [(hall g (Array.mem_of_getElem? hg)).1.1]
          exact countable_one.mono (Nat.zero_le 1)
      have hfits : ∀ (i : Nat) g, p.code[i]? = some g → ∀ s ∈ g.steps, s.op.LiteralFits p.types :=
        fun i g hg s hs =>
          StepOp.literalFits_of_hasPlaces ((hall g (Array.mem_of_getElem? hg)).1.2 s hs)
      have hmakes : (Origin.literal .empty printPair).Makes ⟨.empty, .initial, []⟩ #[] p.types
          b.code[0] := ⟨ref, b, hb, by rw [hid]; exact hf, .refl _⟩
      obtain ⟨hreached, hcalls, -⟩ := operand_stack_is_disciplined hhosts hbounded
        ⟨(Origin.code_build hb).2, hfits⟩ hmakes (hfits 0 _ hf)
      refine ⟨p, b.code[0], hf, (hall _ (Array.mem_of_getElem? hf)).2, fun n m n' m' hm hr => ?_,
        hcalls⟩
      exact (hreached n m n' 4 m' hm hr).1 hstart
  · cases hbuilt

end StepGraph

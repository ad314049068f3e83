import StepGraph.Proofs.Compile.Finish

open EStateM (bind_eq_ok bind_eq_error discard_eq_ok)

namespace StepGraph

theorem Progress.types {stage : Stage} {s s' : Site} {b b' : Builder} {marks : List Mark}
    {starts : List StepId} (h : Progress stage s b marks starts s' b') :
    b.names.types.KeepsStructs b'.names.types := by
  induction h with
  | refl | take | put | forget | drop | start | flag | push | pop => exact .refl _
  | emit _ he | ret _ he | leave _ _ _ he | again _ _ _ he | goto _ _ _ he
  | label _ _ _ he | round _ _ _ _ he =>
      simp only [he.names]
      exact .refl _
  | trans _ _ ih₁ ih₂ => exact ih₁.trans ih₂
  | names _ _ _ htypes => exact htypes
  | literal _ _ hfinish ih =>
      obtain ⟨steps, -, -, rfl⟩ := Build.finish_ok hfinish
      exact ih
  | defer _ _ _ _ he ih =>
      rw [he.names]
      exact ih

-- Steps can be added to what is open, and all successors that are asked for are there.
theorem Linear.emit_ne_error {s : Site} {b b' : Builder} (h : Linear s b) (op : StepOp)
    (span : Span) (e : CompileError) : Build.emit op span b ≠ .error e b' := by
  refine Build.emit_ne_error (h.isOpen.mono fun x => ?_)
    (fun x hx => h.forks x (List.mem_append_left _ hx)) e
  rw [Site.count_listed]
  exact Nat.le_add_right _ _

theorem Linear.jump_ne_error {s : Site} {b b' : Builder} (h : Linear s b) (depth : Nat)
    (span : Span) (e : CompileError) : Build.jump depth span b ≠ .error e b' := by
  intro hj
  rcases bind_eq_error.mp hj with hj | ⟨id, b₁, -, hj⟩
  · exact h.emit_ne_error _ span e hj
  · cases hj

namespace Build

variable {α β : Type}

-- An action in this state links nothing twice, and where it ends well its work is told.
structure DoesWork (stage : Stage) (s : Site) (b : Builder) (marks : List Mark)
    (starts : List StepId) (x : Build α) (post : α → Site) : Prop where
  linkable : Linear s b → ∀ i b', x b ≠ .error (.doubleLink i) b'
  progress : ∀ a b', x b = .ok a b' → Progress stage s b marks starts (post a) b'

namespace DoesWork

variable {stage : Stage} {s : Site} {b : Builder} {marks marks' : List Mark}
  {starts starts' : List StepId} {x : Build α} {mid : α → Site}

theorem bind {f : α → Build β} {post : β → Site} {rest : α → Starts}
    (hx : DoesWork stage s b marks starts' x mid)
    (hf : ∀ a b₁, x b = .ok a b₁ → DoesWork stage (mid a) b₁ marks' (rest a b₁) (f a) post)
    (hstarts : ∀ a b₁, x b = .ok a b₁ → starts = starts' ++ rest a b₁) :
    DoesWork stage s b (marks ++ marks') starts (x >>= f) post where
  linkable hl i b' h := by
    rcases bind_eq_error.mp h with h | ⟨a, b₁, h₁, h⟩
    · exact hx.linkable hl i b' h
    · exact (hf a b₁ h₁).linkable ((hx.progress a b₁ h₁).linear hl) i b' h
  progress c b' h := by
    obtain ⟨a, b₁, h₁, h₂⟩ := bind_eq_ok.mp h
    rw [hstarts a b₁ h₁]
    exact .trans (hx.progress a b₁ h₁) ((hf a b₁ h₁).progress c b' h₂)

theorem seq {f : α → Build β} {post : β → Site} (hx : DoesWork stage s b [] [] x mid)
    (hf : ∀ a b₁, x b = .ok a b₁ → DoesWork stage (mid a) b₁ [] [] (f a) post) :
    DoesWork stage s b [] [] (x >>= f) post := .bind hx hf fun _ _ _ => rfl

-- An action that ends in one way.
theorem of_ok {a : α} {b' : Builder} (hx : x b = .ok a b')
    (hp : Progress stage s b marks starts (mid a) b') : DoesWork stage s b marks starts x mid where
  linkable _ i b' h := by
    rw [hx] at h
    cases h
  progress c b' h := by
    rw [hx] at h
    cases h
    exact hp

theorem of_error {e : CompileError} {b' : Builder} (hx : x b = .error e b')
    (he : ∀ i, e ≠ .doubleLink i) : DoesWork stage s b marks starts x mid where
  linkable _ i b' h := by
    rw [hx] at h
    cases h
    exact he i rfl
  progress c b' h := by
    rw [hx] at h
    cases h

theorem congr {y : Build α} (hxy : y b = x b) (hx : DoesWork stage s b marks starts x mid) :
    DoesWork stage s b marks starts y mid :=
  ⟨fun hl i b' h => hx.linkable hl i b' (hxy ▸ h), fun a b' h => hx.progress a b' (hxy ▸ h)⟩

theorem mono {post : α → Site} (hx : DoesWork stage s b marks starts x mid)
    (h : ∀ a b', x b = .ok a b' → Progress stage (mid a) b' [] [] (post a) b') :
    DoesWork stage s b marks starts x post where
  linkable := hx.linkable
  progress a b' hok := by
    have hall := (hx.progress a b' hok).trans (h a b' hok)
    rwa [List.append_nil, List.append_nil] at hall

theorem discard {post : Site} (hx : DoesWork stage s b marks starts x fun _ => post) :
    DoesWork stage s b marks starts (discard x) fun _ => post where
  linkable hl i b' h := hx.linkable hl i b' (discard_eq_error h)
  progress u b' h := by
    obtain ⟨a, ha⟩ := discard_eq_ok.mp h
    exact hx.progress a b' ha

end DoesWork

theorem emitted_forget (s : Site) {op : StepOp} (rest : List Item) (id : StepId)
    (hlevel : ∀ n, op.depthEmitted n = n) (hother : op.gives .other = none) :
    { s.emitted op rest id with heads := s.heads } =
      s.withItems ((op.gives .next).getD [] ++ rest) := by
  simp [Site.emitted, Site.withItems, hlevel, hother]

theorem does_emit {stage : Stage} {s : Site} {b : Builder} {op : StepOp} {rest : List Item}
    (hop : s.Takes stage b.names.types op rest) (hlevel : ∀ n, op.depthEmitted n = n)
    (span : Span) : DoesWork stage s b [] [] (emit op span) fun id => s.emitted op rest id where
  linkable hl i b' := hl.emit_ne_error op span _
  progress id b₁ h := by
    have he := emit_ok h
    have hstep := Progress.emit hop he
    rwa [hlevel, ← he.depth] at hstep

theorem does_emit' {stage : Stage} {s : Site} {b : Builder} {op : StepOp} {rest : List Item}
    (hop : s.Takes stage b.names.types op rest) (hlevel : ∀ n, op.depthEmitted n = n)
    (hother : op.gives .other = none) (span : Span) : DoesWork stage s b [] [] (emit' op span)
      fun _ => s.withItems ((op.gives .next).getD [] ++ rest) := by
  refine .discard <| (does_emit hop hlevel span).mono fun id b' _ => ?_
  rw [← emitted_forget s rest id hlevel hother]
  exact .forget s.heads (List.subset_cons_self _ _)

theorem does_emitFork {stage : Stage} {s : Site} {b : Builder} {op : StepOp}
    {given given' rest : List Item} (hop : s.Takes stage b.names.types op rest)
    (hlevel : ∀ n, op.depthEmitted n = n) (hgives : op.gives .next = some given)
    (hother : op.gives .other = some given') (span : Span) :
    DoesWork stage s b [] [] (emitFork op span) fun slot => { s with
      items := given ++ rest
      held := ⟨slot, s.depth, given' ++ rest, false⟩ :: s.held } := by
  refine .seq (does_emit hop hlevel span) fun id b₁ _ => .of_ok rfl ?_
  have hforget : Progress stage (s.emitted op rest id) b₁ [] [] _ b₁ :=
    .forget s.heads (List.subset_cons_self _ _)
  simpa [Site.emitted, hlevel, hgives, hother] using hforget

-- What is added to what leads to the next step has to come there as all others do.
theorem does_addPending {stage : Stage} {s : Site} {b : Builder} (moved held : List Loose)
    (hheld : s.held.Perm (moved ++ held))
    (hmoved : ∀ x ∈ moved, x.depth = s.depth ∧ x.items = s.items) :
    DoesWork stage s b [] [] (addPending (moved.map (·.slot))) fun _ => { s with held } :=
  .of_ok rfl (.put moved held hheld hmoved)

-- An action of an expression. It finds these operands and leaves those, and the declared types
-- stay.
def Operates (types : TypeTable) (items : List Item) (x : Build α) (left : α → List Item) : Prop :=
  ∀ stage s b, s.items = items → SiteFits s b → types.KeepsStructs b.names.types →
    DoesWork stage s b [] [] x fun a => s.withItems (left a)

namespace Operates

variable {types types' : TypeTable} {items : List Item} {x : Build α}

theorem pure (a : α) {left : α → List Item} (h : left a = items) :
    Operates types items (pure a) left := by
  rintro stage s b rfl - -
  refine .of_ok rfl ?_
  rw [h]
  exact .refl

theorem fail {e : CompileError} (he : ∀ i, e ≠ .doubleLink i) {left : α → List Item} :
    Operates types items (fail e) left := fun _ _ _ _ _ _ => .of_error rfl he

theorem unsupported (what : String) (span : Span) {left : α → List Item} :
    Operates types items (unsupported what span) left := fail fun i h => by cases h

theorem bind {f : α → Build β} {mid : α → List Item} {left : β → List Item}
    (hx : Operates types items x mid) (hf : ∀ a, Operates types (mid a) (f a) left) :
    Operates types items (x >>= f) left := by
  intro stage s b hitems hfits htypes
  have hfirst := hx stage s b hitems hfits htypes
  refine .bind hfirst (fun a b₁ h₁ => ?_) fun _ _ _ => rfl
  have hp := hfirst.progress a b₁ h₁
  exact hf a stage (s.withItems (mid a)) b₁ rfl (hp.fits hfits) (htypes.trans hp.types)

theorem discard {left : List Item} (hx : Operates types items x fun _ => left) :
    Operates types items (discard x) fun _ => left :=
  fun stage s b hitems hfits htypes => (hx stage s b hitems hfits htypes).discard

theorem get {f : Builder → Build α} {left : α → List Item}
    (hf : ∀ b, Operates types items (f b) left) : Operates types items (get >>= f) left := by
  intro stage s b hitems hfits htypes
  exact .congr (x := f b) rfl (hf b stage s b hitems hfits htypes)

-- The names are those that the types belong to.
theorem names {f : Names → Build α} {left : α → List Item}
    (hf : ∀ n : Names, types.KeepsStructs n.types → Operates n.types items (f n) left) :
    Operates types items (names >>= f) left := by
  intro stage s b hitems hfits htypes
  exact .congr (x := f b.names) rfl (hf b.names htypes stage s b hitems hfits (.refl _))

theorem forM {l : List α} {f : α → Build PUnit}
    (hf : ∀ a, Operates types items (f a) fun _ => items) :
    Operates types items (l.forM f) fun _ => items :=
  Compositional.forM (M := Build) (P := fun x => Operates types items x fun _ => items)
    ⟨fun _ => pure _ rfl, bind⟩ hf

theorem emit' {op : StepOp} {span : Span} (rest : List Item)
    (hneeds : op.LiteralFits types → items = op.needs ++ rest)
    (hop : op.isOperation = true) (hserial : op.isSerial = true) :
    Operates types items (emit' op span) fun _ => (op.gives .next).getD [] ++ rest := by
  rintro stage s b rfl - htypes
  have hplain := StepOp.isPlain_of_isSerial hserial
  refine does_emit' ⟨hplain, fun _ => hop, StepOp.gives_next_of_isPlain hplain,
    fun hf => hneeds (hf.mono htypes), ?_⟩ (StepOp.depthEmitted_of_isSerial hserial)
    (StepOp.gives_other_of_isSerial hserial) span
  rintro rfl
  cases hop

end Operates

-- An action of a statement, with its marks and the first steps of all statements in it.
def Performs (s : Site) (x : Build α) (post : α → Site) (marks : List Mark) (starts : Starts) :
    Prop := ∀ b, SiteFits s b → DoesWork .stmt s b marks (starts b) x post

abbrev noStarts : Starts := fun _ => []

namespace Performs

variable {s : Site} {x : Build α} {mid : α → Site} {marks marks' : List Mark} {starts : Starts}

theorem of_operates {left : α → List Item} (hx : ∀ types, Operates types s.items x left) :
    Performs s x (fun a => s.withItems (left a)) [] noStarts :=
  fun b hfits => hx b.names.types .stmt s b rfl hfits (.refl _)

theorem pure (a : α) {post : α → Site} (h : post a = s) :
    Performs s (pure a) post [] noStarts := by
  intro b _
  refine .of_ok rfl ?_
  rw [h]
  exact .refl

theorem done (a : α) {post : α → Site} (h : ∀ b, Progress .stmt s b [] [] (post a) b) :
    Performs s (Pure.pure a) post [] noStarts := fun b _ => .of_ok rfl (h b)

theorem fail {e : CompileError} (he : ∀ i, e ≠ .doubleLink i) {post : α → Site} :
    Performs s (fail e) post marks starts := fun _ _ => .of_error rfl he

theorem during {f : α → Build β} {post : β → Site} {rest : α → Starts}
    (hx : Performs s x mid marks starts) (hf : ∀ a, Performs (mid a) (f a) post marks' (rest a)) :
    Performs s (x >>= f) post (marks ++ marks') (during starts x rest) := by
  intro b hfits
  have hfirst := hx b hfits
  refine .bind hfirst (fun a b₁ h₁ => hf a b₁ ((hfirst.progress a b₁ h₁).fits hfits))
    fun a b₁ h₁ => ?_
  unfold Build.during after
  rw [h₁]

-- In front of an action may stand one without statements,
theorem step {f : α → Build β} {post : β → Site} {rest : α → Starts}
    (hx : Performs s x mid [] noStarts) (hf : ∀ a, Performs (mid a) (f a) post marks (rest a)) :
    Performs s (x >>= f) post marks (after x rest) := hx.during hf

-- and so behind one.
theorem tail {f : α → Build β} {post : β → Site} (hx : Performs s x mid marks starts)
    (hf : ∀ a, Performs (mid a) (f a) post marks' noStarts) :
    Performs s (x >>= f) post (marks ++ marks') starts := by
  intro b hfits
  have hfirst := hx b hfits
  exact .bind hfirst (fun a b₁ h₁ => hf a b₁ ((hfirst.progress a b₁ h₁).fits hfits))
    fun a b₁ h₁ => (List.append_nil _).symm

theorem last {f : α → Build β} {post : β → Site} (hx : Performs s x mid marks starts)
    (hf : ∀ a, Performs (mid a) (f a) post [] noStarts) :
    Performs s (x >>= f) post marks starts := by
  have hall := hx.tail hf
  rwa [List.append_nil] at hall

theorem quiet {f : α → Build β} {post : β → Site} (hx : Performs s x mid [] noStarts)
    (hf : ∀ a, Performs (mid a) (f a) post marks noStarts) :
    Performs s (x >>= f) post marks noStarts := hx.tail hf

theorem discard {post : Site} (hx : Performs s x (fun _ => post) marks starts) :
    Performs s (discard x) (fun _ => post) marks starts := fun b hfits => (hx b hfits).discard

theorem mono {post : α → Site} (hx : Performs s x mid marks starts)
    (h : ∀ a b, Progress .stmt (mid a) b [] [] (post a) b) : Performs s x post marks starts :=
  fun b hfits => (hx b hfits).mono fun a b' _ => h a b'

-- Before an action, the site may be told in another way.
theorem ofProgress {s' : Site} (h : ∀ b, Progress .stmt s b [] [] s' b)
    (hx : Performs s' x mid marks starts) : Performs s x mid marks starts := fun b hfits =>
  let hdoes := hx b ((h b).fits hfits)
  ⟨fun hl => hdoes.linkable ((h b).linear hl), fun a b' hok => (h b).trans (hdoes.progress a b' hok)⟩

theorem congr {y : Build α} (hxy : ∀ b, y b = x b) (hx : Performs s x mid marks starts) :
    Performs s y mid marks starts := fun b hfits => (hx b hfits).congr (hxy b)

theorem peek {f : Builder → Build α} {post : α → Site}
    (hf : ∀ b, SiteFits s b → Performs s (f b) post marks noStarts) :
    Performs s (get >>= f) post marks noStarts :=
  fun b hfits => .congr (x := f b) rfl (hf b hfits b hfits)

theorem get {f : Builder → Build α} {post : α → Site} {rest : Builder → Starts}
    (hf : ∀ b, SiteFits s b → Performs s (f b) post marks (rest b)) :
    Performs s (get >>= f) post marks (after get rest) :=
  fun b hfits => .congr (x := f b) rfl (hf b hfits b hfits)

theorem assoc {γ : Type} {g : α → Build β} {f : β → Build γ} {post : γ → Site}
    (h : Performs s ((x >>= g) >>= f) post marks starts) :
    Performs s (x >>= fun a => g a >>= f) post marks starts := by
  rwa [bind_assoc] at h

-- An action that is left out under a condition.
theorem unlessThen {c : Prop} [Decidable c] {x : Build Unit} {f : Unit → Build β} {post : β → Site}
    (h : Performs s ((if c then Pure.pure () else x) >>= f) post marks starts) :
    Performs s (if c then f () else x >>= f) post marks starts := by
  split
  · next hc =>
      rw [if_pos hc] at h
      exact .congr (fun _ => rfl) h
  · next hc =>
      rw [if_neg hc] at h
      exact h

theorem ifThen {c : Prop} [Decidable c] {x : Build Unit} {f : Unit → Build β} {post : β → Site}
    (h : Performs s ((if c then x else Pure.pure ()) >>= f) post marks starts) :
    Performs s (if c then x >>= f else f ()) post marks starts := by
  split
  · next hc =>
      rw [if_pos hc] at h
      exact h
  · next hc =>
      rw [if_neg hc] at h
      exact .congr (fun _ => rfl) h

end Performs

section actions

variable {types : TypeTable} {items : List Item} {s : Site}

theorem fits_start (names : Names) (code : Array Function) (sig : Signature) :
    SiteFits .start (.start names code sig) := ⟨rfl, rfl⟩

theorem linear_start (names : Names) (code : Array Function) (sig : Signature) :
    Linear .start (.start names code sig) :=
  ⟨fun _ => ⟨Nat.zero_le 1, fun hx => absurd hx (Nat.lt_irrefl 0)⟩, nofun⟩

-- A function literal is built apart.
theorem operates_nested (sig : Signature) {body : List Stmt} (h : Performs .start
    (compileStmts body) (fun _ => .start) (marksOf body 0) (startsOfAll body)) :
    Operates types items (nested sig (compileStmts body)) fun _ => items := by
  rintro stage s b rfl - -
  have hbody := h (.start b.names b.code sig) (fits_start ..)
  refine ⟨fun _ i b' hok => ?_, fun ref b' hok => ?_⟩
  · rcases bind_eq_error.mp hok with hok | ⟨_, b₁, h₁, hok⟩
    · cases hok
    cases h₁
    rcases bind_eq_error.mp hok with hok | ⟨_, b₂, h₂, hok⟩
    · cases hok
    cases h₂
    rcases bind_eq_error.mp hok with hok | ⟨_, b₃, h₃, hok⟩
    · exact hbody.linkable (linear_start ..) i b' hok
    rcases bind_eq_error.mp hok with hok | ⟨_, b₄, h₄, hok⟩
    · exact finish_ne_doubleLink ((hbody.progress () b₃ h₃).linear (linear_start ..)) hok
    · cases hok
  · obtain ⟨_, b₁, h₁, hok⟩ := bind_eq_ok.mp hok
    cases h₁
    obtain ⟨_, b₂, h₂, hok⟩ := bind_eq_ok.mp hok
    cases h₂
    obtain ⟨_, b₃, h₃, hok⟩ := bind_eq_ok.mp hok
    obtain ⟨ref', b₄, h₄, hok⟩ := bind_eq_ok.mp hok
    cases hok
    exact .literal h₃ (hbody.progress () b₃ h₃) h₄

-- The right operand of a logical operator takes the place of the left one.
theorem operates_shortCircuit (stop : Bool) (span : Span) {x : Build Unit} {f : Unit → Build α}
    {left : α → List Item} (hx : Operates types items x fun _ => .one :: items)
    (hf : Operates types (.one :: items) (f ()) left) :
    Operates types (.one :: items) (do
      let short ← emitFork (.shortCircuit stop none) span
      x
      addPending [short]
      f ()) left := by
  intro stage s b hitems hfits htypes
  have hop : s.Takes stage b.names.types (.shortCircuit stop none) items :=
    ⟨rfl, fun _ => rfl, rfl, fun _ => hitems, nofun⟩
  have hfork := does_emitFork hop (fun _ => rfl) rfl rfl span
  refine .seq hfork fun short b₁ h₁ => ?_
  have hp₁ := hfork.progress short b₁ h₁
  have hright := hx stage _ b₁ rfl (hp₁.fits hfits) (htypes.trans hp₁.types)
  refine .seq hright fun _ b₂ h₂ => ?_
  have hp₂ := hright.progress () b₂ h₂
  have hjoin : DoesWork stage { s with
      items := .one :: items
      held := ⟨short, s.depth, .one :: items, false⟩ :: s.held } b₂ [] [] (addPending [short]) _ :=
    does_addPending [⟨short, s.depth, .one :: items, false⟩] s.held (.refl _) fun y hy => by
      obtain rfl := List.mem_singleton.mp hy
      exact ⟨rfl, rfl⟩
  refine .seq hjoin fun _ b₃ h₃ => ?_
  have hp₃ := hjoin.progress () b₃ h₃
  exact hf stage (s.withItems (.one :: items)) b₃ rfl (hp₃.fits (hp₂.fits (hp₁.fits hfits)))
    (htypes.trans (hp₁.types.trans (hp₂.types.trans hp₃.types)))

end actions

end Build

end StepGraph

import StepGraph.Proofs.Compile.Rules
import StepGraph.Proofs.Compile.Pieces

open EStateM (bind_eq_ok bind_eq_error discard_eq_ok)

namespace StepGraph.Build

variable {α : Type} {s : Site} {marks : List Mark} {starts : Starts}

-- An action that ends in one way and changes the state as told.
theorem performs_of_ok {x : Build α} {a : α} {f : Builder → Builder} {post : α → Site}
    (hx : ∀ b, x b = .ok a (f b)) (hp : ∀ b, SiteFits s b →
      Progress .stmt s b [] [] (post a) (f b)) :
    Performs s x post [] noStarts := fun b hfits => .of_ok (hx b) (hp b hfits)

-- A step of a statement that does not change the depth.
theorem takes_stmt {types : TypeTable} {op : StepOp} (rest : List Item)
    (hneeds : s.items = op.needs ++ rest) (hplain : op.isPlain = true)
    (hlevel : ∀ n, op.depthEmitted n = n) : s.Takes .stmt types op rest := by
  refine ⟨hplain, nofun, StepOp.gives_next_of_isPlain hplain, fun _ => hneeds, ?_⟩
  rintro rfl
  exact absurd (hlevel 1) (by decide)

-- A step that leaves these operands alone.
theorem performs_emit' {op : StepOp} {span : Span} (rest : List Item)
    (hneeds : s.items = op.needs ++ rest) (hserial : op.isSerial = true) :
    Performs s (emit' op span) (fun _ => s.withItems ((op.gives .next).getD [] ++ rest)) []
      noStarts := by
  have hlevel := StepOp.depthEmitted_of_isSerial hserial
  have hop : ∀ types, s.Takes .stmt types op rest := fun _ =>
    takes_stmt rest hneeds (StepOp.isPlain_of_isSerial hserial) hlevel
  exact fun _ _ => does_emit' (hop _) hlevel (StepOp.gives_other_of_isSerial hserial) span

-- A step to which a loop may go back.
theorem performs_head {op : StepOp} {span : Span} (rest : List Item)
    (hneeds : s.items = op.needs ++ rest) (hplain : op.isPlain = true)
    (hlevel : ∀ n, op.depthEmitted n = n) :
    Performs s (emit op span) (fun id => s.emitted op rest id) [] noStarts :=
  fun _ _ => does_emit (takes_stmt rest hneeds hplain hlevel) hlevel span

theorem performs_branch (hitems : s.items = [.one]) (span : Span) : Performs s (branch span)
    (fun slot => { s with items := [], held := .exit s.depth slot :: s.held }) [] noStarts := by
  intro b _
  have hop : s.Takes .stmt b.names.types (.branch none) [] :=
    ⟨rfl, nofun, rfl, fun _ => hitems, nofun⟩
  exact does_emitFork hop (fun _ => rfl) rfl rfl span

-- A step that changes the depth comes with a change of the blocks.
theorem performs_scope (op : StepOp) (span : Span) (blocks : List BlockNames → List BlockNames)
    (hplain : op.isPlain = true) (hgives : op.gives .next = some []) (hother : op.gives .other = none)
    (hneeds : op.needs = []) (hdepth : op = .popScope → 1 ≤ s.depth) :
    Performs s (do
      emit' op span
      modify fun b => { b with
        depth := op.depthEmitted b.depth
        names := { b.names with blocks := blocks b.names.blocks } })
      (fun _ => { s with depth := op.depthEmitted s.depth }) [] noStarts := by
  intro b _
  refine ⟨fun hl i b' h => ?_, fun _ b' h => ?_⟩
  · rcases bind_eq_error.mp h with h | ⟨_, b₁, -, h⟩
    · exact hl.emit_ne_error op span _ (discard_eq_error h)
    · cases h
  · obtain ⟨_, b₁, h₁, h⟩ := bind_eq_ok.mp h
    obtain ⟨id, h₁⟩ := discard_eq_ok.mp h₁
    cases h
    have he := emit_ok h₁
    have hop : s.Takes .stmt b.names.types op s.items :=
      ⟨hplain, nofun, Option.isSome_of_eq_some hgives, fun _ => by rw [hneeds]; rfl, hdepth⟩
    have hstep := Progress.emit hop he
    have hsite : { s.emitted op s.items id with heads := s.heads } =
        { s with depth := op.depthEmitted s.depth } := by
      simp [Site.emitted, hgives, hother]
    rw [← he.depth] at hstep
    have hnames := hstep.trans
      (.names { b₁.names with blocks := blocks b₁.names.blocks } b₁.temps b₁.iota (.refl _))
    have hall := hnames.trans (.forget s.heads (List.subset_cons_self _ _))
    rwa [hsite] at hall

theorem performs_enterScope (s : Site) (span : Span) :
    Performs s (enterScope span) (fun _ => { s with depth := s.depth + 1 }) [] noStarts :=
  performs_scope .pushScope span _ rfl rfl rfl rfl nofun

theorem performs_leaveScope (s : Site) (span : Span) :
    Performs { s with depth := s.depth + 1 } (leaveScope span) (fun _ => s) [] noStarts :=
  performs_scope .popScope span _ rfl rfl rfl rfl fun _ => Nat.le_add_left 1 _

-- What is done with names alone.
theorem performs_modifyNames {f : Names → Names} (hf : ∀ n, (f n).types = n.types) :
    Performs s (modifyNames f) (fun _ => s) [] noStarts :=
  performs_of_ok (a := ()) (fun _ => rfl) fun b _ =>
    .names (f b.names) b.temps b.iota (hf b.names ▸ .refl _)

theorem performs_names : Performs s names (fun _ => s) [] noStarts :=
  fun _ _ => .of_ok rfl .refl

theorem performs_temp (stem : String) : Performs s (temp stem) (fun _ => s) [] noStarts :=
  fun b _ => .of_ok rfl (.names b.names (b.temps + 1) b.iota (.refl _))

theorem types_declare (n : Names) (name : String) (ty : Option Ty) :
    (n.declare name ty).types = n.types := by
  unfold Names.declare
  split
  · rfl
  · split <;> rfl

theorem types_declareAll (n : Names) (names : List String) (types : List (Option Ty)) :
    (n.declareAll names types).types = n.types := by
  unfold Names.declareAll
  generalize names.zip types = l
  induction l generalizing n with
  | nil => rfl
  | cons x l ih => exact (ih _).trans (types_declare n x.1 x.2)

theorem performs_declare (name : String) (ty : Option Ty) :
    Performs s (declare name ty) (fun _ => s) [] noStarts :=
  performs_modifyNames fun n => types_declare n name ty

theorem names_bind (f : Names → Build α) (b : Builder) : (names >>= f) b = f b.names b := rfl

theorem performs_declareType (name : String) (ty : Ty) :
    Performs s (declareType name ty) (fun _ => s) [] noStarts := by
  intro b _
  cases htypes : b.names.types.declare? name ty with
  | some types =>
      have hok : declareType name ty b = .ok () { b with names := { b.names with types } } := by
        unfold declareType
        rw [names_bind, htypes]
        rfl
      exact .of_ok hok (.names { b.names with types } b.temps b.iota (TypeTable.keepsStructs_declare htypes))
  | none =>
      have herror : declareType name ty b = .error (.duplicateType name) b := by
        unfold declareType
        rw [names_bind, htypes]
        rfl
      exact .of_error herror fun i h => by cases h

theorem performs_takePending : Performs s takePending
    (fun slots => { s with held := slots.map s.loose ++ s.held }) [] noStarts :=
  fun _ _ => .of_ok rfl .take

-- Other successors come to lead to the next step, and what led there before is given up.
theorem performs_setPending {slots : List Slot} (given held : List Loose)
    (hheld : s.held.Perm (given ++ (slots.map s.loose ++ held))) :
    Performs s (setPending slots) (fun _ => { s with held }) [] noStarts := by
  refine performs_of_ok (a := ()) (fun _ => rfl) fun b _ => ?_
  have hdrop := Progress.drop (b := b) given (slots.map s.loose ++ held) hheld (.inr rfl)
  have hput := hdrop.trans (.put (slots.map s.loose) held (.refl _) s.loose_told)
  rwa [s.slot_loose] at hput

theorem performs_addPending {slots : List Slot} (held : List Loose)
    (hheld : s.held.Perm (slots.map s.loose ++ held)) :
    Performs s (addPending slots) (fun _ => { s with held }) [] noStarts := by
  intro b _
  have h : DoesWork .stmt s b [] [] _ _ :=
    does_addPending (slots.map s.loose) held hheld s.loose_told
  rwa [s.slot_loose] at h

-- So do the jumps to the next round of a loop.
theorem performs_addContinues {slots : List Slot} (held : List Loose) (hitems : s.items = [])
    (hheld : s.held.Perm (slots.map (.round s.depth) ++ held)) :
    Performs s (addPending slots) (fun _ => { s with held }) [] noStarts := by
  intro b _
  have h : DoesWork .stmt s b [] [] _ _ :=
    does_addPending (slots.map (.round s.depth)) held hheld fun x hx => by
      obtain ⟨y, -, rfl⟩ := List.mem_map.mp hx
      exact ⟨rfl, hitems.symm⟩
  rw [List.map_map] at h
  exact (List.map_id slots) ▸ h

theorem performs_pushContext (kind : JumpKind) (label : Option String) (m n : Nat) :
    Performs s (pushContext kind label m n)
      (fun _ => { s with contexts := ⟨kind, label, m, n, [], []⟩ :: s.contexts }) [] noStarts :=
  performs_of_ok (a := ()) (fun _ => rfl) fun _ _ => .push _ rfl rfl

theorem performs_popContext {c : JumpContext} {rest : List JumpContext}
    (hcontexts : s.contexts = c :: rest) : Performs s popContext (fun slots => { s with
      contexts := rest
      held := slots.1.map (.exit c.breakDepth) ++ (slots.2.map (.round c.continueDepth) ++ s.held) })
      [] noStarts := by
  intro b hfits
  have hmap := hfits.contexts.symm.trans hcontexts
  obtain ⟨c', rest', hb, rfl, rfl⟩ := List.map_eq_cons_iff.mp hmap
  have hok : popContext b = .ok (c'.breaks, c'.continues) { b with contexts := rest' } := by
    cases b
    cases hb
    rfl
  refine .of_ok hok ?_
  have hpop := Progress.pop (s := s) hb
  rw [hcontexts] at hpop
  exact hpop

-- A jump after which the state is changed as told.
theorem does_jump {depth : Nat} {span : Span} {b : Builder} (change : Slot → Builder → Builder)
    {post : Site} (hp : ∀ id b₁, Emitted (.jump depth) b id b₁ →
      Progress .stmt s b marks [] post (change ⟨id, .next⟩ { b₁ with pending := [] })) :
    DoesWork .stmt s b marks [] (do
      let slot ← jump depth span
      modify (change slot)) fun _ => post := by
  refine ⟨fun hl i b' h => ?_, fun _ b' h => ?_⟩
  · rcases bind_eq_error.mp h with h | ⟨slot, b₁, -, h⟩
    · exact hl.jump_ne_error _ span _ h
    · cases h
  · obtain ⟨slot, b₁, h₁, h⟩ := bind_eq_ok.mp h
    obtain ⟨id, b₂, he, rfl, rfl⟩ := jump_ok h₁
    cases h
    exact hp id b₂ he

-- The loops and switches around stand no deeper than what is built now.
def Around (s : Site) : Prop :=
  ∀ c ∈ s.contexts, c.breakDepth ≤ s.depth ∧ c.continueDepth ≤ s.depth

theorem Around.find {p : JumpContext → Bool} {c : JumpContext} {b : Builder} (ha : Around s)
    (hfits : SiteFits s b) (hc : b.contexts.find? p = some c) :
    c.breakDepth ≤ s.depth ∧ c.continueDepth ≤ s.depth := by
  refine ha c.bare ?_
  rw [hfits.contexts]
  exact List.mem_map_of_mem (List.mem_of_find?_eq_some hc)

theorem does_findContext {p : JumpContext → Bool} {b : Builder} {starts : List StepId}
    {f : Option JumpContext → Build α} {post : α → Site}
    (h : DoesWork .stmt s b marks starts (f (b.contexts.find? p)) post) :
    DoesWork .stmt s b marks starts (findContext p >>= f) post :=
  .congr (x := f (b.contexts.find? p)) rfl h

theorem performs_breakOut (label : Option String) (span : Span) (hitems : s.items = [])
    (ha : Around s) : Performs s (breakOut label span) (fun _ => s) [.leave] noStarts := by
  intro b hfits
  unfold breakOut
  refine does_findContext ?_
  split
  · next c _ hc =>
      refine does_jump (fun slot b => _) fun id b₁ he => ?_
      have hp := Progress.leave hc (ha.find hfits hc).1 hitems he
      exact hp
  · exact .of_error rfl fun i h => by cases h
  · exact .of_error rfl fun i h => by cases h

theorem performs_continueLoop (label : Option String) (span : Span) (hitems : s.items = [])
    (ha : Around s) : Performs s (continueLoop label span) (fun _ => s) [.again] noStarts := by
  intro b hfits
  unfold continueLoop
  refine does_findContext ?_
  dsimp only
  split
  · next c _ hc =>
      split
      · exact .of_error rfl fun i h => by cases h
      · refine does_jump (fun slot b => _) fun id b₁ he => ?_
        have hp := Progress.again hc (ha.find hfits hc).2 hitems he
        exact hp
  · exact .of_error rfl fun i h => by cases h
  · exact .of_error rfl fun i h => by cases h

theorem performs_gotoLabel (label : String) (span : Span) (hitems : s.items = []) :
    Performs s (gotoLabel label span) (fun _ => s) [.goto label s.depth] noStarts := by
  intro b _
  refine does_jump (fun slot b => _) fun id b₁ he => ?_
  have hp := Progress.goto label span hitems he
  exact hp

theorem performs_placeLabel (label : String) (span : Span) (hitems : s.items = []) :
    Performs s (placeLabel label span) (fun _ => s) [.label label s.depth] noStarts := by
  intro b _
  unfold placeLabel
  refine .congr (x := if (b.labels.lookup label).isSome then fail (.duplicateLabel label span) >>=
    fun _ => emit .nop span >>= fun step => modify fun b =>
      { b with labels := (label, ⟨step, b.depth⟩) :: b.labels }
    else emit .nop span >>= fun step => modify fun b =>
      { b with labels := (label, ⟨step, b.depth⟩) :: b.labels }) rfl ?_
  split
  · exact .of_error rfl fun i h => by cases h
  · next hlabel =>
      refine ⟨fun hl i b' h => ?_, fun _ b' h => ?_⟩
      · rcases bind_eq_error.mp h with h | ⟨step, b₁, -, h⟩
        · exact hl.emit_ne_error _ span _ h
        · cases h
      · obtain ⟨id, b₁, h₁, h⟩ := bind_eq_ok.mp h
        cases h
        have hfresh : b.labels.lookup label = none := Option.not_isSome_iff_eq_none.mp hlabel
        exact .label label hfresh hitems (emit_ok h₁)

-- A loop goes back to its head, and so do the jumps to the next round of a range loop.
theorem performs_round {head : Head} (slots : List Slot) (held : List Loose)
    (hhead : head ∈ s.heads) (hdepth : head.depth ≤ s.depth) (hclear : head.items = [])
    (hitems : s.items = []) (hheld : s.held.Perm (slots.map (.round head.depth) ++ held))
    (hrange : ∀ x ∈ slots, head.ranges = true) (span : Span) : Performs s (do
      link (← jump head.depth span) head.step
      linkAll slots head.step) (fun _ => { s with held }) [.round] noStarts := by
  intro b _
  have hmap : (slots.map (Loose.round head.depth)).map (·.slot) = slots := by
    rw [List.map_map]
    exact List.map_id _
  have hslots : ∀ b' : Builder, ∀ x, slots.count x ≤ (s.listed b').count x := fun b' x => by
    have hsame := (hheld.map (·.slot)).count_eq x
    rw [Site.count_listed, Site.slots]
    rw [List.map_append, hmap, List.count_append] at hsame
    omega
  have hround : ∀ {id b₁ steps}, Linear s b → Emitted (.jump head.depth) b id b₁ →
      Linked b₁.steps [⟨id, .next⟩] head.step steps →
      Linear s { b₁ with pending := [], steps } := fun hl he hlinked =>
    (Progress.round hhead hdepth hclear hitems he hlinked (List.Perm.refl ([] ++ s.held))
      (by simp) (.nil _ _)).linear hl
  refine ⟨fun hl i b' h => ?_, fun _ b' h => ?_⟩
  · rcases bind_eq_error.mp h with h | ⟨slot, b₁, h₁, h⟩
    · exact hl.jump_ne_error _ span _ h
    obtain ⟨id, b₂, he, rfl, rfl⟩ := jump_ok h₁
    rcases bind_eq_error.mp h with h | ⟨_, b₃, h₃, h⟩
    · have hopen := (hl.jumped he).isOpen ⟨id, .next⟩
      refine link_ne_error _ (hopen.2 ?_) (fun hedge => by cases hedge) _ h
      rw [Site.count_listed]
      simp only [Site.slots, Site.loose, List.map_cons, List.count_cons_self]
      omega
    · obtain ⟨steps, rfl, hlinked⟩ := link_ok h₃
      have hl' := hround hl he hlinked
      refine linkAll_ne_error _ (hl'.isOpen.mono (hslots _)) (fun x hx => hl'.forks x ?_) _ h
      exact List.count_pos_iff.mp (Nat.lt_of_lt_of_le (List.count_pos_iff.mpr hx) (hslots _ x))
  · obtain ⟨slot, b₁, h₁, h⟩ := bind_eq_ok.mp h
    obtain ⟨id, b₂, he, rfl, rfl⟩ := jump_ok h₁
    obtain ⟨_, b₃, h₃, h⟩ := bind_eq_ok.mp h
    obtain ⟨steps, rfl, hlinked⟩ := link_ok h₃
    obtain ⟨steps', rfl, hrounds⟩ := linkAll_ok h
    rw [← hmap] at hrounds
    have hmoved : ∀ x ∈ slots.map (Loose.round head.depth), head.ranges = true ∧
        x.depth = head.depth ∧ x.items = [] ∧ x.again = true := by
      intro x hx
      obtain ⟨slot, hslot, rfl⟩ := List.mem_map.mp hx
      exact ⟨hrange slot hslot, rfl, rfl, rfl⟩
    have hp := Progress.round hhead hdepth hclear hitems he hlinked hheld hmoved hrounds
    exact hp

-- Other loops only go back from their end.
theorem performs_back {head : Head} (hhead : head ∈ s.heads) (hdepth : head.depth ≤ s.depth)
    (hclear : head.items = []) (hitems : s.items = []) (span : Span) :
    Performs s (do link (← jump head.depth span) head.step) (fun _ => s) [.round] noStarts := by
  have h := performs_round [] s.held hhead hdepth hclear hitems (.refl _) nofun span
  have hnone : linkAll [] head.step = pure () := rfl
  simpa only [hnone, bind_pure_unit] using h

theorem performs_ret (arity : Arity) (rest : List Item) (hneeds : s.items = arity.items ++ rest)
    (span : Span) : Performs s (do
      emit' (.ret arity) span
      setPending []) (fun _ => s.withItems []) [] noStarts := by
  intro b _
  refine ⟨fun hl i b' h => ?_, fun _ b' h => ?_⟩
  · rcases bind_eq_error.mp h with h | ⟨_, b₁, -, h⟩
    · exact hl.emit_ne_error _ span _ (discard_eq_error h)
    · cases h
  · obtain ⟨_, b₁, h₁, h⟩ := bind_eq_ok.mp h
    obtain ⟨id, h₁⟩ := discard_eq_ok.mp h₁
    cases h
    exact .ret hneeds (emit_ok h₁)

theorem does_padded {b : Builder} {x : Build α} {post : α → Site}
    (hx : DoesWork .call s b [] [] x post) (span : Span) :
    DoesWork .call s b [] [] (padded span x) post := by
  refine .congr (x := x >>= fun a => get >>= fun b' =>
    if b'.steps.size = b.steps.size then emit' .nop span >>= fun _ => pure a else pure a) rfl ?_
  refine .seq hx fun a b₁ _ => .congr (x := if b₁.steps.size = b.steps.size then
    emit' .nop span >>= fun _ => pure a else pure a) rfl ?_
  split
  · have hop : (post a).Takes .call b₁.names.types .nop (post a).items :=
      ⟨rfl, nofun, rfl, fun _ => rfl, nofun⟩
    have hnop := does_emit' hop (fun _ => rfl) rfl span
    exact .seq hnop fun _ _ _ => .of_ok rfl .refl
  · exact .of_ok rfl .refl

theorem size_padded {x : Build α} {span : Span} {a : α} {b b' : Builder}
    (hx : ∀ a b₁, x b = .ok a b₁ → b.steps.size ≤ b₁.steps.size)
    (h : padded span x b = .ok a b') : b.steps.size < b'.steps.size := by
  obtain ⟨_, b₁, hget, h⟩ := bind_eq_ok.mp h
  cases hget
  obtain ⟨a', b₂, h₂, h⟩ := bind_eq_ok.mp h
  obtain ⟨_, b₃, hget, h⟩ := bind_eq_ok.mp h
  cases hget
  have hle := hx a' b₂ h₂
  split at h
  · obtain ⟨_, b₄, h₄, h⟩ := bind_eq_ok.mp h
    obtain ⟨id, h₄⟩ := discard_eq_ok.mp h₄
    cases h
    exact Nat.lt_of_le_of_lt hle (emit_ok h₄).size_lt
  · next hne =>
      cases h
      exact Nat.lt_of_le_of_ne hle (Ne.symm hne)

-- The steps of a deferred call leave its operands, and touch nothing around them.
theorem does_chain {call : Build (Arity × Option (Builtin × Option Ty))} {b : Builder}
    (hcall : ∀ types items, Operates types items call fun r => StepOp.callItems r.1 r.2 ++ items)
    (hfits : SiteFits s b) (hpos : 0 < b.steps.size) (hflag : b.hasDefer = true) (span : Span)
    (spread : Bool) : DoesWork .stmt s b [] [] (chain span spread call) fun _ => s := by
  have hdoes : DoesWork .call { s with held := [], heads := [] } { b with pending := [] } [] [] call
      fun r => { s with items := StepOp.callItems r.1 r.2 ++ s.items, held := [], heads := [] } :=
    hcall b.names.types s.items .call _ _ rfl ⟨hfits.depth, hfits.contexts⟩ (.refl _)
  have hpadded := does_padded hdoes span
  refine ⟨fun hl i b' h => ?_, fun _ b' h => ?_⟩
  · rcases bind_eq_error.mp h with h | ⟨_, b₁, htake, h⟩
    · cases h
    cases htake
    rcases bind_eq_error.mp h with h | ⟨_, b₁, hget, h⟩
    · cases h
    cases hget
    rcases bind_eq_error.mp h with h | ⟨r, b₁, h₁, h⟩
    · exact hpadded.linkable hl.inner i b' h
    rcases bind_eq_error.mp h with h | ⟨_, b₂, hset, h⟩
    · cases h
    cases hset
    exact ((hpadded.progress r b₁ h₁).linear_around hl).emit_ne_error _ span _ (discard_eq_error h)
  · obtain ⟨_, b₁, htake, h⟩ := bind_eq_ok.mp h
    cases htake
    obtain ⟨_, b₁, hget, h⟩ := bind_eq_ok.mp h
    cases hget
    obtain ⟨⟨args, builtin⟩, b₁, h₁, h⟩ := bind_eq_ok.mp h
    obtain ⟨_, b₂, hset, h⟩ := bind_eq_ok.mp h
    cases hset
    obtain ⟨id, h⟩ := discard_eq_ok.mp h
    have hsize := size_padded (fun a b₁ h => (hdoes.progress a b₁ h).size_le) h₁
    exact .defer hpos hflag (hpadded.progress _ b₁ h₁) hsize (emit_ok h)

end StepGraph.Build

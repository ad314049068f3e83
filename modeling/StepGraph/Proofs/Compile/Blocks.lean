import StepGraph.Proofs.Compile.Expressions
import StepGraph.Proofs.Compile.Primitives

open EStateM (discard_eq_ok)

namespace StepGraph.Build

variable {α : Type} {types : TypeTable} {items : List Item} {s : Site} {body : List Stmt}

-- A statement starts without operands.
structure Ready (s : Site) : Prop where
  items : s.items = []
  around : Around s

theorem Ready.deeper (h : Ready s) {n : Nat} (hn : s.depth ≤ n) (held : List Loose)
    (heads : List Head) : Ready ⟨n, s.items, held, heads, s.contexts⟩ :=
  ⟨h.items, fun c hc => ⟨Nat.le_trans (h.around c hc).1 hn, Nat.le_trans (h.around c hc).2 hn⟩⟩

-- A statement leaves no operands, and no successor of it is lost or set aside.
def Builds (stmt : Stmt) : Prop :=
  ∀ label s, Ready s → Performs s (compileStmt stmt label) (fun _ => s) (stmt.marks s.depth)
    (startsOf stmt label)

def BuildsAll (body : List Stmt) : Prop :=
  ∀ s, Ready s → Performs s (compileStmts body) (fun _ => s) (marksOf body s.depth)
    (startsOfAll body)

def BuildsOptional (stmt : Option Stmt) : Prop :=
  ∀ s, Ready s → Performs s (compileOptional stmt) (fun _ => s) (marksOfOptional stmt s.depth)
    (startsOfOptional stmt)

-- The parts of an expression that is a destination.
def Targets (e : Expr) : Prop :=
  ∀ types items, Operates types items (compileTarget e) fun t =>
    List.replicate t.operands .one ++ items

theorem Performs.begin {x : Build α} {post : α → Site} {marks : List Mark} {starts : Starts}
    (hitems : s.items = []) (h : Performs s x post marks starts) :
    Performs s x post marks (begins starts) := by
  intro b hfits
  have hx := h b hfits
  exact ⟨hx.linkable, fun a b' hok => (Progress.start hitems).trans (hx.progress a b' hok)⟩

-- What an expression leaves comes to lie on the operands.
theorem performs_operands {x : Build α} {left : α → List Item}
    (hx : ∀ types items, Operates types items x fun a => left a ++ items) :
    Performs s x (fun a => s.withItems (left a ++ s.items)) [] noStarts :=
  .of_operates fun types => hx types s.items

theorem performs_value {e : Expr} (he : Compiles e) (hint : Option Ty) :
    Performs s (discard (compile e (.value hint))) (fun _ => s.withItems (.one :: s.items)) []
      noStarts :=
  .of_operates fun _ => he.value hint

theorem performs_values {es : List Expr} (hes : ∀ e ∈ es, Compiles e) (want : Nat)
    (hints : List (Option Ty)) : Performs s (compileValues es want hints)
      (fun a => s.withItems (a.items ++ s.items)) [] noStarts :=
  .of_operates fun _ => operates_compileValues hes want hints

section blocks

theorem performs_inScope {build : Build Unit} {marks : List Mark} {starts : Starts}
    (h : Performs { s with depth := blockDepth body s.depth } build
      (fun _ => { s with depth := blockDepth body s.depth }) marks starts) :
    Performs s (inScope body Span.none build) (fun _ => s) marks (startsInScope body starts) := by
  unfold inScope startsInScope
  unfold blockDepth at h
  split
  · next hdeclares =>
      rw [if_pos hdeclares] at h
      exact .step (performs_enterScope s _) fun _ => .last h fun _ => performs_leaveScope s _
  · next hdeclares =>
      rw [if_neg hdeclares] at h
      exact h

theorem depth_le_blockDepth (body : List Stmt) (n : Nat) : n ≤ blockDepth body n := by
  unfold blockDepth
  split <;> omega

theorem BuildsAll.inScope (h : BuildsAll body) (hs : Ready s) :
    Performs s (inScope body Span.none (compileStmts body)) (fun _ => s)
      (marksOf body (blockDepth body s.depth)) (startsInScope body (startsOfAll body)) :=
  performs_inScope (h _ (hs.deeper (depth_le_blockDepth body s.depth) s.held s.heads))

end blocks

section simple

theorem builds_empty (span : Span) : Builds (.empty span) := by
  intro label s hs
  unfold compileStmt startsOf
  exact .begin hs.items (.pure () rfl)

theorem builds_expr {e : Expr} (he : Compiles e) (span : Span) : Builds (.expr span e) := by
  intro label s hs
  unfold compileStmt startsOf
  exact .begin hs.items <| .discard <| .of_operates fun types => he .discard types s.items

theorem builds_define {values : List Expr} (hvalues : ∀ e ∈ values, Compiles e) (span : Span)
    (xs : List String) : Builds (.define span xs values) := by
  intro label s hs
  unfold compileStmt startsOf
  refine .begin hs.items <| .quiet (performs_values hvalues _ _) fun arity => ?_
  refine .quiet (performs_emit' s.items rfl rfl) fun _ => ?_
  exact performs_modifyNames fun n => types_declareAll n _ _

theorem builds_var {spec : VarSpec} (hvalues : ∀ e ∈ spec.values, Compiles e) (span : Span) :
    Builds (.var span spec) := by
  intro label s hs
  obtain ⟨xs, ty, values⟩ := spec
  unfold compileStmt startsOf
  refine .begin hs.items ?_
  split
  · split
    · exact .fail fun i h => by cases h
    · refine .quiet (performs_emit' s.items rfl rfl) fun _ => ?_
      exact performs_modifyNames fun n => types_declareAll n _ _
  · refine .quiet (performs_values hvalues _ _) fun arity => ?_
    refine .quiet (performs_emit' s.items rfl rfl) fun _ => ?_
    exact performs_modifyNames fun n => types_declareAll n _ _

-- What pushes the values of a line of constants.
def LinePushes (line : ConstLine) : Prop :=
  ∀ want hints types items, Operates types items (line.push want hints) fun a => a.items ++ items

theorem performs_setIota (i : Option Nat) :
    Performs s (modify fun b => { b with iota := i }) (fun _ => s) [] noStarts :=
  performs_of_ok (a := ()) (fun _ => rfl) fun b _ => .names b.names b.temps i (.refl _)

theorem performs_compileConsts {specs : List ConstSpec} {previous : Option ConstLine}
    (hspecs : ∀ spec ∈ specs, ∀ e ∈ spec.values, Compiles e)
    (hprevious : ∀ l ∈ previous, LinePushes l)
    (iota : Nat) : Performs s (compileConsts specs iota previous) (fun _ => s) [] noStarts := by
  induction specs generalizing iota previous with
  | nil =>
      unfold compileConsts
      exact performs_setIota none
  | cons spec rest ih =>
      obtain ⟨xs, ty, values⟩ := spec
      have hvalues := hspecs _ List.mem_cons_self
      unfold compileConsts
      dsimp only
      have hline : LinePushes (if values.isEmpty then previous.getD ⟨ty, [], fun _ _ =>
        pure (.fixed 0)⟩
          else ⟨ty, values, fun want hints => compileValues values want hints⟩) := by
        split
        · cases previous with
          | some line => exact hprevious line rfl
          | none => exact fun _ _ _ _ => .pure _ rfl
        · exact fun want hints types items => operates_compileValues hvalues want hints
      generalize (if values.isEmpty then previous.getD ⟨ty, [], fun _ _ => pure (.fixed 0)⟩
          else ⟨ty, values, fun want hints => compileValues values want hints⟩ : ConstLine) = line
        at hline ⊢
      refine .quiet (performs_setIota _) fun _ => .quiet (performs_operands (hline _ _)) fun arity => ?_
      refine .quiet (performs_emit' s.items rfl rfl) fun _ => ?_
      refine .quiet (performs_modifyNames fun n => types_declareAll n _ _) fun _ => ?_
      exact ih (fun spec hspec => hspecs spec (List.mem_cons_of_mem _ hspec))
        (fun l hl => Option.mem_some.mp hl ▸ hline) (iota + 1)

theorem builds_const {specs : List ConstSpec}
    (hspecs : ∀ spec ∈ specs, ∀ e ∈ spec.values, Compiles e) (span : Span) :
    Builds (.const span specs) := by
  intro label s hs
  unfold compileStmt startsOf
  exact .begin hs.items (performs_compileConsts hspecs (fun _ h => by cases h) 0)

theorem builds_typeDecl (span : Span) (x : String) (ty : Ty) : Builds (.typeDecl span x ty) := by
  intro label s hs
  unfold compileStmt startsOf
  exact .begin hs.items (performs_declareType x ty)

theorem operates_compileTargets {es : List Expr} (hes : ∀ e ∈ es, Targets e) :
    Operates types items (compileTargets es) fun ts =>
      List.replicate ((ts.map (·.1)).map Target.operands).sum .one ++ items := by
  induction es generalizing items with
  | nil =>
      unfold compileTargets
      exact .pure _ rfl
  | cons e rest ih =>
      unfold compileTargets
      refine .bind (hes e List.mem_cons_self types items) fun t => ?_
      refine .bind operates_names fun n => ?_
      refine .bind (ih fun e he => hes e (List.mem_cons_of_mem _ he)) fun ts => .pure _ ?_
      simp only [List.map_cons, List.sum_cons, Nat.add_comm t.operands,
        ← List.replicate_append_replicate, List.append_assoc]

theorem builds_assign {targets values : List Expr} (htargets : ∀ e ∈ targets, Targets e)
    (hvalues : ∀ e ∈ values, Compiles e) (span : Span) : Builds (.assign span targets values) := by
  intro label s hs
  unfold compileStmt startsOf
  refine .begin hs.items <| .quiet (performs_operands fun types items =>
    operates_compileTargets htargets) fun compiled => ?_
  refine .quiet (performs_values hvalues _ _) fun arity => ?_
  refine performs_emit' s.items ?_ rfl
  simp only [StepOp.needs, List.append_assoc]
  rfl

-- The operator and the store find both operands above those of the destination.
theorem performs_emitUpdate (op : BinaryOp) (target : Target) (ty : Option Ty) (span : Span) :
    Performs (s.withItems (.one :: .one :: (List.replicate target.operands .one ++ s.items)))
      (emitUpdate op target ty span) (fun _ => s) [] noStarts := by
  unfold emitUpdate
  refine .quiet (performs_emit' (List.replicate target.operands .one ++ s.items) rfl rfl) fun _ =>
    ?_
  refine performs_emit' s.items ?_ rfl
  simp [StepOp.needs, Site.withItems, StepOp.gives]

theorem builds_opAssign {target value : Expr} (htarget : Targets target) (hvalue : Compiles value)
    (span : Span) (op : BinaryOp) : Builds (.opAssign span op target value) := by
  intro label s hs
  unfold compileStmt startsOf
  refine .begin hs.items <| .quiet performs_names fun n => ?_
  refine .quiet (performs_operands htarget) fun compiled => ?_
  refine .quiet (performs_emit' s.items rfl rfl) fun _ => ?_
  refine .quiet (performs_value hvalue _) fun _ => ?_
  exact performs_emitUpdate (s := s) op compiled _ span

theorem builds_incDec {target : Expr} (htarget : Targets target) (span : Span) (increment : Bool) :
    Builds (.incDec span target increment) := by
  intro label s hs
  unfold compileStmt startsOf
  refine .begin hs.items <| .quiet performs_names fun n => ?_
  refine .quiet (performs_operands htarget) fun compiled => ?_
  refine .quiet (performs_emit' s.items rfl rfl) fun _ => ?_
  refine .quiet (.of_operates fun _ => operates_emitConstant _ _ _) fun _ => ?_
  exact performs_emitUpdate (s := s) _ compiled _ span

theorem builds_send {chan value : Expr} (hchan : Compiles chan) (hvalue : Compiles value)
    (span : Span) : Builds (.send span chan value) := by
  intro label s hs
  unfold compileStmt startsOf
  refine .begin hs.items <| .quiet performs_names fun n => ?_
  refine .quiet (performs_value hchan _) fun _ => .quiet (performs_value hvalue _) fun _ => ?_
  exact performs_emit' s.items rfl rfl

theorem operands_resultTargets (sig : Signature) :
    ((resultTargets sig).map Target.operands).sum = 0 := by
  unfold resultTargets
  rw [List.sum_eq_zero_iff_forall_eq_nat]
  simp only [List.map_map, List.mem_map, Function.comp_apply]
  rintro n ⟨p, -, rfl⟩
  split
  · split <;> rfl
  · rfl

theorem builds_ret {values : List Expr} (hvalues : ∀ e ∈ values, Compiles e) (span : Span) :
    Builds (.ret span values) := by
  rintro label ⟨depth, items, held, heads, contexts⟩ hs
  obtain rfl : items = [] := hs.items
  unfold compileStmt startsOf
  refine .begin rfl <| .peek fun b _ => ?_
  have hret : Performs ⟨depth, [], held, heads, contexts⟩ (do
      emit' (.ret (.fixed 0)) span
      setPending []) (fun _ => ⟨depth, [], held, heads, contexts⟩) [] noStarts :=
    performs_ret (.fixed 0) [] rfl span
  dsimp only
  split
  · split
    · exact hret
    · refine .quiet (performs_values hvalues _ _) fun arity => ?_
      refine .quiet (performs_emit' [] ?_ rfl) fun _ => hret
      simp [StepOp.needs, operands_resultTargets, Site.withItems]
  · refine .quiet (performs_values hvalues _ _) fun arity => ?_
    exact performs_ret _ [] rfl span

theorem builds_brk (span : Span) (l : Option String) : Builds (.brk span l) := by
  intro label s hs
  unfold compileStmt startsOf
  exact .begin hs.items (performs_breakOut l span hs.items hs.around)

theorem builds_cont (span : Span) (l : Option String) : Builds (.cont span l) := by
  intro label s hs
  unfold compileStmt startsOf
  exact .begin hs.items (performs_continueLoop l span hs.items hs.around)

theorem builds_goto (span : Span) (l : String) : Builds (.goto span l) := by
  intro label s hs
  unfold compileStmt startsOf
  exact .begin hs.items (performs_gotoLabel l span hs.items)

theorem builds_fallthrough (span : Span) : Builds (.fallthrough span) := by
  intro label s hs
  unfold compileStmt
  exact .fail fun i h => by cases h

theorem builds_go (span : Span) (call : Expr) : Builds (.go span call) := by
  intro label s hs
  unfold compileStmt
  exact .fail fun i h => by cases h

end simple

end StepGraph.Build

namespace StepGraph.Build

variable {α : Type} {types : TypeTable} {items : List Item} {s : Site} {body : List Stmt}

theorem builds_block (h : BuildsAll body) (span : Span) : Builds (.block span body) := by
  intro label s hs
  unfold compileStmt startsOf Stmt.marks
  exact .begin hs.items (h.inScope hs)

theorem builds_labeled {stmt : Stmt} (h : Builds stmt) (span : Span) (l : String) :
    Builds (.labeled span l stmt) := by
  intro label s hs
  unfold compileStmt startsOf Stmt.marks
  exact .begin hs.items <| .during (performs_placeLabel l span hs.items) fun _ => h _ s hs

theorem performs_enterIf (s : Site) (c : Prop) [Decidable c] (span : Span) :
    Performs s (if c then enterScope span else pure ())
      (fun _ => { s with depth := if c then s.depth + 1 else s.depth }) [] noStarts := by
  split
  · exact performs_enterScope s span
  · exact .pure () rfl

theorem performs_leaveIf (s : Site) (c : Prop) [Decidable c] (span : Span) :
    Performs { s with depth := if c then s.depth + 1 else s.depth }
      (if c then leaveScope span else pure ()) (fun _ => s) [] noStarts := by
  split
  · exact performs_leaveScope s span
  · exact .pure () rfl

theorem builds_cond {init no : Option Stmt} {test : Expr} {yes : List Stmt}
    (hinit : BuildsOptional init) (htest : Compiles test) (hyes : BuildsAll yes)
    (hno : BuildsOptional no) (span : Span) : Builds (.cond span init test yes no) := by
  rintro label ⟨depth, items, held, heads, contexts⟩ hs
  obtain rfl : items = [] := hs.items
  have hle : depth ≤ if init.isSome then depth + 1 else depth := by
    split <;> omega
  have hready : ∀ held, Ready ⟨if init.isSome then depth + 1 else depth, [], held, heads, contexts⟩ :=
    fun held => hs.deeper hle held heads
  unfold compileStmt startsOf Stmt.marks
  refine .begin rfl <| .ifThen <| .step (performs_enterIf _ _ span) fun _ => ?_
  refine .during (hinit _ (hready _)) fun _ => .step (performs_value htest _) fun _ => ?_
  refine .step (performs_branch rfl _) fun other => .during (hyes.inScope (hready _)) fun _ => ?_
  refine .step performs_takePending fun exits => ?_
  refine .step (performs_setPending [] (exits.map (.exit _) ++ held) List.perm_middle) fun _ => ?_
  refine .last (hno _ (hready _)) fun _ => .quiet (performs_addPending held (.refl _)) fun _ => ?_
  exact performs_leaveIf ⟨depth, [], held, heads, contexts⟩ _ span

section loops

theorem performs_refresh (span : Span) (name : String) :
    Performs s (refresh span name) (fun _ => s) [] noStarts := by
  unfold refresh declareTop
  refine .quiet (performs_emit' s.items rfl rfl) fun _ => ?_
  refine .quiet (performs_emit' s.items rfl rfl) fun _ => ?_
  exact .quiet performs_names fun _ => performs_declare _ _

theorem performs_forM {l : List α} {f : α → Build PUnit}
    (hf : ∀ a, Performs s (f a) (fun _ => s) [] noStarts) :
    Performs s (l.forM f) (fun _ => s) [] noStarts :=
  Compositional.forM (M := Build) (P := fun x => Performs s x (fun _ => s) [] noStarts)
    ⟨fun _ => .pure _ rfl, .quiet⟩ hf

theorem performs_compileTest {test : Option Expr} (htest : ∀ e ∈ test, Compiles e)
    (hitems : s.items = []) (span : Span) : Performs s (compileTest test span)
      (fun exit => { s with held := exit.map (.exit s.depth) ++ s.held }) [] noStarts := by
  obtain ⟨depth, items, held, heads, contexts⟩ := s
  obtain rfl : items = [] := hitems
  cases test with
  | some e =>
      unfold compileTest
      refine .quiet (performs_value (htest e rfl) _) fun _ => ?_
      exact .quiet (performs_branch rfl span) fun _ => .pure _ rfl
  | none =>
      unfold compileTest
      exact .pure _ rfl

theorem ready_loop {c : JumpContext} (hs : Ready s) {n : Nat} (hn : s.depth ≤ n)
    (hc : c.breakDepth ≤ n ∧ c.continueDepth ≤ n) (held : List Loose) (heads : List Head) :
    Ready ⟨n, s.items, held, heads, c :: s.contexts⟩ := by
  refine ⟨hs.items, fun c' hc' => ?_⟩
  rcases List.mem_cons.mp hc' with rfl | hc'
  · exact hc
  · exact (hs.deeper hn held heads).around c' hc'

theorem performs_carryOut (vars : List String) (span : Span) :
    Performs s (if vars.isEmpty then pure () else emit' (.carryOut vars) span) (fun _ => s) []
      noStarts := by
  split
  · exact .pure () rfl
  · exact performs_emit' s.items rfl rfl

theorem exits_append (n : Nat) (l l' : List Slot) (held : List Loose) :
    (l'.map (Loose.exit n) ++ (l.map (Loose.exit n) ++ held)).Perm
      ((l ++ l').map (Loose.exit n) ++ held) := by
  rw [List.map_append, List.append_assoc]
  exact List.perm_append_comm_assoc _ _ _

-- Behind its body a loop goes back to its head, and the ways out of it come together.
theorem performs_loopTail {post : Option Stmt} (hpost : BuildsOptional post)
    {held held' : List Loose} {heads : List Head} {head : StepId} {slots : List Slot}
    (hs : Ready s) (hhead : (⟨head, false, s.depth + 1, []⟩ : Head) ∈ heads)
    (hheld : held'.Perm (slots.map (.exit (s.depth + 1)) ++ held)) (span : Span) :
    Performs { s with depth := s.depth + 1 + 1, held := held', heads } (do
      leaveScope span
      compileOptional post
      link (← jump (s.depth + 1) span) head
      addPending slots
      leaveScope span) (fun _ => { s with held, heads })
      (marksOfOptional post (s.depth + 1) ++ [.round])
      (after (leaveScope span) fun _ => startsOfOptional post) := by
  obtain ⟨depth, items, _, _, contexts⟩ := s
  obtain rfl : items = [] := hs.items
  refine .step (performs_leaveScope ⟨depth + 1, [], held', heads, contexts⟩ span) fun _ => ?_
  refine .tail (hpost _ (hs.deeper (Nat.le_succ depth) held' heads)) fun _ => ?_
  have hback := performs_back (s := ⟨depth + 1, [], held', heads, contexts⟩) hhead (Nat.le_refl _)
    rfl rfl span
  refine .assoc <| .last hback fun _ => .quiet (performs_addPending held hheld) fun _ => ?_
  exact performs_leaveScope ⟨depth, [], held, heads, contexts⟩ span

theorem builds_loop {init post : Option Stmt} {test : Option Expr} (hinit : BuildsOptional init)
    (htest : ∀ e ∈ test, Compiles e) (hpost : BuildsOptional post) (hbody : BuildsAll body)
    (span : Span) : Builds (.loop span init test post body) := by
  rintro label ⟨depth, items, held, heads, contexts⟩ hs
  obtain rfl : items = [] := hs.items
  unfold compileStmt startsOf Stmt.marks
  refine .begin rfl <| .step (performs_enterScope _ span) fun _ => .get fun outer hfits => ?_
  obtain hdepth : depth + 1 = outer.depth := hfits.depth
  rw [← hdepth]
  refine .during (hinit _ (hs.deeper (Nat.le_succ depth) held heads)) fun _ => ?_
  refine .step (performs_head [] rfl rfl fun _ => rfl) fun head => ?_
  change Performs ⟨depth + 1, [], held, ⟨head, false, depth + 1, []⟩ :: heads, contexts⟩ _ _ _ _
  generalize hheads : (⟨head, false, depth + 1, []⟩ :: heads : List Head) = heads'
  have hhead : (⟨head, false, depth + 1, []⟩ : Head) ∈ heads' := hheads ▸ List.mem_cons_self
  refine .step (performs_compileTest htest rfl span) fun exit => ?_
  change Performs ⟨depth + 1, [], exit.map (.exit (depth + 1)) ++ held, heads', contexts⟩ _ _ _ _
  refine .step (performs_pushContext .loop label _ _) fun _ => ?_
  refine .step (performs_enterScope _ span) fun _ => ?_
  refine .step (performs_forM fun x => performs_refresh span x) fun _ => ?_
  have hdeeper : depth ≤ depth + 2 := Nat.le_add_right _ _
  refine .during (hbody.inScope (ready_loop hs hdeeper ⟨Nat.le_succ _, Nat.le_refl _⟩ _ heads'))
    fun _ => ?_
  refine .step (performs_popContext rfl) fun slots => ?_
  obtain ⟨breaks, continues⟩ := slots
  change Performs ⟨depth + 2, [], breaks.map (.exit (depth + 1)) ++
    (continues.map (.round (depth + 2)) ++ (exit.map (.exit (depth + 1)) ++ held)), heads', contexts⟩
      _ _ _ _
  refine .step (performs_addContinues (breaks.map (.exit (depth + 1)) ++
    (exit.map (.exit (depth + 1)) ++ held)) rfl (List.perm_append_comm_assoc _ _ _)) fun _ => ?_
  refine .unlessThen <| .step (performs_carryOut _ span) fun _ => ?_
  refine .mono (performs_loopTail (s := ⟨depth, [], held, heads, contexts⟩) hpost hs hhead
    (exits_append (depth + 1) exit breaks held) span) fun _ b => ?_
  exact .forget heads (hheads ▸ List.subset_cons_self _ _)

theorem operates_compileRangeTarget {e : Option Expr} (he : ∀ x ∈ e, Targets x) :
    Operates types items (compileRangeTarget e) fun t =>
      List.replicate t.operands .one ++ items := by
  unfold compileRangeTarget
  cases e with
  | some e => exact he e rfl types items
  | none => exact .pure _ rfl

theorem performs_loads (xs : List String) (span : Span) :
    Performs s (xs.forM fun x => emit' (.load x) span)
      (fun _ => s.withItems (List.replicate xs.length .one ++ s.items)) [] noStarts := by
  induction xs generalizing s with
  | nil => exact .pure _ rfl
  | cons x rest ih =>
      refine .quiet (performs_emit' s.items rfl rfl) fun _ => ?_
      rw [List.length_cons, ← replicate_append_one]
      exact ih

theorem performs_rangeAssign {key value : Option Expr} (hkey : ∀ e ∈ key, Targets e)
    (hvalue : ∀ e ∈ value, Targets e) (hitems : s.items = pairItems value.isSome) (span : Span) :
    Performs s (rangeAssign span key value) (fun _ => s.withItems []) [] noStarts := by
  unfold rangeAssign
  refine .quiet (performs_temp _) fun keyTemp => .quiet (performs_temp _) fun valueTemp => ?_
  cases value with
  | some e =>
      refine .quiet (performs_emit' [] hitems rfl) fun _ => ?_
      refine .quiet (performs_operands fun _ _ => operates_compileRangeTarget hkey) fun k => ?_
      refine .quiet (performs_operands fun _ _ => operates_compileRangeTarget hvalue) fun v => ?_
      refine .quiet (performs_loads _ span) fun _ => performs_emit' [] ?_ rfl
      change List.replicate 2 Item.one ++ (List.replicate v.operands .one ++
        (List.replicate k.operands .one ++ [])) =
          List.replicate 2 .one ++ List.replicate (k.operands + (v.operands + 0)) .one ++ []
      rw [List.append_nil, List.append_nil, List.replicate_append_replicate, Nat.add_zero,
        Nat.add_comm]
  | none =>
      have hnone : compileRangeTarget none = pure .discard := by
        unfold compileRangeTarget
        rfl
      refine .quiet (performs_emit' [] hitems rfl) fun _ => ?_
      refine .quiet (performs_operands fun _ _ => operates_compileRangeTarget hkey) fun k => ?_
      rw [hnone, pure_bind]
      refine .quiet (performs_loads _ span) fun _ => performs_emit' [] ?_ rfl
      simp [StepOp.needs, Site.withItems, StepOp.gives]

theorem performs_rangeHead {key value : Option Expr} {subject : Expr}
    (hkey : ∀ e ∈ key, Targets e) (hvalue : ∀ e ∈ value, Targets e) (hsubject : Compiles subject)
    (hitems : s.items = []) (span : Span) (define : Bool) (label : Option String) :
    Performs s (rangeHead span key value define subject label s.depth) (fun head => { s with
      depth := s.depth + 1
      held := .exit s.depth ⟨head, .other⟩ :: s.held
      heads := ⟨head, true, s.depth, []⟩ :: s.heads
      contexts := ⟨.loop, label, s.depth, s.depth, [], []⟩ :: s.contexts }) [] noStarts := by
  obtain ⟨depth, items, held, heads, contexts⟩ := s
  obtain rfl : items = [] := hitems
  unfold rangeHead
  refine .quiet performs_names fun n => .quiet (performs_value hsubject _) fun _ => ?_
  refine .quiet (performs_temp _) fun cursor => .quiet (performs_emit' [] rfl rfl) fun _ => ?_
  refine .quiet (performs_head [] rfl rfl fun _ => rfl) fun head => ?_
  change Performs ⟨depth, pairItems value.isSome ++ [], .exit depth ⟨head, .other⟩ :: held,
    ⟨head, true, depth, []⟩ :: heads, contexts⟩ _ _ _ _
  refine .quiet (performs_pushContext .loop label _ _) fun _ => ?_
  refine .quiet (performs_enterScope _ span) fun _ => ?_
  dsimp only
  split
  · next hnone =>
      have hvalue : value = none := by
        rw [Bool.and_eq_true, Option.isNone_iff_eq_none, Option.isNone_iff_eq_none] at hnone
        exact hnone.2
      subst hvalue
      exact .quiet (performs_emit' [] rfl rfl) fun _ => .pure _ rfl
  · split
    · have hcount : pairItems value.isSome ++ [] =
          (Arity.fixed (if value.isSome then 2 else 1)).items ++ [] := by
        cases value <;> rfl
      refine .quiet (performs_emit' [] hcount rfl) fun _ => ?_
      exact .quiet (performs_modifyNames fun n => types_declareAll n _ _) fun _ => .pure _ rfl
    · exact .quiet (performs_rangeAssign hkey hvalue (List.append_nil _) span) fun _ => .pure _ rfl

theorem performs_rangeTail {depth : Nat} {held : List Loose} {heads : List Head}
    {contexts : List JumpContext} {head : StepId} (label : Option String)
    (hhead : (⟨head, true, depth + 1, []⟩ : Head) ∈ heads) (span : Span) :
    Performs ⟨depth + 2, [], .exit (depth + 1) ⟨head, .other⟩ :: held, heads,
      ⟨.loop, label, depth + 1, depth + 1, [], []⟩ :: contexts⟩ (rangeTail span (depth + 1) head)
      (fun _ => ⟨depth, [], held, heads, contexts⟩) [.round] noStarts := by
  unfold rangeTail
  refine .quiet (performs_popContext rfl) fun (breaks, continues) => ?_
  have hheld := List.perm_append_comm_assoc (breaks.map (Loose.exit (depth + 1)))
    (continues.map (Loose.round (depth + 1))) (.exit (depth + 1) ⟨head, .other⟩ :: held)
  change Performs ⟨depth + 1 + 1, [], breaks.map (Loose.exit (depth + 1)) ++
    (continues.map (.round (depth + 1)) ++ .exit (depth + 1) ⟨head, .other⟩ :: held),
      heads, contexts⟩ _ _ _ _
  generalize breaks.map (Loose.exit (depth + 1)) ++ (continues.map (Loose.round (depth + 1)) ++
    .exit (depth + 1) ⟨head, .other⟩ :: held) = held' at hheld ⊢
  refine .quiet (performs_leaveScope ⟨depth + 1, [], held', heads, contexts⟩ span) fun _ => ?_
  have hround := performs_round (s := ⟨depth + 1, [], held', heads, contexts⟩) continues _ hhead
    (Nat.le_refl _) rfl rfl hheld (fun _ _ => rfl) span
  rw [← bind_assoc] at hround
  refine .assoc <| .assoc <| .last hround fun _ => ?_
  refine .quiet (performs_addPending held List.perm_middle) fun _ => ?_
  exact performs_leaveScope ⟨depth, [], held, heads, contexts⟩ span

theorem builds_range {key value : Option Expr} {subject : Expr} (hkey : ∀ e ∈ key, Targets e)
    (hvalue : ∀ e ∈ value, Targets e) (hsubject : Compiles subject) (hbody : BuildsAll body)
    (span : Span) (define : Bool) : Builds (.range span key value define subject body) := by
  rintro label ⟨depth, items, held, heads, contexts⟩ hs
  obtain rfl : items = [] := hs.items
  rw [compileStmt_range]
  unfold startsOf Stmt.marks
  refine .begin rfl <| .step (performs_enterScope _ span) fun _ => .get fun outer hfits => ?_
  obtain hdepth : depth + 1 = outer.depth := hfits.depth
  rw [← hdepth]
  refine .step (performs_rangeHead hkey hvalue hsubject rfl span define label) fun head => ?_
  change Performs ⟨depth + 2, [], .exit (depth + 1) ⟨head, .other⟩ :: held,
    ⟨head, true, depth + 1, []⟩ :: heads,
    ⟨.loop, label, depth + 1, depth + 1, [], []⟩ :: contexts⟩ _ _ _ _
  have hdeeper : depth ≤ depth + 2 := Nat.le_add_right _ _
  refine .tail (hbody.inScope (ready_loop hs hdeeper ⟨Nat.le_succ _, Nat.le_succ _⟩ _ _)) fun _ => ?_
  refine .mono (performs_rangeTail label List.mem_cons_self span) fun _ b => ?_
  exact .forget heads (List.subset_cons_self _ _)

end loops

section switches

theorem performs_compileTag {tag : Option Expr} (htag : ∀ e ∈ tag, Compiles e) (span : Span) :
    Performs s (compileTag tag span) (fun _ => s) [] noStarts := by
  cases tag with
  | none =>
      unfold compileTag
      exact .pure _ rfl
  | some e =>
      unfold compileTag
      refine .quiet performs_names fun n => .quiet (performs_value (htag e rfl) _) fun _ => ?_
      refine .quiet (performs_temp _) fun x => .quiet (performs_emit' s.items rfl rfl) fun _ => ?_
      exact .quiet (performs_declare _ _) fun _ => .pure _ rfl

-- A test whose value is on the stack. The paths to the clause are set aside, and the other path goes on.
theorem performs_tested (rest : Build (List Slot)) (hitems : s.items = []) (span : Span)
    (hrest : ∀ hit : List Slot, Performs
      { s with held := hit.map (.exit s.depth) ++ s.held } rest
      (fun hits => { s with held := hits.map (.exit s.depth) ++ (hit.map (.exit s.depth) ++ s.held)
        }) [] noStarts) :
    Performs (s.withItems [.one]) (do
      let miss ← branch span
      let hit ← takePending
      setPending [miss]
      return hit ++ (← rest)) (fun hits => { s with held := hits.map (.exit s.depth) ++ s.held }) []
      noStarts := by
  obtain ⟨depth, items, held, heads, contexts⟩ := s
  obtain rfl : items = [] := hitems
  refine .quiet (performs_branch rfl span) fun miss => .quiet performs_takePending fun hit => ?_
  refine .quiet (performs_setPending [] (hit.map (.exit depth) ++ held) List.perm_middle) fun _ => ?_
  refine .quiet (hrest hit) fun hits => .done _ fun b => .reorder ?_
  exact exits_append depth hit hits held

theorem performs_compileCases {es : List Expr} (hes : ∀ e ∈ es, Compiles e)
    (tag : Option (String × Option Ty)) (hitems : s.items = []) :
    Performs s (compileCases es tag)
      (fun hits => { s with held := hits.map (.exit s.depth) ++ s.held }) [] noStarts := by
  induction es generalizing s with
  | nil =>
      unfold compileCases
      exact .pure _ rfl
  | cons e rest ih =>
      have he := hes e List.mem_cons_self
      have htested := performs_tested (compileCases rest tag) hitems e.span fun hit =>
        ih (s := { s with held := hit.map (.exit s.depth) ++ s.held })
          (fun e he => hes e (List.mem_cons_of_mem _ he)) hitems
      obtain ⟨depth, items, held, heads, contexts⟩ := s
      obtain rfl : items = [] := hitems
      unfold compileCases
      cases tag with
      | none => exact .quiet (performs_value he _) fun _ => htested
      | some tag =>
          refine .quiet performs_names fun n => .quiet (performs_emit' [] rfl rfl) fun _ => ?_
          refine .quiet (performs_value he _) fun _ => ?_
          refine .quiet (performs_emit' [] rfl rfl) fun _ => ?_
          exact htested

-- The clauses of a switch with their values and their bodies.
def BuildsClause (c : Clause) : Prop :=
  (∀ e ∈ c.values, Compiles e) ∧ ∀ stmt ∈ c.body, Builds stmt

theorem performs_compileTests {clauses : List Clause} (hclauses : ∀ c ∈ clauses, BuildsClause c)
    (tag : Option (String × Option Ty)) (hitems : s.items = []) :
    Performs s (compileTests clauses tag)
      (fun entries => { s with held := entries.flatten.map (.exit s.depth) ++ s.held }) []
      noStarts := by
  induction clauses generalizing s with
  | nil =>
      unfold compileTests
      exact .pure _ rfl
  | cons c rest ih =>
      obtain ⟨values, isDefault, body⟩ := c
      unfold compileTests
      refine .quiet (performs_compileCases (hclauses _ List.mem_cons_self).1 tag hitems) fun hits => ?_
      refine .quiet (ih (fun c hc => hclauses c (List.mem_cons_of_mem _ hc)) hitems)
        fun entries => .done _ fun b => .reorder ?_
      exact exits_append s.depth hits entries.flatten s.held

theorem performs_compileClause (hbody : ∀ stmt ∈ body, Builds stmt) (hs : Ready s) :
    Performs s (compileClause body) (fun _ => s) (marksOf body s.depth) (startsOfClause body) := by
  induction body with
  | nil =>
      unfold compileClause startsOfClause
      exact .pure () rfl
  | cons stmt rest ih =>
      unfold compileClause startsOfClause
      split
      · next hlast =>
          rw [Bool.and_eq_true, List.isEmpty_iff] at hlast
          obtain ⟨rfl, hstmt⟩ := hlast
          cases stmt with
          | «fallthrough» span => exact .pure () rfl
          | _ => cases hstmt
      · refine .during (hbody stmt List.mem_cons_self none s hs) fun _ => ?_
        exact ih fun stmt hstmt => hbody stmt (List.mem_cons_of_mem _ hstmt)

theorem exits_perm {n : Nat} {l l' : List Slot} (h : l.Perm l') (held : List Loose) :
    (l.map (Loose.exit n) ++ held).Perm (l'.map (Loose.exit n) ++ held) :=
  (h.map _).append_right held

theorem flatten_eq (entries : List (List Slot)) :
    entries.flatten = entries.headD [] ++ entries.tail.flatten := by
  cases entries <;> rfl

-- The last clause cannot fall through.
theorem performs_unlessLast {x : Unit → Build α} {post : α → Site} {marks : List Mark}
    {starts : Starts} (stop : Option Span) (last : Bool) (h : Performs s (x ()) post marks starts) :
    Performs s (match stop with
      | some span => if last then fail (.misplacedFallthrough span) >>= x else x ()
      | none => x ()) post marks starts := by
  split
  · split
    · exact .fail fun i h => by cases h
    · exact h
  · exact h

-- The paths to the first clause are taken from those to all clauses.
theorem entries_perm (n : Nat) (entries : List (List Slot)) (carried exits : List Slot)
    (held : List Loose) : ((entries.flatten ++ carried ++ exits).map (Loose.exit n) ++ held).Perm
      ((entries.headD [] ++ carried).map (.exit n) ++
        ((entries.tail.flatten ++ exits).map (.exit n) ++ held)) := by
  rw [← List.append_assoc, ← List.map_append]
  refine exits_perm (List.perm_iff_count.mpr fun x => ?_) held
  rw [flatten_eq entries]
  simp only [List.count_append]
  omega

-- The paths to the clauses that are left, those that fall into the next one, and those behind the
-- switch are set aside.
theorem performs_compileBodies {clauses : List Clause} (hclauses : ∀ c ∈ clauses, BuildsClause c)
    {depth : Nat} {held : List Loose} {heads : List Head} {contexts : List JumpContext}
    (hs : Ready ⟨depth, [], held, heads, contexts⟩) (entries : List (List Slot))
    (carried exits : List Slot) :
    Performs ⟨depth, [], (entries.flatten ++ carried ++ exits).map (.exit depth) ++ held, heads,
        contexts⟩ (compileBodies clauses entries carried exits)
      (fun exits => ⟨depth, [], exits.map (.exit depth) ++ held, heads, contexts⟩)
      (marksOfClauses clauses (depth + 1)) (startsOfBodies clauses entries carried exits) := by
  induction clauses generalizing entries carried exits with
  | nil =>
      unfold compileBodies startsOfBodies
      refine .done _ fun b => ?_
      refine .drop ((entries.flatten ++ carried).map (.exit depth)) _ ?_ (.inl rfl)
      rw [List.map_append, List.append_assoc]
  | cons c rest ih =>
      obtain ⟨values, isDefault, body⟩ := c
      have ih := ih fun c hc => hclauses c (List.mem_cons_of_mem _ hc)
      have hbody := (hclauses _ List.mem_cons_self).2
      unfold compileBodies startsOfBodies marksOfClauses
      refine performs_unlessLast (x := fun _ => _) _ _ ?_
      refine .step (performs_setPending [] _ (entries_perm depth entries carried exits held))
        fun _ => .step (performs_enterScope _ _) fun _ => ?_
      refine .during (performs_compileClause hbody (hs.deeper (Nat.le_succ depth) _ heads))
        fun _ => ?_
      refine .step (performs_leaveScope ⟨depth, [], _, heads, contexts⟩ _) fun _ => ?_
      refine .step performs_takePending fun out => ?_
      change Performs ⟨depth, [], out.map (.exit depth) ++
        ((entries.tail.flatten ++ exits).map (.exit depth) ++ held), heads, contexts⟩ _ _ _ _
      rw [← List.append_assoc, ← List.map_append]
      split
      · refine .ofProgress (fun b => .reorder (exits_perm ?_ held)) (ih entries.tail out exits)
        exact List.perm_iff_count.mpr fun x => by simp only [List.count_append]; omega
      · refine .ofProgress (fun b => .reorder (exits_perm ?_ held))
          (ih entries.tail [] (exits ++ out))
        exact List.perm_iff_count.mpr fun x => by
          simp only [List.count_append, List.count_nil]
          omega

-- The paths that no test took lead to the default clause or behind the switch.
theorem addUnmatched_perm (defaults : List Bool) (unmatched : List Slot)
    (entries : List (List Slot)) : ∃ given : List Slot, (entries.flatten ++ unmatched).Perm
      (given ++ ((addUnmatched defaults unmatched entries).1.flatten ++
        (addUnmatched defaults unmatched entries).2)) := by
  unfold addUnmatched
  cases defaults.findIdx? id with
  | none => exact ⟨[], .refl _⟩
  | some i =>
      induction entries generalizing i with
      | nil => exact ⟨unmatched, by simp⟩
      | cons entry rest ih =>
          cases i with
          | zero =>
              refine ⟨[], List.perm_iff_count.mpr fun x => ?_⟩
              simp only [List.modify_zero_cons, List.flatten_cons, List.count_append, List.count_nil]
              omega
          | succ i =>
              obtain ⟨given, hperm⟩ := ih i
              refine ⟨given, List.perm_iff_count.mpr fun x => ?_⟩
              have hcount := hperm.count_eq x
              simp only [List.modify_succ_cons, List.flatten_cons, List.count_append,
                List.count_nil] at hcount ⊢
              omega

theorem unmatched_perm {entries entries' : List (List Slot)} {pending given exits : List Slot}
    (h : (entries.flatten ++ pending).Perm (given ++ (entries'.flatten ++ exits))) {n : Nat}
    (held : List Loose) :
    (pending.map (Loose.exit n) ++ (entries.flatten.map (Loose.exit n) ++ held)).Perm
      (given.map (Loose.exit n) ++ ((entries'.flatten ++ exits).map (Loose.exit n) ++ held)) := by
  rw [← List.append_assoc, ← List.append_assoc, ← List.map_append, ← List.map_append]
  exact exits_perm (List.perm_append_comm.trans h) held

-- A switch ends where its clauses end and where one leaves it.
theorem performs_switchTail {depth : Nat} {held : List Loose} {heads : List Head}
    {contexts : List JumpContext} (label : Option String) (exits : List Slot) (span : Span) :
    Performs ⟨depth + 1, [], exits.map (.exit (depth + 1)) ++ held, heads,
      ⟨.switch, label, depth + 1, depth + 1, [], []⟩ :: contexts⟩ (do
        let (breaks, _) ← popContext
        setPending (exits ++ breaks)
        leaveScope span) (fun _ => ⟨depth, [], held, heads, contexts⟩) [] noStarts := by
  refine .quiet (performs_popContext rfl) fun (breaks, continues) => ?_
  change Performs ⟨depth + 1, [], breaks.map (Loose.exit (depth + 1)) ++
    (continues.map (.round (depth + 1)) ++ (exits.map (.exit (depth + 1)) ++ held)), heads,
      contexts⟩ _ _ _ _
  refine .quiet (performs_setPending (continues.map (.round (depth + 1))) held ?_) fun _ => ?_
  · refine (List.perm_append_comm_assoc _ _ _).trans (.append_left _ ?_)
    exact exits_append (depth + 1) exits breaks held
  · exact performs_leaveScope ⟨depth, [], held, heads, contexts⟩ span

-- The site of the clauses of a switch.
theorem ready_switch {depth : Nat} {held : List Loose} {heads : List Head}
    {contexts : List JumpContext} (hs : Ready ⟨depth, [], held, heads, contexts⟩)
    (label : Option String) :
    Ready ⟨depth + 1, [], held, heads, ⟨.switch, label, depth + 1, depth + 1, [], []⟩ :: contexts⟩ :=
  ready_loop (s := ⟨depth, [], held, heads, contexts⟩) hs (Nat.le_succ depth)
    ⟨Nat.le_refl _, Nat.le_refl _⟩ held heads

theorem builds_switch {init : Option Stmt} {tag : Option Expr} {clauses : List Clause}
    (hinit : BuildsOptional init) (htag : ∀ e ∈ tag, Compiles e)
    (hclauses : ∀ c ∈ clauses, BuildsClause c) (span : Span) :
    Builds (.switch span init tag clauses) := by
  rintro label ⟨depth, items, held, heads, contexts⟩ hs
  obtain rfl : items = [] := hs.items
  unfold compileStmt startsOf Stmt.marks
  refine .begin rfl <| .step (performs_enterScope _ span) fun _ => ?_
  refine .during (hinit _ (hs.deeper (Nat.le_succ depth) held heads)) fun _ => ?_
  refine .step (performs_compileTag htag span) fun tag => ?_
  refine .step (performs_compileTests hclauses tag rfl) fun entries => ?_
  refine .step performs_takePending fun pending => ?_
  dsimp only
  obtain ⟨given, hgiven⟩ := addUnmatched_perm (clauses.map fun c => c.isDefault) pending entries
  generalize addUnmatched (clauses.map fun c => c.isDefault) pending entries = reached at hgiven ⊢
  obtain ⟨entries', exits⟩ := reached
  refine .get fun outer hfits => ?_
  obtain hdepth : depth + 1 = outer.depth := hfits.depth
  rw [← hdepth]
  refine .step (performs_pushContext .switch label _ _) fun _ => ?_
  have hready := ready_switch hs label
  refine .last (.ofProgress (fun b => ?_)
    (performs_compileBodies hclauses hready entries' [] exits)) fun exits' => ?_
  · rw [List.append_nil]
    exact .drop (given.map (.exit (depth + 1))) _ (unmatched_perm hgiven held) (.inl rfl)
  · exact performs_switchTail label exits' span

-- The tests of a clause of a type switch.
theorem performs_typeTests (subject : String) (types : List Ty) (hitems : s.items = []) :
    Performs s (typeTests subject types)
      (fun hits => { s with held := hits.map (.exit s.depth) ++ s.held }) [] noStarts := by
  induction types generalizing s with
  | nil => exact .pure _ rfl
  | cons ty rest ih =>
      have htested := performs_tested (typeTests subject rest) hitems Span.none fun hit =>
        ih (s := { s with held := hit.map (.exit s.depth) ++ s.held }) hitems
      obtain ⟨depth, items, held, heads, contexts⟩ := s
      obtain rfl : items = [] := hitems
      unfold typeTests
      refine .quiet (performs_emit' [] rfl rfl) fun _ => ?_
      exact .quiet (performs_emit' [] rfl rfl) fun _ => htested

theorem performs_typeTestsAll (subject : String) (clauses : List TypeClause)
    (hitems : s.items = []) :
    Performs s (clauses.mapM fun c => typeTests subject c.types)
      (fun entries => { s with held := entries.flatten.map (.exit s.depth) ++ s.held }) []
      noStarts := by
  induction clauses generalizing s with
  | nil => exact .pure _ rfl
  | cons c rest ih =>
      rw [List.mapM_cons]
      refine .quiet (performs_typeTests subject c.types hitems) fun hits => ?_
      refine .quiet (ih hitems) fun entries => .done _ fun b => .reorder ?_
      exact exits_append s.depth hits entries.flatten s.held

theorem performs_bindSubject (binding : Option String) (subject : String) (ty : Option Ty)
    (types : List Ty) : Performs s (bindSubject binding subject ty types) (fun _ => s) []
      noStarts := by
  unfold bindSubject
  cases binding with
  | none => exact .pure _ rfl
  | some name =>
      refine .quiet (performs_emit' s.items rfl rfl) fun _ => ?_
      dsimp only
      split
      · refine .quiet (performs_emit' s.items rfl rfl) fun _ => ?_
        exact .quiet (performs_emit' s.items rfl rfl) fun _ => performs_declare _ _
      · exact .quiet (performs_emit' s.items rfl rfl) fun _ => performs_declare _ _

theorem performs_compileTypeBodies {bind : List Ty → Build Unit} {clauses : List TypeClause}
    (hbind : ∀ types s, Performs s (bind types) (fun _ => s) [] noStarts)
    (hclauses : ∀ c ∈ clauses, BuildsAll c.body) {depth : Nat} {held : List Loose}
    {heads : List Head} {contexts : List JumpContext} (hs : Ready ⟨depth, [], held, heads, contexts⟩)
    (entries : List (List Slot)) (exits : List Slot) :
    Performs ⟨depth, [], (entries.flatten ++ exits).map (.exit depth) ++ held, heads, contexts⟩
      (compileTypeBodies bind clauses entries exits)
      (fun exits => ⟨depth, [], exits.map (.exit depth) ++ held, heads, contexts⟩)
      (marksOfTypeClauses clauses (depth + 1)) (startsOfTypeBodies bind clauses entries exits) := by
  induction clauses generalizing entries exits with
  | nil =>
      unfold compileTypeBodies startsOfTypeBodies
      refine .done _ fun b => ?_
      refine .drop (entries.flatten.map (.exit depth)) _ ?_ (.inl rfl)
      rw [List.map_append, List.append_assoc]
  | cons c rest ih =>
      obtain ⟨types, isDefault, body⟩ := c
      have ih := ih fun c hc => hclauses c (List.mem_cons_of_mem _ hc)
      have hbody : BuildsAll body := hclauses _ List.mem_cons_self
      unfold compileTypeBodies startsOfTypeBodies marksOfTypeClauses
      have hentries := entries_perm depth entries [] exits held
      rw [List.append_nil, List.append_nil] at hentries
      refine .step (performs_setPending [] _ hentries) fun _ => ?_
      refine .step (performs_enterScope _ _) fun _ => .step (hbind types _) fun _ => ?_
      refine .during (hbody _ (hs.deeper (Nat.le_succ depth) _ heads)) fun _ => ?_
      refine .step (performs_leaveScope ⟨depth, [], _, heads, contexts⟩ _) fun _ => ?_
      refine .step performs_takePending fun out => ?_
      change Performs ⟨depth, [], out.map (.exit depth) ++
        ((entries.tail.flatten ++ exits).map (.exit depth) ++ held), heads, contexts⟩ _ _ _ _
      rw [← List.append_assoc, ← List.map_append]
      refine .ofProgress (fun b => .reorder (exits_perm ?_ held)) (ih entries.tail (exits ++ out))
      exact List.perm_iff_count.mpr fun x => by simp only [List.count_append]; omega

theorem performs_typeSwitchHead {subject : Expr} (hsubject : Compiles subject)
    (hitems : s.items = []) (span : Span) (clauses : List TypeClause) (label : Option String) :
    Performs s (typeSwitchHead span subject clauses label)
      (fun r => { s with
        held := (r.2.1.flatten ++ r.2.2).map (.exit s.depth) ++ s.held
        contexts := ⟨.switch, label, s.depth, s.depth, [], []⟩ :: s.contexts }) [] noStarts := by
  obtain ⟨depth, items, held, heads, contexts⟩ := s
  obtain rfl : items = [] := hitems
  unfold typeSwitchHead
  refine .quiet performs_names fun n => .quiet (performs_value hsubject _) fun _ => ?_
  refine .quiet (performs_temp _) fun x => .quiet (performs_emit' [] rfl rfl) fun _ => ?_
  refine .quiet (performs_declare _ _) fun _ => ?_
  refine .quiet (performs_typeTestsAll x clauses rfl) fun entries => ?_
  refine .quiet performs_takePending fun pending => ?_
  dsimp only
  obtain ⟨given, hgiven⟩ := addUnmatched_perm (clauses.map fun c => c.isDefault) pending entries
  generalize addUnmatched (clauses.map fun c => c.isDefault) pending entries = reached at hgiven ⊢
  obtain ⟨entries', exits⟩ := reached
  refine .peek fun outer hfits => ?_
  obtain hdepth : depth = outer.depth := hfits.depth
  rw [← hdepth]
  refine .quiet (performs_pushContext .switch label _ _) fun _ => .done _ fun b => ?_
  exact .drop (given.map (.exit depth)) _ (unmatched_perm hgiven held) (.inl rfl)

theorem builds_typeSwitch {init : Option Stmt} {subject : Expr} {clauses : List TypeClause}
    (hinit : BuildsOptional init) (hsubject : Compiles subject)
    (hclauses : ∀ c ∈ clauses, BuildsAll c.body) (span : Span) (binding : Option String) :
    Builds (.typeSwitch span init binding subject clauses) := by
  rintro label ⟨depth, items, held, heads, contexts⟩ hs
  obtain rfl : items = [] := hs.items
  rw [compileStmt_typeSwitch]
  unfold startsOf Stmt.marks
  refine .begin rfl <| .step (performs_enterScope _ span) fun _ => ?_
  refine .during (hinit _ (hs.deeper (Nat.le_succ depth) held heads)) fun _ => ?_
  refine .step (performs_typeSwitchHead hsubject rfl span clauses label)
    fun head => ?_
  obtain ⟨⟨x, ty⟩, entries, exits⟩ := head
  refine .last (performs_compileTypeBodies (fun types s => performs_bindSubject binding x ty types)
    hclauses (ready_switch hs label) entries exits) fun exits' => ?_
  exact performs_switchTail label exits' span

end switches

section defers

theorem operates_deferredCall {f : Expr} {args : List Expr} (hf : Compiles f)
    (hargs : ∀ e ∈ args, Compiles e) (span : Span) (spread : Bool) :
    Operates types items (deferredCall span f args spread) fun r =>
      StepOp.callItems r.1 r.2 ++ items := by
  refine .bind operates_names fun n => ?_
  split
  · refine .bind (operates_builtinType _ _ _) fun ty => ?_
    split
    · exact .bind (operates_compileRest hargs _ _) fun arity => .pure _ rfl
    · exact .bind (operates_compileArgs hargs _ _) fun arity => .pure _ rfl
  · exact .unsupported _ _
  · refine .bind (operates_compileArgs hargs _ _) fun arity => .bind (hf.value none) fun _ => ?_
    exact .pure _ rfl

-- The function has at least one step in front of the steps of a deferred call.
theorem builds_deferCall {f : Expr} {args : List Expr} (hf : Compiles f)
    (hargs : ∀ e ∈ args, Compiles e) (span : Span) (note : Note) (spread : Bool) :
    Builds (.defer span (.call note f args spread)) := by
  intro label s hs
  rw [compileStmt_defer]
  unfold startsOf
  refine .begin hs.items fun b hfits => ?_
  have hchain : ∀ b, SiteFits s b → 0 < b.steps.size → b.hasDefer = true →
      DoesWork .stmt s b [] [] (chain span spread (deferredCall span f args spread)) fun _ => s :=
    fun b hfits hpos hflag => does_chain (fun _ _ => operates_deferredCall hf hargs span spread)
      hfits hpos hflag span spread
  have hflag : DoesWork .stmt s b [] [] (modify fun b => { b with hasDefer := true }) fun _ => s :=
    .of_ok rfl .flag
  refine .seq hflag fun _ b₁ h₁ => ?_
  cases h₁
  have hflagged : SiteFits s { b with hasDefer := true } := ⟨hfits.depth, hfits.contexts⟩
  refine .congr (x := if b.steps.isEmpty then emit' .nop span >>= fun _ => chain span spread _
    else chain span spread _) rfl ?_
  split
  · have hnop : Performs s (emit' .nop span) (fun _ => s) [] noStarts :=
      performs_emit' s.items rfl rfl
    refine .seq (hnop _ hflagged) fun _ b₂ h₂ => ?_
    obtain ⟨id, h₂⟩ := discard_eq_ok.mp h₂
    have he := emit_ok h₂
    refine hchain b₂ ⟨hfits.depth.trans he.depth.symm, ?_⟩ (Nat.zero_lt_of_lt he.size_lt) he.hasDefer
    exact hfits.contexts.trans (congrArg _ he.contexts.symm)
  · next hsome =>
      refine hchain _ hflagged (Nat.pos_of_ne_zero fun hzero => hsome ?_) rfl
      exact Array.isEmpty_iff_size_eq_zero.mpr hzero

theorem builds_deferOther {span : Span} {e : Expr}
    (he : ∀ label, compileStmt (.defer span e) label = unsupported "defer of a non-call" span) :
    Builds (.defer span e) := by
  intro label s hs
  rw [he]
  exact .fail fun i h => by cases h

end defers

theorem builds_all (h : ∀ stmt ∈ body, Builds stmt) : BuildsAll body := by
  intro s hs
  induction body with
  | nil =>
      unfold compileStmts startsOfAll
      exact .pure () rfl
  | cons stmt rest ih =>
      unfold compileStmts startsOfAll
      refine .during (h stmt List.mem_cons_self none s hs) fun _ => ?_
      exact ih fun stmt hstmt => h stmt (List.mem_cons_of_mem _ hstmt)

theorem builds_optional {stmt : Option Stmt} (h : ∀ x ∈ stmt, Builds x) : BuildsOptional stmt := by
  intro s hs
  cases stmt with
  | none =>
      unfold compileOptional startsOfOptional
      exact .pure () rfl
  | some x =>
      unfold compileOptional startsOfOptional
      exact h x rfl none s hs

end StepGraph.Build

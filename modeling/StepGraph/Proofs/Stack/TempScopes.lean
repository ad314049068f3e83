import StepGraph.Proofs.Compile.BackEdges
import StepGraph.Proofs.Compile.Temporaries
import StepGraph.Proofs.Machine.Defers
import StepGraph.Proofs.Store.Overwrite

open EStateM (bind_apply bind_of_ok)

namespace StepGraph

open Names (isTemp)

variable {α β : Type}

-- No scope has gone or has come to stand inside another one, and temporaries are what they were in
-- the scopes that there were, but for those that were `free` to be bound.
structure TempsKept (free : ScopeId → String → Prop) (h h' : Heap) : Prop where
  nests : ScopesNest h h'
  binding : ∀ s < h.scopes.size, ∀ x, isTemp x = true → ¬ free s x →
    h'.binding? s x = h.binding? s x

namespace TempsKept

variable {free free' : ScopeId → String → Prop} {h h' h'' : Heap}

theorem refl (h : Heap) : TempsKept free h h := ⟨.refl h, fun _ _ _ _ _ => rfl⟩

theorem of_scopes (hs : h'.scopes = h.scopes) : TempsKept free h h' := by
  refine ⟨.of_scopes hs, fun s _ x _ _ => ?_⟩
  unfold Heap.binding?
  rw [hs]

theorem trans (h₁ : TempsKept free h h') (h₂ : TempsKept free h' h'') : TempsKept free h h'' where
  nests := h₁.nests.trans h₂.nests
  binding s hs x hx hfree :=
    (h₂.binding s (Nat.lt_of_lt_of_le hs h₁.nests.size) x hx hfree).trans
      (h₁.binding s hs x hx hfree)

theorem mono (hg : TempsKept free h h') (hfree : ∀ s < h.scopes.size, ∀ x, free s x → free' s x) :
    TempsKept free' h h' :=
  ⟨hg.nests, fun s hs x hx hnot => hg.binding s hs x hx fun hf => hnot (hfree s hs x hf)⟩

-- What was done in scopes that are new leaves the old ones alone.
theorem back (h₁ : TempsKept free h h') (h₂ : TempsKept free' h' h'')
    (hnew : ∀ s x, free' s x → h.scopes.size ≤ s) : TempsKept free h h'' where
  nests := h₁.nests.trans h₂.nests
  binding s hs x hx hfree :=
    (h₂.binding s (Nat.lt_of_lt_of_le hs h₁.nests.size) x hx fun hf =>
      Nat.not_le_of_lt hs (hnew s x hf)).trans (h₁.binding s hs x hx hfree)

end TempsKept

def HeapM.KeepsTemps (free : ScopeId → String → Prop) (x : HeapM α) : Prop :=
  ∀ h, TempsKept free h (x h).2

namespace HeapM.KeepsTemps

variable {free : ScopeId → String → Prop}

theorem of_apart {x : HeapM α} (hx : Apart x) : KeepsTemps free x := fun h => .of_scopes (hx h)

theorem pure (a : α) : KeepsTemps free (pure a : HeapM α) := of_apart (.pure a)

theorem get : KeepsTemps free (get : HeapM Heap) := of_apart .get

theorem bind {x : HeapM α} {f : α → HeapM β} (hx : KeepsTemps free x)
    (hf : ∀ a, KeepsTemps free (f a)) :
    KeepsTemps free (x >>= f) := fun h => (hx h).trans (hf _ _)

end HeapM.KeepsTemps

namespace Heap

open HeapM (KeepsTemps)

variable {free : ScopeId → String → Prop} {s : ScopeId} {x : String}

-- Only a name is bound that is no temporary or that is free.
theorem keepsTemps_bind (hx : isTemp x = true → free s x) (b : Binding) :
    KeepsTemps free (bind s x b) := by
  intro h
  refine ⟨quiet_bind s x b h, fun t ht y hy hnot => ?_⟩
  by_cases hs : s < h.scopes.size
  · rw [binding?_bind h s t x y b hs, if_neg]
    rintro ⟨rfl, rfl⟩
    exact hnot (hx hy)
  · have hne : s ≠ t := fun heq => hs (heq ▸ ht)
    change binding? { h with scopes := h.scopes.modify s _ } t y = _
    unfold binding?
    simp only [Array.getElem?_modify, if_neg hne]

theorem keepsTemps_newScope (parent : Option ScopeId) : KeepsTemps free (newScope parent) := by
  intro h
  refine ⟨quiet_newScope parent h, fun t ht y _ _ => ?_⟩
  change (h.scopes.push _)[t]?.bind _ = h.scopes[t]?.bind _
  rw [Array.getElem?_push, if_neg (Nat.ne_of_lt ht)]

theorem keepsTemps_markEscaped (s : ScopeId) : KeepsTemps free (markEscaped s) := by
  have hmark : ∀ s, KeepsTemps free (modifyScope s fun sc => { sc with escaped := true }) := by
    intro s h
    refine ⟨quiet_modifyScope (f := fun sc => { sc with escaped := true }) (fun _ => rfl) s h,
      fun t _ y _ _ => ?_⟩
    change (h.scopes.modify s _)[t]?.bind _ = h.scopes[t]?.bind _
    rw [Array.getElem?_modify]
    split
    · cases h.scopes[t]? <;> rfl
    · rfl
  have hupTo : ∀ n s, KeepsTemps free (markEscapedUpTo n s) := by
    intro n
    induction n with
    | zero => exact fun _ => .pure _
    | succ n ih =>
        intro s
        unfold markEscapedUpTo
        refine .bind .get fun h => ?_
        split
        · exact .pure _
        · refine .bind (hmark s) fun _ => .bind .get fun h => ?_
          split
          · exact ih _
          · exact .pure _
  exact hupTo _ s

theorem keepsTemps_declare (hx : isTemp x = true → free s x) (v : Value) :
    KeepsTemps free (declare s x v) := by
  unfold declare
  refine .bind .get fun h => ?_
  split
  · exact .of_apart (apart_storeCell _ v)
  · exact keepsTemps_bind hx _

-- A variable that has a cell is not touched itself.
theorem keepsTemps_setLocal (hx : isTemp x = true → free s x) (v : Value) :
    KeepsTemps free (setLocal s x v) := by
  have hstore : ∀ n v, KeepsTemps free (storeUpTo n (.variable s x) v) := by
    intro n v
    cases n with
    | zero => exact keepsTemps_bind hx _
    | succ n =>
        unfold storeUpTo
        refine .bind .get fun h => ?_
        split
        · exact .of_apart (.forM fun _ => apart_storeUpTo _ (by simp) _)
        · exact keepsTemps_bind hx _
  unfold setLocal
  refine .bind .get fun h => ?_
  unfold location?
  cases h.binding? s x with
  | none => exact .pure _
  | some b =>
      refine .bind ?_ fun _ => .pure _
      cases b with
      | plain _ => exact .bind .get fun h => hstore h.depth v
      | shared a => exact .of_apart (apart_storeCell a v)

theorem keepsTemps_assign (hx : isTemp x = false) (s : ScopeId) (v : Value) :
    KeepsTemps free (assign s x v) := by
  unfold assign
  refine .bind .get fun h => ?_
  split
  · exact keepsTemps_setLocal (fun ht => by cases hx.symm.trans ht) v
  · exact .pure _

theorem keepsTemps_variableAddress (hx : isTemp x = false) (s : ScopeId) :
    KeepsTemps free (variableAddress s x) := by
  unfold variableAddress
  refine .bind .get fun h => ?_
  split
  · exact .pure _
  · refine .bind (.of_apart (apart_box _)) fun a => .bind (keepsTemps_bind ?_ _) fun _ => .pure _
    exact fun ht => by cases hx.symm.trans ht
  · exact .pure _

end Heap

-- From this scope, a machine stayed in it and bound no other temporaries there than these.
structure BindsOnlyTemps (t : ScopeId) (names : List String) (m m' : Machine) : Prop where
  scope : m'.frame.scope = t
  depth : m'.frame.depth = m.frame.depth
  kept : TempsKept (fun s y => s = t ∧ y ∈ names) m.heap m'.heap

-- An operation of a machine that does so wherever it begins in this scope.
def Exec.OnlyTemps (t : ScopeId) (names : List String) : Exec.HeapTrait :=
  Moves.trait (fun m m' => m.frame.scope = t → BindsOnlyTemps t names m m')
    (fun _ _ hs hm => ⟨hm, rfl, .of_scopes hs⟩)
    fun _ _ _ h₁ h₂ hm =>
      let h₁ := h₁ hm
      let h₂ := h₂ h₁.scope
      ⟨h₂.scope, h₂.depth.trans h₁.depth, h₁.kept.trans h₂.kept⟩

namespace Exec.OnlyTemps

variable {t : ScopeId} {names : List String}

theorem holds_iff {x : Exec α} : (OnlyTemps t names).Holds x ↔ ∀ m, m.frame.scope = t →
    match x m with
    | .ok _ m' | .error _ m' => BindsOnlyTemps t names m m' := moves_imp_iff

-- Only the operands and the results of the call are other ones.
theorem operands : (OnlyTemps t names).Operands where
  frame _ hm := ⟨hm, rfl, .refl _⟩
  setOperands _ _ hm := ⟨hm, rfl, .refl _⟩
  setResults _ _ hm := ⟨hm, rfl, .refl _⟩
  underflow _ hm := ⟨hm, rfl, .refl _⟩

theorem setDeferred (d : Deferred) : (OnlyTemps t names).Holds
    (modifyFrame fun fr => { fr with deferred := d :: fr.deferred }) :=
  fun _ hm => ⟨hm, rfl, .refl _⟩

-- The present scope is this one.
theorem atScope {f : ScopeId → Exec α} (hf : (OnlyTemps t names).Holds (f t)) :
    (OnlyTemps t names).Holds (currentScope >>= f) := by
  refine holds_iff.mpr fun m hm => ?_
  rw [bind_of_ok (currentScope_apply m), hm]
  exact holds_iff.mp hf m hm

theorem lift {x : HeapM α} (hx : HeapM.KeepsTemps (fun s y => s = t ∧ y ∈ names) x) :
    (OnlyTemps t names).Holds (liftM x : Exec α) := fun m hm => ⟨hm, rfl, hx m.heap⟩

end Exec.OnlyTemps

namespace Exec.OnlyTemps

variable {t : ScopeId} {names : List String} {x : String}

theorem touches (hx : isTemp x = false) : (OnlyTemps t names).Touches x where
  declare _ v := lift (Heap.keepsTemps_declare (fun ht => by cases hx.symm.trans ht) v)
  assign s v := lift (Heap.keepsTemps_assign hx s v)
  setLocal _ v := lift (Heap.keepsTemps_setLocal (fun ht => by cases hx.symm.trans ht) v)
  address s := lift (Heap.keepsTemps_variableAddress hx s)

theorem binds (hx : isTemp x = true → x ∈ names) : (OnlyTemps t names).Binds x := fun v =>
  atScope (lift (Heap.keepsTemps_declare (fun ht => ⟨rfl, hx ht⟩) v))

end Exec.OnlyTemps

namespace StepOp

variable {op : StepOp} {x : String}

theorem isTemp_of_touched (h : op.isDiscreet = true) (hx : x ∈ op.touched) : isTemp x = false := by
  cases op with
  | declareZero | carryOut =>
      simp only [isDiscreet, List.all_eq_true, Bool.not_eq_true'] at h
      exact h x hx
  | assign targets _ =>
      simp only [isDiscreet, List.all_eq_true] at h
      obtain ⟨target, htarget, hx⟩ := List.mem_flatMap.mp hx
      have hvisible := h target htarget
      cases target with
      | var | field =>
          obtain rfl := List.mem_singleton.mp hx
          simpa [Target.isVisible] using hvisible
      | _ => cases hx
  | addressOf kind =>
      cases kind with
      | var y =>
          obtain rfl := List.mem_singleton.mp hx
          simpa [isDiscreet] using h
      | _ => cases hx
  | _ => cases hx

theorem mem_bindings_of_bound (hx : x ∈ op.bound) : x ∈ op.bindings := by
  cases op <;> first | exact hx | cases hx

theorem not_moving_of_isCalm (h : op.isCalm = true) : ¬ Program.Moving op := by
  cases op <;> simp_all [isCalm, isOperation, Program.Moving]

end StepOp

namespace Program

open Exec

variable {p : Program} {t : ScopeId} {names : List String} {op : StepOp}

-- A step that stays in its scope binds the temporaries there that it names, and no others.
theorem onlyTemps_step (hop : ¬ Moving op) (hdiscreet : op.isDiscreet = true)
    (hnames : ∀ x ∈ op.bindings, isTemp x = true → x ∈ names) :
    (OnlyTemps t names).Holds (p.step op) :=
  holds_step_of OnlyTemps.operands p
    (fun _ hx => OnlyTemps.touches (StepOp.isTemp_of_touched hdiscreet hx))
    (fun x hx => OnlyTemps.binds (hnames x (StepOp.mem_bindings_of_bound hx)))
    (fun s => OnlyTemps.lift (Heap.keepsTemps_markEscaped s)) hop

theorem onlyTemps_keepDeferred (args : Arity) (spread : Bool)
    (builtin : Option (Builtin × Option Ty)) (span : Span) :
    (OnlyTemps t names).Holds (keepDeferred args spread builtin span) := by
  have hvalues : ∀ target, (OnlyTemps t names).Holds (do
      let values ← (← take args).mapM fun v => (Heap.copy v : HeapM Value)
      modifyFrame fun f => { f with deferred := ⟨target, values, spread, span⟩ :: f.deferred }) :=
    fun target => Trait.bind _ (OnlyTemps.operands.take args) fun vs =>
      Trait.bind _ (Trait.mapM _ fun v => Trait.gentle _ (Heap.gentle_copy v)) fun _ =>
        OnlyTemps.setDeferred _
  unfold keepDeferred
  cases builtin with
  | none =>
      exact Trait.bind _ OnlyTemps.operands.pop fun _ =>
        Trait.bind _ (Trait.pure _ _) fun _ => hvalues _
  | some b => exact Trait.bind _ (Trait.pure _ _) fun _ => hvalues _

end Program

-- An operation of a machine that binds free temporaries only.
def Exec.FreeTemps (free : ScopeId → String → Prop) : Exec.HeapTrait :=
  Moves.trait (fun m m' => TempsKept free m.heap m'.heap) (fun _ _ => .of_scopes)
    fun _ _ _ => .trans

-- An operation that binds no temporary in any scope that was there before.
abbrev Exec.NoTemps : Exec.HeapTrait := FreeTemps fun _ _ => False

namespace Exec.FreeTemps

variable {free : ScopeId → String → Prop}

theorem lift {x : HeapM α} (hx : HeapM.KeepsTemps free x) :
    (FreeTemps free).Holds (liftM x : Exec α) :=
  fun m => hx m.heap

theorem of_apart {x : Exec α} (hx : Apart.trait.Holds x) : (FreeTemps free).Holds x :=
  hx.moves.mono fun _ _ => .of_scopes

theorem after {x : Exec α} {h : Heap} {m : Machine} (hx : NoTemps.Holds x)
    (hm : TempsKept free h m.heap) :
    match x m with
    | .ok _ m' | .error _ m' => TempsKept free h m'.heap := by
  have hrest := hx m
  cases hr : x m with
  | ok _ m₁ | error u m₁ =>
      rw [hr] at hrest
      exact hm.trans (hrest.mono fun _ _ _ => False.elim)

def regime (free : ScopeId → String → Prop) : Exec.Regime where
  Holds x _ := (FreeTemps free).Holds x
  apart := of_apart
  bind hx hf := Trait.bind _ hx hf

end Exec.FreeTemps

namespace Program

open Exec

variable {p : Program} {sv : Services} {free : ScopeId → String → Prop} {n : Nat}

-- A call that has begun has a new scope, and bound names there only.
theorem tempsKept_enter (p : Program) (f : Function) (env : ScopeId) (receiver : Option Value)
    (args : List Value) (spread : Bool) (span : Span) (m : Machine) :
    match p.enter f env receiver args spread span m with
    | .ok (scope, _) m₁ => scope = m.heap.scopes.size ∧ scope < m₁.heap.scopes.size ∧
        TempsKept (fun _ _ => False) m.heap m₁.heap
    | .error _ m₁ => TempsKept (fun _ _ => False) m.heap m₁.heap := by
  have hnew : TempsKept (fun _ _ => False) m.heap (Heap.newScope (some env) m.heap).2 :=
    Heap.keepsTemps_newScope _ _
  have hsize : (Heap.newScope (some env) m.heap).2.scopes.size = m.heap.scopes.size + 1 :=
    Array.size_push _
  have hscope : ∀ x v, (FreeTemps fun s _ => s = m.heap.scopes.size).Holds
      (liftM (Heap.declare m.heap.scopes.size x v) : Exec Unit) :=
    fun x v => FreeTemps.lift (Heap.keepsTemps_declare (fun _ => rfl) v)
  -- All that follows binds names in the new scope only.
  have hrest : (FreeTemps fun s _ => s = m.heap.scopes.size).Holds (do
      bindReceiver m.heap.scopes.size f.recv receiver
      p.bindParams m.heap.scopes.size f args spread
      p.declareResults m.heap.scopes.size f.sig : Exec Unit) :=
    Trait.bind _ (holds_bindReceiver hscope _ _) fun _ =>
      Trait.bind _ (holds_bindParams p hscope _ _ _) fun _ => holds_declareResults p hscope _
  have henter : p.enter f env receiver args spread span m = ((do
      bindReceiver m.heap.scopes.size f.recv receiver
      p.bindParams m.heap.scopes.size f args spread
      p.declareResults m.heap.scopes.size f.sig : Exec Unit) >>= fun _ => do
        return (m.heap.scopes.size, ← pushCall f.name span m.deferring))
          { m with heap := (Heap.newScope (some env) m.heap).2, deferring := none } := by
    unfold enter takeDeferring
    simp only [bind_assoc]
    rfl
  have hm := hrest { m with heap := (Heap.newScope (some env) m.heap).2, deferring := none }
  have hback : ∀ {h : Heap}, TempsKept (fun s _ => s = m.heap.scopes.size)
      (Heap.newScope (some env) m.heap).2 h → TempsKept (fun _ _ => False) m.heap h :=
    fun hg => hnew.back hg fun s _ hs => Nat.le_of_eq hs.symm
  rw [henter, bind_apply]
  revert hm
  generalize (do
      bindReceiver m.heap.scopes.size f.recv receiver
      p.bindParams m.heap.scopes.size f args spread
      p.declareResults m.heap.scopes.size f.sig : Exec Unit)
        { m with heap := (Heap.newScope (some env) m.heap).2, deferring := none } = r
  intro hm
  cases r with
  | ok a m₁ =>
      have hle := hm.nests.size
      exact ⟨rfl, Nat.lt_of_lt_of_le (by rw [hsize]; exact Nat.lt_succ_self _) hle, hback hm⟩
  | error u m₁ => exact hback hm

theorem noTemps_callBuiltin (hsv : ∀ callee args, NoTemps.Holds (sv.call callee args)) (b : Builtin)
    (ty : Option Ty) (args : List Value) (spread : Bool) :
    NoTemps.Holds (p.callBuiltin sv b ty args spread) := by
  have hakin : sv.Akin (FreeTemps.regime fun _ _ => False) sv := ⟨rfl, hsv⟩
  cases b with
  | recover =>
      have hrecover : NoTemps.Holds recover := by
        intro m
        unfold recover
        rw [bind_apply, Exec.get_apply]
        simp only
        cases hh : m.calls.back?.bind (·.deferredBy) with
        | none => exact .refl _
        | some handler =>
            simp only
            rw [bind_apply, Exec.get_apply]
            simp only
            cases hp : m.calls[handler]?.bind (·.panic) <;> exact .refl _
      unfold callBuiltin
      exact Trait.bind _ hrecover fun _ => Trait.pure _ _
  | print =>
      exact Trait.bind _ (hakin.showAll args) fun s =>
        Trait.bind _ (FreeTemps.of_apart (Apart.print s)) fun _ => Trait.pure _ _
  | println =>
      exact Trait.bind _ (hakin.showSpaced args) fun s =>
        Trait.bind _ (FreeTemps.of_apart (Apart.printLine s)) fun _ => Trait.pure _ _
  | _ => exact holds_callBuiltin _ p (by nofun) (by nofun) (by nofun) ty args spread

theorem noTemps_callHost (hhosts : p.hosts.Aloof)
    (hsv : ∀ callee args, NoTemps.Holds (sv.call callee args)) (ref : HostRef) (args : List Value)
    (spread : Bool) : NoTemps.Holds (p.callHost sv ref args spread) := by
  have hakin : sv.Akin (FreeTemps.regime fun _ _ => False) sv := ⟨rfl, hsv⟩
  have hcalled : ∀ f, p.hosts.function? ref = some f → ∀ args, NoTemps.Holds (f sv args) :=
    fun f hf args => hhosts ref f hf (FreeTemps.regime fun _ _ => False) sv sv hakin args
  unfold callHost
  by_cases h : spread = true
  on_goal 1 => simp only [if_pos h]; refine Trait.bind _ (holds_expandSpread _ args) fun args => ?_
  on_goal 2 => simp only [if_neg h]; refine Trait.bind _ (Trait.pure _ _) fun args => ?_
  all_goals
    split
    · next f hf => exact hcalled f hf args
    · exact Trait.fatal _ nofun

end Program

-- The scopes in which a machine is, from that of its function on, which has the number 0.
structure Machine.Stacked (σ : Nat → ScopeId) (m : Machine) : Prop where
  scope : m.frame.scope = σ m.frame.depth
  lt : ∀ d ≤ m.frame.depth, σ d < m.heap.scopes.size
  parent : ∀ d < m.frame.depth, m.heap.parent? (σ (d + 1)) = some (σ d)
  younger : ∀ d < m.frame.depth, σ d < σ (d + 1)

namespace Machine.Stacked

variable {σ : Nat → ScopeId} {m m' : Machine} {d k : Nat}

theorem start {m : Machine} (hd : m.frame.depth = 0) (hlt : m.frame.scope < m.heap.scopes.size) :
    m.Stacked fun _ => m.frame.scope :=
  ⟨rfl, fun _ _ => hlt, fun d hlt => by omega, fun d hlt => by omega⟩

theorem base_add_le (h : m.Stacked σ) (hd : d ≤ m.frame.depth) : σ 0 + d ≤ σ d := by
  induction d with
  | zero => exact Nat.le_refl _
  | succ d ih => exact Nat.lt_of_le_of_lt (ih (Nat.le_of_succ_le hd)) (h.younger d hd)

-- The machine stayed in its scope.
theorem stays (h : m.Stacked σ) (hscope : m'.frame.scope = m.frame.scope)
    (hdepth : m'.frame.depth = m.frame.depth) (hn : ScopesNest m.heap m'.heap) : m'.Stacked σ where
  scope := by rw [hscope, hdepth, h.scope]
  lt d hd := Nat.lt_of_lt_of_le (h.lt d (hdepth ▸ hd)) hn.size
  parent d hd := (hn.parent _ (h.lt (d + 1) (hdepth ▸ hd))).trans (h.parent d (hdepth ▸ hd))
  younger d hd := h.younger d (hdepth ▸ hd)

theorem leaveScopes (h : m.Stacked σ) (hk : k ≤ d) (hd : d ≤ m.frame.depth) :
    Exec.leaveScopes k (σ d) m.heap = σ (d - k) := by
  induction k generalizing d with
  | zero => rfl
  | succ k ih =>
      obtain ⟨d, rfl⟩ := Nat.exists_eq_succ_of_ne_zero (Nat.ne_of_gt (Nat.lt_of_lt_of_le
        (Nat.succ_pos k) hk))
      unfold Exec.leaveScopes
      rw [h.parent d hd, Nat.succ_sub_succ]
      exact ih (Nat.le_of_succ_le_succ hk) (Nat.le_of_succ_le hd)

-- It came out of scopes.
theorem leaves (h : m.Stacked σ) (depth : Nat) : Machine.Stacked σ { m with
    frame := { m.frame with
      scope := Exec.leaveScopes (m.frame.depth - depth) m.frame.scope m.heap
      depth := min m.frame.depth depth } } where
  scope := by
    change Exec.leaveScopes (m.frame.depth - depth) m.frame.scope m.heap =
      σ (min m.frame.depth depth)
    rw [h.scope, h.leaveScopes (Nat.sub_le _ _) (Nat.le_refl _)]
    congr 1
    omega
  lt d hd := h.lt d (Nat.le_trans hd (Nat.min_le_left _ _))
  parent d hd := h.parent d (Nat.lt_of_lt_of_le hd (Nat.min_le_left _ _))
  younger d hd := h.younger d (Nat.lt_of_lt_of_le hd (Nat.min_le_left _ _))

-- A new scope lies inside of the one that the machine was in.
def inner (σ : Nat → ScopeId) (m : Machine) (d : Nat) : ScopeId :=
  if d ≤ m.frame.depth then σ d else m.heap.scopes.size

theorem inner_of_le (hd : d ≤ m.frame.depth) : inner σ m d = σ d := if_pos hd

theorem inner_of_lt (hd : m.frame.depth < d) : inner σ m d = m.heap.scopes.size :=
  if_neg (Nat.not_le.mpr hd)

theorem opens (h : m.Stacked σ) : Machine.Stacked (inner σ m) { m with
    heap := (Heap.newScope (some m.frame.scope) m.heap).2
    frame := { m.frame with scope := m.heap.scopes.size, depth := m.frame.depth + 1 } } := by
  have hsize : (Heap.newScope (some m.frame.scope) m.heap).2.scopes.size = m.heap.scopes.size + 1 :=
    Array.size_push _
  have hnests := Heap.quiet_newScope (some m.frame.scope) m.heap
  refine ⟨(inner_of_lt (Nat.lt_succ_self _)).symm, fun d hd => ?_, fun d hd => ?_, fun d hd => ?_⟩
  · rcases Nat.lt_or_ge m.frame.depth d with hlt | hle
    · rw [inner_of_lt hlt, hsize]
      exact Nat.lt_succ_self _
    · rw [inner_of_le hle, hsize]
      exact Nat.lt_succ_of_lt (h.lt d hle)
  · have hle : d ≤ m.frame.depth := Nat.le_of_lt_succ hd
    rw [inner_of_le hle]
    rcases Nat.lt_or_ge d m.frame.depth with hlt | hge
    · rw [inner_of_le hlt]
      exact (hnests.parent _ (h.lt (d + 1) hlt)).trans (h.parent d hlt)
    · obtain rfl := Nat.le_antisymm hle hge
      rw [inner_of_lt (Nat.lt_succ_self _), ← h.scope]
      change (m.heap.scopes.push _)[m.heap.scopes.size]?.bind _ = _
      rw [Array.getElem?_push_size]
      rfl
  · have hle : d ≤ m.frame.depth := Nat.le_of_lt_succ hd
    rw [inner_of_le hle]
    rcases Nat.lt_or_ge d m.frame.depth with hlt | hge
    · rw [inner_of_le hlt]
      exact h.younger d hlt
    · obtain rfl := Nat.le_antisymm hle hge
      rw [inner_of_lt (Nat.lt_succ_self _)]
      exact h.lt _ (Nat.le_refl _)

end Machine.Stacked

-- A machine has come from one place to another: the scopes around both are the same, no other
-- temporaries were bound than these in the scope that it was in, and a scope that is new binds none.
structure Machine.MovesScopes (names : List String) (σ σ' : Nat → ScopeId) (m m' : Machine) :
    Prop where
  stacked : m'.Stacked σ'
  same : ∀ d ≤ m.frame.depth, d ≤ m'.frame.depth → σ' d = σ d
  kept : TempsKept (fun s y => s = m.frame.scope ∧ y ∈ names) m.heap m'.heap
  empty : ∀ d ≤ m'.frame.depth, m.frame.depth < d → ∀ x, isTemp x = true →
    m'.heap.binding? (σ' d) x = none

namespace Machine.MovesScopes

variable {names : List String} {σ σ' : Nat → ScopeId} {m m₁ m' : Machine}

theorem of_bindsOnlyTemps (hm : m.Stacked σ) (h : BindsOnlyTemps m.frame.scope names m m') :
    m.MovesScopes names σ σ m' where
  stacked := hm.stays h.scope h.depth h.kept.nests
  same _ _ _ := rfl
  kept := h.kept
  empty _ hd hlt := absurd (Nat.lt_of_lt_of_le hlt (h.depth ▸ hd)) (Nat.lt_irrefl _)

theorem trans_bindsOnlyTemps (h : m.MovesScopes names σ σ' m₁)
    (h' : BindsOnlyTemps m₁.frame.scope [] m₁ m') :
    m.MovesScopes names σ σ' m' := by
  have hkept : TempsKept (fun _ _ => False) m₁.heap m'.heap :=
    h'.kept.mono fun s _ x hx => nomatch hx.2
  refine ⟨h.stacked.stays h'.scope h'.depth hkept.nests, fun d hd hd' => ?_, ?_,
    fun d hd hlt x hx => ?_⟩
  · exact h.same d hd (h'.depth ▸ hd')
  · exact h.kept.trans (hkept.mono fun _ _ _ => False.elim)
  · have hd₁ : d ≤ m₁.frame.depth := h'.depth ▸ hd
    rw [hkept.binding _ (h.stacked.lt d hd₁) x hx id]
    exact h.empty d hd₁ hlt x hx

end Machine.MovesScopes

-- Scopes that have come after the first `n`.
def Machine.InNewScopes (n : Nat) (m : Machine) : Prop := ∃ σ, m.Stacked σ ∧ n ≤ σ 0

-- Something that a call does that has begun when there were `n` scopes. It leaves temporaries in
-- those alone, and stays inside scopes that are newer.
def Exec.NewScopes (n : Nat) : Exec.HeapTrait :=
  Moves.trait (fun m m' => m.InNewScopes n → m'.InNewScopes n ∧
    TempsKept (fun s _ => n ≤ s) m.heap m'.heap)
    (fun _ _ hs ⟨σ, hm, hn⟩ => ⟨⟨σ, hm.stays rfl rfl (.of_scopes hs), hn⟩, .of_scopes hs⟩)
    fun _ _ _ h₁ h₂ hm => ⟨(h₂ (h₁ hm).1).1, (h₁ hm).2.trans (h₂ (h₁ hm).1).2⟩

namespace Exec.NewScopes

variable {n : Nat}

theorem holds_iff {x : Exec α} : (NewScopes n).Holds x ↔ ∀ m, m.InNewScopes n → match x m with
    | .ok _ m' | .error _ m' => m'.InNewScopes n ∧ TempsKept (fun s _ => n ≤ s) m.heap m'.heap :=
  moves_imp_iff

theorem of_movesScopes {names : List String} {σ σ' : Nat → ScopeId} {m m' : Machine}
    (hm : m.Stacked σ) (hn : n ≤ σ 0) (h : m.MovesScopes names σ σ' m') :
    m'.InNewScopes n ∧ TempsKept (fun s _ => n ≤ s) m.heap m'.heap := by
  refine ⟨⟨σ', h.stacked, ?_⟩, h.kept.mono fun s _ _ hs => ?_⟩
  · rwa [h.same 0 (Nat.zero_le _) (Nat.zero_le _)]
  · rw [hs.1, hm.scope]
    exact Nat.le_trans hn (Nat.le_of_add_right_le (hm.base_add_le (Nat.le_refl _)))

end Exec.NewScopes

namespace Program

open Exec

variable {p : Program} {n k : Nat} {op : StepOp} {steps : Array Step} {σ : Nat → ScopeId}
  {perform : Deferred → Exec (List Value)} {run : Array Step → Option StepId → Exec Unit}
  {f : Function} {m m' : Machine} {t : ScopeId}

theorem movesScopes_step (hdiscreet : op.isDiscreet = true) (hm : m.Stacked σ) :
    match p.step op m with
    | .ok _ m' | .error _ m' => ∃ σ', m.MovesScopes op.bindings σ σ' m' := by
  by_cases hop : Moving op
  · have hleaves : ∀ depth, ∃ σ', m.MovesScopes op.bindings σ σ' { m with
        frame := { m.frame with
          scope := leaveScopes (m.frame.depth - depth) m.frame.scope m.heap
          depth := min m.frame.depth depth } } := by
      refine fun depth => ⟨σ, hm.leaves depth, fun _ _ _ => rfl, .refl _, fun d hd hlt => ?_⟩
      exact absurd (Nat.lt_of_lt_of_le hlt (Nat.le_trans hd (Nat.min_le_left _ _)))
        (Nat.lt_irrefl _)
    cases op with
    | jump depth =>
        rw [step_jump]
        exact hleaves depth
    | popScope =>
        rw [step_popScope]
        exact hleaves _
    | pushScope =>
        rw [step_pushScope]
        refine ⟨_, hm.opens, fun d hd _ => Machine.Stacked.inner_of_le hd,
          Heap.keepsTemps_newScope _ _,
          fun d hd hlt x _ => ?_⟩
        rw [Machine.Stacked.inner_of_lt hlt]
        change (m.heap.scopes.push _)[m.heap.scopes.size]?.bind _ = none
        rw [Array.getElem?_push_size]
        rfl
    | _ => exact hop.elim
  · have h := OnlyTemps.holds_iff.mp (onlyTemps_step (p := p) (t := m.frame.scope) hop hdiscreet
      fun _ hx _ => hx) m rfl
    cases hr : p.step op m with
    | ok a m₁ | error u m₁ =>
        rw [hr] at h
        exact ⟨σ, .of_bindsOnlyTemps hm h⟩

-- A call has its own operands and scopes.
theorem onlyTemps_of_noTemps {x : Exec α} {names : List String} (hx : Exec.BuiltinReturns False x)
    (hv : NoTemps.Holds x) : (OnlyTemps t names).Holds x := by
  refine OnlyTemps.holds_iff.mpr fun m hm => ?_
  have hreturns := hx m
  have h := hv m
  cases hr : x m with
  | ok a m₁ =>
      rw [hr] at hreturns h
      exact ⟨by rw [hreturns.frame, hm], by rw [hreturns.frame], h.mono fun _ _ _ => False.elim⟩
  | error u m₁ =>
      rw [hr] at hreturns h
      exact ⟨by rw [hreturns.1.frame, hm], by rw [hreturns.1.frame],
        h.mono fun _ _ _ => False.elim⟩

theorem onlyTemps_annotated {x : Exec α} {names : List String} (span : Span)
    (hx : (OnlyTemps t names).Holds x) : (OnlyTemps t names).Holds (annotated span x) := by
  refine OnlyTemps.holds_iff.mpr fun m hm => ?_
  have h := OnlyTemps.holds_iff.mp hx m hm
  unfold annotated
  cases hr : x m with
  | ok a m₁ =>
      rw [hr] at h
      exact h
  | error u m₁ =>
      rw [hr] at h
      cases u <;> exact ⟨h.scope, h.depth, h.kept⟩

-- What a step still does after its own work: a call, or the operands of a deferred one.
def afterStep (p : Program) (n : Nat) (steps : Array Step) (s : Step) :
    Next → Exec (Option (Option StepId))
  | .next => return some s.next
  | .goto target => return some target
  | .ret => return none
  | .call callee args spread results => do
      annotated s.span do pushResults (← p.call n callee args spread s.span) results
      return some s.next
  | .builtin b ty args spread results => do
      annotated s.span do
        let sv := ⟨p.types, fun f xs => p.call n f xs false Span.none⟩
        pushResults (← p.callBuiltin sv b ty args spread) results
      return some s.next
  | .defer entry args spread builtin => do
      annotated s.span do
        p.run n steps (some entry)
        keepDeferred args spread builtin s.span
      return some s.next

theorem advance_of_some {id : StepId} {s : Step} (hs : steps[id]? = some s) :
    p.advance n steps id = annotated s.span (p.step s.op) >>= p.afterStep n steps s := by
  unfold advance
  rw [hs]
  refine congrArg (annotated s.span (p.step s.op) >>= ·) (funext fun after => ?_)
  cases after <;> rfl

section calls

variable (hworks : ∀ callee args spread span, Exec.Calls False (p.call n callee args spread span))
  (hcalls : ∀ callee args spread span, NoTemps.Holds (p.call n callee args spread span))

include hworks hcalls

theorem onlyTemps_afterStep {names : List String} {s : Step} {after : Next}
    (hdefer : ∀ entry args spread builtin, after = .defer entry args spread builtin →
      (OnlyTemps t names).Holds (p.run n steps (some entry))) :
    (OnlyTemps t names).Holds (p.afterStep n steps s after) := by
  cases after with
  | next | goto | ret => exact Trait.pure _ _
  | call callee args spread results =>
      refine Trait.bind _ (onlyTemps_annotated _ ?_) fun _ => Trait.pure _ _
      exact Trait.bind _
        (onlyTemps_of_noTemps (hworks _ _ _ _).builtinReturns (hcalls _ _ _ _)) fun vs =>
        OnlyTemps.operands.pushResults vs _
  | builtin b ty args spread results =>
      refine Trait.bind _ (onlyTemps_annotated _ ?_) fun _ => Trait.pure _ _
      exact Trait.bind _ (onlyTemps_of_noTemps
        (builtinReturns_callBuiltin (work_services fun _ _ => hworks _ _ _ _) _ _ _ _)
        (noTemps_callBuiltin (fun _ _ => hcalls _ _ _ _) _ _ _ _)) fun vs =>
          OnlyTemps.operands.pushResults vs _
  | defer entry args spread builtin =>
      refine Trait.bind _ (onlyTemps_annotated _ ?_) fun _ => Trait.pure _ _
      exact Trait.bind _ (hdefer entry args spread builtin rfl) fun _ =>
        onlyTemps_keepDeferred _ _ _ _

-- A step among the operands of a deferred call binds no temporary and defers nothing itself.
theorem onlyTemps_advance_of_isCalm {id : StepId} {s : Step} (hs : steps[id]? = some s)
    (hcalm : s.op.isCalm = true) : (OnlyTemps t []).Holds (p.advance n steps id) := by
  have hstep : (OnlyTemps t []).Holds (p.step s.op) :=
    onlyTemps_step (StepOp.not_moving_of_isCalm hcalm)
      (StepOp.isDiscreet_of_isVisible (StepOp.isVisible_of_isCalm hcalm)) fun x hx ht => by
        cases (StepOp.bindings_of_isVisible (StepOp.isVisible_of_isCalm hcalm) hx).symm.trans ht
  rw [advance_of_some hs]
  refine Trait.bind_yields _ (onlyTemps_annotated _ hstep) (P := fun after => after.Of s.op)
    (fun m after m' h => next_of_step (annotated_eq_ok.mp h)) fun after hof =>
      onlyTemps_afterStep hworks hcalls fun entry args spread builtin hafter => ?_
  subst hafter
  rw [show s.op = .defer entry args spread builtin from hof] at hcalm
  cases hcalm

-- One step on the way of a function.
theorem movesScopes_advance {id : StepId} {s : Step} (hs : steps[id]? = some s)
    (hdiscreet : s.op.isDiscreet = true)
    (hchains : ∀ e, DefersFrom steps e id → ∀ t, (OnlyTemps t []).Holds (p.run n steps (some e)))
    (hm : m.Stacked σ) : match p.advance n steps id m with
      | .ok _ m' | .error _ m' => ∃ σ', m.MovesScopes s.op.bindings σ σ' m' := by
  have hstep := movesScopes_step (p := p) hdiscreet hm
  rw [advance_of_some hs, bind_apply]
  unfold annotated
  cases hr : p.step s.op m with
  | error u m₁ =>
      rw [hr] at hstep
      obtain ⟨σ', h⟩ := hstep
      cases u <;> exact ⟨σ', ⟨h.stacked.scope, h.stacked.lt, h.stacked.parent, h.stacked.younger⟩,
        h.same, h.kept, h.empty⟩
  | ok after m₁ =>
      rw [hr] at hstep
      obtain ⟨σ', h⟩ := hstep
      have hof := next_of_step hr
      have hrest : (OnlyTemps m₁.frame.scope []).Holds (p.afterStep n steps s after) := by
        refine onlyTemps_afterStep hworks hcalls fun entry args spread builtin hafter => ?_
        subst hafter
        rw [Next.Of] at hof
        exact hchains entry ⟨s, hs, by rw [hof]; rfl⟩ _
      have hafter := OnlyTemps.holds_iff.mp hrest m₁ rfl
      dsimp only
      cases hr' : p.afterStep n steps s after m₁ with
      | ok k m₂ | error u m₂ =>
          rw [hr'] at hafter
          exact ⟨σ', h.trans_bindsOnlyTemps hafter⟩

end calls

theorem inNewScopes_unwindTo (depth : Nat) (hm : m.InNewScopes n) :
    ∃ m', unwindTo depth m = .ok () m' ∧ m'.InNewScopes n ∧ m'.heap = m.heap := by
  obtain ⟨σ, hm, hn⟩ := hm
  exact ⟨_, unwindTo_apply depth m, ⟨σ, hm.leaves depth, hn⟩, rfl⟩

theorem newScopes_body (hrun : (NewScopes n).Holds (run f.steps (entry f.steps))) :
    (NewScopes n).Holds (body run f.steps) := by
  refine NewScopes.holds_iff.mpr fun m hm => ?_
  have h := NewScopes.holds_iff.mp hrun m hm
  unfold entry at h
  unfold body
  cases hr : run f.steps (if f.steps.isEmpty then none else some 0) m with
  | ok a m₁ | error u m₁ =>
      rw [hr] at h
      obtain ⟨m₂, hunwound, hinside, hheap⟩ := inNewScopes_unwindTo 0 h.1
      simp only [hunwound]
      exact ⟨hinside, hheap ▸ h.2⟩

theorem noTemps_performAll (hperform : ∀ d, NoTemps.Holds (perform d)) (record : Nat)
    (ds : List Deferred) : NoTemps.Holds (performAll perform record ds) := by
  induction ds with
  | nil =>
      intro m
      rw [performAll_nil]
      cases m.parked record <;> exact .refl _
  | cons d ds ih =>
      intro m
      have hd := hperform d { m with deferring := some record }
      unfold performAll
      cases hcall : perform d { m with deferring := some record } with
      | ok vs m₁ =>
          rw [hcall] at hd
          dsimp only
          exact Exec.FreeTemps.after (m := { m₁ with deferring := none }) ih hd
      | error u m₁ =>
          rw [hcall] at hd
          cases u with
          | panic v =>
              dsimp only
              exact Exec.FreeTemps.after (m := park record v { m₁ with deferring := none }) ih hd
          | fatal | undeclared | exhausted => exact hd

theorem tempsKept_activity (hperform : ∀ d, NoTemps.Holds (perform d)) (record : Nat)
    (hbody : (NewScopes n).Holds (body run f.steps)) (hm : m.InNewScopes n) :
    match activity run perform f record m with
    | .ok _ m' | .error _ m' => TempsKept (fun s _ => n ≤ s) m.heap m'.heap := by
  have h := NewScopes.holds_iff.mp hbody m hm
  have hall : ∀ {m₁ : Machine}, TempsKept (fun s _ => n ≤ s) m.heap m₁.heap → ∀ ds,
      match performAll perform record ds m₁ with
      | .ok _ m' | .error _ m' => TempsKept (fun s _ => n ≤ s) m.heap m'.heap := by
    intro m₁ h₁ ds
    have hrest := noTemps_performAll hperform record ds m₁
    cases hr : performAll perform record ds m₁ with
    | ok _ m₂ | error u m₂ =>
        rw [hr] at hrest
        exact h₁.trans (hrest.mono fun _ _ _ => False.elim)
  unfold activity
  by_cases hd : f.hasDefer
  · rw [if_pos hd]
    unfold withDeferred
    cases hr : body run f.steps m with
    | ok _ m₁ =>
        rw [hr] at h
        exact hall h.2 _
    | error u m₁ =>
        rw [hr] at h
        cases u with
        | panic v => exact @hall (park record v m₁) h.2 _
        | fatal | undeclared | exhausted => exact h.2
  · rw [if_neg hd]
    cases hr : body run f.steps m with
    | ok _ m₁ | error u m₁ =>
        rw [hr] at h
        exact h.2

-- A call has scopes of its own.
theorem noTemps_invoke (hperform : ∀ d, NoTemps.Holds (perform d))
    (hrun : ∀ n, (NewScopes n).Holds (run f.steps (entry f.steps))) (env : ScopeId)
    (receiver : Option Value) (args : List Value) (spread : Bool) (span : Span) :
    NoTemps.Holds (p.invoke run perform f env receiver args spread span) := by
  intro m
  have henter := tempsKept_enter p f env receiver args spread span m
  cases he : p.enter f env receiver args spread span m with
  | error u m₁ =>
      rw [he] at henter
      rw [invoke_of_error he]
      exact henter
  | ok r m₁ =>
      obtain ⟨scope, record⟩ := r
      rw [he] at henter
      obtain ⟨rfl, hlt, henter⟩ := henter
      have hback : ∀ {h : Heap}, TempsKept (fun s _ => m.heap.scopes.size ≤ s) m₁.heap h →
          TempsKept (fun _ _ => False) m.heap h := fun hg => henter.back hg fun _ _ => id
      have hinside : Machine.InNewScopes m.heap.scopes.size
          { m₁ with frame := .start m.heap.scopes.size } :=
        ⟨_, .start rfl hlt, Nat.le_refl _⟩
      have hact := tempsKept_activity hperform record
        (newScopes_body (hrun m.heap.scopes.size)) hinside
      rw [invoke_of_activity he]
      cases ha : activity run perform f record { m₁ with frame := .start m.heap.scopes.size } with
      | error u m₂ =>
          rw [ha] at hact
          exact hback hact
      | ok _ m₂ =>
          rw [ha] at hact
          simp only
          have hcollect := Exec.FreeTemps.after (m := { m₂ with calls := m₂.calls.shrink record })
            (holds_collectResults NoTemps.toTrait p (fun m => .refl m.heap) f.sig) (hback hact)
          cases hc : p.collectResults f.sig { m₂ with calls := m₂.calls.shrink record } with
          | ok vs m₃ | error u m₃ =>
              rw [hc] at hcollect
              exact hcollect

theorem noTemps_call_succ (hhosts : p.hosts.Aloof)
    (hcalls : ∀ callee args spread span, NoTemps.Holds (p.call k callee args spread span))
    (hruns : ∀ (i : Nat) f, p.code[i]? = some f →
      ∀ n, (NewScopes n).Holds (p.run k f.steps (entry f.steps)))
    (callee : Value) (args : List Value) (spread : Bool) (span : Span) :
    NoTemps.Holds (p.call (k + 1) callee args spread span) := by
  have hperform : ∀ d, NoTemps.Holds (p.perform k d) := by
    intro d
    unfold perform
    split
    · exact hcalls _ _ _ _
    · exact noTemps_callBuiltin (fun _ _ => hcalls _ _ _ _) _ _ _ _
  have henter : ∀ code env receiver,
      NoTemps.Holds (p.enterCode k code env receiver args spread span) := by
    intro code env receiver
    unfold enterCode
    refine Trait.bind _ (fun m => .refl m.heap) fun m => ?_
    split
    · exact Trait.fatal _ nofun
    · split
      · next f hf => exact noTemps_invoke hperform (hruns _ f hf) _ _ _ _ _
      · exact Trait.fatal _ nofun
  rw [call_succ]
  split
  · exact henter _ _ _
  · exact henter _ _ _
  · exact noTemps_callHost hhosts (fun _ _ => hcalls _ _ _ _) _ _ _
  · dsimp only
    split
    · exact Trait.bind _ (Trait.discard _ (holds_expandSpread _ args)) fun _ => Trait.pure _ _
    · exact Trait.pure _ _
  · exact Trait.fault _ _
  · exact Trait.fault _ _
  · exact Trait.fatal _ nofun

-- What a run is after one more step, it is as well if no way on lies behind the step.
theorem onlyTemps_run_succ {names : List String} {id : StepId}
    (hadvance : (OnlyTemps t names).Holds (p.advance n steps id))
    (hrun : ∀ m j m', p.advance n steps id m = .ok (some (some j)) m' →
      (OnlyTemps t names).Holds (p.run n steps (some j))) :
    (OnlyTemps t names).Holds (p.run (n + 1) steps (some id)) := by
  refine OnlyTemps.holds_iff.mpr fun m hm => ?_
  have h := OnlyTemps.holds_iff.mp hadvance m hm
  rw [run_succ]
  cases hr : p.advance n steps id m with
  | error u m₁ =>
      rw [hr] at h
      exact h
  | ok next m₁ =>
      rw [hr] at h
      rcases next with _ | _ | j
      · exact h
      · dsimp only
        rw [run_none]
        exact h
      · have hrest := OnlyTemps.holds_iff.mp (hrun m j m₁ hr) m₁ h.scope
        dsimp only
        cases hr₁ : p.run n steps (some j) m₁ with
        | ok _ m₂ | error u m₂ =>
            rw [hr₁] at hrest
            exact ⟨hrest.scope, hrest.depth.trans h.depth, h.kept.trans hrest.kept⟩

theorem newScopes_run_succ (horderly : Orderly steps)
    (hworks : ∀ callee args spread span, Exec.Calls False (p.call k callee args spread span))
    (hcalls : ∀ callee args spread span, NoTemps.Holds (p.call k callee args spread span))
    (hchains : ∀ e d, DefersFrom steps e d → ∀ t, (OnlyTemps t []).Holds (p.run k steps (some e)))
    (hrun : ∀ id, (NewScopes n).Holds (p.run k steps id)) (id : StepId) :
    (NewScopes n).Holds (p.run (k + 1) steps (some id)) := by
  refine NewScopes.holds_iff.mpr fun m hm => ?_
  rw [run_succ]
  cases hs : steps[id]? with
  | none =>
      obtain ⟨u, hu, -⟩ := advance_of_none (p := p) (m := m) (n := k) hs
      rw [hu]
      exact ⟨hm, .refl _⟩
  | some s =>
      obtain ⟨σ, hstacked, hn⟩ := hm
      have hadvance := movesScopes_advance hworks hcalls hs (horderly.discreet id s hs)
        (fun e he => hchains e id he) hstacked
      cases hr : p.advance k steps id m with
      | error u m₁ =>
          rw [hr] at hadvance
          obtain ⟨σ', h⟩ := hadvance
          exact NewScopes.of_movesScopes hstacked hn h
      | ok next m₁ =>
          rw [hr] at hadvance
          obtain ⟨σ', h⟩ := hadvance
          have hm₁ := NewScopes.of_movesScopes hstacked hn h
          cases next with
          | none => exact hm₁
          | some j =>
              have hrest := NewScopes.holds_iff.mp (hrun j) m₁ hm₁.1
              dsimp only
              cases hr₁ : p.run k steps j m₁ with
              | ok _ m₂ | error u m₂ =>
                  rw [hr₁] at hrest
                  exact ⟨hrest.1, hm₁.2.trans hrest.2⟩

-- However many steps and calls follow on each other, a call leaves the temporaries alone that were
-- bound before it, those of its own are bound in its own scopes, and the operands of a deferred call
-- bind none.
theorem temps_of_calls_and_runs (hhosts : p.hosts.Aloof)
    (hcode : ∀ (i : Nat) f, p.code[i]? = some f → Orderly f.steps) (k : Nat) :
    (∀ callee args spread span, NoTemps.Holds (p.call k callee args spread span)) ∧
      ∀ steps, Orderly steps →
        (∀ e d, DefersFrom steps e d → ∀ i, InChain e d i → ∀ t,
          (OnlyTemps t []).Holds (p.run k steps (some i))) ∧
        ∀ id n, (NewScopes n).Holds (p.run k steps id) := by
  have hend : ∀ k steps n, (NewScopes n).Holds (p.run k steps none) := fun k steps n =>
    NewScopes.holds_iff.mpr fun m hm => by
      rw [run_none]
      exact ⟨hm, .refl _⟩
  induction k with
  | zero =>
      refine ⟨fun callee args spread span => ?_, fun steps horderly =>
        ⟨fun e d hdefers i hin t => ?_, fun id n => ?_⟩⟩
      · unfold call
        exact fun m => .refl m.heap
      · refine OnlyTemps.holds_iff.mpr fun m hm => ?_
        rw [run_zero]
        exact ⟨hm, rfl, .refl _⟩
      · cases id with
        | none => exact hend 0 steps n
        | some id =>
            refine NewScopes.holds_iff.mpr fun m hm => ?_
            rw [run_zero]
            exact ⟨hm, .refl _⟩
  | succ k ih =>
      obtain ⟨hcalls, hruns⟩ := ih
      have hworks := (calls_and_runs hhosts.behaves k).1
      refine ⟨noTemps_call_succ hhosts hcalls fun i f hf => (hruns f.steps (hcode i f hf)).2 _,
        fun steps horderly => ⟨fun e d hdefers i hin t => ?_, fun id n => ?_⟩⟩
      · refine onlyTemps_run_succ ?_ fun m j m' hadvance => ?_
        · have hlt := Nat.lt_trans hin.2 hdefers.lt_size
          exact onlyTemps_advance_of_isCalm hworks hcalls (Array.getElem?_eq_getElem hlt)
            (horderly.calm e d hdefers i _ hin (Array.getElem?_eq_getElem hlt))
        · obtain ⟨edge, hedge⟩ := leadsTo_of_advance hadvance
          exact (hruns steps horderly).1 e d hdefers j
            ((horderly.detached.edge e d hdefers _ j hedge).mp hin) t
      · cases id with
        | none => exact hend (k + 1) steps n
        | some id =>
            refine newScopes_run_succ horderly hworks hcalls (fun e d hdefers => ?_)
              (fun id => (hruns steps horderly).2 id n) id
            exact (hruns steps horderly).1 e d hdefers e
              ⟨Nat.le_refl _, (horderly.detached.entry e d hdefers).2⟩

end Program

end StepGraph

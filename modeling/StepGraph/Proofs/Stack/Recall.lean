import StepGraph.Proofs.Compile.Enclosure
import StepGraph.Proofs.Stack.Scopes
import StepGraph.Proofs.Stack.TempScopes

open EStateM (bind_eq_ok)

namespace StepGraph

open Names (isTemp)

-- No variable of the name has been moved from this scope into a cell.
def Heap.Unshared (s : ScopeId) (x : String) (h : Heap) : Prop :=
  ∀ a, h.binding? s x ≠ some (.shared a)

-- A scope still has no variable of this name in a cell, and still binds the name if it did.
structure Heap.KeepsBinding (s : ScopeId) (x : String) (h h' : Heap) : Prop where
  size : h.scopes.size ≤ h'.scopes.size
  unshared : h.Unshared s x → h'.Unshared s x
  binds : h.Unshared s x → (h.binding? s x).isSome → (h'.binding? s x).isSome

namespace Heap

variable {h h' h'' : Heap} {s : ScopeId} {x y : String} {v : Value}

namespace KeepsBinding

theorem of_scopes (hs : h'.scopes = h.scopes) : KeepsBinding s x h h' := by
  have hbinding : h'.binding? s x = h.binding? s x := by
    unfold binding?
    rw [hs]
  refine ⟨Nat.le_of_eq (congrArg _ hs.symm), fun hu a => ?_, fun _ hb => ?_⟩
  · rw [hbinding]
    exact hu a
  · rwa [hbinding]

theorem trans (h₁ : KeepsBinding s x h h') (h₂ : KeepsBinding s x h' h'') :
    KeepsBinding s x h h'' where
  size := Nat.le_trans h₁.size h₂.size
  unshared hu := h₂.unshared (h₁.unshared hu)
  binds hu hb := h₂.binds (h₁.unshared hu) (h₁.binds hu hb)

end KeepsBinding

theorem declare_of_unshared (hx : h.Unshared s x) (v : Value) :
    declare s x v h = bind s x (.plain v) h := by
  unfold declare
  rw [get_bind]
  cases hb : h.binding? s x with
  | none => rfl
  | some b =>
      cases b with
      | plain => rfl
      | shared a => exact absurd hb (hx a)

theorem binding?_declare (hs : s < h.scopes.size) (hy : h.Unshared s y) (v : Value) :
    (declare s y v h).2.binding? s x = if x = y then some (.plain v) else h.binding? s x := by
  rw [declare_of_unshared hy, binding?_bind h s s y x _ hs]
  simp only [true_and]

theorem keepsBinding_declare (hs : s < h.scopes.size) (x y : String) (v : Value) :
    KeepsBinding s x h (declare s y v h).2 := by
  have hsize : h.scopes.size ≤ (declare s y v h).2.scopes.size := (quiet_declare s y v h).size
  by_cases hxy : x = y
  · subst hxy
    refine ⟨hsize, fun hu a => ?_, fun hu _ => ?_⟩ <;> rw [binding?_declare hs hu, if_pos rfl]
    · nofun
    · rfl
  · have hsame : (declare s y v h).2.binding? s x = h.binding? s x := by
      by_cases hy : h.Unshared s y
      · rw [binding?_declare hs hy, if_neg hxy]
      · obtain ⟨a, ha⟩ := not_forall_not.mp hy
        have hstore : declare s y v h = store (.cell a) v h := by
          unfold declare
          rw [get_bind, ha]
        unfold binding?
        rw [hstore, apart_storeCell a v h]
    refine ⟨hsize, fun hu a => ?_, fun _ hb => ?_⟩ <;> rw [hsame]
    · exact hu a
    · exact hb

end Heap

namespace Machine.Stacked

variable {σ σ' : Nat → ScopeId} {m m' : Machine} {d e : Nat} {x : String} {v : Value}
  {names : List String}

theorem lt_of_lt (h : m.Stacked σ) (hlt : d < e) (he : e ≤ m.frame.depth) : σ d < σ e := by
  induction e with
  | zero => exact absurd hlt (Nat.not_lt_zero d)
  | succ e ih =>
      have hstep := h.younger e he
      rcases Nat.lt_or_ge d e with hde | hde
      · exact Nat.lt_trans (ih hde (Nat.le_of_succ_le he)) hstep
      · rwa [Nat.le_antisymm (Nat.le_of_lt_succ hlt) hde]

theorem injective (h : m.Stacked σ) (hd : d ≤ m.frame.depth) (he : e ≤ m.frame.depth)
    (hsame : σ d = σ e) : d = e := by
  rcases Nat.lt_trichotomy d e with hlt | heq | hlt
  · exact absurd hsame (Nat.ne_of_lt (h.lt_of_lt hlt he))
  · exact heq
  · exact absurd hsame.symm (Nat.ne_of_lt (h.lt_of_lt hlt hd))

-- A name is that of the innermost scope that binds it at all.
theorem owner_eq (h : m.Stacked σ) (hd : d ≤ m.frame.depth)
    (hbound : m.heap.binding? (σ d) x = some (.plain v))
    (hinner : ∀ e ≤ m.frame.depth, d < e → m.heap.binding? (σ e) x = none) :
    m.heap.owner? m.frame.scope x = some (σ d) := by
  have howner : ∀ k e n, e = d + k → e ≤ m.frame.depth → k < n →
      m.heap.ownerUpTo x n (σ e) = some (σ d) := by
    intro k
    induction k with
    | zero =>
        rintro e (_ | n) rfl he hn
        · cases hn
        · unfold Heap.ownerUpTo Heap.binds
          rw [hbound]
          rfl
    | succ k ih =>
        rintro e (_ | n) rfl he hn
        · cases hn
        · unfold Heap.ownerUpTo Heap.binds
          rw [hinner _ he (by omega), Nat.add_succ, h.parent (d + k) he]
          exact ih _ n rfl (Nat.le_of_succ_le he) (Nat.lt_of_succ_lt_succ hn)
  have hle := Nat.le_trans (Nat.le_add_left _ (σ 0)) (h.base_add_le (Nat.le_refl _))
  unfold Heap.owner?
  rw [h.scope]
  exact howner (m.frame.depth - d) _ _ (by omega) (Nat.le_refl _)
    (Nat.lt_succ_of_le (Nat.le_trans (Nat.sub_le _ _) hle))

-- Where a step moves between scopes, a temporary that it does not bind is what it was.
theorem binding_eq (h : m.Stacked σ) (hmoves : m.MovesScopes names σ σ' m')
    (hx : isTemp x = true) (hd : d ≤ m.frame.depth) (hd' : d ≤ m'.frame.depth)
    (hnot : ¬ (d = m.frame.depth ∧ x ∈ names)) :
    m'.heap.binding? (σ' d) x = m.heap.binding? (σ d) x := by
  rw [hmoves.same d hd hd']
  refine hmoves.kept.binding _ (h.lt d hd) x hx fun hfree => hnot ⟨?_, hfree.2⟩
  exact h.injective hd (Nat.le_refl _) (h.scope ▸ hfree.1)

end Machine.Stacked

-- An operation of a machine in this scope that stays in it and keeps it so.
def Exec.KeepsBinding (t : ScopeId) (x : String) : Exec.HeapTrait :=
  Moves.trait (fun m m' => m.frame.scope = t ∧ t < m.heap.scopes.size →
      m'.frame.scope = t ∧ Heap.KeepsBinding t x m.heap m'.heap)
    (fun _ _ hs hm => ⟨hm.1, .of_scopes hs⟩)
    fun _ _ _ h₁ h₂ hm =>
      let h₁ := h₁ hm
      let h₂ := h₂ ⟨h₁.1, Nat.lt_of_lt_of_le hm.2 h₁.2.size⟩
      ⟨h₂.1, h₁.2.trans h₂.2⟩

namespace Exec.KeepsBinding

variable {α : Type} {t : ScopeId} {x y : String}

theorem after {e : Exec α} {a : α} {m m' : Machine} (h : (KeepsBinding t x).Holds e)
    (hm : m.frame.scope = t) (ht : t < m.heap.scopes.size) (hr : e m = .ok a m') :
    m'.frame.scope = t ∧ Heap.KeepsBinding t x m.heap m'.heap := by
  have hmoves := moves_imp_iff.mp h m ⟨hm, ht⟩
  rwa [hr] at hmoves

theorem binds (y : String) : (KeepsBinding t x).Binds y := by
  rintro v m ⟨rfl, ht⟩
  exact ⟨rfl, Heap.keepsBinding_declare ht x y v⟩

theorem operands : (KeepsBinding t x).Operands where
  frame _ hm := ⟨hm.1, .of_scopes rfl⟩
  setOperands _ _ hm := ⟨hm.1, .of_scopes rfl⟩
  setResults _ _ hm := ⟨hm.1, .of_scopes rfl⟩
  underflow _ hm := ⟨hm.1, .of_scopes rfl⟩

theorem of_keepsTemps {e : HeapM α} (hx : isTemp x = true)
    (he : HeapM.KeepsTemps (fun _ _ => False) e) :
    (KeepsBinding t x).Holds (liftM e : Exec α) := by
  rintro m ⟨hm, ht⟩
  have hkept := he m.heap
  have hsame := hkept.binding t ht x hx id
  refine ⟨hm, hkept.nests.size, fun hu a => ?_, fun _ hb => ?_⟩
  · exact hsame ▸ hu a
  · exact hsame ▸ hb

end Exec.KeepsBinding

namespace Program

open Exec

variable {p : Program} {t : ScopeId} {x : String} {m m' : Machine}

theorem binding_of_declare {v : Value} (hm : m.frame.scope = t) (ht : t < m.heap.scopes.size)
    (hu : m.heap.Unshared t x)
    (h : (do Heap.declare (← currentScope) x v : Exec Unit) m = .ok () m') :
    (m'.heap.binding? t x).isSome := by
  subst hm
  cases h
  change ((Heap.declare m.frame.scope x v m.heap).2.binding? m.frame.scope x).isSome
  rw [Heap.binding?_declare ht hu, if_pos rfl]
  rfl

theorem binding_of_declareValue {ty : Option Ty} {v : Value} (hx : x ≠ Names.blank)
    (hm : m.frame.scope = t) (ht : t < m.heap.scopes.size) (hu : m.heap.Unshared t x)
    (h : p.declareValue ty x v m = .ok () m') : (m'.heap.binding? t x).isSome := by
  unfold declareValue at h
  rw [if_neg hx] at h
  obtain ⟨v, m₁, hcopy, h⟩ := bind_eq_ok.mp h
  obtain ⟨hm₁, hkept⟩ := KeepsBinding.after (x := x)
    (Trait.gentle _ (Heap.gentle_copy _)) hm ht hcopy
  have ht₁ := Nat.lt_of_lt_of_le ht hkept.size
  have hu₁ := hkept.unshared hu
  cases ty with
  | none => exact binding_of_declare hm₁ ht₁ hu₁ h
  | some ty =>
      obtain ⟨v, m₂, hcoerce, h⟩ := bind_eq_ok.mp h
      obtain ⟨hm₂, hkept₂⟩ := KeepsBinding.after (x := x) (holds_coerce _ p _ ty) hm₁ ht₁ hcoerce
      exact binding_of_declare hm₂ (Nat.lt_of_lt_of_le ht₁ hkept₂.size) (hkept₂.unshared hu₁) h

-- Of several names that are bound, the others leave it bound.
theorem binding_of_declareValues {ty : Option Ty} {l : List (String × Value)} (hx : x ≠ Names.blank)
    (hm : m.frame.scope = t) (ht : t < m.heap.scopes.size) (hu : m.heap.Unshared t x)
    (hmem : x ∈ l.map (·.1)) (h : l.forM (fun y => p.declareValue ty y.1 y.2) m = .ok () m') :
    (m'.heap.binding? t x).isSome := by
  induction l generalizing m with
  | nil => cases hmem
  | cons y l ih =>
      obtain ⟨_, m₁, hfirst, hrest⟩ := bind_eq_ok.mp h
      obtain ⟨hm₁, hkept⟩ := KeepsBinding.after (x := x)
        (holds_declareValue p (KeepsBinding.binds _) ty y.2) hm ht hfirst
      have ht₁ := Nat.lt_of_lt_of_le ht hkept.size
      rcases List.mem_cons.mp hmem with rfl | hmem
      · have hbound := binding_of_declareValue hx hm ht hu hfirst
        have hrests : (KeepsBinding t y.1).Holds (l.forM fun y => p.declareValue ty y.1 y.2) :=
          (KeepsBinding t y.1).compositional.forM_mem fun z _ =>
            holds_declareValue p (KeepsBinding.binds _) ty z.2
        exact (KeepsBinding.after hrests hm₁ ht₁ hrest).2.binds (hkept.unshared hu) hbound
      · exact ih hm₁ ht₁ (hkept.unshared hu) hmem hrest

theorem binding_of_work {op : StepOp} (hx : isTemp x = true) (hmem : x ∈ op.bindings)
    (hdiscreet : op.isDiscreet = true) (hm : m.frame.scope = t) (ht : t < m.heap.scopes.size)
    (hu : m.heap.Unshared t x) (h : p.work op m = .ok () m') : (m'.heap.binding? t x).isSome := by
  have hblank : x ≠ Names.blank := fun heq => by
    rw [heq] at hx
    exact absurd hx (by decide)
  cases op with
  | declare names ty arity =>
      obtain ⟨values, m₁, htake, h⟩ := bind_eq_ok.mp h
      obtain ⟨hm₁, hkept⟩ := KeepsBinding.after (x := x)
        (KeepsBinding.operands.take arity) hm ht htake
      have ht₁ := Nat.lt_of_lt_of_le ht hkept.size
      have hnames : values.length = names.length →
          x ∈ (names.zip values).map (·.1) := fun hlength => by
        rwa [List.map_fst_zip (Nat.le_of_eq hlength.symm)]
      by_cases hlength : values.length = names.length
      · rw [if_neg (not_not_intro hlength)] at h
        exact binding_of_declareValues hblank hm₁ ht₁ (hkept.unshared hu) (hnames hlength) h
      · rw [if_pos hlength] at h
        cases h
  | rangeInit kind cursor =>
      obtain rfl := List.mem_singleton.mp hmem
      obtain ⟨v, m₁, hpop, h⟩ := bind_eq_ok.mp h
      obtain ⟨c, m₂, hstart, h⟩ := bind_eq_ok.mp h
      obtain ⟨hm₁, hkept₁⟩ := KeepsBinding.after (x := x) KeepsBinding.operands.pop hm ht hpop
      have ht₁ := Nat.lt_of_lt_of_le ht hkept₁.size
      obtain ⟨hm₂, hkept₂⟩ := KeepsBinding.after (x := x)
        ((KeepsBinding t x).attempt (Heap.apart_startCursor kind v)) hm₁ ht₁ hstart
      exact binding_of_declare hm₂ (Nat.lt_of_lt_of_le ht₁ hkept₂.size)
        (hkept₂.unshared (hkept₁.unshared hu)) h
  | declareZero names ty =>
      have hvisible := StepOp.isTemp_of_touched hdiscreet hmem
      cases hx.symm.trans hvisible
  | _ => cases hmem

-- A step that binds a temporary does nothing else, and the temporary has no cell.
theorem binding_of_advance {n : Nat} {steps : Array Step} {i : StepId} {s : Step}
    {k : Option (Option StepId)} (hs : steps[i]? = some s) (hx : isTemp x = true)
    (hmem : x ∈ s.op.bindings) (hdiscreet : s.op.isDiscreet = true)
    (ht : m.frame.scope < m.heap.scopes.size) (hu : m.heap.Unshared m.frame.scope x)
    (h : p.advance n steps i m = .ok k m') :
    ∃ v, m'.heap.binding? m.frame.scope x = some (.plain v) := by
  rw [advance_of_some hs] at h
  obtain ⟨after, m₁, hstep, hafter⟩ := bind_eq_ok.mp h
  have hstep := annotated_eq_ok.mp hstep
  have hwork : p.work s.op m = .ok () m₁ ∧ after = .next := by
    revert hstep hmem
    generalize s.op = op
    intro hmem hstep
    cases op <;> first
      | (obtain ⟨_, m₂, hwork, hpure⟩ := bind_eq_ok.mp hstep
         cases hpure
         exact ⟨hwork, rfl⟩)
      | cases hmem
  obtain ⟨hwork, rfl⟩ := hwork
  cases hafter
  have htouched : s.op.touched = [] ∧ ¬ Moving s.op := by
    revert hdiscreet hmem
    generalize s.op = op
    intro hmem hdiscreet
    cases op with
    | declare | rangeInit => exact ⟨rfl, id⟩
    | declareZero => cases hx.symm.trans (StepOp.isTemp_of_touched hdiscreet hmem)
    | _ => cases hmem
  have hworks : (KeepsBinding m.frame.scope x).Holds (p.work s.op) :=
    holds_work KeepsBinding.operands p (fun y hy => by rw [htouched.1] at hy; cases hy)
      (fun y _ => KeepsBinding.binds y)
      (fun s => KeepsBinding.of_keepsTemps hx (Heap.keepsTemps_markEscaped s))
      htouched.2
  obtain ⟨b, hb⟩ := Option.isSome_iff_exists.mp (binding_of_work hx hmem hdiscreet rfl ht hu hwork)
  cases b with
  | plain v => exact ⟨v, hb⟩
  | shared a => exact absurd hb ((KeepsBinding.after hworks rfl ht hwork).2.unshared hu a)

theorem RunLeads.snoc {steps : Array Step} {n n' : Nat} {k : Option StepId} {i : StepId}
    {j : Option StepId} {m₁ : Machine} (hl : p.RunLeads steps n k m (n' + 1) (some i) m₁)
    (h : p.advance n' steps i m₁ = .ok (some j) m') : p.RunLeads steps n k m n' j m' := by
  generalize hn : n' + 1 = n₁, hi : some i = i₁ at hl
  induction hl with
  | refl =>
      subst hn hi
      exact .step h (.refl ..)
  | step hstep _ ih => exact .step hstep (ih h hn hi)

theorem RunLeads.reaches {steps : Array Step} {n n' : Nat} {k k' : Option StepId} {i j : StepId}
    (hl : p.RunLeads steps n k m n' k' m') (hk : k = some i) (hk' : k' = some j) :
    p.Reaches steps n i m n' j m' := by
  induction hl generalizing i with
  | refl =>
      cases hk.symm.trans hk'
      exact .here ..
  | @step n n' id k k' m m₁ m' hstep hrest ih =>
      cases hk
      cases k with
      | none =>
          cases hrest
          cases hk'
      | some l => exact .next hstep (ih rfl hk')

-- A run goes on from one step to another, and all steps that it comes to have this property.
inductive RunsWithin (p : Program) (steps : Array Step) (P : StepId → Prop) :
    Nat → StepId → Machine → Nat → StepId → Machine → Prop
  | here {n : Nat} {i : StepId} {m : Machine} (hi : P i) : RunsWithin p steps P n i m n i m
  | next {n₀ n : Nat} {i₀ i j : StepId} {m₀ m m' : Machine}
      (hrun : RunsWithin p steps P n₀ i₀ m₀ (n + 1) i m)
      (hstep : p.advance n steps i m = .ok (some (some j)) m') (hj : P j) :
      RunsWithin p steps P n₀ i₀ m₀ n j m'

-- When a run of a function last came to a step, it bound this value to a name in this scope. Since
-- then the run has not left the scope in which the step is.
def LastBound (p : Program) (steps : Array Step) (n₀ : Nat) (m₀ : Machine) (k : StepId) (x : String)
    (s : ScopeId) (v : Value) (n : Nat) (i : StepId) (m : Machine) : Prop :=
  ∃ n₁ m₁ j m₂, p.RunLeads steps n₀ (some 0) m₀ (n₁ + 1) (some k) m₁ ∧ m₁.frame.scope = s ∧
    p.advance n₁ steps k m₁ = .ok (some (some j)) m₂ ∧ m₂.heap.local? s x = some v ∧
    p.RunsWithin steps (ScopeCovers steps k) n₁ j m₂ n i m

section kept

variable {steps : Array Step} {n₀ n : Nat} {m₀ : Machine} {i : StepId} {σ : Nat → ScopeId}

theorem LastBound.here {j : StepId} {v : Value}
    (hl : p.RunLeads steps n₀ (some 0) m₀ (n + 1) (some i) m)
    (hstep : p.advance n steps i m = .ok (some (some j)) m')
    (hv : m'.heap.binding? m.frame.scope x = some (.plain v)) (hcov : ScopeCovers steps i j) :
    p.LastBound steps n₀ m₀ i x m.frame.scope v n j m' := by
  refine ⟨n, m, j, m', hl, rfl, hstep, ?_, .here hcov⟩
  unfold Heap.local?
  rw [hv]
  rfl

theorem LastBound.next {j k : StepId} {s : ScopeId} {v : Value}
    (h : p.LastBound steps n₀ m₀ k x s v (n + 1) i m)
    (hstep : p.advance n steps i m = .ok (some (some j)) m') (hcov : ScopeCovers steps k j) :
    p.LastBound steps n₀ m₀ k x s v n j m' := by
  obtain ⟨n₁, m₁, l, m₂, hlead, hscope, hpass, hlocal, hrun⟩ := h
  exact ⟨n₁, m₁, l, m₂, hlead, hscope, hpass, hlocal, .next hrun hstep hcov⟩

-- A run that has come to a step: every temporary whose scope is still open is bound there, and what
-- the open scopes bind, but for that of the function, was bound when the run last came by.
structure TempsInPlace (p : Program) (steps : Array Step) (n₀ : Nat) (m₀ : Machine)
    (σ : Nat → ScopeId) (n : Nat) (i : StepId) (m : Machine) : Prop where
  led : p.RunLeads steps n₀ (some 0) m₀ n (some i) m
  stacked : m.Stacked σ
  depth : m.frame.depth = emissionDepth steps i
  binds : ∀ k x, isTemp x = true → BindsAt steps k x → ScopeCovers steps k i →
    (m.heap.binding? (σ (emissionDepth steps k)) x).isSome
  bound : ∀ d, 0 < d → d ≤ m.frame.depth → ∀ x, isTemp x = true → ∀ b,
    m.heap.binding? (σ d) x = some b → ∃ k v, b = .plain v ∧ BindsAt steps k x ∧
      ScopeCovers steps k i ∧ emissionDepth steps k = d ∧
      p.LastBound steps n₀ m₀ k x (σ d) v n i m

namespace TempsInPlace

theorem start (hm : m₀.frame.depth = 0) (hlt : m₀.frame.scope < m₀.heap.scopes.size) :
    p.TempsInPlace steps n₀ m₀ (fun _ => m₀.frame.scope) n₀ 0 m₀ where
  led := .refl ..
  stacked := .start hm hlt
  depth := hm
  binds k _ _ _ hcov := absurd hcov.1 (Nat.not_lt_zero k)
  bound _ hpos hd := absurd hpos (Nat.not_lt.mpr (hm ▸ hd))

theorem unshared (h : p.TempsInPlace steps n₀ m₀ σ n i m) (hpos : 0 < m.frame.depth)
    (hx : isTemp x = true) : m.heap.Unshared m.frame.scope x := by
  intro a ha
  rw [h.stacked.scope] at ha
  obtain ⟨_, _, hplain, -⟩ := h.bound _ hpos (Nat.le_refl _) x hx _ ha
  cases hplain

theorem lookup (h : p.TempsInPlace steps n₀ m₀ σ n i m) (henclosed : Enclosed steps)
    (hx : isTemp x = true) (hread : ReadsAt steps i x) :
    ∃ k s v, (∀ k', BindsAt steps k' x ↔ k' = k) ∧ m.heap.owner? m.frame.scope x = some s ∧
      m.heap.lookup m.frame.scope x = some v ∧ p.LastBound steps n₀ m₀ k x s v n i m := by
  obtain ⟨k, hbind, hcov⟩ := henclosed.reads i x hx hread
  have hd : emissionDepth steps k ≤ m.frame.depth :=
    h.depth ▸ hcov.2 i (Nat.le_of_lt hcov.1) (Nat.le_refl _)
  obtain ⟨b, hb⟩ := Option.isSome_iff_exists.mp (h.binds k x hx hbind hcov)
  obtain ⟨k', v, rfl, hbind', -, -, hlast⟩ :=
    h.bound _ (henclosed.inner k ⟨x, hx, hbind⟩) hd x hx b hb
  obtain rfl := henclosed.unique k k' x hx hbind hbind'
  -- A scope inside of that one does not bind it, for it is only this step that does.
  have howner : m.heap.owner? m.frame.scope x = some (σ (emissionDepth steps k)) := by
    refine h.stacked.owner_eq hd hb fun e he hlt => ?_
    cases hinner : m.heap.binding? (σ e) x with
    | none => rfl
    | some b =>
        obtain ⟨k', -, -, hbind', -, hdepth, -⟩ :=
          h.bound e (Nat.zero_lt_of_lt hlt) he x hx b hinner
        obtain rfl := henclosed.unique k k' x hx hbind hbind'
        exact absurd hdepth (Nat.ne_of_lt hlt)
  have hlookup : m.heap.lookup m.frame.scope x = some v := by
    unfold Heap.lookup Heap.local?
    rw [howner, Option.bind_some, hb]
    rfl
  exact ⟨k, _, v,
    fun k' => ⟨fun hk' => henclosed.unique k' k x hx hk' hbind, fun hk' => hk' ▸ hbind⟩,
    howner, hlookup, hlast⟩

-- What the step itself binds is in the scope that the machine was in.
theorem binding_of_advance (h : p.TempsInPlace steps n₀ m₀ σ (n + 1) i m)
    (henclosed : Enclosed steps) {s : Step} (hs : steps[i]? = some s) {k : Option (Option StepId)}
    (hstep : p.advance n steps i m = .ok k m') (hx : isTemp x = true) (hmem : x ∈ s.op.bindings) :
    ∃ v, m'.heap.binding? m.frame.scope x = some (.plain v) := by
  have hpos : 0 < m.frame.depth := h.depth ▸ henclosed.inner i ⟨x, hx, s, hs, hmem⟩
  exact Program.binding_of_advance hs hx hmem (henclosed.discreet i s hs)
    (h.stacked.scope ▸ h.stacked.lt _ (Nat.le_refl _)) (h.unshared hpos hx) hstep

theorem next {s : Step} {σ' : Nat → ScopeId} {j : StepId}
    (h : p.TempsInPlace steps n₀ m₀ σ (n + 1) i m) (henclosed : Enclosed steps)
    (hs : steps[i]? = some s) (hstep : p.advance n steps i m = .ok (some (some j)) m')
    (hdepth : m'.frame.depth = emissionDepth steps j)
    (hmoves : m.MovesScopes s.op.bindings σ σ' m') :
    p.TempsInPlace steps n₀ m₀ σ' n j m' := by
  have hlevel : LevelEdge steps i j := by
    obtain ⟨edge, hedge⟩ := leadsTo_of_advance hstep
    exact henclosed.level ⟨i, edge⟩ j hedge
  have hbinds : ∀ {x}, x ∈ s.op.bindings → BindsAt steps i x := fun hx => ⟨s, hs, hx⟩
  refine ⟨h.led.snoc hstep, hmoves.stacked, hdepth, fun k x hx hbind hcov => ?_,
    fun d hpos hd x hx b hb => ?_⟩
  · have hk : emissionDepth steps k ≤ m'.frame.depth :=
      hdepth ▸ hcov.2 j (Nat.le_of_lt hcov.1) (Nat.le_refl _)
    by_cases hki : k = i
    · subst hki
      obtain ⟨s', hs', hmem⟩ := hbind
      cases hs.symm.trans hs'
      obtain ⟨v, hv⟩ := h.binding_of_advance henclosed hs hstep hx hmem
      rw [hmoves.same _ (Nat.le_of_eq h.depth.symm) hk, ← h.depth, ← h.stacked.scope, hv]
      rfl
    · have hcov' := hlevel.covers_of_covers hcov ⟨x, hx, hbind⟩ hki
      have hk' : emissionDepth steps k ≤ m.frame.depth :=
        h.depth ▸ hcov'.2 i (Nat.le_of_lt hcov'.1) (Nat.le_refl _)
      rw [h.stacked.binding_eq hmoves hx hk' hk fun hsame =>
        hki (henclosed.unique k i x hx hbind (hbinds hsame.2))]
      exact h.binds k x hx hbind hcov'
  · have hd' : d ≤ m.frame.depth := by
      by_contra hlt
      cases (hmoves.empty d hd (Nat.lt_of_not_le hlt) x hx).symm.trans hb
    by_cases hfree : d = m.frame.depth ∧ x ∈ s.op.bindings
    · obtain ⟨rfl, hmem⟩ := hfree
      obtain ⟨v, hv⟩ := h.binding_of_advance henclosed hs hstep hx hmem
      have hcov : ScopeCovers steps i j :=
        hlevel.covers_start ⟨x, hx, hbinds hmem⟩ (h.depth ▸ hdepth ▸ hd)
      rw [hmoves.same _ hd' hd, ← h.stacked.scope] at hb ⊢
      cases hv.symm.trans hb
      exact ⟨i, v, rfl, hbinds hmem, hcov, h.depth.symm, .here h.led hstep hv hcov⟩
    · rw [h.stacked.binding_eq hmoves hx hd' hd hfree] at hb
      obtain ⟨k, v, rfl, hbind, hcov, hk, hlast⟩ := h.bound d hpos hd' x hx b hb
      have hcov' := hlevel.covers hcov ⟨x, hx, hbind⟩ (hk ▸ hdepth ▸ hd)
      exact ⟨k, v, rfl, hbind, hcov', hk, hmoves.same d hd' hd ▸ hlast.next hstep hcov'⟩

end TempsInPlace

end kept

-- A run from a step of a chain does not leave the chains.
theorem Reaches.inChain {steps : Array Step} {n n' : Nat} {i i' : StepId}
    (hr : p.Reaches steps n i m n' i' m') (hdetached : Detached steps)
    (hin : ∃ e d, DefersFrom steps e d ∧ InChain e d i) :
    ∃ e d, DefersFrom steps e d ∧ InChain e d i' := by
  induction hr with
  | here => exact hin
  | next hstep _ ih =>
      obtain ⟨e, d, hdefers, hin⟩ := hin
      obtain ⟨edge, hedge⟩ := leadsTo_of_advance hstep
      exact ih ⟨e, d, hdefers, (hdetached.edge e d hdefers _ _ hedge).mp hin⟩
  | deferred hs hop _ ih =>
      have hdefers : DefersFrom steps _ _ := ⟨_, hs, by rw [hop]; rfl⟩
      exact ih ⟨_, _, hdefers, Nat.le_refl _, (hdetached.entry _ _ hdefers).2⟩

-- Every function is built from one whose names are no temporaries and in which every `goto` leads
-- to a label of a list around it.
def UsesOwnNames (p : Program) : Prop :=
  ∀ (i : Nat) f, p.code[i]? = some f → ∃ (o : Origin) (names : Names) (code : Array Function),
    o.Makes names code p.types f ∧ o.isVisible = true ∧ gotosLeave o.body = true

theorem tempsInPlace_of_reaches {f : Function} {o : Origin} {names : Names} {code : Array Function}
    (hhosts : p.hosts.Aloof) (hp : p.UsesOwnNames) (h : o.Makes names code p.types f)
    (hvisible : o.isVisible = true) (hgotos : gotosLeave o.body = true) {func : ScopeId}
    {n₀ n n' : Nat} {m₀ : Machine} {i i' : StepId} {σ : Nat → ScopeId} (hm₀ : m₀.Deep func 0)
    (hr : p.Reaches f.steps n i m n' i' m') (hm : p.TempsInPlace f.steps n₀ m₀ σ n i m) :
    (∃ σ', p.TempsInPlace f.steps n₀ m₀ σ' n' i' m') ∨
      ∃ e d, DefersFrom f.steps e d ∧ InChain e d i' := by
  have henclosed := h.enclosed hvisible hgotos
  induction hr generalizing σ with
  | here => exact .inl ⟨σ, hm⟩
  | @next n _ i j _ m m₁ _ hstep hrest ih =>
      obtain ⟨s, hs⟩ := exists_step_of_advance hstep
      have horderly : ∀ (i : Nat) f, p.code[i]? = some f → Orderly f.steps := fun i f hf =>
        let ⟨_, _, _, hmakes, hvisible, hgotos⟩ := hp i f hf
        (hmakes.enclosed hvisible hgotos).toOrderly
      obtain ⟨hcalls, hruns⟩ := temps_of_calls_and_runs hhosts horderly n
      have hchains := (hruns f.steps henclosed.toOrderly).1
      have hmoves := movesScopes_advance (calls_and_runs hhosts.behaves n).1 hcalls hs
        (henclosed.discreet i s hs) (fun e hdefers => hchains e i hdefers e
          ⟨Nat.le_refl _, (henclosed.detached.entry e i hdefers).2⟩) hm.stacked
      rw [hstep] at hmoves
      obtain ⟨σ', hmoves⟩ := hmoves
      have hdeep := h.deep_of_reaches hhosts.behaves hgotos hm₀
        ((hm.led.snoc hstep).reaches rfl rfl)
      exact ih (hm.next henclosed hs hstep hdeep.depth_eq hmoves)
  | deferred hs hop hrest _ =>
      have hdefers : DefersFrom f.steps _ _ := ⟨_, hs, by rw [hop]; rfl⟩
      exact .inr (hrest.inChain henclosed.detached
        ⟨_, _, hdefers, Nat.le_refl _, (henclosed.detached.entry _ _ hdefers).2⟩)

end Program

-- Where no name of a program is a temporary, a step that looks up a temporary finds what the one
-- step that binds it bound when the run last came to that, and since then the run has been inside of
-- its scope. Both steps are of the same statement, however small that is.
theorem temporaries_keep_what_was_bound {p : Program} (hhosts : p.hosts.Aloof)
    (hp : p.UsesOwnNames) {c : Nat} {f : Function} (hf : p.code[c]? = some f) :
    (∀ func n m n' i m', m.Deep func 0 → func < m.heap.scopes.size →
      p.Reaches f.steps n 0 m n' i m' → ∀ x, isTemp x = true → ReadsAt f.steps i x →
        ∃ k s v, (∀ k', BindsAt f.steps k' x ↔ k' = k) ∧
          m'.heap.owner? m'.frame.scope x = some s ∧ m'.heap.lookup m'.frame.scope x = some v ∧
          p.LastBound f.steps n m k x s v n' i m') ∧
    (∀ (o : Origin) names code, o.isVisible = true → (Builder.start names code o.sig).Tidy) ∧
    ∀ stmt around label, stmt.isVisible = true → stmt.gotosLeave around = true →
      Build.OwnsTemps (Build.compileStmt stmt label) := by
  refine ⟨fun func n m n' i m' hm hfunc hr x hx hread => ?_, fun o names code => Origin.tidy_start,
    fun stmt around label h hgotos => Build.ownsTemps_compileStmt h hgotos label⟩
  obtain ⟨o, names, code, hmakes, hvisible, hgotos⟩ := hp c f hf
  have henclosed := hmakes.enclosed hvisible hgotos
  have hlt : m.frame.scope < m.heap.scopes.size := by
    obtain ⟨-, -, habove⟩ := hm
    cases habove
    exact hfunc
  rcases Program.tempsInPlace_of_reaches hhosts hp hmakes hvisible hgotos hm hr
    (.start hm.depth_eq hlt) with
    ⟨σ, hplace⟩ | ⟨e, d, hdefers, hin⟩
  · exact hplace.lookup henclosed hx hread
  · -- The operands of deferred calls are computed without temporaries.
    obtain ⟨s, hs, hmem⟩ := hread
    have hcalm := henclosed.calm e d hdefers i s hin hs
    cases (StepOp.reads_of_isVisible (StepOp.isVisible_of_isCalm hcalm) hmem).symm.trans hx

-- Where a run is after the first `k` steps.
def Program.positionAfter (p : Program) (steps : Array Step) :
    Nat → Nat → StepId → Machine → Option (StepId × Machine)
  | 0, _, i, m => some (i, m)
  | k + 1, n, i, m =>
      match p.advance (n + k) steps i m with
      | .ok (some (some j)) m' => positionAfter p steps k n j m'
      | _ => none

theorem Program.reaches_of_position {p : Program} {steps : Array Step} {k n : Nat} {i j : StepId}
    {m m' : Machine} (h : p.positionAfter steps k n i m = some (j, m')) :
    p.Reaches steps (n + k) i m n j m' := by
  induction k generalizing i m with
  | zero =>
      cases h
      exact .here ..
  | succ k ih =>
      unfold positionAfter at h
      split at h
      · next hstep => exact .next hstep (ih h)
      · cases h

-- `for i := 0; ; i++ { switch i { case 5: } }`.
def switchEachRound : List Stmt :=
  [.loop Span.none (some (.define Span.none ["i"] [.lit Note.empty (.int 0)])) none
    (some (.incDec Span.none (.ident Note.empty "i") true))
    [.switch Span.none none (some (.ident Note.empty "i"))
      [⟨[.lit Note.empty (.int 5)], false, []⟩]]]

def emptyScope : Machine :=
  { Machine.start .silent with heap := { Heap.empty with scopes := #[⟨[], none, false⟩] } }

-- Whether step 9 of its one function binds the tag that step 10 looks up, and a run comes to that in
-- the second round, where the tag is 1.
def tagIsBoundAgain : Bool :=
  match (Origin.literal .empty switchEachRound).build (.start ⟨.empty, .initial, []⟩ #[] .empty)
    with
  | .ok ref b => ref.id == 0 && b.code.size == 1 && b.code.all fun f =>
      f.steps[9]?.map (·.op.bindings) == some [".tag1"] &&
        f.steps[10]?.map (·.op.reads) == some [".tag1"] &&
        (Program.positionAfter ⟨b.code, b.names.types, [], 10, false⟩ f.steps 29 10 0 emptyScope).any
          fun (i, m) => i == 10 && (m.heap.lookup m.frame.scope ".tag1").bind Value.int? ==
            (Value.plainInt 1).int?
  | .error _ _ => false

theorem second_round_sees_its_tag : ∃ (p : Program) (f : Function) (m : Machine) (s : ScopeId)
    (v : Value), p.code[0]? = some f ∧ p.Reaches f.steps 39 0 emptyScope 10 10 m ∧
      m.heap.lookup m.frame.scope ".tag1" = some v ∧ v.int? = (Value.plainInt 1).int? ∧
      p.LastBound f.steps 39 emptyScope 9 ".tag1" s v 10 10 m := by
  have hbuilt : tagIsBoundAgain = true := by decide +kernel
  unfold tagIsBoundAgain at hbuilt
  split at hbuilt
  · next ref b hb =>
      simp only [Bool.and_eq_true, beq_iff_eq, Array.all_eq_true', Option.any_eq_true] at hbuilt
      obtain ⟨⟨hid, hsize⟩, hall⟩ := hbuilt
      have hf := Array.getElem?_eq_getElem (show 0 < b.code.size by rw [hsize]; decide)
      obtain ⟨⟨hbinds, hreads⟩, ⟨i, m⟩, hafter, hi, hone⟩ := hall _ (Array.mem_of_getElem? hf)
      obtain rfl : i = 10 := hi
      let p : Program := ⟨b.code, b.names.types, [], 10, false⟩
      have hhosts : p.hosts.Aloof := HostRegistry.aloof_of_packages fun _ hx => (by cases hx)
      have hown : p.UsesOwnNames := by
        intro j g hg
        have hj : j = 0 := Nat.lt_one_iff.mp (hsize ▸ (Array.getElem?_eq_some_iff.mp hg).1)
        subst hj
        exact ⟨.literal .empty switchEachRound, ⟨.empty, .initial, []⟩, #[],
          ⟨ref, b, hb, hid ▸ hg, .refl _⟩, by decide +kernel, by decide +kernel⟩
      have hat : ∀ {k : StepId} {φ : Step → List String},
          b.code[0].steps[k]?.map φ = some [".tag1"] → ∃ s : Step,
          b.code[0].steps[k]? = some s ∧ ".tag1" ∈ φ s := fun h => by
        obtain ⟨s, hs, hmem⟩ := Option.map_eq_some_iff.mp h
        exact ⟨s, hs, hmem ▸ List.mem_singleton_self _⟩
      have hreached := Program.reaches_of_position hafter
      obtain ⟨k, s, v, hunique, -, hlookup, hlast⟩ :=
        (temporaries_keep_what_was_bound hhosts hown hf).1 0 39 emptyScope 10 10 m
          ⟨rfl, rfl, .here 0⟩ (by decide) hreached ".tag1" (by decide) (hat hreads)
      obtain rfl := (hunique 9).mp (hat hbinds)
      refine ⟨p, b.code[0], m, s, v, hf, hreached, hlookup, ?_, hlast⟩
      rw [hlookup] at hone
      exact hone
  · cases hbuilt

end StepGraph

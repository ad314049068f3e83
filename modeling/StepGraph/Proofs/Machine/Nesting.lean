import StepGraph.Heap.Cursor
import StepGraph.Heap.Scope
import StepGraph.Types.Compose
import StepGraph.Types.Convert
import StepGraph.Types.Member
import StepGraph.Proofs.Outcomes
import Mathlib.Tactic.Common

namespace StepGraph

variable {α β : Type}

-- No scope has gone or has come to stand inside another one.
structure ScopesNest (h h' : Heap) : Prop where
  size : h.scopes.size ≤ h'.scopes.size
  parent : ∀ s < h.scopes.size, h'.parent? s = h.parent? s

namespace ScopesNest

variable {h h' h'' : Heap}

theorem refl (h : Heap) : ScopesNest h h := ⟨Nat.le_refl _, fun _ _ => rfl⟩

theorem trans (h₁ : ScopesNest h h') (h₂ : ScopesNest h' h'') : ScopesNest h h'' where
  size := Nat.le_trans h₁.size h₂.size
  parent s hs := (h₂.parent s (Nat.lt_of_lt_of_le hs h₁.size)).trans (h₁.parent s hs)

theorem of_scopes (hs : h'.scopes = h.scopes) : ScopesNest h h' := by
  refine ⟨Nat.le_of_eq (by rw [hs]), fun s _ => ?_⟩
  unfold Heap.parent?
  rw [hs]

end ScopesNest

-- An operation on the heap that keeps the scopes inside each other.
def HeapM.Quiet (x : HeapM α) : Prop := ∀ h, ScopesNest h (x h).2

namespace HeapM.Quiet

theorem pure (a : α) : Quiet (pure a : HeapM α) := fun h => .refl h

theorem bind {x : HeapM α} {f : α → HeapM β} (hx : Quiet x) (hf : ∀ a, Quiet (f a)) :
    Quiet (x >>= f) := fun h => (hx h).trans (hf _ _)

theorem get : Quiet (get : HeapM Heap) := fun h => .refl h

theorem modify {f : Heap → Heap} (hf : ∀ h, (f h).scopes = h.scopes) :
    Quiet (modify f : HeapM Unit) := fun h => .of_scopes (hf h)

theorem compositional : Compositional (M := HeapM) Quiet := ⟨pure, bind⟩

theorem forM {l : List α} {f : α → HeapM PUnit} (hf : ∀ a, Quiet (f a)) : Quiet (l.forM f) :=
  compositional.forM hf

end HeapM.Quiet

-- An operation on the heap that has nothing to do with the scopes.
def HeapM.Apart (x : HeapM α) : Prop := ∀ h, (x h).2.scopes = h.scopes

namespace HeapM.Apart

theorem quiet {x : HeapM α} (hx : Apart x) : Quiet x := fun h => .of_scopes (hx h)

theorem pure (a : α) : Apart (pure a : HeapM α) := fun _ => rfl

theorem bind {x : HeapM α} {f : α → HeapM β} (hx : Apart x) (hf : ∀ a, Apart (f a)) :
    Apart (x >>= f) := fun h => (hf _ _).trans (hx h)

theorem get : Apart (get : HeapM Heap) := fun _ => rfl

theorem modify {f : Heap → Heap} (hf : ∀ h, (f h).scopes = h.scopes) :
    Apart (modify f : HeapM Unit) := fun h => hf h

theorem compositional : Compositional (M := HeapM) Apart := ⟨pure, bind⟩

theorem forM {l : List α} {f : α → HeapM PUnit} (hf : ∀ a, Apart (f a)) : Apart (l.forM f) :=
  compositional.forM hf

theorem mapM {l : List α} {f : α → HeapM β} (hf : ∀ a, Apart (f a)) : Apart (l.mapM f) :=
  compositional.mapM hf

end HeapM.Apart

namespace Heap

open HeapM (Apart Quiet)

attribute [local grind ←] HeapM.Apart.pure HeapM.Apart.bind HeapM.Apart.get
  HeapM.Apart.forM HeapM.Apart.mapM

theorem apart_newBlock (vs : Array Value) : Apart (newBlock vs) := fun _ => rfl

theorem apart_setElement (b : BlockId) (i : Nat) (v : Value) : Apart (setElement b i v) :=
  .modify fun _ => rfl

theorem apart_newError (message : String) (runtime : Bool) : Apart (newError message runtime) :=
  fun _ => rfl

theorem apart_newCell (c : Cell) : Apart (newCell c) := fun _ => rfl

theorem apart_box (v : Value) : Apart (box v) := apart_newCell _

theorem apart_newMap : Apart newMap := fun _ => rfl

theorem apart_modifyMap (m : MapId) (f : List Entry → List Entry) : Apart (modifyMap m f) :=
  .modify fun _ => rfl

theorem apart_newChan (capacity : Nat) (zero : Value) : Apart (newChan capacity zero) :=
  fun _ => rfl

theorem apart_setChan (id : ChanId) (c : Chan) : Apart (setChan id c) := .modify fun _ => rfl

theorem apart_newCursor (c : Cursor) : Apart (newCursor c) := fun _ => rfl

theorem apart_setCursor (id : CursorId) (c : Cursor) : Apart (setCursor id c) :=
  .modify fun _ => rfl

-- A scope that is new stands behind all others.
theorem quiet_newScope (parent : Option ScopeId) : Quiet (newScope parent) := by
  intro h
  refine ⟨?_, fun s hs => ?_⟩
  · change h.scopes.size ≤ (h.scopes.push _).size
    simp
  · change (h.scopes.push _)[s]?.bind _ = h.scopes[s]?.bind _
    rw [Array.getElem?_push, if_neg (Nat.ne_of_lt hs)]

theorem quiet_modifyScope {f : Scope → Scope} (hf : ∀ sc, (f sc).parent = sc.parent)
    (s : ScopeId) : Quiet (modifyScope s f) := by
  intro h
  refine ⟨?_, fun t _ => ?_⟩
  · change h.scopes.size ≤ (h.scopes.modify s f).size
    simp
  · change (h.scopes.modify s f)[t]?.bind _ = h.scopes[t]?.bind _
    rw [Array.getElem?_modify]
    split
    · cases h.scopes[t]? with
      | none => rfl
      | some sc => exact hf sc
    · rfl

theorem quiet_bind (s : ScopeId) (x : String) (b : Binding) : Quiet (bind s x b) :=
  quiet_modifyScope (f := fun sc => { sc with bindings := setBinding x b sc.bindings })
    (fun _ => rfl) s

theorem apart_newStruct (layout : Layout) (typeName : Option String) (fields : List Value) :
    Apart (newStruct layout typeName fields) := .bind (apart_newBlock _) fun _ => .pure _

theorem apart_newArray (elems : List Value) : Apart (newArray elems) :=
  .bind (apart_newBlock _) fun _ => .pure _

attribute [local grind ←] HeapM.Quiet.pure HeapM.Quiet.bind HeapM.Quiet.get HeapM.Quiet.forM HeapM.Apart.quiet
  apart_newStruct apart_newArray apart_newBlock apart_setElement apart_newError apart_newCell apart_box
  apart_newMap apart_modifyMap apart_newChan apart_setChan apart_newCursor apart_setCursor
  quiet_newScope quiet_bind

mutual

theorem apart_ofConstant (c : Constant) : Apart (ofConstant c) := by
  cases c with
  | array cs =>
      have := apart_ofConstants cs
      unfold ofConstant
      grind
  | struct layout typeName cs =>
      have := apart_ofConstants cs
      unfold ofConstant
      grind
  | named t c =>
      have := apart_ofConstant c
      unfold ofConstant
      grind
  | _ =>
      unfold ofConstant
      exact .pure _

theorem apart_ofConstants (cs : List Constant) : Apart (ofConstants cs) := by
  cases cs with
  | nil =>
      unfold ofConstants
      exact .pure _
  | cons c cs =>
      have := apart_ofConstant c
      have := apart_ofConstants cs
      unfold ofConstants
      grind

end

-- A store into something that is not a variable.
theorem apart_storeUpTo (n : Nat) {p : Place} (hp : ∀ s x, p ≠ .variable s x) (v : Value) :
    Apart (storeUpTo n p v) := by
  have hwrite : ∀ {p : Place} (v : Value), (∀ s x, p ≠ .variable s x) → Apart (write v p) := by
    intro p v hp
    match p, hp with
    | .cell _, _ => exact .modify fun _ => rfl
    | .element b i, _ => exact apart_setElement b i v
    | .variable s x, hp => exact absurd rfl (hp s x)
  induction n generalizing p v with
  | zero => exact hwrite v hp
  | succ n ih =>
      have := hwrite v hp
      have : ∀ b i v, Apart (storeUpTo n (.element b i) v) := fun b i v => ih (by simp) v
      unfold storeUpTo
      grind

theorem apart_storeCell (a : Address) (v : Value) : Apart (store (.cell a) v) :=
  .bind .get fun h => apart_storeUpTo h.depth (by simp) v

theorem apart_storeElement (b : BlockId) (i : Nat) (v : Value) : Apart (store (.element b i) v) :=
  .bind .get fun h => apart_storeUpTo h.depth (by simp) v

theorem quiet_write (v : Value) (p : Place) : Quiet (write v p) :=
  match p with
  | .cell _ => .modify fun _ => rfl
  | .element b i => (apart_setElement b i v).quiet
  | .variable s x => quiet_bind s x _

theorem quiet_storeUpTo (n : Nat) (p : Place) (v : Value) : Quiet (storeUpTo n p v) := by
  induction n generalizing p v with
  | zero => exact quiet_write v p
  | succ n ih =>
      have := quiet_write v p
      unfold storeUpTo
      grind

theorem quiet_store (p : Place) (v : Value) : Quiet (store p v) :=
  .bind .get fun h => quiet_storeUpTo h.depth p v

theorem apart_copyWith {inBlock : Value → HeapM Value} (hin : ∀ v, Apart (inBlock v)) (v : Value) :
    Apart (copyWith inBlock v) := by
  induction v with
  | struct s =>
      unfold copyWith
      grind
  | array b =>
      unfold copyWith
      grind
  | named t v ih =>
      unfold copyWith
      grind
  | _ =>
      unfold copyWith
      exact .pure _

theorem apart_copy (v : Value) : Apart (copy v) := by
  have hupTo : ∀ n v, Apart (copyUpTo n v) := by
    intro n
    induction n with
    | zero => exact fun v => .pure v
    | succ n ih => exact apart_copyWith ih
  exact .bind .get fun h => hupTo h.depth v

attribute [local grind ←] apart_ofConstant apart_storeCell apart_storeElement quiet_store apart_copy

theorem quiet_setLocal (s : ScopeId) (name : String) (v : Value) : Quiet (setLocal s name v) := by
  unfold setLocal
  grind

theorem quiet_declare (s : ScopeId) (name : String) (v : Value) : Quiet (declare s name v) := by
  unfold declare
  grind

theorem quiet_assign (s : ScopeId) (name : String) (v : Value) : Quiet (assign s name v) := by
  have := quiet_setLocal
  unfold assign
  grind

theorem quiet_variableAddress (s : ScopeId) (name : String) : Quiet (variableAddress s name) := by
  unfold variableAddress
  grind

theorem quiet_markEscaped (s : ScopeId) : Quiet (markEscaped s) := by
  have hupTo : ∀ n s, Quiet (markEscapedUpTo n s) := by
    intro n
    induction n with
    | zero => exact fun _ => .pure _
    | succ n ih =>
        have hmodify : ∀ s, Quiet (modifyScope s fun sc => { sc with escaped := true }) :=
          quiet_modifyScope fun _ => rfl
        intro s
        unfold markEscapedUpTo
        grind
  exact hupTo _ s

theorem apart_remove (m : Option MapId) (key : MapKey) : Apart (remove m key) := by
  unfold remove
  grind

theorem apart_clear (m : Option MapId) : Apart (clear m) := by
  unfold clear
  grind

theorem apart_sliceSet (s : Option Window) (i : Nat) (v : Value) : Apart (sliceSet s i v) := by
  unfold sliceSet
  grind

theorem apart_append (s : Option Window) (vs : List Value) : Apart (append s vs) := by
  have hrenew : ∀ first needed, Apart (append.renew s vs first needed) := by
    intro first needed
    unfold append.renew
    grind
  unfold append
  grind

theorem apart_tryReceive (id : ChanId) : Apart (tryReceive id) := by
  unfold tryReceive
  grind

end Heap

end StepGraph

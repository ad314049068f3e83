import StepGraph.Proofs.Machine.Nesting
import StepGraph.Proofs.Store.Trees

namespace StepGraph

variable {α β : Type}

-- A binding that is still the same, or names the same variable by the cell that it has now.
inductive Binding.Kept (cells : Array Cell) : Option Binding → Option Binding → Prop
  | same (b : Option Binding) : Kept cells b b
  | moved {v : Value} {a : Address} (ha : a ≠ 0) (hcell : cells[a - 1]? = some (.boxed v)) :
      Kept cells (some (.plain v)) (some (.shared a))

-- Nothing that was there before is different afterwards. There may be new blocks, cells, maps,
-- channels, scopes and cursors, and a variable may have got a cell for the value that it holds.
structure SparesHeap (h h' : Heap) : Prop where
  blocks : ∀ (i : Nat) b, h.blocks[i]? = some b → h'.blocks[i]? = some b
  cells : ∀ (i : Nat) c, h.cells[i]? = some c → h'.cells[i]? = some c
  maps : ∀ (i : Nat) m, h.maps[i]? = some m → h'.maps[i]? = some m
  chans : ∀ (i : Nat) c, h.chans[i]? = some c → h'.chans[i]? = some c
  cursors : ∀ (i : Nat) c, h.cursors[i]? = some c → h'.cursors[i]? = some c
  scopes : ∀ (s : ScopeId) sc, h.scopes[s]? = some sc → ∃ sc', h'.scopes[s]? = some sc' ∧
    sc'.parent = sc.parent ∧ ∀ x, Binding.Kept h'.cells (sc.bindings.lookup x) (sc'.bindings.lookup x)

theorem Array.kept_push {xs : Array α} (a : α) {i : Nat} {x : α} (h : xs[i]? = some x) :
    (xs.push a)[i]? = some x := by
  have hlt : i < xs.size := (Array.getElem?_eq_some_iff.mp h).1
  rw [Array.getElem?_push, if_neg (Nat.ne_of_lt hlt)]
  exact h

namespace SparesHeap

variable {h h' h'' : Heap}

theorem cell? (hs : SparesHeap h h') {a : Address} {c : Cell} (hc : h.cell? a = some c) :
    h'.cell? a = some c := by
  unfold Heap.cell? at hc ⊢
  split at hc
  · cases hc
  · next ha =>
      rw [if_neg ha]
      exact hs.cells _ _ hc

theorem kept_refl {cells : Array Cell} {scopes : Array Scope} (s : ScopeId) (sc : Scope)
    (hsc : scopes[s]? = some sc) : ∃ sc', scopes[s]? = some sc' ∧ sc'.parent = sc.parent ∧
      ∀ x, Binding.Kept cells (sc.bindings.lookup x) (sc'.bindings.lookup x) :=
  ⟨sc, hsc, rfl, fun _ => .same _⟩

theorem refl (h : Heap) : SparesHeap h h where
  blocks _ _ := id
  cells _ _ := id
  maps _ _ := id
  chans _ _ := id
  cursors _ _ := id
  scopes := kept_refl

theorem trans (h₁ : SparesHeap h h') (h₂ : SparesHeap h' h'') : SparesHeap h h'' where
  blocks i b hb := h₂.blocks i b (h₁.blocks i b hb)
  cells i c hc := h₂.cells i c (h₁.cells i c hc)
  maps i m hm := h₂.maps i m (h₁.maps i m hm)
  chans i c hc := h₂.chans i c (h₁.chans i c hc)
  cursors i c hc := h₂.cursors i c (h₁.cursors i c hc)
  scopes s sc hsc := by
    obtain ⟨sc', hsc', hparent, hkept⟩ := h₁.scopes s sc hsc
    obtain ⟨sc'', hsc'', hparent', hkept'⟩ := h₂.scopes s sc' hsc'
    refine ⟨sc'', hsc'', hparent'.trans hparent, fun x => ?_⟩
    have hx := hkept x
    have hx' := hkept' x
    revert hx hx'
    generalize sc.bindings.lookup x = b
    generalize sc'.bindings.lookup x = b'
    generalize sc''.bindings.lookup x = b''
    intro hx hx'
    cases hx with
    | same => exact hx'
    | moved ha hcell =>
        cases hx' with
        | same => exact .moved ha (h₂.cells _ _ hcell)

theorem of_blocks {blocks : Array (Array Value)}
    (hb : ∀ (i : Nat) b, h.blocks[i]? = some b → blocks[i]? = some b) :
    SparesHeap h { h with blocks } :=
  ⟨hb, fun _ _ => id, fun _ _ => id, fun _ _ => id, fun _ _ => id, kept_refl⟩

theorem of_cells {cells : Array Cell}
    (hc : ∀ (i : Nat) c, h.cells[i]? = some c → cells[i]? = some c) :
    SparesHeap h { h with cells } :=
  ⟨fun _ _ => id, hc, fun _ _ => id, fun _ _ => id, fun _ _ => id, kept_refl⟩

theorem of_maps {maps : Array (List Entry)}
    (hm : ∀ (i : Nat) m, h.maps[i]? = some m → maps[i]? = some m) :
    SparesHeap h { h with maps } :=
  ⟨fun _ _ => id, fun _ _ => id, hm, fun _ _ => id, fun _ _ => id, kept_refl⟩

theorem of_chans {chans : Array Chan}
    (hc : ∀ (i : Nat) c, h.chans[i]? = some c → chans[i]? = some c) :
    SparesHeap h { h with chans } :=
  ⟨fun _ _ => id, fun _ _ => id, fun _ _ => id, hc, fun _ _ => id, kept_refl⟩

theorem of_errors (errors : Nat) : SparesHeap h { h with errors } :=
  ⟨fun _ _ => id, fun _ _ => id, fun _ _ => id, fun _ _ => id, fun _ _ => id, kept_refl⟩

theorem of_scopes {scopes : Array Scope} (hs : ∀ (s : ScopeId) sc, h.scopes[s]? = some sc →
      ∃ sc', scopes[s]? = some sc' ∧ sc'.parent = sc.parent ∧
        ∀ x, Binding.Kept h.cells (sc.bindings.lookup x) (sc'.bindings.lookup x)) :
    SparesHeap h { h with scopes } :=
  ⟨fun _ _ => id, fun _ _ => id, fun _ _ => id, fun _ _ => id, fun _ _ => id, hs⟩

theorem of_grows (hg : Heap.GrowsByBlocks h h') : SparesHeap h h' := by
  rw [hg.rest]
  refine of_blocks fun i b hb => ?_
  have hlt : i < h.blocks.size := (Array.getElem?_eq_some_iff.mp hb).1
  have hsame := hg.same i hlt
  unfold Heap.block at hsame
  rw [hb] at hsame
  have hlt' : i < h'.blocks.size := Nat.lt_of_lt_of_le hlt hg.size
  rw [Array.getElem?_eq_getElem hlt'] at hsame ⊢
  exact congrArg some hsame

-- A change within blocks that have come since.
theorem within {bs : List BlockId} (hs : SparesHeap h h') (hnew : ∀ b ∈ bs, h.blocks.size ≤ b)
    (hw : Heap.ChangesWithin bs h' h'') : SparesHeap h h'' := by
  rw [hw.rest]
  refine ⟨fun i b hb => ?_, hs.cells, hs.maps, hs.chans, hs.cursors, hs.scopes⟩
  have hlt : i < h.blocks.size := (Array.getElem?_eq_some_iff.mp hb).1
  have hold := hs.blocks i b hb
  have hlt' : i < h'.blocks.size := (Array.getElem?_eq_some_iff.mp hold).1
  have hsame := hw.same i fun hm => Nat.not_lt_of_le (hnew i hm) hlt
  unfold Heap.block at hsame
  rw [hold, Array.getElem?_eq_getElem (hw.count ▸ hlt')] at hsame
  rw [Array.getElem?_eq_getElem (hw.count ▸ hlt')]
  exact congrArg some hsame

theorem block_eq (hs : SparesHeap h h') {b : BlockId} (hb : b < h.blocks.size) :
    h'.block b = h.block b := by
  have hold := Array.getElem?_eq_getElem hb
  unfold Heap.block
  rw [hold, hs.blocks _ _ hold]

theorem binds_eq (hs : SparesHeap h h') {s : ScopeId} (hlt : s < h.scopes.size) (x : String) :
    h'.binds s x = h.binds s x := by
  have hold := Array.getElem?_eq_getElem hlt
  obtain ⟨sc', hsc', -, hkept⟩ := hs.scopes s _ hold
  have hx := hkept x
  unfold Heap.binds Heap.binding?
  rw [hold, hsc']
  change (sc'.bindings.lookup x).isSome = (h.scopes[s].bindings.lookup x).isSome
  generalize h.scopes[s].bindings.lookup x = b at hx ⊢
  generalize sc'.bindings.lookup x = b' at hx ⊢
  cases hx <;> rfl

-- Every variable has the value that it had.
theorem local? (hs : SparesHeap h h') {s : ScopeId} {x : String} {v : Value}
    (hv : h.local? s x = some v) : h'.local? s x = some v := by
  unfold Heap.local? Heap.binding? at hv ⊢
  cases hsc : h.scopes[s]? with
  | none =>
      rw [hsc] at hv
      cases hv
  | some sc =>
      obtain ⟨sc', hsc', -, hkept⟩ := hs.scopes s sc hsc
      have hx := hkept x
      rw [hsc] at hv
      rw [hsc']
      change (sc.bindings.lookup x).bind h.bindingValue? = some v at hv
      change (sc'.bindings.lookup x).bind h'.bindingValue? = some v
      generalize sc.bindings.lookup x = b at hx hv
      generalize sc'.bindings.lookup x = b' at hx ⊢
      cases hx with
      | same =>
          cases b with
          | none => cases hv
          | some b =>
              cases b with
              | plain w => exact hv
              | shared a =>
                  change h.read? (.cell a) = some v at hv
                  change h'.read? (.cell a) = some v
                  unfold Heap.read? at hv ⊢
                  simp only at hv ⊢
                  cases hc : h.cell? a with
                  | none =>
                      rw [hc] at hv
                      cases hv
                  | some c =>
                      rw [hc] at hv
                      rw [hs.cell? hc]
                      exact hv
      | @moved _ a ha hcell =>
          cases hv
          have hc : h'.cell? a = some (.boxed v) := by
            unfold Heap.cell?
            rw [if_neg ha, hcell]
          change h'.read? (.cell a) = _
          unfold Heap.read?
          simp only [hc]

end SparesHeap

-- An operation on the heap that spares what is there.
def HeapM.Sparing (x : HeapM α) : Prop := ∀ h, SparesHeap h (x h).2

namespace HeapM.Sparing

theorem pure (a : α) : Sparing (pure a : HeapM α) := fun h => .refl h

theorem bind {x : HeapM α} {f : α → HeapM β} (hx : Sparing x) (hf : ∀ a, Sparing (f a)) :
    Sparing (x >>= f) := fun h => (hx h).trans (hf _ _)

theorem get : Sparing (get : HeapM Heap) := fun h => .refl h

end HeapM.Sparing

-- Such an operation that has nothing to do with the scopes either.
structure HeapM.Gentle (x : HeapM α) : Prop where
  apart : Apart x
  sparing : Sparing x

namespace HeapM.Gentle

theorem pure (a : α) : Gentle (pure a : HeapM α) := ⟨.pure a, .pure a⟩

theorem bind {x : HeapM α} {f : α → HeapM β} (hx : Gentle x) (hf : ∀ a, Gentle (f a)) :
    Gentle (x >>= f) := ⟨hx.apart.bind fun a => (hf a).apart, hx.sparing.bind fun a => (hf a).sparing⟩

theorem get : Gentle (get : HeapM Heap) := ⟨.get, .get⟩

end HeapM.Gentle

namespace Heap

open HeapM (Sparing Gentle)

theorem gentle_newBlock (vs : Array Value) : Gentle (newBlock vs) :=
  ⟨apart_newBlock vs, fun _ => .of_blocks fun _ _ => Array.kept_push _⟩

theorem gentle_newCell (c : Cell) : Gentle (newCell c) :=
  ⟨apart_newCell c, fun _ => .of_cells fun _ _ => Array.kept_push _⟩

theorem gentle_box (v : Value) : Gentle (box v) := gentle_newCell _

theorem gentle_newMap : Gentle newMap := ⟨apart_newMap, fun _ => .of_maps fun _ _ => Array.kept_push _⟩

theorem gentle_newChan (capacity : Nat) (zero : Value) : Gentle (newChan capacity zero) :=
  ⟨apart_newChan capacity zero, fun _ => .of_chans fun _ _ => Array.kept_push _⟩

theorem gentle_newError (message : String) (runtime : Bool) : Gentle (newError message runtime) :=
  ⟨apart_newError message runtime, fun _ => .of_errors _⟩

theorem gentle_ofConstant (k : Constant) : Gentle (ofConstant k) :=
  ⟨apart_ofConstant k, fun h => .of_grows (built_ofConstant k h).grows⟩

theorem gentle_copy (v : Value) : Gentle (copy v) :=
  ⟨apart_copy v, fun h => .of_grows (grows_copyUpTo _ v h)⟩

theorem gentle_newSlice (vs : List Value) : Gentle (newSlice vs) :=
  .bind (gentle_newBlock _) fun _ => .pure _

theorem gentle_newArray (vs : List Value) : Gentle (newArray vs) :=
  .bind (gentle_newBlock _) fun _ => .pure _

theorem gentle_slotAddress (b : BlockId) (i : Nat) : Gentle (slotAddress b i) := by
  refine .bind .get fun h => ?_
  split
  · exact .pure _
  · exact gentle_newCell _

-- A change of scopes that keeps what their names stand for.
theorem sparing_modifyScope {f : Scope → Scope}
    (hf : ∀ sc, (f sc).parent = sc.parent ∧ (f sc).bindings = sc.bindings) (s : ScopeId) :
    Sparing (modifyScope s f) := by
  refine fun h => .of_scopes fun t sc hsc => ?_
  rw [Array.getElem?_modify, hsc]
  split
  · exact ⟨f sc, rfl, (hf sc).1, fun x => by rw [(hf sc).2]; exact .same _⟩
  · exact ⟨sc, rfl, rfl, fun _ => .same _⟩

theorem sparing_markEscaped (s : ScopeId) : Sparing (markEscaped s) := by
  have hupTo : ∀ n s, Sparing (markEscapedUpTo n s) := by
    intro n
    induction n with
    | zero => exact fun _ => .pure _
    | succ n ih =>
        intro s
        have hmodify : ∀ s, Sparing (modifyScope s fun sc => { sc with escaped := true }) :=
          sparing_modifyScope fun _ => ⟨rfl, rfl⟩
        unfold markEscapedUpTo
        refine .bind .get fun h => ?_
        split
        · exact .pure _
        · refine .bind (hmodify s) fun _ => .bind .get fun h => ?_
          split
          · exact ih _
          · exact .pure _
  exact hupTo _ s

-- The first address of a variable moves its value into a cell.
theorem sparing_variableAddress (s : ScopeId) (name : String) :
    Sparing (variableAddress s name) := by
  intro h
  unfold variableAddress
  rw [get_bind]
  cases hv : h.binding? s name with
  | none => exact .refl h
  | some b =>
      cases b with
      | shared a => exact .refl h
      | plain v =>
          refine ((gentle_box v).sparing h).trans (.of_scopes fun t sc hsc => ?_)
          change h.scopes[t]? = some sc at hsc
          change ∃ sc', (h.scopes.modify s _)[t]? = some sc' ∧ _
          rw [Array.getElem?_modify, hsc]
          split
          · next heq =>
              subst heq
              refine ⟨_, rfl, rfl, fun x => ?_⟩
              unfold binding? at hv
              rw [hsc] at hv
              change sc.bindings.lookup name = _ at hv
              change Binding.Kept _ _ ((setBinding name _ sc.bindings).lookup x)
              rw [lookup_setBinding]
              split
              · next hx =>
                  subst hx
                  rw [hv]
                  refine .moved (Nat.succ_ne_zero _) ?_
                  change (h.cells.push (.boxed v))[h.cells.size + 1 - 1]? = _
                  simp
              · exact .same _
          · exact ⟨sc, rfl, rfl, fun _ => .same _⟩

end Heap

namespace TypeTable

open HeapM (Gentle)

variable (t : TypeTable)

theorem gentle_zeroValue (ty : Ty) : Gentle (t.zeroValue ty) := Heap.gentle_ofConstant _

theorem gentle_coerce (v : Value) (ty : Ty) : Gentle (t.coerce v ty) := by
  unfold coerce
  split
  · exact t.gentle_zeroValue ty
  · exact .pure _

theorem gentle_elementOf (v : Value) (ty : Ty) : Gentle (t.elementOf v ty) :=
  .bind (Heap.gentle_copy v) fun v => t.gentle_coerce v ty

end TypeTable

end StepGraph

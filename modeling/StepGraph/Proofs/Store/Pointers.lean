import StepGraph.Proofs.Store.Assignment
import StepGraph.Proofs.Store.Cells
import StepGraph.Proofs.Store.SlotTable

namespace StepGraph

open Heap

variable {h h' h'' : Heap} {s o r : ScopeId} {x y : String} {b : BlockId} {a i n : Nat}
  {v w : Value}

-- The variables with cells keep them, and so do the parts of blocks. No other variable has got a
-- cell, and no other part.
structure CellsSteady (h h' : Heap) : Prop where
  shared : ∀ s x a, h'.binding? s x = some (.shared a) ↔ h.binding? s x = some (.shared a)
  slot : ∀ a b i, h'.cell? a = some (.slot b i) ↔ h.cell? a = some (.slot b i)
  boxed : ∀ a v, h.cell? a = some (.boxed v) → ∃ v', h'.cell? a = some (.boxed v')

namespace CellsSteady

theorem refl (h : Heap) : CellsSteady h h :=
  ⟨fun _ _ _ => .rfl, fun _ _ _ => .rfl, fun _ v hv => ⟨v, hv⟩⟩

theorem trans (h₁ : CellsSteady h h') (h₂ : CellsSteady h' h'') : CellsSteady h h'' where
  shared s x a := (h₂.shared s x a).trans (h₁.shared s x a)
  slot a b i := (h₂.slot a b i).trans (h₁.slot a b i)
  boxed a v hv := by
    obtain ⟨v', hv'⟩ := h₁.boxed a v hv
    exact h₂.boxed a v' hv'

-- Cells and scopes are the same.
theorem of_same (hcells : h'.cells = h.cells) (hscopes : h'.scopes = h.scopes) :
    CellsSteady h h' := by
  have hcell : ∀ a, h'.cell? a = h.cell? a := fun a => by
    unfold cell?
    rw [hcells]
  have hbinding : ∀ s x, h'.binding? s x = h.binding? s x := fun s x => by
    unfold binding?
    rw [hscopes]
  refine ⟨fun s x a => by rw [hbinding], fun a b i => by rw [hcell], fun a v hv => ⟨v, ?_⟩⟩
  rw [hcell, hv]

theorem setElement (h : Heap) (b : BlockId) (i : Nat) (v : Value) :
    CellsSteady h (setElement b i v h).2 := of_same rfl rfl

-- A variable without a cell gets a value.
theorem bind (hx : ∀ a, h.binding? s x ≠ some (.shared a)) (v : Value) :
    CellsSteady h (bind s x (.plain v) h).2 := by
  refine ⟨fun s' y a => ?_, fun _ _ _ => .rfl, fun _ v hv => ⟨v, hv⟩⟩
  by_cases hs : s < h.scopes.size
  · rw [binding?_bind h s s' x y _ hs]
    split
    · next he =>
        obtain ⟨rfl, rfl⟩ := he
        simp [hx a]
    · rfl
  · have hsame : (Heap.bind s x (.plain v) h).2.scopes = h.scopes := by
      apply Array.ext_getElem?
      intro j
      change (h.scopes.modify s _)[j]? = _
      rw [Array.getElem?_modify]
      split
      · next he =>
          subst he
          simp [Nat.le_of_not_lt hs]
      · rfl
    have hsteady : CellsSteady h (Heap.bind s x (.plain v) h).2 := of_same rfl hsame
    exact hsteady.shared s' y a

theorem setCell (hv : h.cell? a = some (.boxed v)) (w : Value) :
    CellsSteady h (write w (.cell a) h).2 := by
  have hlt := cell?_lt hv
  have hcell : ∀ c : Nat,
      (Heap.write w (.cell a) h).2.cell? c = if c = a then some (.boxed w) else h.cell? c := by
    intro c
    change cell? { h with cells := h.cells.set! (a - 1) (.boxed w) } c = _
    unfold cell? at hv ⊢
    have ha : a ≠ 0 := fun ha => by simp [ha] at hv
    by_cases hc : c = 0
    · rw [if_pos hc, if_pos hc, if_neg (hc ▸ ha.symm)]
    · simp only [if_neg hc, Array.set!_eq_setIfInBounds, Array.getElem?_setIfInBounds]
      by_cases hca : c = a
      · rw [if_pos hca, if_pos (by omega), if_pos (by omega)]
      · rw [if_neg hca, if_neg (by omega)]
  refine ⟨fun _ _ _ => .rfl, fun c b i => ?_, fun c u hu => ?_⟩
  · rw [hcell]
    split
    · next he => simp [he, hv]
    · rfl
  · rw [hcell]
    split
    · exact ⟨w, rfl⟩
    · exact ⟨u, hu⟩

theorem newScope (parent : Option ScopeId) (h : Heap) : CellsSteady h (newScope parent h).2 := by
  refine ⟨fun s x a => ?_, fun _ _ _ => .rfl, fun _ v hv => ⟨v, hv⟩⟩
  change binding? { h with scopes := h.scopes.push ⟨[], parent, false⟩ } s x = _ ↔ _
  unfold binding?
  rw [Array.getElem?_push]
  split
  · next hs => simp [hs]
  · rfl

theorem box (v : Value) (h : Heap) : CellsSteady h (box v h).2 := by
  refine ⟨fun _ _ _ => .rfl, fun c b i => ?_, fun c u hu => ⟨u, ?_⟩⟩
  · change (newCell (.boxed v) h).2.cell? c = _ ↔ _
    rw [cell?_newCell]
    split
    · next he =>
        have hnone : h.cell? c ≠ some (.slot b i) := fun hc => absurd (cell?_lt hc) (by omega)
        simp [hnone]
    · rfl
  · change (newCell (.boxed v) h).2.cell? c = _
    exact cell?_newCell_of_some hu

-- A store into a place that holds something, or into an element of a block.
theorem write {p : Place} (hp : (h.read? p).isSome ∨ ∃ b i, p = .element b i) (v : Value) :
    CellsSteady h (write v p h).2 := by
  cases p with
  | element b i => exact .setElement h b i v
  | cell a =>
      obtain ⟨u, hu⟩ := Option.isSome_iff_exists.mp (hp.resolve_right (by simp))
      have hcell : h.cell? a = some (.boxed u) := by
        unfold read? at hu
        cases hc : h.cell? a with
        | none => simp [hc] at hu
        | some c =>
            cases c with
            | slot b i => simp [hc] at hu
            | boxed w => simpa [hc] using hu
      exact .setCell hcell v
  | «variable» s x =>
      obtain ⟨u, hu⟩ := Option.isSome_iff_exists.mp (hp.resolve_right (by simp))
      refine .bind (fun a ha => ?_) v
      simp [read?, ha] at hu

theorem storeUpTo (n : Nat) {p : Place} (hp : (h.read? p).isSome ∨ ∃ b i, p = .element b i) (v : Value) :
    CellsSteady h (storeUpTo n p v h).2 := by
  induction n generalizing h p v with
  | zero => exact .write hp v
  | succ n ih =>
      cases hf : h.filledBlock? (h.read? p) v with
      | none =>
          rw [storeUpTo_of_not_filled hf]
          exact .write hp v
      | some blocks =>
          obtain ⟨old, new⟩ := blocks
          rw [storeUpTo_of_filled hf]
          generalize (h.block new).toList.take (h.block old).size = items
          have hfill : ∀ (items : List Value) (i : Nat) (h : Heap),
              CellsSteady h (fill n old i items h).2 := by
            intro items
            induction items with
            | nil => exact fun _ h => .refl h
            | cons item items ihs =>
                intro i h
                rw [fill_cons]
                exact (ih (.inr ⟨old, i, rfl⟩) item).trans (ihs (i + 1) _)
          exact hfill items 0 h

theorem store {p : Place} (hp : (h.read? p).isSome ∨ ∃ b i, p = .element b i) (v : Value) :
    CellsSteady h (store p v h).2 := .storeUpTo h.depth hp v

end CellsSteady

-- The part that an index leads to: a field of a struct, or an element of the block of an array or
-- behind a slice.
def Value.part? (v : Value) (i : Nat) : Option (BlockId × Nat) :=
  match v with
  | .struct s => some (s.block, i)
  | .array b => some (b, i)
  | .slice (some w) => some (w.block, w.offset + i)
  | _ => none

theorem partAddress?_eq {part : BlockId × Nat} (hpart : v.part? i = some part) (h : Heap) :
    partAddress? v i h =
      (some (slotAddress part.1 part.2 h).1, (slotAddress part.1 part.2 h).2) := by
  unfold Value.part? at hpart
  split at hpart <;> cases hpart <;> rfl

-- The scope that owns a name binds it.
theorem Heap.binds_of_owner? (ho : h.owner? s x = some o) : h.binds o x := by
  have hup : ∀ n s, h.ownerUpTo x n s = some o → h.binds o x := by
    intro n
    induction n with
    | zero => exact fun s hs => by cases hs
    | succ n ih =>
        intro s hs
        unfold ownerUpTo at hs
        split at hs
        · next hb =>
            cases hs
            exact hb
        · split at hs
          · exact ih _ hs
          · cases hs
  exact hup _ s ho

-- A pointer, with what its address was taken of. A cell stands for a variable without a name.
structure Held where
  address : Address
  of : Place

-- Scopes and blocks, and the pointers that are held.
structure Session where
  heap : Heap
  slots : SlotTable
  held : List Held

namespace Session

-- What a program does with variables, parts of values and pointers to them. Some addresses may be
-- in use besides those that are held here, and `elsewhere` is anything that leaves variables and
-- cells alone.
inductive Action where
  | openScope (parent : Option ScopeId)
  | define (scope : ScopeId) (name : String) (v : Value)
  | assign (scope : ScopeId) (name : String) (v : Value)
  | addressOf (scope : ScopeId) (name : String)
  | addressOfPart (base : Value) (index : Nat) (inUse : Address → Bool)
  | box (v : Value)
  | storeThrough (a : Address) (v : Value)
  | storePart (base : Value) (index : Nat) (v : Value)
  | letGo (number : Nat)
  | elsewhere (h : Heap)

def start : Session := ⟨.empty, .empty, []⟩

def holds (st : Session) (a : Address) : Bool := st.held.any (·.address == a)

def onHeap (st : Session) (x : HeapM Unit) : Session := { st with heap := (x st.heap).2 }

def perform (st : Session) : Action → Session
  | .openScope parent => st.onHeap (discard (newScope parent))
  | .define s x v => st.onHeap (declare s x v)
  | .assign s x v => st.onHeap (discard (Heap.assign s x v))
  | .addressOf s x =>
      match st.heap.owner? s x with
      | some o =>
          match variableAddress o x st.heap with
          | (some a, h) => { st with heap := h, held := ⟨a, .variable o x⟩ :: st.held }
          | (none, h) => { st with heap := h }
      | none => st
  | .addressOfPart base i inUse =>
      match base.part? i with
      | some part =>
          let ((a, slots), h) := st.slots.address (fun c => st.holds c || inUse c) part st.heap
          ⟨h, slots, ⟨a, .element part.1 part.2⟩ :: st.held⟩
      | none => st
  | .box v =>
      let (a, h) := Heap.box v st.heap
      { st with heap := h, held := ⟨a, .cell a⟩ :: st.held }
  | .storeThrough a v => st.onHeap (discard (storeAt a v).run)
  | .storePart base i v =>
      match base.part? i with
      | some part => st.onHeap (store (.element part.1 part.2) v)
      | none => st
  | .letGo n => { st with held := st.held.eraseIdx n }
  | .elsewhere h => { st with heap := { h with cells := st.heap.cells, scopes := st.heap.scopes } }

def run (st : Session) (actions : List Action) : Session := actions.foldl perform st

-- How a pointer leads to what its address was taken of.
def PointerLeads (st : Session) (p : Held) : Prop :=
  match p.of with
  | .variable s x => st.heap.binding? s x = some (.shared p.address)
  | .element b i => st.slots.entries.lookup (b, i) = some p.address
  | .cell a => p.address = a ∧ (∃ v, st.heap.cell? a = some (.boxed v)) ∧
      ∀ s x, st.heap.binding? s x ≠ some (.shared a)

-- Variables have cells of their own, and all pointers lead to what they are pointers to.
structure WellFormed (st : Session) : Prop where
  boxed : ∀ s x a, st.heap.binding? s x = some (.shared a) → ∃ v, st.heap.cell? a = some (.boxed v)
  apart : ∀ s x s' x' a, st.heap.binding? s x = some (.shared a) →
    st.heap.binding? s' x' = some (.shared a) → s = s' ∧ x = x'
  slots : st.slots.Sound st.heap
  held : ∀ p ∈ st.held, st.PointerLeads p

variable {st : Session} {p q : Held}

theorem wellFormed_start : start.WellFormed where
  boxed s x a h := by simp [start, Heap.empty, binding?] at h
  apart s x s' x' a h := by simp [start, Heap.empty, binding?] at h
  slots e he := by cases he
  held p hp := by cases hp

namespace WellFormed

theorem steady (hst : st.WellFormed) (hs : CellsSteady st.heap h) :
    ({ st with heap := h } : Session).WellFormed where
  boxed s x a ha := by
    obtain ⟨v, hv⟩ := hst.boxed s x a ((hs.shared s x a).mp ha)
    exact hs.boxed a v hv
  apart s x s' x' a ha ha' :=
    hst.apart s x s' x' a ((hs.shared s x a).mp ha) ((hs.shared s' x' a).mp ha')
  slots e he := (hs.slot _ _ _).mpr (hst.slots e he)
  held p hp := by
    have hleads := hst.held p hp
    unfold PointerLeads at hleads ⊢
    split
    · next s x hof =>
        rw [hof] at hleads
        exact (hs.shared s x _).mpr hleads
    · next b i hof =>
        rw [hof] at hleads
        exact hleads
    · next a hof =>
        rw [hof] at hleads
        obtain ⟨haddr, ⟨v, hv⟩, hfree⟩ := hleads
        exact ⟨haddr, hs.boxed a v hv, fun s x hx => hfree s x ((hs.shared s x a).mp hx)⟩

-- The cell of a variable is within the heap.
theorem isSome_cell (hst : st.WellFormed) (hx : st.heap.binding? s x = some (.shared a)) :
    (st.heap.read? (.cell a)).isSome := by
  obtain ⟨v, hv⟩ := hst.boxed s x a hx
  simp [read?, hv]

-- A variable holds something, in its cell or by itself.
theorem isSome_location (hst : st.WellFormed) {place : Place}
    (hl : st.heap.location? s x = some place) :
    (st.heap.read? place).isSome := by
  obtain ⟨b, hb, rfl⟩ := Option.map_eq_some_iff.mp hl
  cases b with
  | plain v => simp [read?, hb]
  | shared a => exact hst.isSome_cell hb

theorem steady_declare (hst : st.WellFormed) (s : ScopeId) (x : String) (v : Value) :
    CellsSteady st.heap (declare s x v st.heap).2 := by
  unfold declare
  rw [get_bind]
  cases hb : st.heap.binding? s x with
  | none => exact .bind (by simp [hb]) v
  | some b =>
      cases b with
      | plain w => exact .bind (by simp [hb]) v
      | shared a => exact .store (.inl (hst.isSome_cell hb)) v

theorem steady_assign (hst : st.WellFormed) (s : ScopeId) (x : String) (v : Value) :
    CellsSteady st.heap (Heap.assign s x v st.heap).2 := by
  cases hl : (st.heap.owner? s x).bind fun o => st.heap.location? o x with
  | some place =>
      rw [Program.assign_location hl]
      obtain ⟨o, -, hl⟩ := Option.bind_eq_some_iff.mp hl
      exact .store (.inl (hst.isSome_location hl)) v
  | none =>
      unfold Heap.assign
      rw [get_bind]
      cases ho : st.heap.owner? s x with
      | none => exact .refl _
      | some o =>
          rw [ho, Option.bind_some] at hl
          change CellsSteady _ (setLocal o x v st.heap).2
          unfold setLocal
          rw [get_bind, hl]
          exact .refl _

theorem steady_storeAt (a : Address) (v : Value) (h : Heap) : CellsSteady h (storeAt a v h).2 := by
  unfold storeAt
  rw [Program.Attempt.get_bind]
  cases placeOf a (h.cell? a) with
  | none => exact .refl _
  | some place =>
      by_cases hread : (h.read? place).isSome
      · simp only [if_pos hread]
        exact .store (.inl hread) v
      · simp only [if_neg hread]
        exact .refl _

-- Pointers go on leading where they lead as the heap gets a cell, unless it is theirs already.
theorem leads_newCell (hp : st.PointerLeads p) (c : Cell) :
    ({ st with heap := (newCell c st.heap).2 } : Session).PointerLeads p := by
  unfold PointerLeads at hp ⊢
  split
  · next s x hof =>
      rw [hof] at hp
      exact hp
  · next b i hof =>
      rw [hof] at hp
      exact hp
  · next a hof =>
      rw [hof] at hp
      obtain ⟨haddr, ⟨v, hv⟩, hfree⟩ := hp
      exact ⟨haddr, ⟨v, cell?_newCell_of_some hv⟩, hfree⟩

theorem newCell (hst : st.WellFormed) (c : Cell) :
    ({ st with heap := (newCell c st.heap).2 } : Session).WellFormed where
  boxed s x a ha := by
    obtain ⟨v, hv⟩ := hst.boxed s x a ha
    exact ⟨v, cell?_newCell_of_some hv⟩
  apart := hst.apart
  slots := hst.slots.newCell c
  held p hp := leads_newCell (hst.held p hp) c

-- No variable has a cell that is not there yet.
theorem fresh (hst : st.WellFormed) (s : ScopeId) (x : String) :
    st.heap.binding? s x ≠ some (.shared (st.heap.cells.size + 1)) := fun hx => by
  obtain ⟨v, hv⟩ := hst.boxed s x _ hx
  exact Nat.lt_irrefl _ (cell?_lt hv)

-- A variable moves into a cell that nothing leads to.
theorem share (hst : st.WellFormed) (hx : st.heap.binding? s x = some (.plain v))
    (ha : st.heap.cell? a = some (.boxed v)) (hfree : ∀ s x, st.heap.binding? s x ≠ some (.shared a))
    (hheld : ∀ p ∈ st.held, p.address ≠ a) :
    ({ st with heap := (Heap.bind s x (.shared a) st.heap).2 } : Session).WellFormed := by
  have hbinding := fun s' y =>
    binding?_bind st.heap s s' x y (.shared a) (lt_scopes_of_binding? hx)
  -- Only this variable has the cell.
  have honly : ∀ s' y c, (Heap.bind s x (.shared a) st.heap).2.binding? s' y = some (.shared c) →
      (s' = s ∧ y = x ∧ c = a) ∨ (c ≠ a ∧ st.heap.binding? s' y = some (.shared c)) := by
    intro s' y c hc
    rw [hbinding] at hc
    split at hc
    · next he =>
        cases hc
        exact .inl ⟨he.1.symm, he.2, rfl⟩
    · refine .inr ⟨?_, hc⟩
      rintro rfl
      exact hfree s' y hc
  refine ⟨fun s' y c hc => ?_, fun s₁ x₁ s₂ x₂ c h₁ h₂ => ?_, hst.slots, fun p hp => ?_⟩
  · rcases honly s' y c hc with ⟨-, -, rfl⟩ | ⟨-, hc⟩
    · exact ⟨v, ha⟩
    · exact hst.boxed s' y c hc
  · rcases honly s₁ x₁ c h₁ with ⟨rfl, rfl, rfl⟩ | ⟨hne, h₁⟩ <;>
      rcases honly s₂ x₂ c h₂ with ⟨rfl, rfl, hc⟩ | ⟨hne', h₂⟩
    · exact ⟨rfl, rfl⟩
    · exact absurd rfl hne'
    · exact absurd hc hne
    · exact hst.apart _ _ _ _ c h₁ h₂
  · have hleads := hst.held p hp
    unfold PointerLeads at hleads ⊢
    split
    · next s' y hof =>
        rw [hof] at hleads
        simp only at hleads ⊢
        rw [hbinding, if_neg]
        · exact hleads
        · rintro ⟨rfl, rfl⟩
          rw [hx] at hleads
          cases hleads
    · next b i hof =>
        rw [hof] at hleads
        exact hleads
    · next c hof =>
        rw [hof] at hleads
        obtain ⟨haddr, hbox, hunnamed⟩ := hleads
        refine ⟨haddr, hbox, fun s' y hc => ?_⟩
        rcases honly s' y c hc with ⟨-, -, rfl⟩ | ⟨-, hc⟩
        · exact hheld p hp haddr
        · exact hunnamed s' y hc

-- All pointers are to cells.
theorem cell_held (hst : st.WellFormed) (hp : p ∈ st.held) :
    ∃ c, st.heap.cell? p.address = some c := by
  have hleads := hst.held p hp
  unfold PointerLeads at hleads
  split at hleads
  · obtain ⟨v, hv⟩ := hst.boxed _ _ _ hleads
    exact ⟨_, hv⟩
  · exact ⟨_, hst.slots _ (SlotTable.mem_of_lookup hleads)⟩
  · obtain ⟨haddr, ⟨v, hv⟩, -⟩ := hleads
    exact ⟨_, haddr ▸ hv⟩

theorem hold (hst : st.WellFormed) (hp : st.PointerLeads p) :
    ({ st with held := p :: st.held } : Session).WellFormed where
  boxed := hst.boxed
  apart := hst.apart
  slots := hst.slots
  held q hq := by
    rcases List.mem_cons.mp hq with rfl | hq
    · exact hp
    · exact hst.held q hq

theorem addressOf (hst : st.WellFormed) (s : ScopeId) (x : String) :
    (st.perform (.addressOf s x)).WellFormed := by
  unfold perform
  simp only
  split
  · next o ho =>
      unfold variableAddress
      rw [get_bind]
      cases hb : st.heap.binding? o x with
      | none => exact hst
      | some b =>
          cases b with
          | shared a => exact hst.hold (p := ⟨a, .variable o x⟩) hb
          | plain v =>
              have hbox := hst.newCell (Cell.boxed v)
              have hcell : (Heap.newCell (Cell.boxed v) st.heap).2.cell? (st.heap.cells.size + 1) =
                  some (.boxed v) := by rw [cell?_newCell, if_pos rfl]
              have hshare := hbox.share hb hcell hst.fresh fun p hp he => by
                obtain ⟨c, hc⟩ := hst.cell_held hp
                exact Nat.lt_irrefl _ (he ▸ cell?_lt hc)
              refine hshare.hold (p := ⟨st.heap.cells.size + 1, .variable o x⟩) ?_
              exact (binding?_bind _ o o x x _ (lt_scopes_of_binding? hb)).trans (if_pos ⟨rfl, rfl⟩)
  · exact hst

theorem addressOfPart (hst : st.WellFormed) (base : Value) (i : Nat) (inUse : Address → Bool) :
    (st.perform (.addressOfPart base i inUse)).WellFormed := by
  unfold perform
  simp only
  split
  · next part hpart =>
      have hslots := hst.slots.address (fun c => st.holds c || inUse c) part
      rcases st.slots.address_cases (fun c => st.holds c || inUse c) part st.heap with
        ⟨a, hlookup, -, haddress⟩ | ⟨hnot, haddress⟩
      · rw [haddress]
        exact hst.hold (p := ⟨a, .element part.1 part.2⟩) hlookup
      · rw [haddress] at hslots ⊢
        have hnew := hst.newCell (.slot part.1 part.2)
        have hsound : (⟨(Heap.newCell (.slot part.1 part.2) st.heap).2, st.slots.insert
            (fun c => c == st.heap.cells.size + 1 || (st.holds c || inUse c)) part
            (st.heap.cells.size + 1), st.held⟩ : Session).WellFormed := by
          refine ⟨hnew.boxed, hnew.apart, hslots, fun p hp => ?_⟩
          have hleads := hnew.held p hp
          unfold PointerLeads at hleads ⊢
          split
          · next s x hof =>
              rw [hof] at hleads
              exact hleads
          -- The address of a pointer is in use, so neither a sweep nor another part takes it.
          · next b j hof =>
              rw [hof] at hleads
              have hholds : st.holds p.address = true :=
                List.any_eq_true.mpr ⟨p, hp, beq_self_eq_true _⟩
              refine SlotTable.lookup_insert_of_ne ?_ hleads (by simp [hholds])
              rintro rfl
              simpa [hholds] using hnot _ hleads
          · next c hof =>
              rw [hof] at hleads
              exact hleads
        refine hsound.hold (p := ⟨st.heap.cells.size + 1, .element part.1 part.2⟩) ?_
        exact SlotTable.lookup_insert_self (by simp)
  · exact hst

theorem box (hst : st.WellFormed) (v : Value) : (st.perform (.box v)).WellFormed := by
  refine (hst.newCell (Cell.boxed v)).hold (p := ⟨st.heap.cells.size + 1, .cell _⟩) ⟨rfl, ⟨v, ?_⟩, hst.fresh⟩
  exact (cell?_newCell _).trans (if_pos rfl)

theorem perform (hst : st.WellFormed) (action : Action) : (st.perform action).WellFormed := by
  cases action with
  | openScope parent => exact hst.steady (.newScope parent _)
  | define s x v => exact hst.steady (hst.steady_declare s x v)
  | assign s x v => exact hst.steady (hst.steady_assign s x v)
  | addressOf s x => exact hst.addressOf s x
  | addressOfPart base i inUse => exact hst.addressOfPart base i inUse
  | box v => exact hst.box v
  | storeThrough a v => exact hst.steady (steady_storeAt a v _)
  | storePart base i v =>
      unfold Session.perform
      simp only
      split
      · exact hst.steady (.store (.inr ⟨_, _, rfl⟩) v)
      · exact hst
  | letGo n =>
      exact ⟨hst.boxed, hst.apart, hst.slots, fun p hp => hst.held p (List.mem_of_mem_eraseIdx hp)⟩
  | elsewhere h => exact hst.steady (.of_same rfl rfl)

theorem run (hst : st.WellFormed) (actions : List Action) : (st.run actions).WellFormed := by
  induction actions generalizing st with
  | nil => exact hst
  | cons action actions ih => exact ih (hst.perform action)

-- Whatever leads to the cell of a variable, of a part or of neither is a pointer to that.
theorem of_shared (hst : st.WellFormed) (hp : st.PointerLeads p)
    (hx : st.heap.binding? s x = some (.shared p.address)) : p.of = .variable s x := by
  obtain ⟨v, hv⟩ := hst.boxed s x _ hx
  unfold PointerLeads at hp
  split at hp
  · next s' x' hof =>
      obtain ⟨rfl, rfl⟩ := hst.apart s x s' x' _ hx hp
      exact hof
  · have hslot := hst.slots _ (SlotTable.mem_of_lookup hp)
    rw [hv] at hslot
    cases hslot
  · obtain ⟨haddr, -, hunnamed⟩ := hp
    exact absurd (haddr ▸ hx) (hunnamed s x)

theorem of_slot (hst : st.WellFormed) (hp : st.PointerLeads p)
    (hslot : st.heap.cell? p.address = some (.slot b i)) : p.of = .element b i := by
  unfold PointerLeads at hp
  split at hp
  · obtain ⟨v, hv⟩ := hst.boxed _ _ _ hp
    rw [hslot] at hv
    cases hv
  · next b' i' hof =>
      have hslot' := hst.slots _ (SlotTable.mem_of_lookup hp)
      rw [hslot] at hslot'
      cases hslot'
      exact hof
  · obtain ⟨haddr, ⟨v, hv⟩, -⟩ := hp
    rw [← haddr, hslot] at hv
    cases hv

theorem of_unnamed (hst : st.WellFormed) (hp : st.PointerLeads p)
    (hv : st.heap.cell? p.address = some (.boxed v))
    (hunnamed : ∀ s x, st.heap.binding? s x ≠ some (.shared p.address)) :
    p.of = .cell p.address := by
  unfold PointerLeads at hp
  split at hp
  · exact absurd hp (hunnamed _ _)
  · have hslot := hst.slots _ (SlotTable.mem_of_lookup hp)
    rw [hv] at hslot
    cases hslot
  · next a hof => rw [hof, hp.1]

-- Pointers are equal exactly if they are to the same place.
theorem address_eq_iff (hst : st.WellFormed) (hp : st.PointerLeads p) (hq : st.PointerLeads q) :
    p.address = q.address ↔ p.of = q.of := by
  constructor
  · intro he
    unfold PointerLeads at hp
    split at hp
    · next s x hof => rw [hof, hst.of_shared hq (he ▸ hp)]
    · next b i hof =>
        have hslot := hst.slots _ (SlotTable.mem_of_lookup hp)
        rw [hof, hst.of_slot hq (he ▸ hslot)]
    · next a hof =>
        obtain ⟨rfl, ⟨v, hv⟩, hunnamed⟩ := hp
        rw [he] at hv hunnamed
        rw [hof, he, hst.of_unnamed hq hv hunnamed]
  · intro he
    unfold PointerLeads at hp hq
    rw [← he] at hq
    cases hof : p.of with
    | «variable» s x =>
        rw [hof] at hp hq
        exact Binding.shared.inj (Option.some.inj (hp.symm.trans hq))
    | element b i =>
        rw [hof] at hp hq
        exact Option.some.inj (hp.symm.trans hq)
    | cell a =>
        rw [hof] at hp hq
        exact hp.1.trans hq.1.symm

end WellFormed

-- What variables, parts and the pointers to them have in common.
structure Coherent (st : Session) : Prop where
  identity : ∀ p ∈ st.held, ∀ q ∈ st.held, ∃ same,
    st.heap.equal (.pointer (some p.address)) (.pointer (some q.address)) = .ok same ∧
      (same = true ↔ p.of = q.of)
  reading : ∀ a s x, ⟨a, .variable s x⟩ ∈ st.held → ∃ v, st.heap.load a = .ok v ∧
    st.heap.local? s x = some v ∧ ∀ r, st.heap.owner? r x = some s → st.heap.lookup r x = some v
  writing : ∀ a s x w, ⟨a, .variable s x⟩ ∈ st.held →
    (declare s x w st.heap).2 = (storeAt a w st.heap).2 ∧
      ∀ r, st.heap.owner? r x = some s →
        (Heap.assign r x w st.heap).2 = (storeAt a w st.heap).2
  readingPart : ∀ a b i v, ⟨a, .element b i⟩ ∈ st.held →
    (st.heap.load a = .ok v ↔ st.heap.element? b i = some v)
  writingPart : ∀ a b i w, ⟨a, .element b i⟩ ∈ st.held → (st.heap.element? b i).isSome →
    (store (.element b i) w st.heap).2 = (storeAt a w st.heap).2
  address : ∀ s x o, st.heap.owner? s x = some o → ∃ a,
    variableAddress o x st.heap = (some a, (st.perform (.addressOf s x)).heap) ∧
      (st.perform (.addressOf s x)).held = ⟨a, .variable o x⟩ :: st.held

-- The address of a part is the one that a search through all cells finds.
def SearchesCells (st : Session) : Prop :=
  ∀ base i part, base.part? i = some part → ∃ a,
    partAddress? base i st.heap = (some a, (st.perform (.addressOfPart base i fun _ => true)).heap) ∧
      (st.perform (.addressOfPart base i fun _ => true)).held =
        ⟨a, .element part.1 part.2⟩ :: st.held

-- Addresses never go out of use.
def Action.Lasting : Action → Prop
  | .addressOfPart _ _ inUse => ∀ c, inUse c = true
  | _ => True

theorem storeAt_of_placeOf {place : Place} (hplace : placeOf a (h.cell? a) = some place)
    (hread : (h.read? place).isSome) (w : Value) : (storeAt a w h).2 = (store place w h).2 := by
  unfold storeAt
  rw [Program.Attempt.get_bind, hplace]
  simp only [if_pos hread]
  rfl

theorem WellFormed.coherent (hst : st.WellFormed) : st.Coherent where
  identity p hp q hq := by
    refine ⟨some p.address == some q.address, rfl, ?_⟩
    rw [beq_iff_eq, Option.some.injEq]
    exact hst.address_eq_iff (hst.held p hp) (hst.held q hq)
  reading a s x hp := by
    have hx : st.heap.binding? s x = some (.shared a) := hst.held _ hp
    obtain ⟨v, hv⟩ := hst.boxed s x a hx
    have hlocal : st.heap.local? s x = some v := by simp [local?, hx, bindingValue?, read?, hv]
    refine ⟨v, ?_, hlocal, fun r hr => ?_⟩
    · simp [load, hv, placeOf, read?]
    · simp [lookup, hr, hlocal]
  writing a s x w hp := by
    have hx : st.heap.binding? s x = some (.shared a) := hst.held _ hp
    obtain ⟨v, hv⟩ := hst.boxed s x a hx
    have hplace : placeOf a (st.heap.cell? a) = some (.cell a) := by rw [hv]; rfl
    rw [storeAt_of_placeOf hplace (hst.isSome_cell hx)]
    constructor
    · unfold declare
      rw [get_bind, hx]
    · intro r hr
      have hl : (st.heap.owner? r x).bind (fun o => st.heap.location? o x) = some (.cell a) := by
        rw [hr, Option.bind_some, location?, hx]
        rfl
      rw [Program.assign_location hl]
  readingPart a b i v hp := by
    have hslot := hst.slots _ (SlotTable.mem_of_lookup (hst.held _ hp))
    simp only [load, hslot, placeOf, Option.bind_some, read?]
    cases st.heap.element? b i with
    | none => simp [fatal]
    | some u => simp
  writingPart a b i w hp hsome := by
    have hslot := hst.slots _ (SlotTable.mem_of_lookup (hst.held _ hp))
    have hplace : placeOf a (st.heap.cell? a) = some (.element b i) := by rw [hslot]; rfl
    exact (storeAt_of_placeOf hplace hsome w).symm
  address s x o ho := by
    have hbinds : (st.heap.binding? o x).isSome := binds_of_owner? ho
    obtain ⟨b, hb⟩ := Option.isSome_iff_exists.mp hbinds
    obtain ⟨a, h, hshared⟩ : ∃ a h, variableAddress o x st.heap = (some a, h) := by
      unfold variableAddress
      rw [get_bind, hb]
      cases b <;> exact ⟨_, _, rfl⟩
    exact ⟨a, by simp [Session.perform, ho, hshared]⟩

def Complete (st : Session) : Prop := st.slots.Complete st.heap

theorem complete_start : start.Complete := fun part => by
  simp [start, SlotTable.empty, Heap.empty]

-- Taking the address of a variable makes no part have a cell.
theorem slot_variableAddress (h : Heap) (s : ScopeId) (x : String) (a : Address) (b : BlockId)
    (i : Nat) : (variableAddress s x h).2.cell? a = some (.slot b i) ↔
      h.cell? a = some (.slot b i) := by
  unfold variableAddress
  rw [get_bind]
  cases h.binding? s x with
  | none => exact .rfl
  | some binding =>
      cases binding with
      | shared c => exact .rfl
      | plain v => exact (CellsSteady.box v h).slot a b i

-- No table of parts gets wrong while all addresses stay in use.
theorem Complete.perform (hst : st.WellFormed) (hc : st.Complete) {action : Action}
    (hlasting : action.Lasting) : (st.perform action).Complete := by
  have hsteady : ∀ {h}, CellsSteady st.heap h → Complete { st with heap := h } := fun hs =>
    hc.congr hs.slot
  cases action with
  | openScope parent => exact hsteady (.newScope parent _)
  | define s x v => exact hsteady (hst.steady_declare s x v)
  | assign s x v => exact hsteady (hst.steady_assign s x v)
  | addressOf s x =>
      unfold Session.perform
      simp only
      split
      · next o ho =>
          have hslot := slot_variableAddress st.heap o x
          split
          · next a h he =>
              rw [he] at hslot
              exact SlotTable.Complete.congr hc hslot
          · next h he =>
              rw [he] at hslot
              exact SlotTable.Complete.congr hc hslot
      · exact hc
  | addressOfPart base i inUse =>
      unfold Session.perform
      simp only
      split
      · next part hpart =>
          exact SlotTable.Complete.address hc (fun c => by simp [hlasting c]) part
      · exact hc
  | box v => exact hsteady (.box v _)
  | storeThrough a v => exact hsteady (WellFormed.steady_storeAt a v _)
  | storePart base i v =>
      unfold Session.perform
      simp only
      split
      · exact hsteady (.store (.inr ⟨_, _, rfl⟩) v)
      · exact hc
  | letGo n => exact hc
  | elsewhere h => exact hsteady (.of_same rfl rfl)

theorem Complete.run (hst : st.WellFormed) (hc : st.Complete) {actions : List Action}
    (hlasting : ∀ action ∈ actions, action.Lasting) : (st.run actions).Complete := by
  induction actions generalizing st with
  | nil => exact hc
  | cons action actions ih =>
      obtain ⟨haction, hactions⟩ := List.forall_mem_cons.mp hlasting
      exact ih (hst.perform action) (hc.perform hst haction) hactions

theorem Complete.searches (hc : st.Complete) : st.SearchesCells := by
  intro base i part hpart
  have hall : ∀ c, (st.holds c || true) = true := fun c => Bool.or_true _
  have haddress := SlotTable.Complete.address_eq hc hall part
  refine ⟨(slotAddress part.1 part.2 st.heap).1, ?_⟩
  rw [partAddress?_eq hpart, haddress]
  simp only [Session.perform, hpart]
  exact ⟨rfl, rfl⟩

-- Variables and the pointers to them never disagree, and pointers are equal exactly if they are
-- to the same variable or the same part. As long as nothing goes out of use the table of parts
-- finds what a search through all cells does.
theorem coherent_run (actions : List Action) :
    (start.run actions).Coherent ∧
      ((∀ action ∈ actions, action.Lasting) → (start.run actions).SearchesCells) :=
  ⟨(wellFormed_start.run actions).coherent,
    fun hlasting => (complete_start.run wellFormed_start hlasting).searches⟩

deriving instance DecidableEq for Place, Held

-- Two variables of one name and an array, with pointers to all of them.
def shadowed : List Action :=
  [.openScope none, .openScope (some 0), .define 0 "x" (.plainInt 1), .addressOf 0 "x",
    .define 1 "x" (.plainInt 5), .addressOf 1 "x",
    .elsewhere { Heap.empty with blocks := #[#[.plainInt 7, .plainInt 8]] },
    .addressOfPart (.array 0) 0 fun _ => true]

-- So many addresses of other parts are taken and let go that the table is swept.
def swept : List Action :=
  shadowed ++
    (List.range 64).flatMap (fun i =>
      [.addressOfPart (.array 0) (i + 1) fun _ => false, .letGo 0]) ++
    [.addressOfPart (.array 0) 0 fun _ => false, .assign 1 "x" (.plainInt 2)]

theorem coherent_run_swept :
    (start.run swept).slots.entries.length = 3 ∧
      (start.run swept).heap.equal (.pointer (some 3)) (.pointer (some 3)) = .ok true ∧
      (start.run swept).heap.equal (.pointer (some 1)) (.pointer (some 2)) = .ok false ∧
      (∃ v, (start.run swept).heap.load 1 = .ok v ∧
        (start.run swept).heap.lookup 0 "x" = some v) ∧
      (∃ v, (start.run swept).heap.load 2 = .ok v ∧
        (start.run swept).heap.lookup 1 "x" = some v) ∧
      (start.run shadowed).SearchesCells := by
  have hheld : (start.run swept).held =
      [⟨3, .element 0 0⟩, ⟨3, .element 0 0⟩, ⟨2, .variable 1 "x"⟩, ⟨1, .variable 0 "x"⟩] := by
    decide +kernel
  have hcoherent := (coherent_run swept).1
  have hmem : ∀ p ∈ [⟨3, .element 0 0⟩, ⟨2, .variable 1 "x"⟩, ⟨1, .variable 0 "x"⟩],
      p ∈ (start.run swept).held := by
    rw [hheld]
    decide
  obtain ⟨same, hequal, hsame⟩ := hcoherent.identity ⟨3, .element 0 0⟩ (hmem _ (by decide))
    ⟨3, .element 0 0⟩ (hmem _ (by decide))
  obtain ⟨differ, hdiffer, hof⟩ := hcoherent.identity ⟨1, .variable 0 "x"⟩ (hmem _ (by decide))
    ⟨2, .variable 1 "x"⟩ (hmem _ (by decide))
  obtain ⟨v, hload, -, hlookup⟩ := hcoherent.reading 1 0 "x" (hmem _ (by decide))
  obtain ⟨w, hload', -, hlookup'⟩ := hcoherent.reading 2 1 "x" (hmem _ (by decide))
  refine ⟨by decide +kernel, ?_, ?_, ⟨v, hload, hlookup 0 (by decide +kernel)⟩,
    ⟨w, hload', hlookup' 1 (by decide +kernel)⟩, (coherent_run shadowed).2 ?_⟩
  · rw [hequal, hsame.mpr rfl]
  · have hne : differ = false := Bool.eq_false_iff.mpr fun he => by simpa using hof.mp he
    rw [hdiffer, hne]
  · simp [shadowed, Action.Lasting]

end Session

end StepGraph

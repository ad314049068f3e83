import StepGraph.Heap.Pointer
import StepGraph.Proofs.Store.Content

namespace StepGraph

namespace Heap

variable {h h' : Heap} {a i n : Nat} {b : BlockId}

theorem cell?_newCell (c : Cell) : (newCell c h).2.cell? a =
    if a = h.cells.size + 1 then some c else h.cell? a := by
  change cell? { h with cells := h.cells.push c } a = _
  unfold cell?
  by_cases ha : a = 0
  · subst ha
    simp
  · simp only [if_neg ha, Array.getElem?_push]
    by_cases hlast : a = h.cells.size + 1
    · rw [if_pos hlast, if_pos (by omega)]
    · rw [if_neg hlast, if_neg (by omega)]

theorem cell?_lt {c : Cell} (hc : h.cell? a = some c) : a < h.cells.size + 1 := by
  unfold cell? at hc
  split at hc
  · cases hc
  · have hlt := (Array.getElem?_eq_some_iff.mp hc).1
    omega

theorem cell?_newCell_of_some {c c' : Cell} (hc : h.cell? a = some c) :
    (newCell c' h).2.cell? a = some c := by
  rw [cell?_newCell, if_neg (Nat.ne_of_lt (cell?_lt hc)), hc]

theorem isSlot_iff {c : Cell} : isSlot b i c = true ↔ c = .slot b i := by
  cases c with
  | boxed v => simp [isSlot]
  | slot b' i' => simp [isSlot]

theorem findIdx?_isSlot : h.cells.findIdx? (isSlot b i) = some n ↔
    h.cell? (n + 1) = some (.slot b i) ∧ ∀ j < n, h.cell? (j + 1) ≠ some (.slot b i) := by
  have hcell : ∀ j, h.cell? (j + 1) = h.cells[j]? := fun _ => rfl
  simp only [hcell, Array.findIdx?_eq_some_iff_getElem, isSlot_iff]
  constructor
  · rintro ⟨hn, hslot, hfirst⟩
    refine ⟨by rw [Array.getElem?_eq_getElem hn, hslot], fun j hj => ?_⟩
    rw [Array.getElem?_eq_getElem (Nat.lt_trans hj hn)]
    exact fun he => hfirst j hj (Option.some.inj he)
  · rintro ⟨hslot, hfirst⟩
    obtain ⟨hn, hslot⟩ := Array.getElem?_eq_some_iff.mp hslot
    refine ⟨hn, hslot, fun j hj he => hfirst j hj ?_⟩
    rw [Array.getElem?_eq_getElem (Nat.lt_trans hj hn), he]

-- The slots decide where the first slot of a part is.
theorem findIdx?_congr (hslot : ∀ a, h'.cell? a = some (.slot b i) ↔ h.cell? a = some (.slot b i)) :
    h'.cells.findIdx? (isSlot b i) = h.cells.findIdx? (isSlot b i) := by
  apply Option.ext
  intro n
  rw [findIdx?_isSlot, findIdx?_isSlot, hslot]
  exact and_congr_right fun _ => forall₂_congr fun j _ => not_congr (hslot (j + 1))

end Heap

-- Where the addresses of parts of blocks are looked up. An entry only counts as long as its address
-- is in use, and the others are swept out each time the table has grown to some size.
structure SlotTable where
  entries : List ((BlockId × Nat) × Address)
  sweepAt : Nat

namespace SlotTable

-- No table smaller than this is swept.
def leastSweep : Nat := 64

def empty : SlotTable := ⟨[], leastSweep⟩

def find? (t : SlotTable) (inUse : Address → Bool) (part : BlockId × Nat) : Option Address :=
  (t.entries.lookup part).filter inUse

-- The next sweep comes when the table is twice as large.
def sweep (t : SlotTable) (inUse : Address → Bool) : SlotTable :=
  let kept := t.entries.filter fun e => inUse e.2
  ⟨kept, max (2 * kept.length) leastSweep⟩

def insert (t : SlotTable) (inUse : Address → Bool) (part : BlockId × Nat) (a : Address) :
    SlotTable :=
  let t' : SlotTable := ⟨(part, a) :: t.entries.filter fun e => e.1 ≠ part, t.sweepAt⟩
  if t'.sweepAt ≤ t'.entries.length then t'.sweep inUse else t'

-- The address of a part. Where none is in use the part gets a new one.
def address (t : SlotTable) (inUse : Address → Bool) (part : BlockId × Nat) :
    HeapM (Address × SlotTable) := do
  match t.find? inUse part with
  | some a => return (a, t)
  | none =>
      let a ← Heap.newCell (.slot part.1 part.2)
      return (a, t.insert (fun c => c == a || inUse c) part a)

variable {t t' : SlotTable} {inUse : Address → Bool} {part part' : BlockId × Nat} {a c : Address}
  {h h' : Heap}

theorem mem_insert {e : (BlockId × Nat) × Address} (he : e ∈ (t.insert inUse part a).entries) :
    e = (part, a) ∨ e ∈ t.entries := by
  have hmem : e ∈ (part, a) :: t.entries.filter fun e => e.1 ≠ part := by
    unfold insert at he
    simp only at he
    split at he
    · exact (List.mem_filter.mp he).1
    · exact he
  exact (List.mem_cons.mp hmem).imp_right fun h => (List.mem_filter.mp h).1

theorem mem_of_lookup (h : t.entries.lookup part = some a) : (part, a) ∈ t.entries := by
  obtain ⟨before, after, hsplit, -⟩ := List.lookup_eq_some_iff.mp h
  rw [hsplit]
  exact List.mem_append_right _ List.mem_cons_self

theorem lookup_insert_self (ha : inUse a = true) :
    (t.insert inUse part a).entries.lookup part = some a := by
  unfold insert
  simp only
  split
  · exact Lists.lookup_filter List.lookup_cons_self ha
  · exact List.lookup_cons_self

theorem lookup_insert_of_ne (hne : part' ≠ part) (h : t.entries.lookup part' = some c)
    (hc : inUse c = true) : (t.insert inUse part a).entries.lookup part' = some c := by
  have hlookup : ((part, a) :: t.entries.filter fun e => e.1 ≠ part).lookup part' = some c := by
    rw [List.lookup_cons, beq_false_of_ne hne]
    exact Lists.lookup_filter h (by simpa using hne)
  unfold insert
  simp only
  split
  · exact Lists.lookup_filter hlookup hc
  · exact hlookup

-- Nothing is swept out of a table whose addresses are all in use.
theorem lookup_insert (hall : ∀ c, inUse c = true) :
    (t.insert inUse part a).entries.lookup part' =
      if part' = part then some a else t.entries.lookup part' := by
  split
  · next he =>
      subst he
      exact lookup_insert_self (hall a)
  · next hne =>
      cases hold : t.entries.lookup part' with
      | some c => exact lookup_insert_of_ne hne hold (hall c)
      | none =>
          rw [List.lookup_eq_none_iff] at hold ⊢
          intro e he
          rcases mem_insert he with rfl | he
          · exact bne_iff_ne.mpr hne
          · exact hold e he

theorem find?_eq_some :
    t.find? inUse part = some a ↔ t.entries.lookup part = some a ∧ inUse a = true :=
  Option.filter_eq_some_iff

-- Either the part has an address in use and keeps it, or it gets the next address of the heap.
theorem address_cases (t : SlotTable) (inUse : Address → Bool) (part : BlockId × Nat) (h : Heap) :
    (∃ a, t.entries.lookup part = some a ∧ inUse a = true ∧ t.address inUse part h = ((a, t), h)) ∨
    ((∀ a, t.entries.lookup part = some a → inUse a = false) ∧
      t.address inUse part h = ((h.cells.size + 1,
          t.insert (fun c => c == h.cells.size + 1 || inUse c) part (h.cells.size + 1)),
        (Heap.newCell (.slot part.1 part.2) h).2)) := by
  unfold address
  cases hf : t.find? inUse part with
  | some a =>
      obtain ⟨hlookup, ha⟩ := find?_eq_some.mp hf
      exact .inl ⟨a, hlookup, ha, rfl⟩
  | none =>
      refine .inr ⟨fun a ha => ?_, rfl⟩
      have hnot := Option.filter_eq_none_iff.mp hf a ha
      simpa using hnot

-- The entries lead to what they tell.
def Sound (t : SlotTable) (h : Heap) : Prop :=
  ∀ e ∈ t.entries, h.cell? e.2 = some (.slot e.1.1 e.1.2)

-- Each part that has a cell is found at the first one.
def Complete (t : SlotTable) (h : Heap) : Prop :=
  ∀ part, t.entries.lookup part = (h.cells.findIdx? (Heap.isSlot part.1 part.2)).map (· + 1)

theorem Sound.newCell (ht : t.Sound h) (c : Cell) : t.Sound (Heap.newCell c h).2 :=
  fun e he => Heap.cell?_newCell_of_some (ht e he)

theorem Sound.address (ht : t.Sound h) (inUse : Address → Bool) (part : BlockId × Nat) :
    (t.address inUse part h).1.2.Sound (t.address inUse part h).2 := by
  rcases t.address_cases inUse part h with ⟨a, -, -, haddress⟩ | ⟨-, haddress⟩
  · rw [haddress]
    exact ht
  · rw [haddress]
    intro e he
    rcases mem_insert he with rfl | he
    · rw [Heap.cell?_newCell, if_pos rfl]
    · exact ht.newCell _ e he

theorem Complete.congr (ht : t.Complete h)
    (hslot : ∀ a b i, h'.cell? a = some (.slot b i) ↔ h.cell? a = some (.slot b i)) :
    t.Complete h' := fun part => by
  rw [ht part, Heap.findIdx?_congr fun a => hslot a part.1 part.2]

-- As long as all addresses stay in use, the table finds what a search through the cells finds.
theorem Complete.address_eq (ht : t.Complete h) (hall : ∀ c, inUse c = true)
    (part : BlockId × Nat) : Heap.slotAddress part.1 part.2 h =
      ((t.address inUse part h).1.1, (t.address inUse part h).2) := by
  have hfound := ht part
  unfold Heap.slotAddress
  rw [Heap.get_bind]
  rcases t.address_cases inUse part h with ⟨a, hlookup, -, haddress⟩ | ⟨hnot, haddress⟩
  · rw [haddress]
    rw [hlookup] at hfound
    obtain ⟨n, hn, rfl⟩ := Option.map_eq_some_iff.mp hfound.symm
    rw [hn]
    rfl
  · rw [haddress]
    have hnone : t.entries.lookup part = none := by
      by_contra hsome
      obtain ⟨a, ha⟩ := Option.ne_none_iff_exists'.mp hsome
      exact Bool.noConfusion ((hnot a ha).symm.trans (hall a))
    rw [hnone] at hfound
    rw [Option.map_eq_none_iff.mp hfound.symm]
    rfl

theorem Complete.address (ht : t.Complete h) (hall : ∀ c, inUse c = true) (part : BlockId × Nat) :
    (t.address inUse part h).1.2.Complete (t.address inUse part h).2 := by
  rcases t.address_cases inUse part h with ⟨a, -, -, haddress⟩ | ⟨hnot, haddress⟩
  · rw [haddress]
    exact ht
  · rw [haddress]
    intro part'
    rw [lookup_insert fun c => by simp [hall c], ht part']
    change _ = ((h.cells.push _).findIdx? _).map _
    rw [Array.findIdx?_push]
    have hpart := ht part
    by_cases he : part' = part
    · subst he
      have hnone : h.cells.findIdx? (Heap.isSlot part'.1 part'.2) = none := by
        by_contra hsome
        obtain ⟨n, hn⟩ := Option.ne_none_iff_exists'.mp hsome
        rw [hn] at hpart
        exact Bool.noConfusion ((hnot _ hpart).symm.trans (hall _))
      rw [if_pos rfl, hnone, if_pos (Heap.isSlot_iff.mpr rfl)]
      rfl
    · have hother : Heap.isSlot part'.1 part'.2 (.slot part.1 part.2) = false := by
        by_contra hslot
        have hsame := Heap.isSlot_iff.mp (Bool.of_not_eq_false hslot)
        simp only [Cell.slot.injEq] at hsame
        exact he (Prod.ext hsame.1.symm hsame.2.symm)
      rw [if_neg he, hother]
      cases h.cells.findIdx? (Heap.isSlot part'.1 part'.2) <;> rfl

end SlotTable

end StepGraph

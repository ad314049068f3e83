import Mathlib.Data.String.Basic
import Mathlib.Tactic.Common
import StepGraph.Heap.Map
import StepGraph.Proofs.Store.Outline
import StepGraph.Value.MapKey

namespace StepGraph

open Std (LawfulEqCmp OrientedCmp ReflCmp TransCmp)

section Sorting

variable {α : Type} {before : α → α → Bool} {items s t : List α} {x y z : α}

-- Neither of two items comes before the other.
def tied (before : α → α → Bool) (x y : α) : Bool := !before x y && !before y x

-- What sorting has to do: put the items in order and leave tied ones as they are.
structure StableSort (before : α → α → Bool) (items sorted : List α) : Prop where
  perm : sorted.Perm items
  ordered : sorted.Pairwise fun x y => before y x = false
  stable : ∀ x ∈ items, sorted.filter (tied before x) = items.filter (tied before x)

-- An order of the items in which some may be tied.
structure OrdersItems (before : α → α → Bool) (items : List α) : Prop where
  asymm : ∀ x ∈ items, ∀ y ∈ items, before x y = true → before y x = false
  trans : ∀ x ∈ items, ∀ y ∈ items, ∀ z ∈ items,
    before x y = false → before y z = false → before x z = false

theorem tied_iff : tied before x y = true ↔ before x y = false ∧ before y x = false := by
  simp [tied]

namespace OrdersItems

theorem mono (ho : OrdersItems before items) (hs : s ⊆ items) : OrdersItems before s where
  asymm x hx y hy := ho.asymm x (hs hx) y (hs hy)
  trans x hx y hy z hz := ho.trans x (hs hx) y (hs hy) z (hs hz)

theorem irrefl (ho : OrdersItems before items) (hx : x ∈ items) : before x x = false := by
  by_contra h
  have hxx := Bool.of_not_eq_false h
  exact h (ho.asymm x hx x hx hxx)

-- What is tied with one of two tied items is tied with the other.
theorem tied_trans (ho : OrdersItems before items) (hx : x ∈ items) (hy : y ∈ items)
    (hz : z ∈ items)
    (hxy : tied before x y = true) (hyz : tied before y z = true) : tied before x z = true := by
  rw [tied_iff] at *
  exact ⟨ho.trans x hx y hy z hz hxy.1 hyz.1, ho.trans z hz y hy x hx hyz.2 hxy.2⟩

end OrdersItems

-- Two sorted lists of the same items in which tied items stand in the same order are one list.
theorem eq_of_sorted (ho : OrdersItems before s) (hperm : s.Perm t)
    (hs : s.Pairwise fun x y => before y x = false) (ht : t.Pairwise fun x y => before y x = false)
    (hstable : ∀ x ∈ s, s.filter (tied before x) = t.filter (tied before x)) : s = t := by
  induction s generalizing t with
  | nil => exact hperm.nil_eq
  | cons x s ih =>
      cases t with
      | nil => exact hperm.eq_nil
      | cons y t =>
          have hys : y ∈ x :: s := hperm.mem_iff.mpr List.mem_cons_self
          have hxt : x ∈ y :: t := hperm.mem_iff.mp List.mem_cons_self
          have hxx : before x x = false := ho.irrefl List.mem_cons_self
          -- The two first items are tied, so the first one tied with them is both.
          have hyx : before y x = false := by
            rcases List.mem_cons.mp hys with rfl | hy
            · exact hxx
            · exact List.rel_of_pairwise_cons hs hy
          have hxy : before x y = false := by
            rcases List.mem_cons.mp hxt with rfl | hx
            · exact hxx
            · exact List.rel_of_pairwise_cons ht hx
          have hfirst := hstable x List.mem_cons_self
          rw [List.filter_cons_of_pos (tied_iff.mpr ⟨hxx, hxx⟩),
            List.filter_cons_of_pos (tied_iff.mpr ⟨hxy, hyx⟩)] at hfirst
          obtain rfl : x = y := (List.cons.inj hfirst).1
          have htail : ∀ z ∈ s, s.filter (tied before z) = t.filter (tied before z) := by
            intro z hz
            have hz := hstable z (List.mem_cons_of_mem x hz)
            rw [List.filter_cons, List.filter_cons] at hz
            split at hz
            · exact (List.cons.inj hz).2
            · exact hz
          rw [ih (ho.mono (List.subset_cons_self x s)) hperm.cons_inv hs.tail ht.tail htail]

theorem StableSort.unique (ho : OrdersItems before items) (hs : StableSort before items s)
    (ht : StableSort before items t) : s = t :=
  eq_of_sorted (ho.mono hs.perm.subset) (hs.perm.trans ht.perm.symm) hs.ordered ht.ordered
    fun x hx => (hs.stable x (hs.perm.subset hx)).trans (ht.stable x (hs.perm.subset hx)).symm

theorem perm_insertLast (before : α → α → Bool) (x : α) (s : List α) :
    (insertLast before x s).Perm (x :: s) := by
  induction s with
  | nil => exact .refl _
  | cons y s ih =>
      unfold insertLast
      split
      · exact (ih.cons y).trans (.swap x y s)
      · exact .refl _

-- The items so far stand in the order from the last one to the first one.
theorem ordered_insertLast (ho : OrdersItems before (x :: s))
    (hs : s.Pairwise fun x y => before x y = false) :
    (insertLast before x s).Pairwise fun x y => before x y = false := by
  induction s with
  | nil => exact List.pairwise_singleton _ _
  | cons y s ih =>
      have hsub : x :: s ⊆ x :: y :: s := List.cons_subset_cons x (List.subset_cons_self y s)
      unfold insertLast
      split
      · next hxy =>
          refine List.pairwise_cons.mpr ⟨fun z hz => ?_, ih (ho.mono hsub) hs.tail⟩
          rcases List.mem_cons.mp ((perm_insertLast before x s).subset hz) with rfl | hz
          · exact ho.asymm z (by simp) y (by simp) hxy
          · exact List.rel_of_pairwise_cons hs hz
      · next hxy =>
          have hxy : before x y = false := Bool.of_not_eq_true hxy
          refine List.pairwise_cons.mpr ⟨fun z hz => ?_, hs⟩
          rcases List.mem_cons.mp hz with rfl | hz'
          · exact hxy
          · exact ho.trans x (by simp) y (by simp) z (by simp [hz']) hxy
              (List.rel_of_pairwise_cons hs hz')

-- Among the items tied with it the new one is the last.
theorem filter_insertLast (ho : OrdersItems before (z :: x :: s)) :
    (insertLast before x s).filter (tied before z) = (x :: s).filter (tied before z) := by
  induction s with
  | nil => rfl
  | cons y s ih =>
      have hsub : z :: x :: s ⊆ z :: x :: y :: s :=
        List.cons_subset_cons z (List.cons_subset_cons x (List.subset_cons_self y s))
      unfold insertLast
      split
      · next hxy =>
          rw [List.filter_cons, ih (ho.mono hsub), List.filter_cons, List.filter_cons,
            List.filter_cons]
          cases hzx : tied before z x with
          | false => rfl
          | true =>
              -- What the new item comes before is not tied with it.
              have hzy : tied before z y = false := by
                by_contra hzy
                have hxz : tied before x z = true := tied_iff.mpr (tied_iff.mp hzx).symm
                have htied := ho.tied_trans (by simp) (by simp) (by simp) hxz
                  (Bool.of_not_eq_false hzy)
                rw [(tied_iff.mp htied).1] at hxy
                cases hxy
              rw [hzy]
              rfl
      · rfl

-- The items so far, the last one first, go on in order with the others.
theorem foldl_insertLast {all rest : List α} (ho : OrdersItems before all) (hrest : rest ⊆ all)
    (hsub : s ⊆ all) (hs : s.Pairwise fun x y => before x y = false) :
    let sorted := rest.foldl (fun sorted x => insertLast before x sorted) s
    sorted.Perm (rest.reverse ++ s) ∧ (sorted.Pairwise fun x y => before x y = false) ∧
      ∀ z ∈ all, sorted.filter (tied before z) = (rest.reverse ++ s).filter (tied before z) := by
  induction rest generalizing s with
  | nil => exact ⟨.refl _, hs, fun _ _ => rfl⟩
  | cons x rest ih =>
      obtain ⟨hx, hrest⟩ := List.cons_subset.mp hrest
      have hall : x :: s ⊆ all := List.cons_subset.mpr ⟨hx, hsub⟩
      have hinsert := perm_insertLast before x s
      obtain ⟨hperm, hordered, hstable⟩ := ih hrest (fun y hy => hall (hinsert.subset hy))
        (ordered_insertLast (ho.mono hall) hs)
      rw [List.reverse_cons, List.append_assoc, List.singleton_append]
      refine ⟨hperm.trans (hinsert.append_left _), hordered, fun z hz => ?_⟩
      refine (hstable z hz).trans ?_
      rw [List.filter_append, List.filter_append,
        filter_insertLast (ho.mono (List.cons_subset.mpr ⟨hz, hall⟩))]

theorem stableSort_sortBy (ho : OrdersItems before items) :
    StableSort before items (sortBy before items) := by
  obtain ⟨hperm, hordered, hstable⟩ := foldl_insertLast ho (List.Subset.refl items)
    (List.nil_subset items) .nil
  rw [List.append_nil] at hperm
  refine ⟨(List.reverse_perm _).trans (hperm.trans (List.reverse_perm _)),
    List.pairwise_reverse.mpr hordered, fun z hz => ?_⟩
  unfold sortBy
  rw [List.filter_reverse, hstable z hz, List.append_nil, List.filter_reverse, List.reverse_reverse]

-- Where the items have an order, there is no other way to sort them.
theorem stableSort_iff (ho : OrdersItems before items) :
    StableSort before items s ↔ s = sortBy before items :=
  ⟨fun hs => hs.unique ho (stableSort_sortBy ho), fun h => h ▸ stableSort_sortBy ho⟩

end Sorting

-- How two keys of a map compare when it is printed.
def compareKeys (a b : Value) : Ordering :=
  match a.unwrap, b.unwrap with
  | .int x, .int y => compare x.val y.val
  | .float64 x, .float64 y => compare (floatRank x) (floatRank y)
  | .float32 x, .float32 y => compare (floatRank x.toFloat) (floatRank y.toFloat)
  | .str x, .str y => compare x y
  | .bool x, .bool y => compare x y
  | x, y => compare x.kindName y.kindName

theorem decide_lt_eq {α : Type} [LinearOrder α] (x y : α) :
    decide (x < y) = (compare x y == .lt) := by
  rw [Bool.eq_iff_iff, beq_iff_eq, compare_lt_iff_lt, decide_eq_true_iff]

theorem isLE_compare_iff {α : Type} [LinearOrder α] (x y : α) :
    (compare x y).isLE = true ↔ x ≤ y :=
  Ordering.isLE_iff_ne_gt.trans compare_le_iff_le

theorem keyBefore_eq (a b : Value) : keyBefore a b = (compareKeys a b == .lt) := by
  unfold keyBefore compareKeys
  generalize a.unwrap = x
  generalize b.unwrap = y
  cases x with
  | bool x =>
      cases y with
      | bool y => cases x <;> cases y <;> rfl
      | _ => exact decide_lt_eq _ _
  | _ => cases y <;> exact decide_lt_eq _ _

namespace Value

-- What orders the keys of one kind other than integers: the number or the text that they are.

def magnitude : Value → Int
  | float64 x => floatRank x
  | float32 x => floatRank x.toFloat
  | bool b => b.toNat
  | _ => 0

def wording : Value → String
  | str s => s
  | _ => ""

end Value

-- Keys by their kinds, and keys of one kind by what they are.
def compareByKind : Value → Value → Ordering :=
  compareLex (compareOn Value.kindName)
    (compareLex (compareOn Value.magnitude) (compareOn Value.wording))

instance : TransCmp compareByKind :=
  inferInstanceAs (TransCmp (compareLex (compareOn Value.kindName) (compareLex _ _)))

-- The kinds of keys that are ordered by what they are.
def orderedKinds : List String := ["float64", "float32", "string", "bool"]

theorem IntKind.name_not_ordered (k : IntKind) : k.name ∉ orderedKinds := by cases k <;> decide

theorem Value.key_cases (v : Value) (hv : v.isNamed = false) :
    (∃ x, v = .float64 x) ∨ (∃ x, v = .float32 x) ∨ (∃ s, v = .str s) ∨ (∃ b, v = .bool b) ∨
      v.magnitude = 0 ∧ v.wording = "" ∧ v.kindName ∉ orderedKinds := by
  cases v with
  | int n => exact .inr (.inr (.inr (.inr ⟨rfl, rfl, n.kind.name_not_ordered⟩)))
  | float64 x => exact .inl ⟨x, rfl⟩
  | float32 x => exact .inr (.inl ⟨x, rfl⟩)
  | str s => exact .inr (.inr (.inl ⟨s, rfl⟩))
  | bool b => exact .inr (.inr (.inr (.inl ⟨b, rfl⟩)))
  | named => cases hv
  | _ => exact .inr (.inr (.inr (.inr ⟨rfl, rfl, by simp [kindName, orderedKinds]⟩)))

theorem compareByKind_of_ne {x y : Value} (h : x.kindName ≠ y.kindName) :
    compareByKind x y = compare x.kindName y.kindName := by
  have hne : compare x.kindName y.kindName ≠ .eq := mt LawfulEqCmp.compare_eq_iff_eq.mp h
  simp only [compareByKind, compareLex, compareOn]
  cases hc : compare x.kindName y.kindName <;> simp_all

theorem compareByKind_of_eq {x y : Value} (h : x.kindName = y.kindName) :
    compareByKind x y =
      (compare x.magnitude y.magnitude).then (compare x.wording y.wording) := by
  simp only [compareByKind, compareLex, compareOn, h, ReflCmp.compare_self, Ordering.then]

theorem compareKeys_ints {a b : Value} {x y : IntValue} (ha : a.int? = some x)
    (hb : b.int? = some y) : compareKeys a b = compare x.val y.val := by
  unfold Value.int? at ha hb
  unfold compareKeys
  split at ha <;> cases ha
  split at hb <;> cases hb
  simp only [*]

-- A key that is no integer compares with the others by kinds first.
theorem compareKeys_eq_byKind {a b : Value} (h : a.int? = none ∨ b.int? = none) :
    compareKeys a b = compareByKind a.unwrap b.unwrap := by
  have ha := a.unwrap.key_cases (Heap.unwrap_not_named a)
  have hb := b.unwrap.key_cases (Heap.unwrap_not_named b)
  unfold Value.int? at h
  unfold compareKeys
  generalize a.unwrap = x at *
  generalize b.unwrap = y at *
  by_cases hkind : x.kindName = y.kindName
  · rw [compareByKind_of_eq hkind]
    -- Of two keys of one kind both are ordered by what they are, or none is.
    rcases ha with ⟨x, rfl⟩ | ⟨x, rfl⟩ | ⟨x, rfl⟩ | ⟨x, rfl⟩ | ⟨hx, hx', hx''⟩ <;>
      rcases hb with ⟨y, rfl⟩ | ⟨y, rfl⟩ | ⟨y, rfl⟩ | ⟨y, rfl⟩ | ⟨hy, hy', hy''⟩
    case inr.inr.inr.inr.inr.inr.inr.inr =>
      rw [hx, hx', hy, hy']
      simp only [ReflCmp.compare_self, Ordering.then]
      split
      · rcases h with h | h <;> cases h
      all_goals first
        | simp [Value.kindName, orderedKinds] at hx''; done
        | exact hkind ▸ ReflCmp.compare_self
    case inr.inr.inr.inl.inr.inr.inr.inl => cases x <;> cases y <;> rfl
    all_goals simp_all [Value.kindName, Value.magnitude, Value.wording, orderedKinds]
  · rw [compareByKind_of_ne hkind]
    split
    · rcases h with h | h <;> cases h
    all_goals first | exact absurd rfl hkind | rfl

-- How a key compares with another one tells how that one compares with it.

theorem compareKeys_self (a : Value) : compareKeys a a = .eq := by
  cases ha : a.int? with
  | some x => exact (compareKeys_ints ha ha).trans ReflCmp.compare_self
  | none => exact (compareKeys_eq_byKind (.inl ha)).trans ReflCmp.compare_self

theorem compareKeys_swap (a b : Value) : compareKeys b a = (compareKeys a b).swap := by
  by_cases h : a.int? = none ∨ b.int? = none
  · rw [compareKeys_eq_byKind h, compareKeys_eq_byKind h.symm]
    exact OrientedCmp.eq_swap
  · obtain ⟨ha, hb⟩ := not_or.mp h
    obtain ⟨x, hx⟩ := Option.ne_none_iff_exists'.mp ha
    obtain ⟨y, hy⟩ := Option.ne_none_iff_exists'.mp hb
    rw [compareKeys_ints hx hy, compareKeys_ints hy hx]
    exact OrientedCmp.eq_swap

section Straddling

variable {a b c : Value} {x y : IntValue} {keys : List Value}

-- Between two integers, by the names of the kinds, stands a key that is none, and the numbers
-- are not in the order of these names.
def Straddled (keys : List Value) : Prop :=
  ∃ a ∈ keys, ∃ b ∈ keys, ∃ c ∈ keys, ∃ x y, a.int? = some x ∧ b.int? = none ∧ c.int? = some y ∧
    x.kind.name < b.unwrap.kindName ∧ b.unwrap.kindName < y.kind.name ∧ y.val ≤ x.val

theorem Value.unwrap_of_int? (ha : a.int? = some x) : a.unwrap = .int x := by
  unfold Value.int? at ha
  split at ha <;> cases ha
  assumption

-- No other value is of a kind with the name of an integer kind.
theorem Value.name_ne_kindName (k : IntKind) (hb : b.int? = none) :
    k.name ≠ b.unwrap.kindName := by
  have hnamed := Heap.unwrap_not_named b
  unfold Value.int? at hb
  generalize b.unwrap = v at *
  cases v with
  | int => cases hb
  | named => cases hnamed
  | _ => cases k <;> simp [Value.kindName, IntKind.name]

-- An integer and a key of another kind are never equal.

theorem isLE_compareKeys_int_left (ha : a.int? = some x) (hb : b.int? = none) :
    (compareKeys a b).isLE = true ↔ x.kind.name < b.unwrap.kindName := by
  have hne : (Value.int x).kindName ≠ b.unwrap.kindName := Value.name_ne_kindName x.kind hb
  rw [compareKeys_eq_byKind (.inr hb), Value.unwrap_of_int? ha, compareByKind_of_ne hne]
  exact (isLE_compare_iff _ _).trans hne.le_iff_lt

theorem isLE_compareKeys_int_right (hb : b.int? = none) (hc : c.int? = some y) :
    (compareKeys b c).isLE = true ↔ b.unwrap.kindName < y.kind.name := by
  have hne : b.unwrap.kindName ≠ (Value.int y).kindName := (Value.name_ne_kindName y.kind hb).symm
  rw [compareKeys_eq_byKind (.inl hb), Value.unwrap_of_int? hc, compareByKind_of_ne hne]
  exact (isLE_compare_iff _ _).trans hne.le_iff_lt

theorem isLE_compareKeys_ints (ha : a.int? = some x) (hc : c.int? = some y) :
    (compareKeys a c).isLE = true ↔ x.val ≤ y.val := by
  rw [compareKeys_ints ha hc]
  exact isLE_compare_iff _ _

-- Where no two of three keys are integers, they are ordered by their kinds.
theorem compareKeys_trans_of_kinds (hab : a.int? = none ∨ b.int? = none)
    (hbc : b.int? = none ∨ c.int? = none) (hac : a.int? = none ∨ c.int? = none)
    (hle : (compareKeys a b).isLE = true) (hle' : (compareKeys b c).isLE = true) :
    (compareKeys a c).isLE = true := by
  rw [compareKeys_eq_byKind hab] at hle
  rw [compareKeys_eq_byKind hbc] at hle'
  rw [compareKeys_eq_byKind hac]
  exact TransCmp.isLE_trans hle hle'

-- What stands between two integers in the wrong order is the only thing that breaks the order.
theorem compareKeys_trans_iff :
    (∀ a ∈ keys, ∀ b ∈ keys, ∀ c ∈ keys, (compareKeys a b).isLE = true →
        (compareKeys b c).isLE = true → (compareKeys a c).isLE = true) ↔ ¬ Straddled keys := by
  constructor
  · rintro htrans ⟨a, ha, b, hb, c, hc, x, y, hx, hnone, hy, hab, hbc, hyx⟩
    -- The one with the later kind is not greater than the other one, which comes before `b`.
    have hcb := htrans c hc a ha b hb ((isLE_compareKeys_ints hy hx).mpr hyx)
      ((isLE_compareKeys_int_left hx hnone).mpr hab)
    exact lt_asymm hbc ((isLE_compareKeys_int_left hy hnone).mp hcb)
  · intro hkeys a ha b hb c hc hab hbc
    cases hx : a.int? with
    | none =>
        cases hy : b.int? with
        | none => exact compareKeys_trans_of_kinds (.inl hx) (.inl hy) (.inl hx) hab hbc
        | some y =>
            cases hz : c.int? with
            | none => exact compareKeys_trans_of_kinds (.inl hx) (.inr hz) (.inl hx) hab hbc
            | some z =>
                rw [isLE_compareKeys_int_right hx hy] at hab
                rw [isLE_compareKeys_ints hy hz] at hbc
                rw [isLE_compareKeys_int_right hx hz]
                by_contra hac
                have hne := Value.name_ne_kindName z.kind hx
                exact hkeys ⟨c, hc, a, ha, b, hb, z, y, hz, hx, hy,
                  lt_of_le_of_ne (not_lt.mp hac) hne, hab, hbc⟩
    | some x =>
        cases hy : b.int? with
        | none =>
            cases hz : c.int? with
            | none => exact compareKeys_trans_of_kinds (.inr hy) (.inr hz) (.inr hz) hab hbc
            | some z =>
                rw [isLE_compareKeys_int_left hx hy] at hab
                rw [isLE_compareKeys_int_right hy hz] at hbc
                rw [isLE_compareKeys_ints hx hz]
                by_contra hac
                exact hkeys ⟨a, ha, b, hb, c, hc, x, z, hx, hy, hz, hab, hbc,
                  (not_le.mp hac).le⟩
        | some y =>
            cases hz : c.int? with
            | none =>
                rw [isLE_compareKeys_ints hx hy] at hab
                rw [isLE_compareKeys_int_left hy hz] at hbc
                rw [isLE_compareKeys_int_left hx hz]
                by_contra hac
                have hne := Value.name_ne_kindName x.kind hz
                exact hkeys ⟨b, hb, c, hc, a, ha, y, x, hy, hz, hx, hbc,
                  lt_of_le_of_ne (not_lt.mp hac) hne.symm, hab⟩
            | some z =>
                rw [isLE_compareKeys_ints hx hy] at hab
                rw [isLE_compareKeys_ints hy hz] at hbc
                exact (isLE_compareKeys_ints hx hz).mpr (hab.trans hbc)

-- A key that does not come before another one compares with it the other way round.
theorem isLE_compareKeys_of_not_before (h : keyBefore a b = false) :
    (compareKeys b a).isLE = true := by
  rw [keyBefore_eq] at h
  rw [compareKeys_swap a b]
  cases hab : compareKeys a b <;> simp_all

theorem not_before_of_isLE (h : (compareKeys b a).isLE = true) : keyBefore a b = false := by
  rw [compareKeys_swap a b] at h
  rw [keyBefore_eq]
  cases hab : compareKeys a b <;> simp_all

theorem orders_entries {entries : List Entry} (h : ¬ Straddled (entries.map (·.keyValue))) :
    OrdersItems (fun d e => keyBefore d.keyValue e.keyValue) entries where
  asymm d _ e _ hde := by
    rw [keyBefore_eq, beq_iff_eq] at hde
    rw [keyBefore_eq, compareKeys_swap, hde]
    rfl
  trans d hd e he f hf hde hef := by
    refine not_before_of_isLE (compareKeys_trans_iff.mpr h _ (List.mem_map_of_mem hf) _
      (List.mem_map_of_mem he) _ (List.mem_map_of_mem hd) ?_ ?_)
    · exact isLE_compareKeys_of_not_before hef
    · exact isLE_compareKeys_of_not_before hde

-- Comparing is reflexive, and swapping two keys reverses the result. It is transitive just where
-- no integers are straddled, and then there is one way to sort the entries of a map.
theorem map_keys_ordered_unless_straddled (h : Heap) (m : Option MapId) :
    let keys := (h.entries m).map (·.keyValue)
    let before := fun d e : Entry => keyBefore d.keyValue e.keyValue
    (∀ a b, keyBefore a b = true ↔ compareKeys a b = .lt) ∧
      (∀ a, compareKeys a a = .eq) ∧
      (∀ a b, compareKeys b a = (compareKeys a b).swap) ∧
      ((∀ a ∈ keys, ∀ b ∈ keys, ∀ c ∈ keys, (compareKeys a b).isLE = true →
        (compareKeys b c).isLE = true → (compareKeys a c).isLE = true) ↔ ¬ Straddled keys) ∧
      (¬ Straddled keys → ∀ sorted, StableSort before (h.entries m) sorted ↔
        sorted = sortBy before (h.entries m)) := by
  refine ⟨fun a b => ?_, compareKeys_self, compareKeys_swap, compareKeys_trans_iff, ?_⟩
  · rw [keyBefore_eq, beq_iff_eq]
  · exact fun hkeys sorted => stableSort_iff (orders_entries hkeys)

-- Neither of two integers is straddled by a string where the names of their kinds come first.
theorem text_and_numbers_sort_one_way :
    let entries : List Entry := [⟨.str "x", .str "x", .nil⟩,
      ⟨.int (.plain 2), .plainInt 2, .nil⟩, ⟨.int (.ofInt .int8 1), .intOf .int8 1, .nil⟩]
    let before := fun d e : Entry => keyBefore d.keyValue e.keyValue
    ¬ Straddled (entries.map (·.keyValue)) ∧
      ∀ sorted, StableSort before entries sorted ↔ sorted = sortBy before entries := by
  intro entries before
  have hkeys : ¬ Straddled (entries.map (·.keyValue)) := by
    rintro ⟨a, -, b, hb, c, hc, x, y, -, hnone, hy, -, hbc, -⟩
    simp only [entries, List.map_cons, List.map_nil, List.mem_cons, List.not_mem_nil,
      or_false] at hb hc
    rcases hb with rfl | rfl | rfl
    · rcases hc with rfl | rfl | rfl <;> cases hy
      all_goals exact absurd hbc (by decide)
    all_goals cases hnone
  have hmap := map_keys_ordered_unless_straddled
    { Heap.empty with maps := #[entries] } (some 0)
  exact ⟨hkeys, hmap.2.2.2.2 hkeys⟩

-- The int 2, a string and the uint8 1 are keys of one map, and each comes before the next one
-- in a circle.
theorem straddled_keys_run_in_circle :
    (∀ v ∈ [Value.plainInt 2, .str "x", .intOf .uint8 1],
        (Heap.empty.keyOf v).toOption.isSome = true) ∧
      keyBefore (.plainInt 2) (.str "x") = true ∧
      keyBefore (.str "x") (.intOf .uint8 1) = true ∧
      keyBefore (.intOf .uint8 1) (.plainInt 2) = true := by
  decide

end Straddling

end StepGraph

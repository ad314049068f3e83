import StepGraph.Heap.Pointer
import StepGraph.Heap.Slice
import StepGraph.Proofs.Store.Regions
import Mathlib.Algebra.GroupWithZero.Nat

namespace StepGraph.Heap

variable {h h' : Heap} {s : Option Window} {u w : Window} {values : List Value} {b : BlockId}

-- The block of a window is there and has room for all of its capacity.
structure InBounds (h : Heap) (w : Window) : Prop where
  lt_size : w.block < h.blocks.size
  room : w.offset + w.capacity ≤ (h.block w.block).size
  length_le : w.length ≤ w.capacity

-- A slice is nil, or it has a window on a block.
def ValidSlice (h : Heap) (s : Option Window) : Prop := ∀ w, s = some w → h.InBounds w

theorem validSlice_none (h : Heap) : h.ValidSlice none := nofun

theorem validSlice_some : h.ValidSlice (some w) ↔ h.InBounds w :=
  ⟨fun hs => hs w rfl, fun hw _ he => by cases he; exact hw⟩

theorem ValidSlice.length_le (hs : h.ValidSlice s) : sliceLength s ≤ sliceCapacity s := by
  cases s with
  | none => exact Nat.le_refl _
  | some w => exact (hs w rfl).length_le

-- Blocks never lose elements, so a slice that is valid once is valid from then on.
theorem ValidSlice.later (hs : h.ValidSlice s) (hsize : h.blocks.size ≤ h'.blocks.size)
    (hkept : ∀ b, b < h.blocks.size → (h'.block b).size = (h.block b).size) : h'.ValidSlice s := by
  intro w hw
  obtain ⟨hlt, hroom, hlength⟩ := hs w hw
  exact ⟨Nat.lt_of_lt_of_le hlt hsize, by rw [hkept _ hlt]; exact hroom, hlength⟩

theorem getElem?_windowElems (h : Heap) (w : Window) (i : Nat) :
    (h.windowElems w)[i]? = if i < w.length then h.element? w.block (w.offset + i) else none := by
  unfold windowElems element?
  simp only [Array.getElem?_toList, Array.getElem?_extract]
  by_cases hi : i < w.length
  · by_cases hin : w.offset + i < (h.block w.block).size
    · rw [if_pos (by omega), if_pos hi]
    · rw [if_neg (by omega), if_pos hi, Array.getElem?_eq_none (by omega)]
  · rw [if_neg (by omega), if_neg hi]

-- What a slice shows is decided by the elements in its window.
theorem windowElems_congr (hsame : ∀ i, i < w.length →
    h'.element? w.block (w.offset + i) = h.element? w.block (w.offset + i)) :
    h'.windowElems w = h.windowElems w := by
  apply List.ext_getElem?
  intro i
  rw [getElem?_windowElems, getElem?_windowElems]
  split
  · next hi => exact hsame i hi
  · rfl

theorem InBounds.lt_of_lt_length (hw : h.InBounds w) {i : Nat} (hi : i < w.length) :
    w.offset + i < (h.block w.block).size := by
  have hroom := hw.room
  have hlength := hw.length_le
  omega

theorem InBounds.length_elems (hw : h.InBounds w) : (h.windowElems w).length = w.length := by
  have hroom := hw.room
  have hlength := hw.length_le
  simp only [windowElems, Array.length_toList, Array.size_extract]
  omega

theorem ValidSlice.length_elems (hs : h.ValidSlice s) :
    (h.sliceElems s).length = sliceLength s := by
  cases s with
  | none => rfl
  | some w => exact (hs w rfl).length_elems

theorem GrowsByBlocks.sliceElems (hg : GrowsByBlocks h h') (hs : h.ValidSlice s) :
    h'.sliceElems s = h.sliceElems s := by
  cases s with
  | none => rfl
  | some w =>
    change ((h'.block w.block).extract _ _).toList = ((h.block w.block).extract _ _).toList
    rw [hg.same _ (hs w rfl).lt_size]

theorem GrowsByBlocks.validSlice (hg : GrowsByBlocks h h') (hs : h.ValidSlice s) :
    h'.ValidSlice s :=
  hs.later hg.size fun b hb => by rw [hg.same b hb]

-- A new slice shows the values that it is made of and has no room for more.
theorem newSlice_apply (values : List Value) (h : Heap) :
    newSlice values h =
      (.slice (some ⟨h.blocks.size, 0, values.length, values.length⟩), (newBlock values.toArray h).2) :=
  rfl

theorem inBounds_newBlock (values : List Value) (h : Heap) {length : Nat}
    (hlength : length ≤ values.length) :
    (newBlock values.toArray h).2.InBounds ⟨h.blocks.size, 0, length, values.length⟩ := by
  refine ⟨lt_size_newBlock h _, ?_, hlength⟩
  rw [block_newBlock, if_pos rfl]
  simp

theorem windowElems_newBlock (values : List Value) (h : Heap) (length capacity : Nat) :
    (newBlock values.toArray h).2.windowElems ⟨h.blocks.size, 0, length, capacity⟩ =
      values.take length := by
  unfold windowElems
  rw [block_newBlock, if_pos rfl]
  simp

-- A slice can be cut anew exactly within its capacity.
theorem reslice?_eq (s : Option Window) (low high max : Nat) : reslice? s low high max =
    if low ≤ high ∧ high ≤ max ∧ max ≤ sliceCapacity s then
      some (s.map fun w => ⟨w.block, w.offset + low, high - low, max - low⟩)
    else none := by
  cases s with
  | none => simp only [reslice?, sliceCapacity, Nat.le_zero, Option.map_none]
  | some w =>
    change (w.reslice? low high max).map some = _
    by_cases hbounds : low ≤ high ∧ high ≤ max ∧ max ≤ sliceCapacity (some w)
    · rw [if_pos hbounds]
      exact congrArg (Option.map some) (if_pos hbounds)
    · rw [if_neg hbounds]
      exact congrArg (Option.map some) (if_neg hbounds)

theorem ValidSlice.reslice (hs : h.ValidSlice s) {low high max : Nat} {t : Option Window}
    (ht : reslice? s low high max = some t) : h.ValidSlice t := by
  rw [reslice?_eq, Option.ite_none_right_eq_some] at ht
  obtain ⟨hbounds, ht⟩ := ht
  obtain rfl := Option.some.inj ht
  cases s with
  | none => exact validSlice_none h
  | some w =>
    obtain ⟨hlt, hroom, hlength⟩ := hs w rfl
    simp only [sliceCapacity] at hbounds
    exact validSlice_some.mpr ⟨hlt, by simp only; omega, by simp only; omega⟩

-- A value that is no struct and no array is replaced by what is stored over it.
theorem store_over_flat {i : Nat} {x : Value} (hread : h.element? b i = some x)
    (hx : x.block? = none) (v : Value) :
    (store (.element b i) v h).2 = (setElement b i v h).2 := by
  have hread' : h.read? (.element b i) = some x := hread
  have hnone : h.filledBlock? (h.read? (.element b i)) v = none := by
    rw [hread']
    cases hf : h.filledBlock? (some x) v with
    | none => rfl
    | some filled =>
      obtain ⟨old, new⟩ := filled
      rw [block?_of_filledBlock? hf] at hx
      cases hx
  exact storeUpTo_of_not_filled hnone

-- Values written to a block one after the other.
theorem setElements {o : Nat} (hb : b < h.blocks.size) {j : Nat}
    (hroom : o + j + values.length ≤ (h.block b).size) :
    ChangesWithin [b] h (((values.zipIdx j).forM fun (v, k) =>
      setElement b (o + k) v : HeapM Unit) h).2 ∧
      ∀ i, (((values.zipIdx j).forM fun (v, k) => setElement b (o + k) v : HeapM Unit) h).2.element? b i =
        if o + j ≤ i ∧ i < o + j + values.length then values[i - (o + j)]? else h.element? b i := by
  induction values generalizing h j with
  | nil =>
    refine ⟨.refl _ h, fun i => ?_⟩
    rw [if_neg (by simp only [List.length_nil]; omega)]
    rfl
  | cons v values ih =>
    rw [List.length_cons] at hroom ⊢
    set h₁ := (setElement b (o + j) v h).2 with hh₁
    have hfirst : ChangesWithin [b] h h₁ := within_setElement h b (o + j) v
    have hj : o + j < (h.block b).size := by omega
    have hold : h.element? b (o + j) = some (h.block b)[o + j] := Array.getElem?_eq_getElem hj
    have hset : ∀ i, h₁.element? b i = if o + j = i then some v else h.element? b i :=
      fun i => element?_setElement h b (o + j) i v _ hold
    obtain ⟨hrest, helems⟩ := ih (h := h₁) (j := j + 1) (by rw [hfirst.count]; exact hb)
      (by rw [hfirst.sizes]; omega)
    refine ⟨hfirst.trans hrest, fun i => ?_⟩
    refine (helems i).trans ?_
    rw [hset i]
    by_cases hi : o + j = i
    · subst hi
      rw [if_neg (by omega), if_pos rfl, if_pos (by omega), Nat.sub_self]
      rfl
    · by_cases hin : o + (j + 1) ≤ i ∧ i < o + (j + 1) + values.length
      · rw [if_pos hin, if_pos (by omega), show i - (o + j) = i - (o + (j + 1)) + 1 by omega]
        rfl
      · rw [if_neg hin, if_neg hi, if_neg (by omega)]

-- The element is one of those right behind the window that an append of `n` values takes.
def Taken (s : Option Window) (n : Nat) (b : BlockId) (i : Nat) : Prop :=
  ∃ w, s = some w ∧ w.block = b ∧ w.offset + w.length ≤ i ∧ i < w.offset + w.length + n

-- What an append leaves for which there is room: the values are in the elements behind the window,
-- and no other element is different.
structure AppendedInPlace (h : Heap) (s : Option Window) (values : List Value) (t : Option Window)
    (h' : Heap) : Prop where
  window : t = s.map fun w => { w with length := w.length + values.length }
  size : h'.blocks.size = h.blocks.size
  sizes : ∀ b, (h'.block b).size = (h.block b).size
  taken : ∀ w, s = some w → ∀ i, i < values.length →
    h'.element? w.block (w.offset + w.length + i) = values[i]?
  others : ∀ b i, ¬ Taken s values.length b i → h'.element? b i = h.element? b i

theorem appended_in_place (hs : h.ValidSlice s)
    (hroom : sliceLength s + values.length ≤ sliceCapacity s) :
    ∃ t h', append s values h = (t, h') ∧ AppendedInPlace h s values t h' := by
  cases s with
  | none =>
    obtain rfl : values = [] := List.eq_nil_of_length_eq_zero (by simp_all [sliceLength, sliceCapacity])
    exact ⟨none, h, rfl, rfl, rfl, fun _ => rfl, nofun, fun _ _ _ => rfl⟩
  | some w =>
    obtain ⟨hlt, hbound, hlength⟩ := hs w rfl
    have hrun : append (some w) values h = (some { w with length := w.length + values.length },
        ((values.zipIdx.forM fun (v, k) => setElement w.block (w.offset + w.length + k) v :
          HeapM Unit) h).2) := by
      cases values with
      | nil => rfl
      | cons first rest =>
        exact congrFun (if_pos hroom) h
    simp only [sliceLength, sliceCapacity] at hroom
    obtain ⟨hwithin, helems⟩ :=
      @setElements h values w.block (w.offset + w.length) hlt 0 (by omega)
    refine ⟨_, _, hrun, rfl, hwithin.count, hwithin.sizes, fun w' hw' i hi => ?_, fun b i hout => ?_⟩
    · obtain rfl := Option.some.inj hw'
      rw [helems, if_pos (by omega)]
      congr 1
      omega
    · by_cases hb : w.block = b
      · subst hb
        rw [helems, if_neg]
        exact fun hin => hout ⟨w, rfl, rfl, by omega, by omega⟩
      · unfold element?
        rw [hwithin.same b (by simpa using Ne.symm hb)]

-- A slice whose window misses the elements that were taken shows what it showed.
theorem AppendedInPlace.missed {t : Option Window} (ha : AppendedInPlace h s values t h')
    (hmiss : ∀ i, i < u.length → ¬ Taken s values.length u.block (u.offset + i)) :
    h'.windowElems u = h.windowElems u :=
  windowElems_congr fun i hi => ha.others _ _ (hmiss i hi)

theorem AppendedInPlace.shows {t : Option Window} (ha : AppendedInPlace h s values t h')
    (hs : h.ValidSlice s) (hroom : sliceLength s + values.length ≤ sliceCapacity s) :
    h'.sliceElems t = h.sliceElems s ++ values := by
  rw [ha.window]
  cases s with
  | none =>
    have hnil : values = [] :=
      List.eq_nil_of_length_eq_zero (by simp_all [sliceLength, sliceCapacity])
    simp [hnil, sliceElems]
  | some w =>
    change h'.windowElems _ = h.windowElems w ++ values
    have hlen : (h.windowElems w).length = w.length := (hs w rfl).length_elems
    apply List.ext_getElem?
    intro i
    rw [getElem?_windowElems, List.getElem?_append, hlen, getElem?_windowElems]
    by_cases hi : i < w.length
    · have hout : ¬ Taken (some w) values.length w.block (w.offset + i) := by
        rintro ⟨w', hw', -, hge, -⟩
        obtain rfl := Option.some.inj hw'
        omega
      simp only [if_pos hi, if_pos (Nat.lt_add_right values.length hi), ha.others _ _ hout]
    · simp only [if_neg hi]
      by_cases hin : i < w.length + values.length
      · rw [if_pos hin, ← ha.taken w rfl (i - w.length) (by omega)]
        congr 1
        omega
      · rw [if_neg hin, List.getElem?_eq_none (by omega)]

theorem AppendedInPlace.valid {t u : Option Window} (ha : AppendedInPlace h s values t h')
    (hu : h.ValidSlice u) : h'.ValidSlice u :=
  hu.later (Nat.le_of_eq ha.size.symm) fun b _ => ha.sizes b

theorem AppendedInPlace.valid_result {t : Option Window} (ha : AppendedInPlace h s values t h')
    (hs : h.ValidSlice s) (hroom : sliceLength s + values.length ≤ sliceCapacity s) :
    h'.ValidSlice t := by
  rw [ha.window]
  cases s with
  | none => exact validSlice_none h'
  | some w =>
    obtain ⟨hlt, hbound, -⟩ := ha.valid hs w rfl
    exact validSlice_some.mpr ⟨hlt, hbound, hroom⟩

-- The capacity that is doubled until there is room.
theorem grow_eq {capacity : Nat} (hpos : 0 < capacity) (needed : Nat) :
    ∃ k, grow capacity needed = capacity * 2 ^ k ∧ needed ≤ grow capacity needed ∧
      ∀ j, j < k → capacity * 2 ^ j < needed := by
  fun_induction grow capacity needed with
  | case1 capacity hdone =>
    refine ⟨0, ?_, Nat.le_max_right _ _, fun j hj => absurd hj (Nat.not_lt_zero j)⟩
    simp only [Nat.pow_zero, Nat.mul_one]
    omega
  | case2 capacity hmore ih =>
    obtain ⟨k, hk, hle, hless⟩ := ih (by omega)
    refine ⟨k + 1, by rw [hk, Nat.pow_succ]; ac_rfl, hle, fun j hj => ?_⟩
    cases j with
    | zero => simp only [Nat.pow_zero, Nat.mul_one]; omega
    | succ j =>
      have hj' := hless j (by omega)
      rw [Nat.pow_succ]
      calc capacity * (2 ^ j * 2) = 2 * capacity * 2 ^ j := by ac_rfl
        _ < needed := hj'

-- What an append leaves that runs out of capacity: a slice with a block of its own, which shows the
-- values behind the elements that the old one showed and holds one further value in all its spare
-- elements. Its capacity is that of the old one, doubled no more often than need be.
structure AppendedAnew (h : Heap) (s : Option Window) (values : List Value) (t : Window)
    (filler : Value) (h' : Heap) : Prop where
  grows : GrowsByBlocks h h'
  region : ∃ bs, h'.Region bs ∧ (∀ b ∈ bs, h.blocks.size ≤ b ∧ b < t.block) ∧ filler.StandsIn bs
  new : h.blocks.size ≤ t.block ∧ t.block < h'.blocks.size
  offset : t.offset = 0
  length : t.length = sliceLength s + values.length
  length_le : t.length ≤ t.capacity
  capacity : ∃ k, t.capacity = max (sliceCapacity s) 1 * 2 ^ k ∧
    ∀ j, j < k → max (sliceCapacity s) 1 * 2 ^ j < t.length
  elems : (h'.block t.block).toList =
    h.sliceElems s ++ values ++ List.replicate (t.capacity - t.length) filler

theorem appended_anew {first : Value} {rest : List Value} (hs : h.ValidSlice s)
    (hshort : sliceCapacity s < sliceLength s + (first :: rest).length) :
    ∃ t h', append s (first :: rest) h = (some t, h') ∧
      GrowsByBlocks (ofConstant (h.zeroLike first) h).2 h' ∧
      AppendedAnew h s (first :: rest) t (ofConstant (h.zeroLike first) h).1 h' := by
  have hbrings := brings_ofConstant (h.zeroLike first) h
  set filler := (ofConstant (h.zeroLike first) h).1
  set h₁ := (ofConstant (h.zeroLike first) h).2 with hh₁
  set needed := sliceLength s + (first :: rest).length with hneeded
  set capacity := grow (max (sliceCapacity s) 1) needed with hcapacity
  have hg := grows_newBlock h₁
    (h.sliceElems s ++ first :: rest ++ List.replicate (capacity - needed) filler).toArray
  obtain ⟨k, hk, hle, hless⟩ :=
    grow_eq (Nat.lt_of_lt_of_le Nat.one_pos (Nat.le_max_right (sliceCapacity s) 1)) needed
  refine ⟨⟨h₁.blocks.size, 0, needed, capacity⟩, _, ?_, hg, hbrings.grows.trans hg, ?_,
    ⟨hbrings.grows.size, lt_size_newBlock _ _⟩, rfl, rfl, hle, ⟨k, hk, hless⟩, ?_⟩
  · rw [← hbrings.grows.sliceElems hs]
    cases s with
    | none => rfl
    | some w => exact congrFun (if_neg (Nat.not_le_of_lt hshort)) h
  · obtain ⟨-, bs, hr, hnew, hin⟩ := hbrings
    exact ⟨bs, hr.grow hg, fun b hb => ⟨hnew b hb, hr.lt_size b hb⟩, hin filler List.mem_cons_self⟩
  · rw [block_newBlock, if_pos rfl]

namespace AppendedAnew

variable {t : Window} {filler : Value}

theorem shows (ha : AppendedAnew h s values t filler h') (hs : h.ValidSlice s) :
    h'.sliceElems (some t) = h.sliceElems s ++ values := by
  have hlen : t.length = (h.sliceElems s ++ values).length := by
    rw [ha.length, List.length_append, hs.length_elems]
  change ((h'.block t.block).extract t.offset (t.offset + t.length)).toList = _
  have htake : ((h'.block t.block).extract 0 t.length).toList =
      (h'.block t.block).toList.take t.length := by simp
  rw [ha.offset, Nat.zero_add, htake, ha.elems, hlen, List.take_left]

theorem valid_result (ha : AppendedAnew h s values t filler h') (hs : h.ValidSlice s) :
    h'.ValidSlice (some t) := by
  have hlength := ha.length_le
  refine validSlice_some.mpr ⟨ha.new.2, ?_, hlength⟩
  rw [← Array.length_toList, ha.elems, ha.offset]
  simp only [List.length_append, List.length_replicate, hs.length_elems, ha.length] at hlength ⊢
  omega

theorem filled (ha : AppendedAnew h s values t filler h') : BringsValues h h' [filler] := by
  obtain ⟨bs, hr, hnew, hin⟩ := ha.region
  refine ⟨ha.grows, bs, hr, fun b hb => (hnew b hb).1, fun v hv => ?_⟩
  obtain rfl := List.mem_singleton.mp hv
  exact hin

-- Every element between the length and the capacity is the one filler.
theorem spare (ha : AppendedAnew h s values t filler h') (hs : h.ValidSlice s) {i : Nat}
    (hlow : t.length ≤ i) (hhigh : i < t.capacity) : h'.element? t.block i = some filler := by
  have hlen : t.length = (h.sliceElems s ++ values).length := by
    rw [ha.length, List.length_append, hs.length_elems]
  rw [element?_eq_getElem?, ha.elems, List.getElem?_append_right (by omega),
    List.getElem?_replicate, if_pos (by omega)]

end AppendedAnew

-- What an append leaves, with room enough or not.
structure Appended (h : Heap) (s : Option Window) (values : List Value) (t : Option Window)
    (h' : Heap) : Prop where
  valid : h'.ValidSlice t
  keeps : ∀ u, h.ValidSlice u → h'.ValidSlice u
  shows : h'.sliceElems t = h.sliceElems s ++ values
  inPlace : sliceLength s + values.length ≤ sliceCapacity s → AppendedInPlace h s values t h'
  missed : sliceLength s + values.length ≤ sliceCapacity s → ∀ u : Window,
    (∀ i, i < u.length → ¬ Taken s values.length u.block (u.offset + i)) →
      h'.windowElems u = h.windowElems u
  anew : sliceCapacity s < sliceLength s + values.length →
    ∃ w filler, t = some w ∧ AppendedAnew h s values w filler h'

theorem appended (hs : h.ValidSlice s) (values : List Value) :
    ∃ t h', append s values h = (t, h') ∧ Appended h s values t h' := by
  by_cases hroom : sliceLength s + values.length ≤ sliceCapacity s
  · obtain ⟨t, h', happend, ha⟩ := appended_in_place hs hroom
    exact ⟨t, h', happend, ha.valid_result hs hroom, fun u hu => ha.valid hu, ha.shows hs hroom,
      fun _ => ha, fun _ u hmiss => ha.missed hmiss, fun hshort => absurd hroom (Nat.not_le_of_lt hshort)⟩
  · have hshort : sliceCapacity s < sliceLength s + values.length := Nat.lt_of_not_le hroom
    have hvalues : values ≠ [] := by
      rintro rfl
      exact hroom hs.length_le
    obtain ⟨first, rest, rfl⟩ := List.exists_cons_of_ne_nil hvalues
    obtain ⟨t, h', happend, -, ha⟩ := appended_anew hs hshort
    exact ⟨some t, h', happend, ha.valid_result hs, fun u hu => ha.grows.validSlice hu, ha.shows hs,
      fun hin => absurd hin hroom, fun hin => absurd hin hroom, fun _ => ⟨t, _, rfl, ha⟩⟩

-- The block of a slice or an array is there, which may be under declared types, or the array behind
-- a pointer.
def Backed (h : Heap) (v : Value) : Prop :=
  match v.unwrap with
  | .slice s => h.ValidSlice s
  | .array b => b < h.blocks.size
  | .pointer a => ∀ b, h.deref a = .ok (.array b) → b < h.blocks.size
  | _ => True

end StepGraph.Heap

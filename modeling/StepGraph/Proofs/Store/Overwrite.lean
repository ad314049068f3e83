import StepGraph.Heap.Scope
import StepGraph.Proofs.Store.Content

namespace StepGraph.Heap

variable {h h' h'' : Heap} {v w : Value} {vs : List Value} {c a : Content} {cs : List Content}
  {bs : List BlockId}

-- The one block that a place stands in, if it is an element of one.
def blockOf : Place → List BlockId
  | .element b _ => [b]
  | _ => []

-- Nothing has changed but what the elements of these blocks hold.
structure ChangesWithin (bs : List BlockId) (h h' : Heap) : Prop where
  rest : h' = { h with blocks := h'.blocks }
  count : h'.blocks.size = h.blocks.size
  sizes : ∀ b, (h'.block b).size = (h.block b).size
  same : ∀ b, b ∉ bs → h'.block b = h.block b

namespace ChangesWithin

theorem refl (bs : List BlockId) (h : Heap) : ChangesWithin bs h h := ⟨rfl, rfl, fun _ => rfl, fun _ _ => rfl⟩

theorem trans (h₁ : ChangesWithin bs h h') (h₂ : ChangesWithin bs h' h'') :
    ChangesWithin bs h h'' where
  rest := by rw [h₂.rest, h₁.rest]
  count := h₂.count.trans h₁.count
  sizes b := (h₂.sizes b).trans (h₁.sizes b)
  same b hb := (h₂.same b hb).trans (h₁.same b hb)

theorem mono {bs' : List BlockId} (hw : ChangesWithin bs h h') (hsub : bs ⊆ bs') :
    ChangesWithin bs' h h' :=
  ⟨hw.rest, hw.count, hw.sizes, fun b hb => hw.same b fun hm => hb (hsub hm)⟩

theorem shows (hw : ChangesWithin bs h h') {cs : List BlockId} (hs : h.Shows v c cs)
    (hd : ∀ b ∈ cs, b ∉ bs) : h'.Shows v c cs :=
  hs.frame (Nat.le_of_eq hw.count.symm) fun b hb => hw.same b (hd b hb)

theorem showsAll (hw : ChangesWithin bs h h') {ids : List BlockId} (hs : h.ShowsAll vs cs ids)
    (hd : ∀ b ∈ ids, b ∉ bs) : h'.ShowsAll vs cs ids :=
  hs.frame (Nat.le_of_eq hw.count.symm) fun b hb => hw.same b (hd b hb)

end ChangesWithin

theorem block_modify (h : Heap) (b b' : BlockId) (f : Array Value → Array Value)
    (hb : b < h.blocks.size) :
    block { h with blocks := h.blocks.modify b f } b' =
      if b = b' then f (h.block b') else h.block b' := by
  unfold block
  rw [Array.getElem?_modify]
  by_cases he : b = b'
  · subst he
    simp [hb]
  · simp [he]

theorem within_setElement (h : Heap) (b : BlockId) (i : Nat) (v : Value) :
    ChangesWithin [b] h (setElement b i v h).2 := by
  change ChangesWithin [b] h { h with blocks := h.blocks.modify b (·.setIfInBounds i v) }
  by_cases hb : b < h.blocks.size
  · refine ⟨rfl, by simp, fun b' => ?_, fun b' hb' => ?_⟩
    · rw [block_modify h b b' _ hb]
      split <;> simp
    · rw [block_modify h b b' _ hb, if_neg fun he => hb' (by simp [he])]
  · have hid : h.blocks.modify b (·.setIfInBounds i v) = h.blocks := by
      apply Array.ext_getElem?
      intro j
      rw [Array.getElem?_modify]
      split
      · next he => subst he; simp [Nat.le_of_not_lt hb]
      · rfl
    rw [hid]
    exact ChangesWithin.refl _ h

theorem element?_setElement (h : Heap) (b : BlockId) (i j : Nat) (v old : Value)
    (hold : h.element? b i = some old) :
    (setElement b i v h).2.element? b j = if i = j then some v else h.element? b j := by
  change element? { h with blocks := h.blocks.modify b (·.setIfInBounds i v) } b j = _
  unfold element? at hold ⊢
  have hi : i < (h.block b).size := by
    by_contra hn
    simp [Nat.le_of_not_lt hn] at hold
  have hb : b < h.blocks.size := by
    by_contra hn
    simp [block, Nat.le_of_not_lt hn] at hi
  rw [block_modify h b b _ hb, if_pos rfl, Array.getElem?_setIfInBounds]
  split <;> simp_all

theorem element?_eq_getElem? (h : Heap) (b : BlockId) (i : Nat) :
    h.element? b i = (h.block b).toList[i]? := by simp [element?]

-- The elements of a block are stored one after the other from number `i` on.
def fill (n : Nat) (b : BlockId) (i : Nat) (items : List Value) : HeapM Unit :=
  (items.zipIdx i).forM fun (item, j) => storeUpTo n (.element b j) item

theorem fill_nil (n : Nat) (b : BlockId) (i : Nat) (h : Heap) : (fill n b i [] h).2 = h := rfl

theorem fill_cons (n : Nat) (b : BlockId) (i : Nat) (item : Value) (items : List Value)
    (h : Heap) :
    (fill n b i (item :: items) h).2 =
      (fill n b (i + 1) items (storeUpTo n (.element b i) item h).2).2 := rfl

theorem storeUpTo_of_filled {n : Nat} {p : Place} {old new : BlockId}
    (hf : h.filledBlock? (h.read? p) v = some (old, new)) :
    (storeUpTo (n + 1) p v h).2 =
      (fill n old 0 ((h.block new).toList.take (h.block old).size) h).2 := by
  unfold storeUpTo
  rw [get_bind, hf]
  rfl

theorem storeUpTo_of_not_filled {n : Nat} {p : Place}
    (hf : h.filledBlock? (h.read? p) v = none) :
    (storeUpTo (n + 1) p v h).2 = (write v p h).2 := by
  unfold storeUpTo
  rw [get_bind, hf]

-- What a store into element `i` of block `b` leaves: the element holds the overlay of its old
-- and its new content, and apart from it only blocks of the old content have changed.
structure Stored (b : BlockId) (i : Nat) (a : Content) (old : List BlockId) (c : Content)
    (new : List BlockId) (h h' : Heap) : Prop where
  holds : ∃ w bs, h'.element? b i = some w ∧ h'.Shows w (a.overlay c) bs ∧ bs ⊆ old ++ new
  within : ChangesWithin (b :: old) h h'
  others : ∀ j, j ≠ i → h'.element? b j = h.element? b j

-- The same of the elements from number `i` on.
structure Filled (b : BlockId) (i : Nat) (as : List Content) (old : List BlockId)
    (cs : List Content) (new : List BlockId) (h h' : Heap) : Prop where
  holds : ∃ ws bs, (h'.block b).toList = (h.block b).toList.take i ++ ws ∧
    h'.ShowsAll ws (Content.overlayAll as cs) bs ∧ bs ⊆ old ++ new
  within : ChangesWithin (b :: old) h h'

-- A store that the depth `n` of the recursion is enough for.
def StoresUpTo (n : Nat) : Prop :=
  ∀ (h : Heap) (b : BlockId) (i : Nat) (x v : Value) (a c : Content) (old new : List BlockId),
    h.element? b i = some x → h.Shows x a old → h.Shows v c new → a.depth ≤ n →
    (b :: old).Nodup → (∀ d ∈ b :: old, d ∉ new) →
    Stored b i a old c new h (storeUpTo n (.element b i) v h).2

-- The blocks of an element and of the elements behind it, before and after a store.
structure Parted (b : BlockId) (old₁ old₂ new₁ new₂ : List BlockId) : Prop where
  first : (b :: old₁).Nodup
  rest : (b :: old₂).Nodup
  apart : ∀ d ∈ old₂, d ∉ b :: old₁
  first_new : ∀ d ∈ b :: old₁, d ∉ new₁
  rest_new : ∀ d ∈ b :: old₂, d ∉ new₂
  new_first : ∀ d ∈ new₁, d ∉ b :: old₂
  new_rest : ∀ d ∈ new₂, d ∉ b :: old₁

theorem parted_of_nodup {b : BlockId} {old₁ old₂ new₁ new₂ : List BlockId}
    (hnodup : (b :: (old₁ ++ old₂)).Nodup)
    (hdisj : ∀ d ∈ b :: (old₁ ++ old₂), d ∉ new₁ ++ new₂) : Parted b old₁ old₂ new₁ new₂ := by
  have hleft : b :: old₁ ⊆ b :: (old₁ ++ old₂) :=
    List.cons_subset_cons _ (List.subset_append_left _ _)
  have hright : b :: old₂ ⊆ b :: (old₁ ++ old₂) :=
    List.cons_subset_cons _ (List.subset_append_right _ _)
  simp only [List.nodup_cons, List.mem_append, List.nodup_append] at hnodup
  obtain ⟨hb, hold₁, hold₂, hne⟩ := hnodup
  refine ⟨List.nodup_cons.mpr ⟨fun hm => hb (.inl hm), hold₁⟩,
    List.nodup_cons.mpr ⟨fun hm => hb (.inr hm), hold₂⟩, fun d hd hm => ?_,
    fun d hd hm => hdisj d (hleft hd) (List.mem_append_left _ hm),
    fun d hd hm => hdisj d (hright hd) (List.mem_append_right _ hm),
    fun d hd hm => hdisj d (hright hm) (List.mem_append_left _ hd),
    fun d hd hm => hdisj d (hleft hm) (List.mem_append_right _ hd)⟩
  rcases List.mem_cons.mp hm with rfl | hm
  · exact hb (.inr hd)
  · exact hne d hm d hd rfl

namespace Stored

variable {b : BlockId} {i : Nat} {old new : List BlockId}

theorem drop_eq (hs : Stored b i a old c new h h') :
    (h'.block b).toList.drop (i + 1) = (h.block b).toList.drop (i + 1) := by
  apply List.ext_getElem?
  intro j
  rw [List.getElem?_drop, List.getElem?_drop, ← element?_eq_getElem?, ← element?_eq_getElem?]
  exact hs.others _ (by omega)

theorem take_eq (hs : Stored b i a old c new h h') :
    (h'.block b).toList.take i = (h.block b).toList.take i := by
  apply List.ext_getElem?
  intro j
  rw [List.getElem?_take, List.getElem?_take]
  split
  · rw [← element?_eq_getElem?, ← element?_eq_getElem?]
    exact hs.others _ (by omega)
  · rfl

end Stored

theorem Filled.nil {b : BlockId} {i : Nat} (hi : (h.block b).toList.drop i = []) :
    Filled b i [] [] [] [] h h := by
  have htake : (h.block b).toList.take i = (h.block b).toList :=
    List.take_of_length_le (List.drop_eq_nil_iff.mp hi)
  exact ⟨⟨[], [], by rw [htake, List.append_nil], .nil, List.nil_subset _⟩, ChangesWithin.refl _ h⟩

-- An element is stored, and then those behind it. The blocks of the one are not touched any more.
theorem Filled.cons {b : BlockId} {i : Nat} {as : List Content} {old₁ old₂ new₁ new₂ : List BlockId}
    {h₁ h₂ : Heap} (hp : Parted b old₁ old₂ new₁ new₂) (hfirst : Stored b i a old₁ c new₁ h h₁)
    (hrest : Filled b (i + 1) as old₂ cs new₂ h₁ h₂) :
    Filled b i (a :: as) (old₁ ++ old₂) (c :: cs) (new₁ ++ new₂) h h₂ := by
  obtain ⟨w, ids, hw, hshow, hids⟩ := hfirst.holds
  obtain ⟨ws, ids', hws, hshows, hids'⟩ := hrest.holds
  have hkept : h₂.Shows w (a.overlay c) ids := by
    refine hrest.within.shows hshow fun d hd hm => ?_
    rcases List.mem_append.mp (hids hd) with hd | hd
    · rcases List.mem_cons.mp hm with rfl | hm
      · exact (List.nodup_cons.mp hp.first).1 hd
      · exact hp.apart d hm (List.mem_cons_of_mem _ hd)
    · exact hp.new_first d hd hm
  refine ⟨⟨w :: ws, ids ++ ids', ?_, .cons _ _ _ _ _ _ hkept hshows, ?_⟩,
    (hfirst.within.mono ?_).trans (hrest.within.mono ?_)⟩
  · have hget : (h₁.block b).toList[i]? = some w := by rw [← element?_eq_getElem?, hw]
    rw [hws, List.take_add_one, hfirst.take_eq, hget]
    simp
  · intro d hd
    rcases List.mem_append.mp hd with hd | hd
    · rcases List.mem_append.mp (hids hd) with hd | hd <;> simp [hd]
    · rcases List.mem_append.mp (hids' hd) with hd | hd <;> simp [hd]
  · exact List.cons_subset_cons _ (List.subset_append_left _ _)
  · exact List.cons_subset_cons _ (List.subset_append_right _ _)

theorem filled_of_storesUpTo {n : Nat} (hn : StoresUpTo n) (b : BlockId) :
    ∀ (items : List Value) (h : Heap) (i : Nat) (xs : List Value) (as cs : List Content)
      (old new : List BlockId), (h.block b).toList.drop i = xs → xs.length = items.length →
      h.ShowsAll xs as old → h.ShowsAll items cs new → Content.depthAll as ≤ n →
      (b :: old).Nodup → (∀ d ∈ b :: old, d ∉ new) →
      Filled b i as old cs new h (fill n b i items h).2 := by
  intro items
  induction items with
  | nil =>
      intro h i xs as cs old new hxs hlen hold hnew _ _ _
      obtain rfl : xs = [] := List.length_eq_zero_iff.mp hlen
      cases hnew
      cases hold
      exact .nil hxs
  | cons item items ih =>
      intro h i xs as cs old new hxs hlen hold hnew hdepth hnodup hdisj
      cases hold with
      | nil => simp at hlen
      | cons x a old₁ xs as old₂ hx hrest =>
      cases hnew with
      | cons _ c new₁ _ cs new₂ hitem hitems =>
      have hp := parted_of_nodup hnodup hdisj
      have hget : (h.block b).toList[i]? = some x := by
        rw [← List.head?_drop, hxs]
        rfl
      have hbehind : (h.block b).toList.drop (i + 1) = xs := by
        rw [← List.drop_drop, hxs]
        rfl
      simp only [Content.depthAll] at hdepth
      have hfirst := hn h b i x item a c old₁ new₁ (by rw [element?_eq_getElem?, hget]) hx hitem
        (by omega) hp.first hp.first_new
      have htail := ih (storeUpTo n (.element b i) item h).2 (i + 1) xs as cs old₂ new₂
        (hfirst.drop_eq.trans hbehind) (by simpa using hlen) (hfirst.within.showsAll hrest hp.apart)
        (hfirst.within.showsAll hitems hp.new_rest) (by omega) hp.rest hp.rest_new
      rw [fill_cons]
      exact .cons hp hfirst htail

-- A store over a value either replaces it, and then nothing of it is left, or fills the block
-- that the value stands in.
theorem filled_or_replaced {x : Value} {old new : List BlockId} (hx : h.Shows x a old)
    (hv : h.Shows v c new) (hdisj : ∀ d ∈ old, d ∉ new) :
    (h.filledBlock? (some x) v = none ∧ a.overlay c = c) ∨
    ∃ ob nb as cs olds news, h.filledBlock? (some x) v = some (ob, nb) ∧ old = ob :: olds ∧
      new = nb :: news ∧ h.ShowsAll (h.block ob).toList as olds ∧
      h.ShowsAll (h.block nb).toList cs news ∧ (h.block ob).size = (h.block nb).size ∧
      a.depth = Content.depthAll as + 1 ∧
      ∀ (h' : Heap) (bs : List BlockId), ChangesWithin old h h' →
        h'.ShowsAll (h'.block ob).toList (Content.overlayAll as cs) bs →
        h'.Shows x (a.overlay c) (ob :: bs) := by
  cases hx with
  | struct s fields olds hb hlen hfields =>
      cases hv with
      | struct s' fields' news hb' hlen' hfields' =>
          have hne : s.block ≠ s'.block := fun he => hdisj s.block (by simp) (by simp [he])
          by_cases hl : s.layout.length = s'.layout.length
          · refine .inr ⟨s.block, s'.block, fields, fields', olds, news, ?_, rfl, rfl, hfields,
              hfields', by rw [hlen, hlen', hl], rfl, fun h' bs hw hs => ?_⟩
            · simp [filledBlock?, hne, hl]
            · unfold Content.overlay
              rw [if_pos hl]
              exact .struct s _ bs (by rw [hw.count]; exact hb) (by rw [hw.sizes, hlen]) hs
          · exact .inl ⟨by simp [filledBlock?, hl], by simp [Content.overlay, hl]⟩
      | leaf _ hleaf =>
          refine .inl ⟨?_, by simp [Content.overlay]⟩
          cases v <;> simp [Value.isLeaf, filledBlock?] at hleaf ⊢
      | _ => exact .inl ⟨by simp [filledBlock?], by simp [Content.overlay]⟩
  | array b elems olds hb helems =>
      cases hv with
      | array b' elems' news hb' helems' =>
          have hne : b ≠ b' := fun he => hdisj b (by simp) (by simp [he])
          have hlen := helems.length_eq
          have hlen' := helems'.length_eq
          rw [Array.length_toList] at hlen hlen'
          by_cases hl : elems.length = elems'.length
          · have hsize : (h.block b).size = (h.block b').size := by rw [hlen, hlen', hl]
            refine .inr ⟨b, b', elems, elems', olds, news, ?_, rfl, rfl, helems, helems', hsize,
              rfl, fun h' bs hw hs => ?_⟩
            · simp [filledBlock?, hne, hsize]
            · unfold Content.overlay
              rw [if_pos hl]
              exact .array b _ bs (by rw [hw.count]; exact hb) hs
          · have hsize : (h.block b).size ≠ (h.block b').size := by rw [hlen, hlen']; exact hl
            exact .inl ⟨by simp [filledBlock?, hsize], by simp [Content.overlay, hl]⟩
      | leaf _ hleaf =>
          refine .inl ⟨?_, by simp [Content.overlay]⟩
          cases v <;> simp [Value.isLeaf, filledBlock?] at hleaf ⊢
      | _ => exact .inl ⟨by simp [filledBlock?], by simp [Content.overlay]⟩
  | leaf _ hleaf =>
      refine .inl ⟨?_, by simp [Content.overlay]⟩
      cases x <;> simp [Value.isLeaf, filledBlock?] at hleaf ⊢
  | named t v c bs hv => exact .inl ⟨by simp [filledBlock?], by simp [Content.overlay]⟩

theorem stored_of_write {b : BlockId} {i : Nat} {x : Value} {old new : List BlockId}
    (hx : h.element? b i = some x) (hv : h.Shows v c new) (hnew : b ∉ new)
    (hover : a.overlay c = c) : Stored b i a old c new h (write v (.element b i) h).2 := by
  have hwithin := within_setElement h b i v
  refine ⟨⟨v, new, ?_, ?_, by simp⟩, hwithin.mono (by simp), fun j hj => ?_⟩
  · exact (element?_setElement h b i i v x hx).trans (by simp)
  · rw [hover]
    exact hwithin.shows hv fun d hd hm => hnew (by simp_all)
  · exact (element?_setElement h b i j v x hx).trans (by simp [Ne.symm hj])

theorem storesUpTo (n : Nat) : StoresUpTo n := by
  induction n with
  | zero =>
      intro h b i x v a c old new hget hx hv hdepth hnodup hdisj
      have hover : a.overlay c = c := by
        cases a <;> simp [Content.depth, Content.overlay] at hdepth ⊢
      exact stored_of_write hget hv (hdisj b (by simp)) hover
  | succ n ih =>
      intro h b i x v a c old new hget hx hv hdepth hnodup hdisj
      have hread : h.read? (.element b i) = some x := hget
      rcases filled_or_replaced hx hv fun d hd => hdisj d (by simp [hd]) with
        ⟨hnone, hover⟩ | ⟨ob, nb, as, cs, olds, news, hsome, rfl, rfl, has, hcs, hsize, hd, hback⟩
      · rw [storeUpTo_of_not_filled (by rw [hread, hnone])]
        exact stored_of_write hget hv (hdisj b (by simp)) hover
      · rw [storeUpTo_of_filled (by rw [hread, hsome])]
        have htake : (h.block nb).toList.take (h.block ob).size = (h.block nb).toList :=
          List.take_of_length_le (by rw [Array.length_toList]; omega)
        rw [htake]
        have hne : b ≠ ob := fun he => (List.nodup_cons.mp hnodup).1 (by simp [he])
        have hfilled := filled_of_storesUpTo ih ob (h.block nb).toList h 0 (h.block ob).toList as cs
          olds news (by simp) (by simpa using hsize) has hcs (by omega)
          (List.nodup_cons.mp hnodup).2 fun d hd hm => hdisj d (by simp_all) (by simp [hm])
        obtain ⟨⟨ws, ids, hws, hshows, hids⟩, hwithin⟩ := hfilled
        set h' := (fill n ob 0 (h.block nb).toList h).2
        have hsame : ∀ j, h'.element? b j = h.element? b j := fun j => by
          unfold element?
          rw [hwithin.same b fun hm => (List.nodup_cons.mp hnodup).1 hm]
        have hlist : (h'.block ob).toList = ws := by simpa using hws
        refine ⟨⟨x, ob :: ids, by rw [hsame, hget], ?_, ?_⟩, hwithin.mono (by simp),
          fun j _ => hsame j⟩
        · exact hback h' ids hwithin (by rw [hlist]; exact hshows)
        · intro d hd
          rcases List.mem_cons.mp hd with rfl | hd
          · simp
          · rcases List.mem_append.mp (hids hd) with hd | hd <;> simp [hd]

theorem lookup_setBinding (x y : String) (b : Binding) (bs : List (String × Binding)) :
    (setBinding x b bs).lookup y = if y = x then some b else bs.lookup y := by
  induction bs with
  | nil =>
      by_cases hy : y = x
      · simp [setBinding, hy]
      · have hne : (y == x) = false := by simp [hy]
        simp [setBinding, List.lookup_cons, hy, hne]
  | cons entry rest ih =>
      obtain ⟨n, b'⟩ := entry
      by_cases hn : n = x
      · subst hn
        by_cases hy : y = n
        · simp [setBinding, hy]
        · have hne : (y == n) = false := by simp [hy]
          simp [setBinding, List.lookup_cons, hy, hne]
      · by_cases hy : y = n
        · subst hy
          simp [setBinding, hn]
        · have hne : (y == n) = false := by simp [hy]
          simp only [setBinding, if_neg hn, List.lookup_cons, hne, ih]

theorem binding?_bind (h : Heap) (s s' : ScopeId) (x y : String) (b : Binding)
    (hs : s < h.scopes.size) :
    (bind s x b h).2.binding? s' y = if s = s' ∧ y = x then some b else h.binding? s' y := by
  change binding? { h with scopes := h.scopes.modify s fun sc =>
    { sc with bindings := setBinding x b sc.bindings } } s' y = _
  unfold binding?
  simp only [Array.getElem?_modify]
  by_cases he : s = s'
  · subst he
    have hget : h.scopes[s]? = some h.scopes[s] := Array.getElem?_eq_getElem hs
    simp [hget, lookup_setBinding]
  · simp [he]

theorem lt_scopes_of_binding? {s : ScopeId} {x : String} {b : Binding}
    (hb : h.binding? s x = some b) : s < h.scopes.size := by
  by_contra hn
  simp [binding?, Nat.le_of_not_lt hn] at hb

theorem read?_write {p : Place} {x : Value} (hread : h.read? p = some x) (v : Value) :
    (write v p h).2.read? p = some v := by
  cases p with
  | cell a =>
      change read? { h with cells := h.cells.set! (a - 1) (.boxed v) } (.cell a) = some v
      unfold read? cell? at hread ⊢
      by_cases ha : a = 0
      · simp [ha] at hread
      · simp only [if_neg ha] at hread ⊢
        have hlt : a - 1 < h.cells.size := by
          by_contra hn
          simp [Nat.le_of_not_lt hn] at hread
        simp [hlt]
  | element b i => exact (element?_setElement h b i i v x hread).trans (by simp)
  | «variable» s y =>
      change (bind s y (.plain v) h).2.read? (.variable s y) = some v
      unfold read? at hread ⊢
      cases hb : h.binding? s y with
      | none => simp [hb] at hread
      | some b => simp [binding?_bind h s s y y _ (lt_scopes_of_binding? hb)]

theorem shows_write {p : Place} {new : List BlockId} (hv : h.Shows w c new)
    (hnew : ∀ d ∈ blockOf p, d ∉ new) (v : Value) : (write v p h).2.Shows w c new := by
  cases p with
  | cell a => exact hv.frame (Nat.le_refl _) fun _ _ => rfl
  | element b i =>
      exact (within_setElement h b i v).shows hv fun d hd hm =>
        hnew b (by simp [blockOf]) (by simp_all)
  | «variable» s y => exact hv.frame (Nat.le_refl _) fun _ _ => rfl

-- A place outside of blocks is read as before when only blocks have changed.
theorem ChangesWithin.read?_eq {p : Place} (hw : ChangesWithin bs h h') (hp : blockOf p = []) :
    h'.read? p = h.read? p := by
  rw [hw.rest]
  cases p with
  | element b i => simp [blockOf] at hp
  | _ => rfl

-- What a store into a place outside of blocks leaves alone, when the content of the place stands
-- in the blocks `old`.
structure ChangesPlace (p : Place) (old : List BlockId) (h h' : Heap) : Prop where
  count : h'.blocks.size = h.blocks.size
  same : ∀ b, b ∉ old → h'.block b = h.block b
  read : ∀ q, blockOf q = [] → q ≠ p → h'.read? q = h.read? q
  location : ∀ s x, h'.location? s x = h.location? s x
  parent : ∀ s, h'.parent? s = h.parent? s

theorem ChangesWithin.changesPlace (hw : ChangesWithin bs h h') (p : Place) :
    ChangesPlace p bs h h' where
  count := hw.count
  same := hw.same
  read q hq _ := hw.read?_eq hq
  location s x := by rw [hw.rest]; rfl
  parent s := by rw [hw.rest]; rfl

theorem ChangesPlace.shows {p : Place} {old ids : List BlockId} (hb : ChangesPlace p old h h')
    (hs : h.Shows v c ids) (hd : ∀ b ∈ ids, b ∉ old) : h'.Shows v c ids :=
  hs.frame (Nat.le_of_eq hb.count.symm) fun b hm => hb.same b (hd b hm)

theorem parent?_bind (h : Heap) (s s' : ScopeId) (x : String) (b : Binding) :
    (bind s x b h).2.parent? s' = h.parent? s' := by
  change parent? { h with scopes := h.scopes.modify s fun sc =>
    { sc with bindings := setBinding x b sc.bindings } } s' = _
  unfold parent?
  simp only [Array.getElem?_modify]
  split
  · next he => subst he; cases h.scopes[s]? <;> rfl
  · rfl

theorem changesPlace_write {p : Place} {x : Value} (hread : h.read? p = some x)
    (hp : blockOf p = [])
    (v : Value) (old : List BlockId) : ChangesPlace p old h (write v p h).2 := by
  cases p with
  | element b i => simp [blockOf] at hp
  | cell a =>
      change ChangesPlace (.cell a) old h { h with cells := h.cells.set! (a - 1) (.boxed v) }
      refine ⟨rfl, fun _ _ => rfl, fun q _ hq => ?_, fun _ _ => rfl, fun _ => rfl⟩
      cases q with
      | cell a' =>
          unfold read? cell? at hread ⊢
          by_cases ha : a = 0
          · simp [ha] at hread
          · by_cases ha' : a' = 0
            · simp [ha']
            · have hne : a - 1 ≠ a' - 1 := by
                intro he
                exact hq (congrArg Place.cell
                  (Nat.pred_inj (Nat.pos_of_ne_zero ha') (Nat.pos_of_ne_zero ha) he.symm))
              simp [ha', hne]
      | _ => rfl
  | «variable» s y =>
      have hb : ∃ w, h.binding? s y = some (.plain w) := by
        unfold read? at hread
        cases hb : h.binding? s y with
        | none => simp [hb] at hread
        | some b => cases b <;> simp_all
      obtain ⟨w, hb⟩ := hb
      have hs := lt_scopes_of_binding? hb
      refine ⟨rfl, fun _ _ => rfl, fun q _ hq => ?_, fun s' x' => ?_,
        fun s' => parent?_bind h s s' y _⟩
      · cases q with
        | «variable» s' y' =>
            have hbind := binding?_bind h s s' y y' (.plain v) hs
            rw [if_neg (by rintro ⟨rfl, rfl⟩; exact hq rfl)] at hbind
            change read? (bind s y (.plain v) h).2 _ = _
            simp only [read?, hbind]
        | _ => rfl
      · change location? (bind s y (.plain v) h).2 s' x' = _
        unfold location?
        rw [binding?_bind h s s' y x' _ hs]
        split
        · next he =>
            obtain ⟨rfl, rfl⟩ := he
            rw [hb]
            rfl
        · rfl

-- A store into a place outside of blocks, with all that it changes.
theorem store_changesPlace {p : Place} {x : Value} {old new : List BlockId} (hp : blockOf p = [])
    (hread : h.read? p = some x) (hx : h.Shows x a old) (hv : h.Shows v c new)
    (hnodup : old.Nodup) (hdisj : ∀ d ∈ old, d ∉ new) :
    ChangesPlace p old h (store p v h).2 ∧ ∃ w bs, (store p v h).2.read? p = some w ∧
      (store p v h).2.Shows w (a.overlay c) bs ∧ bs ⊆ old ++ new := by
  have hdepth : a.depth ≤ h.blocks.size := hx.depth_le_size
  change ChangesPlace p old h (storeUpTo h.depth p v h).2 ∧
    ∃ w bs, (storeUpTo h.depth p v h).2.read? p = some w ∧
      (storeUpTo h.depth p v h).2.Shows w (a.overlay c) bs ∧ bs ⊆ old ++ new
  unfold depth
  rcases filled_or_replaced hx hv hdisj with
    ⟨hnone, hover⟩ | ⟨ob, nb, as, cs, olds, news, hsome, rfl, rfl, has, hcs, hsize, hd, hback⟩
  · rw [storeUpTo_of_not_filled (by rw [hread, hnone]), hover]
    exact ⟨changesPlace_write hread hp v old, v, new, read?_write hread v,
      shows_write hv (by simp [hp]) v, by simp⟩
  · rw [storeUpTo_of_filled (by rw [hread, hsome])]
    have htake : (h.block nb).toList.take (h.block ob).size = (h.block nb).toList :=
      List.take_of_length_le (by rw [Array.length_toList]; omega)
    rw [htake]
    have hfilled := filled_of_storesUpTo (storesUpTo h.blocks.size) ob (h.block nb).toList h 0
      (h.block ob).toList as cs olds news (by simp) (by simpa using hsize) has hcs (by omega)
      hnodup fun d hd hm => hdisj d hd (by simp [hm])
    obtain ⟨⟨ws, ids, hws, hshows, hids⟩, hwithin⟩ := hfilled
    have hlist : ((fill h.blocks.size ob 0 (h.block nb).toList h).2.block ob).toList = ws := by
      simpa using hws
    refine ⟨hwithin.changesPlace p, x, ob :: ids, by rw [hwithin.read?_eq hp, hread],
      hback _ ids hwithin (by rw [hlist]; exact hshows), fun d hd => ?_⟩
    rcases List.mem_cons.mp hd with rfl | hd
    · simp
    · rcases List.mem_append.mp (hids hd) with hd | hd <;> simp [hd]

-- A store leaves the overlay of what the place held and what is stored.
theorem shows_store {p : Place} {x : Value} {old new : List BlockId} (hread : h.read? p = some x)
    (hx : h.Shows x a old) (hv : h.Shows v c new) (hnodup : (blockOf p ++ old).Nodup)
    (hdisj : ∀ d ∈ blockOf p ++ old, d ∉ new) :
    ∃ w bs, (store p v h).2.read? p = some w ∧ (store p v h).2.Shows w (a.overlay c) bs := by
  by_cases hp : blockOf p = []
  · rw [hp, List.nil_append] at hnodup hdisj
    obtain ⟨_, w, bs, hw, hshow, _⟩ := store_changesPlace hp hread hx hv hnodup hdisj
    exact ⟨w, bs, hw, hshow⟩
  · have hdepth : a.depth ≤ h.blocks.size := hx.depth_le_size
    cases p with
    | element b i =>
        obtain ⟨⟨w, bs, hw, hshow, _⟩, _, _⟩ := storesUpTo h.depth h b i x v a c old new hread hx hv
          (Nat.le_succ_of_le hdepth) hnodup hdisj
        exact ⟨w, bs, hw, hshow⟩
    | _ => simp [blockOf] at hp

end StepGraph.Heap

import StepGraph.Proofs.Store.Trees

namespace StepGraph

namespace Value

-- The block of a struct or an array, which may be under declared types.
def home? (v : Value) : Option BlockId := v.unwrap.block?

def StandsIn (v : Value) (bs : List BlockId) : Prop := ∀ b, v.home? = some b → b ∈ bs

variable {v w : Value} {b : BlockId} {bs cs : List BlockId}

theorem home?_of_block? (hv : v.block? = some b) : v.home? = some b := by
  cases v <;> first | exact hv | cases hv

theorem StandsIn.mono (hv : v.StandsIn bs) (hsub : bs ⊆ cs) : v.StandsIn cs :=
  fun b hb => hsub (hv b hb)

theorem StandsIn.of_none (hv : v.home? = none) : v.StandsIn bs := by
  intro b hb
  rw [hv] at hb
  cases hb

theorem StandsIn.rewrap (hv : v.StandsIn bs) (hw : w.unwrap = v.unwrap) : w.StandsIn bs := by
  intro b hb
  unfold home? at hb
  rw [hw] at hb
  exact hv b hb

end Value

namespace Heap

variable {h h' h'' : Heap} {v w : Value} {vs : List Value} {b d : BlockId} {bs cs : List BlockId}

-- Blocks whose elements stand in no others.
structure Region (h : Heap) (bs : List BlockId) : Prop where
  lt_size : ∀ b ∈ bs, b < h.blocks.size
  closed : ∀ b ∈ bs, ∀ v ∈ (h.block b).toList, v.StandsIn bs

-- The block itself and those of the structs and arrays in it, however deep.
inductive Inside (h : Heap) (b : BlockId) : BlockId → Prop
  | self : Inside h b b
  | part {d e : BlockId} {v : Value} (hd : Inside h b d) (hv : v ∈ (h.block d).toList)
      (he : v.home? = some e) : Inside h b e

namespace Region

theorem nil (h : Heap) : h.Region [] :=
  ⟨fun _ hb => (List.not_mem_nil hb).elim, fun _ hb => (List.not_mem_nil hb).elim⟩

theorem mem_of_inside (hr : h.Region bs) (hb : b ∈ bs) (hd : h.Inside b d) : d ∈ bs := by
  induction hd with
  | self => exact hb
  | part _ hv he ih => exact hr.closed _ ih _ hv _ he

theorem frame (hr : h.Region bs) (hsize : h.blocks.size ≤ h'.blocks.size)
    (hsame : ∀ b ∈ bs, h'.block b = h.block b) : h'.Region bs where
  lt_size b hb := Nat.lt_of_lt_of_le (hr.lt_size b hb) hsize
  closed b hb v hv := hr.closed b hb v (hsame b hb ▸ hv)

theorem grow (hr : h.Region bs) (hg : GrowsByBlocks h h') : h'.Region bs :=
  hr.frame hg.size fun b hb => hg.same b (hr.lt_size b hb)

theorem append (hr : h.Region bs) (hs : h.Region cs) : h.Region (bs ++ cs) where
  lt_size b hb := (List.mem_append.mp hb).elim (hr.lt_size b) (hs.lt_size b)
  closed b hb v hv := (List.mem_append.mp hb).elim
    (fun hb => (hr.closed b hb v hv).mono (List.subset_append_left _ _))
    (fun hb => (hs.closed b hb v hv).mono (List.subset_append_right _ _))

theorem cons (hr : h.Region bs) (hb : b < h.blocks.size)
    (hvs : ∀ v ∈ (h.block b).toList, v.StandsIn (b :: bs)) : h.Region (b :: bs) where
  lt_size d hd := by
    rcases List.mem_cons.mp hd with rfl | hd
    · exact hb
    · exact hr.lt_size d hd
  closed d hd v hv := by
    rcases List.mem_cons.mp hd with rfl | hd
    · exact hvs v hv
    · exact (hr.closed d hd v hv).mono (List.subset_cons_self _ _)

end Region

-- The blocks in which a content stands.
mutual

theorem Shows.region {v : Value} {c : Content} {bs : List BlockId} (hs : h.Shows v c bs) :
    h.Region bs ∧ v.StandsIn bs := by
  cases hs with
  | leaf _ hv => exact ⟨.nil h, .of_none (by cases v <;> first | rfl | cases hv)⟩
  | struct s fields bs hb _ hfields =>
    obtain ⟨hr, hvs⟩ := ShowsAll.region hfields
    refine ⟨hr.cons hb fun v hv => (hvs v hv).mono (List.subset_cons_self _ _), fun d hd => ?_⟩
    obtain rfl := Option.some.inj hd
    exact List.mem_cons_self
  | array b elems bs hb helems =>
    obtain ⟨hr, hvs⟩ := ShowsAll.region helems
    refine ⟨hr.cons hb fun v hv => (hvs v hv).mono (List.subset_cons_self _ _), fun d hd => ?_⟩
    obtain rfl := Option.some.inj hd
    exact List.mem_cons_self
  | named t w c bs hv =>
    obtain ⟨hr, hw⟩ := Shows.region hv
    exact ⟨hr, hw.rewrap rfl⟩

theorem ShowsAll.region {vs : List Value} {cs : List Content} {bs : List BlockId}
    (hs : h.ShowsAll vs cs bs) : h.Region bs ∧ ∀ v ∈ vs, v.StandsIn bs := by
  cases hs with
  | nil => exact ⟨.nil h, fun _ hv => (List.not_mem_nil hv).elim⟩
  | cons w c bs vs cs bs' hw hvs =>
    obtain ⟨hr, hw⟩ := Shows.region hw
    obtain ⟨hr', hvs⟩ := ShowsAll.region hvs
    refine ⟨hr.append hr', fun v hv => ?_⟩
    rcases List.mem_cons.mp hv with rfl | hv
    · exact hw.mono (List.subset_append_left _ _)
    · exact (hvs v hv).mono (List.subset_append_right _ _)

end

theorem block_of_filledBlock? {x : Value} {old new : BlockId}
    (hf : h.filledBlock? (some x) v = some (old, new)) : v.block? = some new := by
  unfold filledBlock? at hf
  split at hf
  · split at hf <;> cases hf
    rfl
  · split at hf <;> cases hf
    rfl
  · cases hf

-- A store into a region of a value that stands in it.

theorem Region.setElement (hr : h.Region bs) (hb : b ∈ bs) (hv : v.StandsIn bs) (i : Nat) :
    ChangesWithin bs h (setElement b i v h).2 ∧ (Heap.setElement b i v h).2.Region bs := by
  have hwithin := within_setElement h b i v
  have hblock : ∀ d, (Heap.setElement b i v h).2.block d =
      if b = d then (h.block d).setIfInBounds i v else h.block d :=
    fun d => block_modify h b d _ (hr.lt_size b hb)
  refine ⟨hwithin.mono (List.cons_subset.mpr ⟨hb, List.nil_subset _⟩),
    fun d hd => Nat.lt_of_lt_of_eq (hr.lt_size d hd) hwithin.count.symm, fun d hd w hw => ?_⟩
  rw [hblock] at hw
  split at hw
  · rw [Array.toList_setIfInBounds] at hw
    rcases List.mem_or_eq_of_mem_set hw with hw | rfl
    · exact hr.closed d hd w hw
    · exact hv
  · exact hr.closed d hd w hw

-- Stores of `n` levels keep to the blocks of a region.
def StoresWithin (n : Nat) : Prop :=
  ∀ {h : Heap} {b : BlockId} {v : Value} {bs : List BlockId} (i : Nat), h.Region bs → b ∈ bs →
    v.StandsIn bs → ChangesWithin bs h (storeUpTo n (.element b i) v h).2 ∧
      (storeUpTo n (.element b i) v h).2.Region bs

theorem Region.fill {n : Nat} (hn : StoresWithin n) (items : List Value) (i : Nat)
    (hr : h.Region bs) (hb : b ∈ bs) (hitems : ∀ v ∈ items, v.StandsIn bs) :
    ChangesWithin bs h (fill n b i items h).2 ∧ (Heap.fill n b i items h).2.Region bs := by
  induction items generalizing h i with
  | nil => exact ⟨.refl bs h, hr⟩
  | cons item items ih =>
    obtain ⟨hw₁, hr₁⟩ := hn i hr hb (hitems item List.mem_cons_self)
    obtain ⟨hw₂, hr₂⟩ := ih (i + 1) hr₁ fun v hv => hitems v (List.mem_cons_of_mem _ hv)
    exact ⟨hw₁.trans hw₂, hr₂⟩

-- A store over a value that stands in the region fills a block of it, with values of a block of it.
theorem Region.filled {x : Value} {old new : BlockId} {n : Nat} (hn : StoresWithin n)
    (hr : h.Region bs) (hx : x.StandsIn bs) (hv : v.StandsIn bs)
    (hf : h.filledBlock? (some x) v = some (old, new)) :
    ChangesWithin bs h (Heap.fill n old 0 ((h.block new).toList.take (h.block old).size) h).2 ∧
      (Heap.fill n old 0 ((h.block new).toList.take (h.block old).size) h).2.Region bs := by
  have hold : old ∈ bs := hx old (Value.home?_of_block? (block?_of_filledBlock? hf))
  have hnew : new ∈ bs := hv new (Value.home?_of_block? (block_of_filledBlock? hf))
  exact hr.fill hn _ 0 hold fun w hw => hr.closed new hnew w (List.mem_of_mem_take hw)

theorem storesWithin (n : Nat) : StoresWithin n := by
  induction n with
  | zero => exact fun i hr hb hv => hr.setElement hb hv i
  | succ n ih =>
    intro h b v bs i hr hb hv
    cases hf : h.filledBlock? (h.read? (.element b i)) v with
    | none =>
      rw [storeUpTo_of_not_filled hf]
      exact hr.setElement hb hv i
    | some filled =>
      obtain ⟨old, new⟩ := filled
      rw [storeUpTo_of_filled hf]
      cases hx : h.read? (.element b i) with
      | none =>
        rw [hx] at hf
        cases hf
      | some x =>
        rw [hx] at hf
        have hmem : x ∈ (h.block b).toList :=
          List.mem_of_getElem? ((element?_eq_getElem? h b i).symm.trans hx)
        exact hr.filled ih (hr.closed b hb x hmem) hv hf

theorem Region.store (hr : h.Region bs) (hb : b ∈ bs) (hv : v.StandsIn bs) (i : Nat) :
    ChangesWithin bs h (store (.element b i) v h).2 ∧ (Heap.store (.element b i) v h).2.Region bs :=
  storesWithin h.depth i hr hb hv

-- Values that stand in blocks that have come since `h`.
structure BringsValues (h h' : Heap) (vs : List Value) : Prop where
  grows : GrowsByBlocks h h'
  region : ∃ bs, h'.Region bs ∧ (∀ b ∈ bs, h.blocks.size ≤ b) ∧ ∀ v ∈ vs, v.StandsIn bs

namespace BringsValues

theorem nil (h : Heap) : BringsValues h h [] :=
  ⟨.refl h, [], .nil h, fun _ hb => (List.not_mem_nil hb).elim,
    fun _ hv => (List.not_mem_nil hv).elim⟩

theorem homeless (h : Heap) (hv : v.home? = none) : BringsValues h h [v] := by
  refine ⟨.refl h, [], .nil h, fun _ hb => (List.not_mem_nil hb).elim, fun w hw => ?_⟩
  obtain rfl := List.mem_singleton.mp hw
  exact .of_none hv

theorem cons (hv : BringsValues h h' [v]) (hvs : BringsValues h' h'' vs) :
    BringsValues h h'' (v :: vs) := by
  obtain ⟨hg, bs, hr, hnew, hin⟩ := hv
  obtain ⟨hg', bs', hr', hnew', hin'⟩ := hvs
  refine ⟨hg.trans hg', bs ++ bs', (hr.grow hg').append hr', fun b hb => ?_, fun w hw => ?_⟩
  · rcases List.mem_append.mp hb with hb | hb
    · exact hnew b hb
    · exact Nat.le_trans hg.size (hnew' b hb)
  · rcases List.mem_cons.mp hw with rfl | hw
    · exact (hin w List.mem_cons_self).mono (List.subset_append_left _ _)
    · exact (hin' w hw).mono (List.subset_append_right _ _)

theorem rewrap (hv : BringsValues h h' [v]) (hw : w.unwrap = v.unwrap) : BringsValues h h' [w] := by
  obtain ⟨hg, bs, hr, hnew, hin⟩ := hv
  refine ⟨hg, bs, hr, hnew, fun x hx => ?_⟩
  obtain rfl := List.mem_singleton.mp hx
  exact (hin v List.mem_cons_self).rewrap hw

theorem newBlock (hvs : BringsValues h h' vs) (hv : v.home? = some h'.blocks.size) :
    BringsValues h (Heap.newBlock vs.toArray h').2 [v] := by
  obtain ⟨hg, bs, hr, hnew, hin⟩ := hvs
  have hg' := grows_newBlock h' vs.toArray
  refine ⟨hg.trans hg', h'.blocks.size :: bs,
    (hr.grow hg').cons (lt_size_newBlock _ _) fun w hw => ?_, fun b hb => ?_, fun w hw b hb => ?_⟩
  · rw [block_newBlock, if_pos rfl] at hw
    exact (hin w hw).mono (List.subset_cons_self _ _)
  · rcases List.mem_cons.mp hb with rfl | hb
    · exact hg.size
    · exact hnew b hb
  · obtain rfl := List.mem_singleton.mp hw
    obtain rfl := Option.some.inj (hv.symm.trans hb)
    exact List.mem_cons_self

theorem of_fresh {c : Content} (hf : Fresh h h' v c) : BringsValues h h' [v] := by
  obtain ⟨hg, bs, hs, hnew, -⟩ := hf
  obtain ⟨hr, hv⟩ := hs.region
  refine ⟨hg, bs, hr, hnew, fun w hw => ?_⟩
  obtain rfl := List.mem_singleton.mp hw
  exact hv

end BringsValues

mutual

theorem brings_ofConstant (k : Constant) (h : Heap) :
    BringsValues h (ofConstant k h).2 [(ofConstant k h).1] := by
  cases k with
  | array ks =>
    rw [ofConstant_array]
    exact (brings_ofConstants ks h).newBlock rfl
  | struct l n ks =>
    rw [ofConstant_struct]
    exact (brings_ofConstants ks h).newBlock rfl
  | named t k =>
    rw [ofConstant_named]
    exact (brings_ofConstant k h).rewrap rfl
  | _ =>
    simp only [ofConstant]
    exact .homeless h rfl

theorem brings_ofConstants (ks : List Constant) (h : Heap) :
    BringsValues h (ofConstants ks h).2 (ofConstants ks h).1 := by
  match ks with
  | [] =>
    simp only [ofConstants]
    exact .nil h
  | k :: ks =>
    rw [ofConstants_cons]
    exact (brings_ofConstant k h).cons (brings_ofConstants ks (ofConstant k h).2)

end

-- Nothing is in both of these blocks.
def StandApart (h : Heap) (b d : BlockId) : Prop :=
  ∃ bs ds, h.Region bs ∧ h.Region ds ∧ b ∈ bs ∧ d ∈ ds ∧ bs.Disjoint ds

namespace StandApart

theorem symm (ha : h.StandApart b d) : h.StandApart d b := by
  obtain ⟨bs, ds, hbs, hds, hb, hd, hdisj⟩ := ha
  exact ⟨ds, bs, hds, hbs, hd, hb, fun _ hd hb => hdisj hb hd⟩

-- What is stored inside one of two blocks, with blocks of its own, does not change the other one.
theorem store (ha : h.StandApart b d) {e : BlockId} (he : h.Inside d e) (hv : BringsValues h h' [v])
    (i : Nat) : (store (.element e i) v h').2.StandApart b d ∧
      ∀ c, h.Inside b c → (Heap.store (.element e i) v h').2.block c = h.block c := by
  obtain ⟨bs, ds, hbs, hds, hb, hd, hdisj⟩ := ha
  obtain ⟨hg, new, hnew, hlate, hin⟩ := hv
  have hall : h'.Region (ds ++ new) := (hds.grow hg).append hnew
  obtain ⟨hwithin, hregion⟩ := hall.store (List.mem_append_left _ (hds.mem_of_inside hd he))
    ((hin v List.mem_cons_self).mono (List.subset_append_right _ _)) i
  have hapart : bs.Disjoint (ds ++ new) := by
    refine List.disjoint_append_right.mpr ⟨hdisj, fun c hc hc' => ?_⟩
    exact Nat.not_lt_of_le (hlate c hc') (hbs.lt_size c hc)
  have hsame : ∀ c ∈ bs, (Heap.store (.element e i) v h').2.block c = h.block c := fun c hc =>
    (hwithin.same c fun hm => hapart hc hm).trans (hg.same c (hbs.lt_size c hc))
  refine ⟨⟨bs, ds ++ new, ?_, hregion, hb, List.mem_append_left _ hd, hapart⟩, fun c hc =>
    hsame c (hbs.mem_of_inside hb hc)⟩
  exact hbs.frame (Nat.le_trans hg.size (Nat.le_of_eq hwithin.count.symm)) hsame

end StandApart

end Heap

end StepGraph

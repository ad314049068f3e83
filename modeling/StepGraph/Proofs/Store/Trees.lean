import StepGraph.Proofs.Store.Copies
import StepGraph.Proofs.Store.Overwrite

namespace StepGraph

-- The block of a struct or an array, which a store can fill.
def Value.block? : Value → Option BlockId
  | struct s => some s.block
  | array b => some b
  | _ => none

namespace Heap

-- The blocks that stores over values can fill, each before those of its own parts. Unlike the
-- blocks in which a content stands, these are told for values that need not have a content.
inductive FillableBlocks (h : Heap) : List Value → List BlockId → Prop
  | nil : FillableBlocks h [] []
  | flat {v : Value} {vs : List Value} {bs : List BlockId} (hv : v.block? = none)
      (hrest : FillableBlocks h vs bs) : FillableBlocks h (v :: vs) bs
  | block {v : Value} {b : BlockId} {parts : List BlockId} {vs : List Value} {bs : List BlockId}
      (hv : v.block? = some b) (hparts : FillableBlocks h (h.block b).toList parts)
      (hrest : FillableBlocks h vs bs) : FillableBlocks h (v :: vs) (b :: parts ++ bs)

variable {h h' : Heap} {v x : Value} {vs xs : List Value} {b : BlockId} {bs old : List BlockId}

theorem FillableBlocks.frame (hs : h.FillableBlocks vs bs)
    (hsame : ∀ b ∈ bs, h'.block b = h.block b) :
    h'.FillableBlocks vs bs := by
  induction hs with
  | nil => exact .nil
  | flat hv _ ih => exact .flat hv (ih hsame)
  | @block v b parts vs bs hv _ _ ihparts ih =>
      have hblock : h'.block b = h.block b := hsame b (by simp)
      refine .block hv ?_ (ih fun d hd => hsame d (by simp [hd]))
      rw [hblock]
      exact ihparts fun d hd => hsame d (by simp [hd])

-- The first value and the others stand in blocks of their own.
theorem FillableBlocks.cons_inv (hs : h.FillableBlocks (v :: vs) bs) :
    ∃ first rest, bs = first ++ rest ∧ h.FillableBlocks [v] first ∧ h.FillableBlocks vs rest := by
  cases hs with
  | flat hv hrest => exact ⟨[], bs, rfl, .flat hv .nil, hrest⟩
  | @block _ b parts _ rest hv hparts hrest =>
      refine ⟨b :: parts, rest, rfl, ?_, hrest⟩
      have hone := FillableBlocks.block hv hparts .nil
      rwa [List.append_nil] at hone

theorem FillableBlocks.cons {first rest : List BlockId} (hv : h.FillableBlocks [v] first)
    (hvs : h.FillableBlocks vs rest) : h.FillableBlocks (v :: vs) (first ++ rest) := by
  cases hv with
  | flat hv hnil =>
      cases hnil
      exact .flat hv hvs
  | block hv hparts hnil =>
      cases hnil
      rw [List.append_nil]
      exact .block hv hparts hvs

theorem block?_of_filledBlock? {old new : BlockId}
    (hf : h.filledBlock? (some x) v = some (old, new)) : x.block? = some old := by
  cases x with
  | struct s =>
      cases v with
      | struct s' =>
          simp only [filledBlock?] at hf
          split at hf
          · cases hf
            rfl
          · cases hf
      | _ => cases hf
  | array b =>
      cases v with
      | array b' =>
          simp only [filledBlock?] at hf
          split at hf
          · cases hf
            rfl
          · cases hf
      | _ => cases hf
  | _ => cases hf

-- A store into an element changes that element and blocks of what it held, whatever is stored.
structure Fills (b : BlockId) (i : Nat) (old : List BlockId) (h h' : Heap) : Prop where
  within : ChangesWithin (b :: old) h h'
  others : ∀ j, j ≠ i → h'.element? b j = h.element? b j

theorem fills_write {i : Nat} (hx : h.element? b i = some x) (v : Value) (old : List BlockId) :
    Fills b i old h (write v (.element b i) h).2 :=
  ⟨(within_setElement h b i v).mono (by simp), fun j hj =>
    (element?_setElement h b i j v x hx).trans (if_neg (Ne.symm hj))⟩

def FillsUpTo (n : Nat) : Prop :=
  ∀ (h : Heap) (b : BlockId) (i : Nat) (x v : Value) (old : List BlockId),
    h.element? b i = some x → h.FillableBlocks [x] old → (b :: old).Nodup →
    Fills b i old h (storeUpTo n (.element b i) v h).2

theorem within_fill {n : Nat} (hn : FillsUpTo n) (b : BlockId) :
    ∀ (items : List Value) (h : Heap) (i : Nat) (xs : List Value) (old : List BlockId),
      (h.block b).toList.drop i = xs → items.length ≤ xs.length → h.FillableBlocks xs old →
      (b :: old).Nodup → ChangesWithin (b :: old) h (fill n b i items h).2 := by
  intro items
  induction items with
  | nil => exact fun h _ _ _ _ _ _ _ => .refl _ h
  | cons item items ih =>
      intro h i xs old hxs hlen hold hnodup
      obtain ⟨x, xs, rfl⟩ := List.exists_cons_of_length_pos (Nat.lt_of_lt_of_le (by simp) hlen)
      obtain ⟨old₁, old₂, rfl, hx, hrest⟩ := hold.cons_inv
      rw [fill_cons]
      have hget : (h.block b).toList[i]? = some x := by
        rw [← List.head?_drop, hxs]
        rfl
      simp only [List.nodup_cons, List.mem_append, not_or, List.nodup_append] at hnodup
      obtain ⟨⟨hb₁, hb₂⟩, hnodup₁, hnodup₂, hapart⟩ := hnodup
      have hfirst := hn h b i x item old₁ (by rw [element?_eq_getElem?, hget]) hx
        (List.nodup_cons.mpr ⟨hb₁, hnodup₁⟩)
      set h₁ := (storeUpTo n (.element b i) item h).2
      have hdrop : (h₁.block b).toList.drop (i + 1) = xs := by
        have hxs' : xs = (h.block b).toList.drop (i + 1) := by
          rw [← List.drop_drop, hxs]
          rfl
        rw [hxs']
        apply List.ext_getElem?
        intro j
        rw [List.getElem?_drop, List.getElem?_drop, ← element?_eq_getElem?, ← element?_eq_getElem?]
        exact hfirst.others _ (by omega)
      have hrest₁ : h₁.FillableBlocks xs old₂ := hrest.frame fun d hd =>
        hfirst.within.same d fun hm => by
        rcases List.mem_cons.mp hm with rfl | hm
        · exact hb₂ hd
        · exact hapart d hm d hd rfl
      have htail := ih h₁ (i + 1) xs old₂ hdrop (by simpa using hlen) hrest₁
        (List.nodup_cons.mpr ⟨hb₂, hnodup₂⟩)
      refine (hfirst.within.mono ?_).trans (htail.mono ?_)
      · exact List.cons_subset_cons _ (List.subset_append_left _ _)
      · exact List.cons_subset_cons _ (List.subset_append_right _ _)

theorem fillsUpTo (n : Nat) : FillsUpTo n := by
  induction n with
  | zero => exact fun h b i x v old hx _ _ => fills_write hx v old
  | succ n ih =>
      intro h b i x v old hx hold hnodup
      have hread : h.read? (.element b i) = some x := hx
      cases hf : h.filledBlock? (some x) v with
      | none =>
          rw [storeUpTo_of_not_filled (by rw [hread, hf])]
          exact fills_write hx v old
      | some pair =>
          obtain ⟨ob, nb⟩ := pair
          rw [storeUpTo_of_filled (by rw [hread, hf])]
          have hblock := block?_of_filledBlock? hf
          cases hold with
          | flat hv =>
              rw [hv] at hblock
              cases hblock
          | @block _ d parts _ _ hv hparts hnil =>
              cases hnil
              rw [hv] at hblock
              cases hblock
              rw [List.append_nil] at hnodup ⊢
              have hwithin := within_fill ih ob ((h.block nb).toList.take (h.block ob).size) h 0
                (h.block ob).toList parts rfl (List.length_take_le _ _) hparts
                (List.nodup_cons.mp hnodup).2
              refine ⟨hwithin.mono (List.subset_cons_self _ _), fun j _ => ?_⟩
              unfold element?
              rw [hwithin.same b (List.nodup_cons.mp hnodup).1]

theorem fills_store {i : Nat} (hx : h.element? b i = some x) (hold : h.FillableBlocks [x] old)
    (hnodup : (b :: old).Nodup) (v : Value) : Fills b i old h (store (.element b i) v h).2 :=
  fillsUpTo h.depth h b i x v old hx hold hnodup

-- Values that stand in blocks that have come since `h`, each of them used once.
structure BuiltSince (h h' : Heap) (vs : List Value) : Prop where
  grows : GrowsByBlocks h h'
  stands : ∃ bs, h'.FillableBlocks vs bs ∧ bs.Nodup ∧ ∀ b ∈ bs, h.blocks.size ≤ b ∧
    b < h'.blocks.size

theorem BuiltSince.cons {h'' : Heap} (hv : BuiltSince h h' [v]) (hvs : BuiltSince h' h'' vs) :
    BuiltSince h h'' (v :: vs) := by
  obtain ⟨hg, bs, hs, hnodup, hnew⟩ := hv
  obtain ⟨hg', bs', hs', hnodup', hnew'⟩ := hvs
  refine ⟨hg.trans hg', bs ++ bs', .cons (hs.frame fun b hb => hg'.same b (hnew b hb).2) hs', ?_,
    fun b hb => ?_⟩
  · refine List.nodup_append.mpr ⟨hnodup, hnodup', fun b hb b' hb' he => ?_⟩
    subst he
    exact absurd (hnew b hb).2 (Nat.not_lt_of_le (hnew' b hb').1)
  · rcases List.mem_append.mp hb with hb | hb
    · exact ⟨(hnew b hb).1, Nat.lt_of_lt_of_le (hnew b hb).2 hg'.size⟩
    · exact ⟨Nat.le_trans hg.size (hnew' b hb).1, (hnew' b hb).2⟩

theorem BuiltSince.newBlock (hvs : BuiltSince h h' vs) {v : Value}
    (hv : v.block? = some h'.blocks.size) :
    BuiltSince h (Heap.newBlock vs.toArray h').2 [v] := by
  obtain ⟨hg, bs, hs, hnodup, hnew⟩ := hvs
  have hg' := grows_newBlock h' vs.toArray
  have hparts : (Heap.newBlock vs.toArray h').2.FillableBlocks
      ((Heap.newBlock vs.toArray h').2.block h'.blocks.size).toList bs := by
    rw [block_newBlock, if_pos rfl]
    exact hs.frame fun b hb => hg'.same b (hnew b hb).2
  have hstands := FillableBlocks.block hv hparts .nil
  rw [List.append_nil] at hstands
  refine ⟨hg.trans hg', _, hstands,
    List.nodup_cons.mpr ⟨fun hm => absurd (hnew _ hm).2 (Nat.lt_irrefl _), hnodup⟩, fun b hb => ?_⟩
  rcases List.mem_cons.mp hb with rfl | hb
  · exact ⟨hg.size, lt_size_newBlock _ _⟩
  · exact ⟨(hnew b hb).1, Nat.lt_of_lt_of_le (hnew b hb).2 hg'.size⟩

theorem BuiltSince.flat (h : Heap) (hv : v.block? = none) : BuiltSince h h [v] :=
  ⟨.refl h, [], .flat hv .nil, .nil, nofun⟩

mutual

theorem built_ofConstant (k : Constant) (h : Heap) :
    BuiltSince h (ofConstant k h).2 [(ofConstant k h).1] := by
  cases k with
  | array ks =>
      rw [ofConstant_array]
      exact (built_ofConstants ks h).newBlock rfl
  | struct l n ks =>
      rw [ofConstant_struct]
      exact (built_ofConstants ks h).newBlock rfl
  | named t k =>
      rw [ofConstant_named]
      exact ⟨(built_ofConstant k h).grows, [], .flat rfl .nil, .nil, nofun⟩
  | _ =>
      simp only [ofConstant]
      exact .flat h rfl

theorem built_ofConstants (ks : List Constant) (h : Heap) :
    BuiltSince h (ofConstants ks h).2 (ofConstants ks h).1 := by
  match ks with
  | [] =>
      simp only [ofConstants]
      exact ⟨.refl h, [], .nil, .nil, nofun⟩
  | k :: ks =>
      rw [ofConstants_cons]
      exact (built_ofConstant k h).cons (built_ofConstants ks (ofConstant k h).2)

end

end Heap

end StepGraph

import StepGraph.Heap.Scope
import StepGraph.Proofs.Outcomes
import StepGraph.Proofs.Store.Content

namespace StepGraph.Heap

variable {h h' h'' : Heap}

-- Nothing has changed but that there may be new blocks.
structure GrowsByBlocks (h h' : Heap) : Prop where
  rest : h' = { h with blocks := h'.blocks }
  size : h.blocks.size ≤ h'.blocks.size
  same : ∀ b, b < h.blocks.size → h'.block b = h.block b

namespace GrowsByBlocks

theorem refl (h : Heap) : GrowsByBlocks h h := ⟨rfl, Nat.le_refl _, fun _ _ => rfl⟩

theorem trans (h₁ : GrowsByBlocks h h') (h₂ : GrowsByBlocks h' h'') : GrowsByBlocks h h'' where
  rest := by rw [h₂.rest, h₁.rest]
  size := Nat.le_trans h₁.size h₂.size
  same b hb := (h₂.same b (Nat.lt_of_lt_of_le hb h₁.size)).trans (h₁.same b hb)

theorem shows (hg : GrowsByBlocks h h') {v : Value} {c : Content} {bs : List BlockId}
    (hs : h.Shows v c bs) : h'.Shows v c bs :=
  hs.frame hg.size fun b hb => hg.same b (hs.lt_size b hb)

theorem showsAll (hg : GrowsByBlocks h h') {vs : List Value} {cs : List Content} {bs : List BlockId}
    (hs : h.ShowsAll vs cs bs) : h'.ShowsAll vs cs bs :=
  hs.frame hg.size fun b hb => hg.same b (hs.lt_size b hb)

theorem read? (hg : GrowsByBlocks h h') {place : Place} {v : Value} (hr : h.read? place = some v) :
    h'.read? place = some v := by
  rw [← hr, hg.rest]
  cases place with
  | element b i =>
      change (block _ b)[i]? = (block h b)[i]?
      rw [← hg.rest, hg.same b]
      by_contra hn
      simp [Heap.read?, element?, block, Nat.le_of_not_lt hn] at hr
  | _ => rfl

end GrowsByBlocks

theorem block_newBlock (h : Heap) (vs : Array Value) (b : BlockId) :
    (newBlock vs h).2.block b = if b = h.blocks.size then vs else h.block b := by
  change block { h with blocks := h.blocks.push vs } b = _
  unfold block
  rw [Array.getElem?_push]
  split <;> simp_all

theorem grows_newBlock (h : Heap) (vs : Array Value) : GrowsByBlocks h (newBlock vs h).2 where
  rest := rfl
  size := by change _ ≤ (h.blocks.push vs).size; simp
  same b hb := by rw [block_newBlock, if_neg (Nat.ne_of_lt hb)]

-- A value whose content stands in blocks that have come since `h`, each of them used once.
structure Fresh (h h' : Heap) (v : Value) (c : Content) : Prop where
  grows : GrowsByBlocks h h'
  shows : ∃ bs, h'.Shows v c bs ∧ (∀ b ∈ bs, h.blocks.size ≤ b) ∧ bs.Nodup

structure FreshAll (h h' : Heap) (vs : List Value) (cs : List Content) : Prop where
  grows : GrowsByBlocks h h'
  shows : ∃ bs, h'.ShowsAll vs cs bs ∧ (∀ b ∈ bs, h.blocks.size ≤ b) ∧ bs.Nodup

theorem FreshAll.cons {v : Value} {vs : List Value} {c : Content} {cs : List Content}
    (hv : Fresh h h' v c) (hvs : FreshAll h' h'' vs cs) : FreshAll h h'' (v :: vs) (c :: cs) := by
  obtain ⟨hg, bs, hs, hnew, hn⟩ := hv
  obtain ⟨hg', bs', hs', hnew', hn'⟩ := hvs
  refine ⟨hg.trans hg', bs ++ bs', .cons _ _ _ _ _ _ (hg'.shows hs) hs', fun b hb => ?_, ?_⟩
  · rcases List.mem_append.mp hb with hb | hb
    · exact hnew b hb
    · exact Nat.le_trans hg.size (hnew' b hb)
  · refine List.nodup_append.mpr ⟨hn, hn', fun b hb b' hb' he => ?_⟩
    subst he
    exact Nat.not_lt_of_le (hnew' b hb') (hs.lt_size b hb)

-- A new block around new values.
theorem FreshAll.newBlock {vs : List Value} {cs : List Content} (hvs : FreshAll h h' vs cs) :
    ∃ bs, (Heap.newBlock vs.toArray h').2.ShowsAll
        ((Heap.newBlock vs.toArray h').2.block h'.blocks.size).toList cs bs ∧
      (∀ b ∈ h'.blocks.size :: bs, h.blocks.size ≤ b) ∧ (h'.blocks.size :: bs).Nodup ∧
      GrowsByBlocks h (Heap.newBlock vs.toArray h').2 := by
  obtain ⟨hg, bs, hs, hnew, hn⟩ := hvs
  have hg' := grows_newBlock h' vs.toArray
  refine ⟨bs, ?_, ?_, List.nodup_cons.mpr ⟨fun hm => ?_, hn⟩, hg.trans hg'⟩
  · rw [block_newBlock, if_pos rfl]
    exact hg'.showsAll hs
  · intro b hb
    rcases List.mem_cons.mp hb with rfl | hb
    · exact hg.size
    · exact hnew b hb
  · exact Nat.lt_irrefl _ (hs.lt_size _ hm)

theorem FreshAll.newStruct {vs : List Value} {cs : List Content} (hvs : FreshAll h h' vs cs)
    (l : Layout) (n : Option String) (hlen : vs.length = l.length) :
    Fresh h (Heap.newStruct l n vs h').2 (Heap.newStruct l n vs h').1 (.struct l n cs) := by
  obtain ⟨bs, hs, hnew, hn, hg⟩ := hvs.newBlock
  refine ⟨hg, h'.blocks.size :: bs, ?_, hnew, hn⟩
  refine .struct ⟨l, h'.blocks.size, n⟩ cs bs ?_ ?_ hs
  · change _ < (h'.blocks.push vs.toArray).size
    simp
  · change ((Heap.newBlock vs.toArray h').2.block h'.blocks.size).size = l.length
    rw [block_newBlock, if_pos rfl]
    simpa using hlen

theorem FreshAll.newArray {vs : List Value} {cs : List Content} (hvs : FreshAll h h' vs cs) :
    Fresh h (Heap.newArray vs h').2 (Heap.newArray vs h').1 (.array cs) := by
  obtain ⟨bs, hs, hnew, hn, hg⟩ := hvs.newBlock
  refine ⟨hg, h'.blocks.size :: bs, .array h'.blocks.size cs bs ?_ hs, hnew, hn⟩
  change _ < (h'.blocks.push vs.toArray).size
  simp

-- The copy of a value, made with room for as many levels as its content has.
def CopiesUpTo (n : Nat) : Prop :=
  ∀ (h : Heap) (v : Value) (c : Content) (bs : List BlockId), h.Shows v c bs → c.Separable →
    c.depth ≤ n → Fresh h (copyUpTo n v h).2 (copyUpTo n v h).1 c

theorem freshAll_mapM {n : Nat} (hn : CopiesUpTo n) (vs : List Value) (h : Heap)
    (cs : List Content) (bs : List BlockId) (hs : h.ShowsAll vs cs bs)
    (hsep : Content.SeparableAll cs) (hdepth : Content.depthAll cs ≤ n) :
    FreshAll h ((vs.mapM (copyUpTo n) : HeapM (List Value)) h).2
      ((vs.mapM (copyUpTo n) : HeapM (List Value)) h).1 cs := by
  induction vs generalizing h cs bs with
  | nil =>
      cases hs
      exact ⟨GrowsByBlocks.refl h, [], .nil, by simp, List.nodup_nil⟩
  | cons v vs ih =>
      cases hs with
      | cons _ c bs _ cs bs' hv hvs =>
          simp only [Content.depthAll] at hdepth
          have hfirst := hn h v c bs hv hsep.1 (by omega)
          have hrest := ih (copyUpTo n v h).2 cs bs' (hfirst.grows.showsAll hvs) hsep.2 (by omega)
          rw [List.mapM_cons]
          exact FreshAll.cons hfirst hrest

theorem copyWith_struct (f : Value → HeapM Value) (s : StructRef) (h : Heap) :
    copyWith f (.struct s) h =
      newStruct s.layout s.typeName (((h.block s.block).toList.mapM f : HeapM (List Value)) h).1
        (((h.block s.block).toList.mapM f : HeapM (List Value)) h).2 := rfl

theorem copyWith_array (f : Value → HeapM Value) (b : BlockId) (h : Heap) :
    copyWith f (.array b) h =
      newArray (((h.block b).toList.mapM f : HeapM (List Value)) h).1
        (((h.block b).toList.mapM f : HeapM (List Value)) h).2 := rfl

theorem copyWith_named (f : Value → HeapM Value) (t : String) (v : Value) (h : Heap)
    (hv : copiesInside v) :
    copyWith f (.named t v) h = (.named t (copyWith f v h).1, (copyWith f v h).2) := by
  simp only [copyWith, hv, ite_true]
  rfl

theorem copyWith_named_of_not (f : Value → HeapM Value) (t : String) (v : Value) (h : Heap)
    (hv : copiesInside v = false) : copyWith f (.named t v) h = (.named t v, h) := by
  simp only [copyWith, hv]
  rfl

theorem copyWith_leaf (f : Value → HeapM Value) (v : Value) (h : Heap) (hv : v.isLeaf) :
    copyWith f v h = (v, h) := by
  cases v <;> first | (simp [Value.isLeaf] at hv; done) | rfl

theorem grows_mapM {f : Value → HeapM Value} (hf : ∀ v h, GrowsByBlocks h (f v h).2)
    (vs : List Value) (h : Heap) : GrowsByBlocks h ((vs.mapM f : HeapM (List Value)) h).2 :=
  Compositional.mapM (M := HeapM) (P := fun x => ∀ h, GrowsByBlocks h (x h).2)
    ⟨fun _ h => GrowsByBlocks.refl h, fun hx hg h => (hx h).trans (hg _ _)⟩ hf h

theorem grows_copyUpTo (n : Nat) (v : Value) (h : Heap) : GrowsByBlocks h (copyUpTo n v h).2 := by
  induction n generalizing v h with
  | zero => exact GrowsByBlocks.refl h
  | succ n ih =>
      change GrowsByBlocks h (copyWith (copyUpTo n) v h).2
      induction v with
      | struct s =>
          rw [copyWith_struct]
          exact (grows_mapM ih _ h).trans (grows_newBlock _ _)
      | array b =>
          rw [copyWith_array]
          exact (grows_mapM ih _ h).trans (grows_newBlock _ _)
      | named t v ihv =>
          by_cases hc : copiesInside v
          · rw [copyWith_named _ _ _ _ hc]
            exact ihv
          · rw [copyWith_named_of_not _ _ _ _ (by simpa using hc)]
            exact GrowsByBlocks.refl h
      | _ =>
          rw [copyWith_leaf _ _ h rfl]
          exact GrowsByBlocks.refl h

theorem Fresh.named {v : Value} {c : Content} (hf : Fresh h h' v c) (t : String) :
    Fresh h h' (.named t v) (.named t c) := by
  obtain ⟨hg, bs, hs, hnew, hn⟩ := hf
  exact ⟨hg, bs, .named t v c bs hs, hnew, hn⟩

theorem Fresh.leaf (h : Heap) (v : Value) (hv : v.isLeaf) : Fresh h h v (.leaf v) :=
  ⟨GrowsByBlocks.refl h, [], .leaf v hv, by simp, List.nodup_nil⟩

theorem Separable.inner {t : String} {c : Content} (hsep : (Content.named t c).Separable) :
    c.Separable := by
  cases c <;> simp_all [Content.Separable]

theorem copiesUpTo (n : Nat) : CopiesUpTo n := by
  induction n with
  | zero =>
      intro h v c bs hs hsep hdepth
      change Fresh h h v c
      induction v generalizing c bs with
      | named t v ih =>
          cases hs with
          | leaf _ hl => exact (Bool.false_ne_true hl).elim
          | named _ _ c bs hv =>
              exact (ih c bs hv (Separable.inner hsep)
                (by simpa [Content.depth] using hdepth)).named t
      | struct s =>
          cases hs with
          | leaf _ hl => exact (Bool.false_ne_true hl).elim
          | struct => simp [Content.depth] at hdepth
      | array b =>
          cases hs with
          | leaf _ hl => exact (Bool.false_ne_true hl).elim
          | array => simp [Content.depth] at hdepth
      | _ =>
          cases hs with
          | leaf _ hl => exact Fresh.leaf h _ hl
  | succ n ih =>
      intro h v c bs hs hsep hdepth
      change Fresh h (copyWith (copyUpTo n) v h).2 (copyWith (copyUpTo n) v h).1 c
      induction v generalizing c bs with
      | named t v ihv =>
          cases hs with
          | leaf _ hl => exact (Bool.false_ne_true hl).elim
          | named _ _ c bs hv =>
              have hinner := ihv c bs hv (Separable.inner hsep)
                (by simpa [Content.depth] using hdepth)
              by_cases hc : copiesInside v
              · rw [copyWith_named _ _ _ _ hc]
                exact hinner.named t
              · rw [copyWith_named_of_not _ _ _ _ (by simpa using hc)]
                have hleaf : v.isLeaf := by
                  cases hv <;> simp_all [copiesInside, Content.Separable]
                rw [copyWith_leaf _ v h hleaf] at hinner
                exact hinner.named t
      | struct s =>
          cases hs with
          | leaf _ hl => exact (Bool.false_ne_true hl).elim
          | struct _ fields bs hb hlen hfields =>
              rw [copyWith_struct]
              have hall := freshAll_mapM ih _ h fields bs hfields
                (by simpa [Content.Separable] using hsep) (by simpa [Content.depth] using hdepth)
              refine hall.newStruct s.layout s.typeName ?_
              obtain ⟨_, bs', hs', _⟩ := hall
              rw [hs'.length_eq, ← hfields.length_eq, Array.length_toList, hlen]
      | array b =>
          cases hs with
          | leaf _ hl => exact (Bool.false_ne_true hl).elim
          | array _ elems bs hb helems =>
              rw [copyWith_array]
              exact (freshAll_mapM ih _ h elems bs helems
                (by simpa [Content.Separable] using hsep)
                (by simpa [Content.depth] using hdepth)).newArray
      | _ =>
          cases hs with
          | leaf _ hl =>
              rw [copyWith_leaf _ _ h hl]
              exact Fresh.leaf h _ hl

theorem copy_struct (s : StructRef) (h : Heap) :
    ∃ s' h', copy (.struct s) h = (.struct s', h') :=
  ⟨_, _, copyWith_struct (copyUpTo h.blocks.size) s h⟩

theorem copy_array (b : BlockId) (h : Heap) : ∃ b' h', copy (.array b) h = (.array b', h') :=
  ⟨_, _, copyWith_array (copyUpTo h.blocks.size) b h⟩

theorem copy_named (t : String) (v : Value) (h : Heap) :
    ∃ v' h', copy (.named t v) h = (.named t v', h') := by
  change ∃ v' h', copyWith (copyUpTo h.blocks.size) (.named t v) h = _
  by_cases hc : copiesInside v
  · exact ⟨_, _, copyWith_named _ t v h hc⟩
  · exact ⟨_, _, copyWith_named_of_not _ t v h (by simpa using hc)⟩

-- A copy has the content of the value and blocks of its own.
theorem Shows.fresh_copy {v : Value} {c : Content} {bs : List BlockId} (hs : h.Shows v c bs)
    (hsep : c.Separable) : Fresh h (copy v h).2 (copy v h).1 c :=
  copiesUpTo h.depth h v c bs hs hsep (Nat.le_succ_of_le hs.depth_le_size)

theorem fresh_copy {v : Value} {c : Content} (hv : h.HasContent v c) (hsep : c.Separable) :
    Fresh h (copy v h).2 (copy v h).1 c := by
  obtain ⟨bs, hs, -⟩ := hv
  exact hs.fresh_copy hsep

-- Whatever grows out of `h'`, the content of the value stands in blocks that have come since `h`.
def NewSince (h h' : Heap) (v : Value) : Prop :=
  ∀ (h'' : Heap) (c : Content) (bs : List BlockId), GrowsByBlocks h' h'' → h''.Shows v c bs →
    ∀ b ∈ bs, h.blocks.size ≤ b

def AllNewSince (h h' : Heap) (vs : List Value) : Prop :=
  ∀ (h'' : Heap) (cs : List Content) (bs : List BlockId), GrowsByBlocks h' h'' →
    h''.ShowsAll vs cs bs →
    ∀ b ∈ bs, h.blocks.size ≤ b

theorem newSince_leaf (h : Heap) (v : Value) (hv : v.isLeaf) : GrowsByBlocks h h ∧
    NewSince h h v := by
  refine ⟨GrowsByBlocks.refl h, fun h'' c bs _ hs => ?_⟩
  cases hs <;> simp_all [Value.isLeaf]

-- A new block with the given elements, which have new content.
theorem AllNewSince.newBlock {vs : List Value} (hg : GrowsByBlocks h h') (hvs : AllNewSince h h' vs)
    {h₂ : Heap} (hg₂ : GrowsByBlocks (Heap.newBlock vs.toArray h').2 h₂) {cs : List Content}
    {bs : List BlockId} (hs : h₂.ShowsAll (h₂.block h'.blocks.size).toList cs bs) :
    ∀ b ∈ h'.blocks.size :: bs, h.blocks.size ≤ b := by
  have hlt : h'.blocks.size < (Heap.newBlock vs.toArray h').2.blocks.size := by
    change _ < (h'.blocks.push vs.toArray).size
    simp
  rw [hg₂.same _ hlt, block_newBlock, if_pos rfl, List.toList_toArray] at hs
  intro b hb
  rcases List.mem_cons.mp hb with rfl | hb
  · exact hg.size
  · exact hvs h₂ cs bs ((grows_newBlock h' _).trans hg₂) hs b hb

theorem ofConstant_array (ks : List Constant) (h : Heap) :
    ofConstant (.array ks) h = newArray (ofConstants ks h).1 (ofConstants ks h).2 := rfl

theorem ofConstant_struct (l : Layout) (n : Option String) (ks : List Constant) (h : Heap) :
    ofConstant (.struct l n ks) h =
      newStruct l n (ofConstants ks h).1 (ofConstants ks h).2 := rfl

theorem ofConstant_named (t : String) (k : Constant) (h : Heap) :
    ofConstant (.named t k) h = (.named t (ofConstant k h).1, (ofConstant k h).2) := rfl

theorem ofConstants_cons (k : Constant) (ks : List Constant) (h : Heap) :
    ofConstants (k :: ks) h =
      ((ofConstant k h).1 :: (ofConstants ks (ofConstant k h).2).1,
        (ofConstants ks (ofConstant k h).2).2) := rfl

mutual

theorem newSince_ofConstant (k : Constant) (h : Heap) :
    GrowsByBlocks h (ofConstant k h).2 ∧ NewSince h (ofConstant k h).2 (ofConstant k h).1 := by
  cases k with
  | array ks =>
      rw [ofConstant_array]
      obtain ⟨hg, hnew⟩ := newSince_ofConstants ks h
      refine ⟨hg.trans (grows_newBlock _ _), fun h₂ c bs hg₂ hs => ?_⟩
      cases hs with
      | leaf _ hl => exact (Bool.false_ne_true hl).elim
      | array b cs bs _ hs => exact AllNewSince.newBlock hg hnew hg₂ hs
  | struct l n ks =>
      rw [ofConstant_struct]
      obtain ⟨hg, hnew⟩ := newSince_ofConstants ks h
      refine ⟨hg.trans (grows_newBlock _ _), fun h₂ c bs hg₂ hs => ?_⟩
      cases hs with
      | leaf _ hl => exact (Bool.false_ne_true hl).elim
      | struct s cs bs _ _ hs => exact AllNewSince.newBlock hg hnew hg₂ hs
  | named t k =>
      rw [ofConstant_named]
      obtain ⟨hg, hnew⟩ := newSince_ofConstant k h
      refine ⟨hg, fun h₂ c bs hg₂ hs => ?_⟩
      cases hs with
      | leaf _ hl => simp [Value.isLeaf] at hl
      | named _ _ c bs hs => exact hnew h₂ c bs hg₂ hs
  | _ =>
      simp only [ofConstant]
      exact newSince_leaf h _ rfl

theorem newSince_ofConstants (ks : List Constant) (h : Heap) :
    GrowsByBlocks h (ofConstants ks h).2 ∧
    AllNewSince h (ofConstants ks h).2 (ofConstants ks h).1 := by
  match ks with
  | [] =>
      refine ⟨GrowsByBlocks.refl h, fun h₂ cs bs _ hs => ?_⟩
      simp only [ofConstants] at hs
      cases hs
      simp
  | k :: ks =>
      rw [ofConstants_cons]
      obtain ⟨hg, hnew⟩ := newSince_ofConstant k h
      obtain ⟨hg', hnew'⟩ := newSince_ofConstants ks (ofConstant k h).2
      refine ⟨hg.trans hg', fun h₂ cs bs hg₂ hs => ?_⟩
      cases hs with
      | cons _ c bs _ cs bs' hv hvs =>
          intro b hb
          rcases List.mem_append.mp hb with hb | hb
          · exact hnew h₂ c bs (hg'.trans hg₂) hv b hb
          · exact Nat.le_trans hg.size (hnew' h₂ cs bs' hg₂ hvs b hb)

end

theorem lt_size_newBlock (h : Heap) (vs : Array Value) :
    h.blocks.size < (Heap.newBlock vs h).2.blocks.size := by
  change _ < (h.blocks.push vs).size
  simp

-- A constant has one content, whichever heap its blocks are made in.
mutual

theorem shows_ofConstant (k : Constant) {h h₁ : Heap} (h' : Heap) {c : Content} {bs : List BlockId}
    (hg : GrowsByBlocks (ofConstant k h).2 h₁) (hs : h₁.Shows (ofConstant k h).1 c bs) :
    ∃ bs', (ofConstant k h').2.Shows (ofConstant k h').1 c bs' := by
  cases k with
  | array ks =>
      rw [ofConstant_array] at hg hs ⊢
      change GrowsByBlocks (newBlock _ _).2 h₁ at hg
      cases hs with
      | leaf _ hl => exact (Bool.false_ne_true hl).elim
      | array _ cs bs _ hs =>
          rw [hg.same _ (lt_size_newBlock _ _), block_newBlock, if_pos rfl] at hs
          obtain ⟨bs', hs'⟩ := shows_ofConstants ks h' ((grows_newBlock _ _).trans hg) hs
          refine ⟨(ofConstants ks h').2.blocks.size :: bs', .array _ cs bs' (lt_size_newBlock _ _) ?_⟩
          change ShowsAll _ (block (Heap.newBlock _ _).2 _).toList cs bs'
          rw [block_newBlock, if_pos rfl]
          exact (grows_newBlock _ _).showsAll hs'
  | struct l n ks =>
      rw [ofConstant_struct] at hg hs ⊢
      change GrowsByBlocks (newBlock _ _).2 h₁ at hg
      cases hs with
      | leaf _ hl => exact (Bool.false_ne_true hl).elim
      | struct _ cs bs _ hlen hs =>
          rw [hg.same _ (lt_size_newBlock _ _), block_newBlock, if_pos rfl] at hs hlen
          obtain ⟨bs', hs'⟩ := shows_ofConstants ks h' ((grows_newBlock _ _).trans hg) hs
          have hsize : (ofConstants ks h').1.length = l.length := by
            rw [hs'.length_eq, ← hs.length_eq]
            simpa using hlen
          refine ⟨(ofConstants ks h').2.blocks.size :: bs',
            .struct ⟨l, _, n⟩ cs bs' (lt_size_newBlock _ _) ?_ ?_⟩
          · change (block (Heap.newBlock _ _).2 _).size = _
            rw [block_newBlock, if_pos rfl]
            simpa using hsize
          · change ShowsAll _ (block (Heap.newBlock _ _).2 _).toList cs bs'
            rw [block_newBlock, if_pos rfl]
            exact (grows_newBlock _ _).showsAll hs'
  | named t k =>
      rw [ofConstant_named] at hg hs ⊢
      cases hs with
      | leaf _ hl => simp [Value.isLeaf] at hl
      | named _ _ c bs hs =>
          obtain ⟨bs', hs'⟩ := shows_ofConstant k h' hg hs
          exact ⟨bs', .named t _ c bs' hs'⟩
  | _ =>
      simp only [ofConstant] at hs ⊢
      cases hs with
      | leaf _ hl => exact ⟨[], .leaf _ hl⟩

theorem shows_ofConstants (ks : List Constant) {h h₁ : Heap} (h' : Heap) {cs : List Content}
    {bs : List BlockId} (hg : GrowsByBlocks (ofConstants ks h).2 h₁)
    (hs : h₁.ShowsAll (ofConstants ks h).1 cs bs) :
    ∃ bs', (ofConstants ks h').2.ShowsAll (ofConstants ks h').1 cs bs' := by
  match ks with
  | [] =>
      simp only [ofConstants] at hs ⊢
      cases hs
      exact ⟨[], .nil⟩
  | k :: ks =>
      rw [ofConstants_cons] at hg hs ⊢
      cases hs with
      | cons _ c bs _ cs bs' hv hvs =>
          have hg' := (newSince_ofConstants ks (ofConstant k h).2).1
          obtain ⟨is, hs⟩ := shows_ofConstant k h' (hg'.trans hg) hv
          obtain ⟨is', hs'⟩ := shows_ofConstants ks (ofConstant k h').2 hg hvs
          have hg'' := (newSince_ofConstants ks (ofConstant k h').2).1
          exact ⟨is ++ is', .cons _ c is _ cs is' (hg''.shows hs) hs'⟩

end

end StepGraph.Heap

import StepGraph.Proofs.Store.Regions

namespace StepGraph.Heap

variable {h h' h₁ : Heap} {v w x : Value} {c : Content} {vs : List Value} {cs : List Content}
  {b d e : BlockId} {bs ds : List BlockId}

-- The block is one of those in which the structs and arrays of a value stand, as far as they are
-- reached without passing through a slice, map, pointer, function or channel.
def PartOf (h : Heap) (v : Value) (e : BlockId) : Prop := ∃ b, v.home? = some b ∧ h.Inside b e

-- The two values share no struct or array.
def SharesNothing (h : Heap) (v w : Value) : Prop := ∀ e, h.PartOf v e → ¬ h.PartOf w e

theorem Inside.trans (hd : h.Inside b d) (he : h.Inside d e) : h.Inside b e := by
  induction he with
  | self => exact hd
  | part _ hv hhome ih => exact .part ih hv hhome

theorem PartOf.inside (hv : v ∈ (h.block b).toList) (he : h.PartOf v e) : h.Inside b e := by
  obtain ⟨d, hd, hin⟩ := he
  exact (Inside.part .self hv hd).trans hin

theorem Region.mem_of_partOf (hr : h.Region bs) (hv : v.StandsIn bs) (he : h.PartOf v e) :
    e ∈ bs := by
  obtain ⟨b, hb, hin⟩ := he
  exact hr.mem_of_inside (hv b hb) hin

mutual

theorem Shows.partOf {v : Value} {c : Content} {bs : List BlockId} (hs : h.Shows v c bs) :
    ∀ e ∈ bs, h.PartOf v e := by
  cases hs with
  | leaf _ _ => exact fun e he => absurd he List.not_mem_nil
  | struct s fields bs _ _ hfields =>
    intro e he
    refine ⟨s.block, rfl, ?_⟩
    rcases List.mem_cons.mp he with rfl | he
    · exact .self
    · obtain ⟨w, hw, hpart⟩ := ShowsAll.partOf hfields e he
      exact hpart.inside hw
  | array b elems bs _ helems =>
    intro e he
    refine ⟨b, rfl, ?_⟩
    rcases List.mem_cons.mp he with rfl | he
    · exact .self
    · obtain ⟨w, hw, hpart⟩ := ShowsAll.partOf helems e he
      exact hpart.inside hw
  | named t v c bs hv =>
    intro e he
    obtain ⟨b, hb, hin⟩ := Shows.partOf hv e he
    exact ⟨b, hb, hin⟩

theorem ShowsAll.partOf {vs : List Value} {cs : List Content} {bs : List BlockId}
    (hs : h.ShowsAll vs cs bs) : ∀ e ∈ bs, ∃ v ∈ vs, h.PartOf v e := by
  cases hs with
  | nil => exact fun e he => absurd he List.not_mem_nil
  | cons v c bs vs cs bs' hv hvs =>
    intro e he
    rcases List.mem_append.mp he with he | he
    · exact ⟨v, List.mem_cons_self, Shows.partOf hv e he⟩
    · obtain ⟨w, hw, hpart⟩ := ShowsAll.partOf hvs e he
      exact ⟨w, List.mem_cons_of_mem _ hw, hpart⟩

end

-- The blocks of a content are the parts of the value that has it.
theorem Shows.partOf_iff (hs : h.Shows v c bs) : h.PartOf v e ↔ e ∈ bs := by
  obtain ⟨hr, hv⟩ := hs.region
  exact ⟨hr.mem_of_partOf hv, hs.partOf e⟩

-- A store leaves the blocks outside of a region as they are, when the place is an element of a block
-- of the region or holds a value that stands in it.
theorem Region.store_place {p : Place} (hr : h.Region bs) (hp : ∀ b ∈ blockOf p, b ∈ bs)
    (hold : ∀ x, h.read? p = some x → x.StandsIn bs) (hv : v.StandsIn bs) :
    (Heap.store p v h).2.blocks.size = h.blocks.size ∧
      (∀ b, b ∉ bs → (Heap.store p v h).2.block b = h.block b) ∧
      (Heap.store p v h).2.Region bs := by
  by_cases hplace : blockOf p = []
  · change (storeUpTo (h.blocks.size + 1) p v h).2.blocks.size = _ ∧
      (∀ b, b ∉ bs → (storeUpTo (h.blocks.size + 1) p v h).2.block b = h.block b) ∧
      (storeUpTo (h.blocks.size + 1) p v h).2.Region bs
    cases hf : h.filledBlock? (h.read? p) v with
    | none =>
      have hblocks : (write v p h).2.blocks = h.blocks := by
        cases p with
        | element => simp [blockOf] at hplace
        | _ => rfl
      have hsame : ∀ b, (write v p h).2.block b = h.block b := fun b => by
        unfold block
        rw [hblocks]
      rw [storeUpTo_of_not_filled hf]
      exact ⟨congrArg Array.size hblocks, fun b _ => hsame b,
        hr.frame (Nat.le_of_eq (congrArg Array.size hblocks).symm) fun b _ => hsame b⟩
    | some filled =>
      obtain ⟨old, new⟩ := filled
      rw [storeUpTo_of_filled hf]
      cases hx : h.read? p with
      | none =>
        rw [hx] at hf
        cases hf
      | some x =>
        rw [hx] at hf
        obtain ⟨hwithin, hregion⟩ := hr.filled (storesWithin _) (hold x hx) hv hf
        exact ⟨hwithin.count, hwithin.same, hregion⟩
  · cases p with
    | element b i =>
      obtain ⟨hwithin, hregion⟩ := hr.store (hp b List.mem_cons_self) hv i
      exact ⟨hwithin.count, hwithin.same, hregion⟩
    | _ => exact absurd rfl hplace

-- A value that is to be stored, in the heap that it stands in: a copy of any value, or a value that
-- shares nothing with `w`.
inductive Supplies (w : Value) (h : Heap) : Value → Heap → Prop
  | copied {x : Value} {c : Content} {bs : List BlockId} (hx : h.Shows x c bs)
      (hsep : c.Separable) : Supplies w h (copy x h).1 (copy x h).2
  | apart {x : Value} {c : Content} {bs : List BlockId} (hx : h.Shows x c bs)
      (hapart : h.SharesNothing x w) : Supplies w h x h

theorem Supplies.region (hx : Supplies w h x h₁) (hw : h.Shows w c bs) :
    GrowsByBlocks h h₁ ∧ ∃ ds, h₁.Region ds ∧ x.StandsIn ds ∧ bs.Disjoint ds := by
  cases hx with
  | copied hx hsep =>
    obtain ⟨hg, ds, hds, hnew, -⟩ := hx.fresh_copy hsep
    obtain ⟨hr, hin⟩ := hds.region
    refine ⟨hg, ds, hr, hin, fun b hb hd => ?_⟩
    exact Nat.not_lt_of_le (hnew b hd) (hw.lt_size b hb)
  | @apart _ _ ds hx hapart =>
    obtain ⟨hr, hin⟩ := hx.region
    exact ⟨.refl h, ds, hr, hin, fun b hb hd => hapart b (hx.partOf b hd) (hw.partOf b hb)⟩

-- A step that stores into nothing but `v`: into one of its parts, or over all of it in a variable or
-- a cell that holds it. Whatever else happens between the stores writes to no block that is there.
inductive Edits (v w : Value) (h : Heap) : Heap → Prop
  | part {x : Value} {h₁ : Heap} {e : BlockId} {i : Nat} (hx : Supplies w h x h₁)
      (he : h.PartOf v e) : Edits v w h (store (.element e i) x h₁).2
  | whole {x : Value} {h₁ : Heap} {p : Place} (hx : Supplies w h x h₁) (hp : blockOf p = [])
      (hread : h.read? p = some v) : Edits v w h (store p x h₁).2
  | other {h' : Heap} (hsize : h.blocks.size ≤ h'.blocks.size)
      (hsame : ∀ b, b < h.blocks.size → h'.block b = h.block b) : Edits v w h h'

-- `v` stands in blocks other than these.
def Clear (h : Heap) (v : Value) (bs : List BlockId) : Prop :=
  ∃ ds, h.Region ds ∧ v.StandsIn ds ∧ bs.Disjoint ds

theorem Edits.keeps (he : Edits v w h h') (hw : h.Shows w c bs) (hv : h.Clear v bs) :
    h'.Shows w c bs ∧ h'.Clear v bs ∧ ∀ b ∈ bs, h'.block b = h.block b := by
  obtain ⟨ds, hds, hvin, hdisj⟩ := hv
  -- what is stored stands in a region of its own, and the store keeps to the two regions
  have hstore : ∀ {x : Value} {h₁ : Heap} (p : Place), Supplies w h x h₁ →
      (∀ b ∈ blockOf p, b ∈ ds) → (blockOf p = [] → h.read? p = some v) →
      (store p x h₁).2.Shows w c bs ∧ (store p x h₁).2.Clear v bs ∧
        ∀ b ∈ bs, (store p x h₁).2.block b = h.block b := by
    intro x h₁ p hx hp hread
    obtain ⟨hg, new, hnew, hxin, hdisj'⟩ := hx.region hw
    have hall : h₁.Region (ds ++ new) := (hds.grow hg).append hnew
    have hapart : bs.Disjoint (ds ++ new) := List.disjoint_append_right.mpr ⟨hdisj, hdisj'⟩
    have hold : ∀ y, h₁.read? p = some y → y.StandsIn (ds ++ new) := by
      intro y hy
      cases p with
      | element b i =>
        have hb : b ∈ ds := hp b List.mem_cons_self
        have hmem : y ∈ (h₁.block b).toList :=
          List.mem_of_getElem? ((element?_eq_getElem? h₁ b i).symm.trans hy)
        exact hall.closed b (List.mem_append_left _ hb) y hmem
      | _ =>
        rw [hg.read? (hread rfl)] at hy
        cases hy
        exact hvin.mono (List.subset_append_left _ _)
    obtain ⟨hcount, hsame, hregion⟩ := hall.store_place
      (fun b hb => List.mem_append_left _ (hp b hb)) hold
      (hxin.mono (List.subset_append_right _ _))
    have hkept : ∀ b ∈ bs, (store p x h₁).2.block b = h.block b := fun b hb =>
      (hsame b (hapart hb)).trans (hg.same b (hw.lt_size b hb))
    exact ⟨hw.frame (Nat.le_trans hg.size (Nat.le_of_eq hcount.symm)) hkept,
      ⟨ds ++ new, hregion, hvin.mono (List.subset_append_left _ _), hapart⟩, hkept⟩
  cases he with
  | @part _ _ e i hx he =>
    refine hstore (.element e i) hx (fun b hb => ?_) nofun
    obtain rfl := List.mem_singleton.mp hb
    exact hds.mem_of_partOf hvin he
  | whole hx hp hread => exact hstore _ hx (by simp [hp]) fun _ => hread
  | other hsize hsame =>
    have hkept : ∀ b ∈ bs, h'.block b = h.block b := fun b hb => hsame b (hw.lt_size b hb)
    exact ⟨hw.frame hsize hkept,
      ⟨ds, hds.frame hsize fun b hb => hsame b (hds.lt_size b hb), hvin, hdisj⟩, hkept⟩

-- Any number of such steps.
theorem Clear.edited (hv : h.Clear v bs) (hw : h.Shows w c bs)
    (he : Relation.ReflTransGen (Edits v w) h h') :
    h'.Shows w c bs ∧ ∀ b ∈ bs, h'.block b = h.block b := by
  have hkeeps : h'.Shows w c bs ∧ h'.Clear v bs ∧ ∀ b ∈ bs, h'.block b = h.block b := by
    induction he with
    | refl => exact ⟨hw, hv, fun _ _ => rfl⟩
    | tail _ hstep ih =>
      obtain ⟨hw', hv', hsame⟩ := ih
      obtain ⟨hw'', hv'', hsame'⟩ := hstep.keeps hw' hv'
      exact ⟨hw'', hv'', fun b hb => (hsame' b hb).trans (hsame b hb)⟩
  exact ⟨hkeeps.1, hkeeps.2.2⟩

-- A copy has the content of the value and shares no struct or array with it. Its leaves are the
-- leaves of the value, so what lies behind slices, maps, pointers, functions and channels stays
-- shared. Whatever is stored into the one afterwards, the other reads as before.
theorem copies_are_separate (hs : h.Shows v c bs) (hsep : c.Separable) :
    ∃ v' h' bs', copy v h = (v', h') ∧ h'.Shows v c bs ∧ h'.Shows v' c bs' ∧ h'.SharesNothing v' v ∧
      (∀ h'', Relation.ReflTransGen (Edits v' v) h' h'' →
        h''.Shows v c bs ∧ ∀ b ∈ bs, h''.block b = h.block b) ∧
      (∀ h'', Relation.ReflTransGen (Edits v v') h' h'' →
        h''.Shows v' c bs' ∧ ∀ b ∈ bs', h''.block b = h'.block b) := by
  obtain ⟨hg, bs', hs', hnew, -⟩ := hs.fresh_copy hsep
  have hold : (copy v h).2.Shows v c bs := hg.shows hs
  have hdisj : bs.Disjoint bs' := fun b hb hb' => Nat.not_lt_of_le (hnew b hb') (hs.lt_size b hb)
  obtain ⟨hregion, hin⟩ := hold.region
  obtain ⟨hregion', hin'⟩ := hs'.region
  refine ⟨_, _, bs', rfl, hold, hs', fun e he' he => ?_, fun h'' he => ?_, fun h'' he => ?_⟩
  · exact hdisj (hold.partOf_iff.mp he) (hs'.partOf_iff.mp he')
  · obtain ⟨hshows, hsame⟩ := Clear.edited ⟨bs', hregion', hin', hdisj⟩ hold he
    exact ⟨hshows, fun b hb => (hsame b hb).trans (hg.same b (hs.lt_size b hb))⟩
  · exact Clear.edited ⟨bs, hregion, hin, fun b hb' hb => hdisj hb hb'⟩ hs' he

-- A struct with a struct, an array of a declared type and a slice in it.
def mixed : Value :=
  .struct ⟨⟨[⟨"s", .named "S", false⟩, ⟨"a", .named "A", false⟩, ⟨"p", .slice (.int .int), false⟩]⟩, 0,
    some "T"⟩

def mixedHeap : Heap :=
  { empty with
    blocks := #[
      #[.struct ⟨⟨[⟨"x", .int .int, false⟩]⟩, 1, some "S"⟩, .named "A" (.array 2),
        .slice (some ⟨3, 0, 1, 1⟩)],
      #[.plainInt 1], #[.plainInt 2, .plainInt 3], #[.plainInt 4]] }

-- The inner struct of the copy is in block 4 and its array in block 5. The slice is the same.
theorem copied_struct_is_separate : ∃ v' h' h'', copy mixed mixedHeap = (v', h') ∧
    h'.SharesNothing v' mixed ∧ Relation.ReflTransGen (Edits v' mixed) h' h'' ∧
    h''.block 4 = #[.plainInt 9] ∧ h''.block 5 = #[.plainInt 2, .plainInt 9] ∧
    h''.block 1 = #[.plainInt 1] ∧ h''.block 2 = #[.plainInt 2, .plainInt 3] ∧
    h''.element? 6 2 = h''.element? 0 2 := by
  have hs : mixedHeap.Shows mixed _ [0, 1, 2] :=
    .struct _ _ _ (by decide) rfl
      (.cons _ _ [1] _ _ [2] (.struct _ _ _ (by decide) rfl (.cons _ _ [] _ _ [] (.leaf _ rfl) .nil))
        (.cons _ _ [2] _ _ [] (.named _ _ _ _
          (.array _ _ _ (by decide) (.cons _ _ [] _ _ [] (.leaf _ rfl)
            (.cons _ _ [] _ _ [] (.leaf _ rfl) .nil))))
          (.cons _ _ [] _ _ [] (.leaf _ rfl) .nil)))
  obtain ⟨v', h', bs', hcopy, -, -, hapart, hkeeps, -⟩ :=
    copies_are_separate hs
      ⟨⟨trivial, trivial⟩, ⟨trivial, trivial, trivial⟩, trivial, trivial⟩
  cases hcopy
  have hint : ∀ (n : Int) (h : Heap), Supplies mixed h (.plainInt n) h := fun n h =>
    .apart (.leaf _ rfl) fun e he => by
      obtain ⟨b, hb, -⟩ := he
      cases hb
  have hinner : Edits (copy mixed mixedHeap).1 mixed (copy mixed mixedHeap).2 _ :=
    .part (e := 4) (i := 0) (hint 9 _) ⟨6, rfl, .part .self List.mem_cons_self rfl⟩
  have harray : Edits (copy mixed mixedHeap).1 mixed
      (store (.element 4 0) (.plainInt 9) (copy mixed mixedHeap).2).2 _ :=
    .part (e := 5) (i := 1) (hint 9 _)
      ⟨6, rfl, .part .self (List.mem_cons_of_mem _ List.mem_cons_self) rfl⟩
  have hedits := Relation.ReflTransGen.tail (.single hinner) harray
  obtain ⟨-, hsame⟩ := hkeeps _ hedits
  exact ⟨_, _, _, rfl, hapart, hedits, rfl, rfl, hsame 1 (by decide), hsame 2 (by decide), rfl⟩

end StepGraph.Heap

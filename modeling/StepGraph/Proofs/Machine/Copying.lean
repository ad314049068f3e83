import StepGraph.Machine.Builtins
import StepGraph.Proofs.Machine.Exec
import StepGraph.Proofs.Store.Assignment
import StepGraph.Proofs.Store.Windows

open EStateM (bind_of_ok)

namespace StepGraph

namespace Heap

variable {h h' : Heap} {w : Window} {v : Value} {c : Content} {bs : List BlockId} {b : BlockId}

-- A value with its content and the blocks in which that stands.
structure Piece where
  value : Value
  content : Content
  blocks : List BlockId

-- The piece is the value of an element, and neither stands in a block twice.
structure Piece.At (p : Piece) (h : Heap) (b : BlockId) (i : Nat) : Prop where
  read : h.element? b i = some p.value
  shows : h.Shows p.value p.content p.blocks
  nodup : (b :: p.blocks).Nodup

-- The blocks that a store over the piece can fill. Anything but a struct or an array is replaced.
def Piece.filled (p : Piece) : List BlockId := if p.value.block?.isSome then p.blocks else []

theorem Piece.filled_subset (p : Piece) : p.filled ⊆ p.blocks := by
  unfold filled
  split
  · exact List.Subset.refl _
  · exact List.nil_subset _

theorem Piece.At.frame {p : Piece} {i : Nat} (hp : p.At h b i) (hsize : h.blocks.size ≤ h'.blocks.size)
    (hread : h'.element? b i = h.element? b i) (hsame : ∀ d ∈ p.blocks, h'.block d = h.block d) :
    p.At h' b i :=
  ⟨hread.trans hp.read, hp.shows.frame hsize hsame, hp.nodup⟩

-- A store over a piece of a value in other blocks.
theorem Piece.At.store {p : Piece} {i : Nat} (hp : p.At h b i) (hv : h.Shows v c bs)
    (hnew : ∀ d ∈ b :: p.blocks, d ∉ bs) :
    Stored b i p.content p.blocks c bs h (store (.element b i) v h).2 ∧
      ChangesWithin (b :: p.filled) h (Heap.store (.element b i) v h).2 := by
  have hdepth : p.content.depth ≤ h.depth := Nat.le_succ_of_le hp.shows.depth_le_size
  have hstored := storesUpTo h.depth h b i p.value v p.content c p.blocks bs hp.read hp.shows hv hdepth
    hp.nodup hnew
  refine ⟨hstored, ?_⟩
  unfold filled
  by_cases hblock : p.value.block?.isSome
  · rw [if_pos hblock]
    exact hstored.within
  · rw [if_neg hblock, store_over_flat hp.read (by simpa using hblock)]
    exact within_setElement h b i v

-- A copy of a value is stored into an element of a slice.
def setCopy (w : Window) (i : Nat) (v : Value) : HeapM Unit := do
  let v ← copy v
  discard (sliceSet (some w) i v)

-- What a change leaves that goes into element `i` of a block and the blocks `filled` below it.
structure Placed (h : Heap) (b : BlockId) (i : Nat) (p : Piece) (c : Content) (h' : Heap) : Prop where
  holds : ∃ y bs, h'.element? b i = some y ∧ h'.Shows y (p.content.overlay c) bs ∧
    ∀ d ∈ bs, d ∈ p.blocks ∨ h.blocks.size ≤ d
  others : ∀ k, k ≠ i → h'.element? b k = h.element? b k
  size : h.blocks.size ≤ h'.blocks.size
  sizes : ∀ d, d < h.blocks.size → (h'.block d).size = (h.block d).size
  same : ∀ d, d < h.blocks.size → d ∉ b :: p.filled → h'.block d = h.block d

theorem placed_setCopy {p : Piece} {i : Nat} (hi : i < w.length) (hlt : w.block < h.blocks.size)
    (hp : p.At h w.block (w.offset + i)) (hv : h.Shows v c bs) (hsep : c.Separable) :
    Placed h w.block (w.offset + i) p c (setCopy w i v h).2 := by
  obtain ⟨hg, ds, hcopy, hlate, hnodup⟩ := hv.fresh_copy hsep
  set v' := (copy v h).1
  set h₁ := (copy v h).2 with hh₁
  have hp₁ : p.At h₁ w.block (w.offset + i) := by
    refine hp.frame hg.size ?_ fun d hd => hg.same d (hp.shows.lt_size d hd)
    unfold element?
    rw [hg.same _ hlt]
  have hnew : ∀ d ∈ w.block :: p.blocks, d ∉ ds := by
    intro d hd hds
    refine Nat.not_lt_of_le (hlate d hds) ?_
    rcases List.mem_cons.mp hd with rfl | hd
    · exact hlt
    · exact hp.shows.lt_size d hd
  obtain ⟨⟨⟨y, cs, hy, hshows, hsub⟩, -, hothers⟩, hwithin⟩ := hp₁.store hcopy hnew
  have hrun : (setCopy w i v h).2 = (Heap.store (.element w.block (w.offset + i)) v' h₁).2 := by
    have hset : i < w.length ∧ (h₁.element? w.block (w.offset + i)).isSome := by
      rw [hp₁.read]
      exact ⟨hi, rfl⟩
    change ((sliceSet (some w) i v') h₁).2 = _
    unfold sliceSet
    simp only [get_bind, if_pos hset]
    rfl
  rw [hrun]
  have holds : ∀ k, h₁.element? w.block k = h.element? w.block k := by
    intro k
    unfold element?
    rw [hg.same _ hlt]
  refine ⟨⟨y, cs, hy, hshows, fun d hd => ?_⟩, fun k hk => (hothers k hk).trans (holds k), ?_,
    fun d hd => ?_, fun d hd hout => ?_⟩
  · rcases List.mem_append.mp (hsub hd) with hd | hd
    · exact .inl hd
    · exact .inr (hlate d hd)
  · rw [hwithin.count]
    exact hg.size
  · rw [hwithin.sizes, hg.same d hd]
  · rw [hwithin.same d hout, hg.same d hd]

-- Copies of values are stored one after the other into a slice from element `j` on.
def storeCopies (w : Window) (j : Nat) (items : List Value) : HeapM Unit :=
  (items.zipIdx j).forM fun (v, i) => setCopy w i v

-- What is needed of the elements from `j` to `n` for each of them to take the value that the other
-- vector has at the start: a piece does not stand in a block that is filled before it is copied.
structure Movable (h : Heap) (w : Window) (cells source : Nat → Piece) (j n : Nat) : Prop where
  within : n ≤ w.length
  lt_size : w.block < h.blocks.size
  stands : ∀ i, j ≤ i → i < n → (cells i).At h w.block (w.offset + i)
  apart : ∀ i k, j ≤ i → i < n → j ≤ k → k < n → i ≠ k →
    ∀ d ∈ (cells i).blocks, d ∉ (cells k).blocks
  shows : ∀ i, j ≤ i → i < n → h.Shows (source i).value (source i).content (source i).blocks
  separable : ∀ i, j ≤ i → i < n → (source i).content.Separable
  outside : ∀ i, j ≤ i → i < n → w.block ∉ (source i).blocks
  behind : ∀ i k, j ≤ i → i < k → k < n → ∀ d ∈ (cells i).filled, d ∉ (source k).blocks

-- What the copies leave: each element holds the overlay of what it held and what was copied, and
-- nothing else is different but in the blocks that the elements stood in.
structure Moved (h : Heap) (w : Window) (cells source : Nat → Piece) (j n : Nat) (h' : Heap) :
    Prop where
  holds : ∀ i, j ≤ i → i < n → ∃ y bs, h'.element? w.block (w.offset + i) = some y ∧
    h'.Shows y ((cells i).content.overlay (source i).content) bs
  others : ∀ k, (∀ i, j ≤ i → i < n → k ≠ w.offset + i) →
    h'.element? w.block k = h.element? w.block k
  size : h.blocks.size ≤ h'.blocks.size
  sizes : ∀ d, d < h.blocks.size → (h'.block d).size = (h.block d).size
  same : ∀ d, d < h.blocks.size → d ≠ w.block → (∀ i, j ≤ i → i < n → d ∉ (cells i).filled) →
    h'.block d = h.block d

-- The first copy leaves the pieces that are still to be copied and to be stored over.
theorem Movable.step {cells source : Nat → Piece} {j n : Nat} (hm : Movable h w cells source j n)
    (hj : j < n) (hp : Placed h w.block (w.offset + j) (cells j) c h') :
    Movable h' w cells source (j + 1) n where
  within := hm.within
  lt_size := Nat.lt_of_lt_of_le hm.lt_size hp.size
  stands i hi hin := by
    have hcell := hm.stands i (by omega) hin
    refine hcell.frame hp.size (hp.others _ (by omega)) fun d hd => ?_
    refine hp.same d (hcell.shows.lt_size d hd) fun hbad => ?_
    rcases List.mem_cons.mp hbad with rfl | hbad
    · exact (List.nodup_cons.mp hcell.nodup).1 hd
    · exact hm.apart j i (Nat.le_refl j) hj (by omega) hin (by omega) d
        ((cells j).filled_subset hbad) hd
  apart i k hi hin hk hkn hne := hm.apart i k (by omega) hin (by omega) hkn hne
  shows i hi hin := by
    have hshows := hm.shows i (by omega) hin
    refine hshows.frame hp.size fun d hd => ?_
    refine hp.same d (hshows.lt_size d hd) fun hbad => ?_
    rcases List.mem_cons.mp hbad with rfl | hbad
    · exact hm.outside i (by omega) hin hd
    · exact hm.behind j i (Nat.le_refl j) (by omega) hin d hbad hd
  separable i hi hin := hm.separable i (by omega) hin
  outside i hi hin := hm.outside i (by omega) hin
  behind i k hi hik hkn := hm.behind i k (by omega) hik hkn

-- The later copies leave the element of the first one alone.
theorem Moved.cons {cells source : Nat → Piece} {j n : Nat} {h₁ : Heap}
    (hm : Movable h w cells source j n) (hj : j < n)
    (hp : Placed h w.block (w.offset + j) (cells j) (source j).content h₁)
    (hrest : Moved h₁ w cells source (j + 1) n h') : Moved h w cells source j n h' where
  holds i hi hin := by
    by_cases hij : i = j
    · subst hij
      obtain ⟨y, bs, hy, hshows, hbs⟩ := hp.holds
      refine ⟨y, bs, ?_, hshows.frame hrest.size fun d hd => ?_⟩
      · rw [hrest.others _ fun k hk hkn => by omega, hy]
      · have hcell := hm.stands i (Nat.le_refl i) hj
        refine hrest.same d (hshows.lt_size d hd) ?_ fun k hk hkn hfilled => ?_
        · rintro rfl
          rcases hbs _ hd with hd | hd
          · exact (List.nodup_cons.mp hcell.nodup).1 hd
          · exact Nat.not_lt_of_le hd hm.lt_size
        · have hblocks := (cells k).filled_subset hfilled
          rcases hbs d hd with hd | hd
          · exact hm.apart i k (Nat.le_refl i) hj (by omega) hkn (by omega) d hd hblocks
          · exact Nat.not_lt_of_le hd ((hm.stands k (by omega) hkn).shows.lt_size d hblocks)
    · exact hrest.holds i (by omega) hin
  others k hk := by
    rw [hrest.others k fun i hi hin => hk i (by omega) hin, hp.others k (hk j (Nat.le_refl j) hj)]
  size := Nat.le_trans hp.size hrest.size
  sizes d hd := by
    rw [hrest.sizes d (Nat.lt_of_lt_of_le hd hp.size), hp.sizes d hd]
  same d hd hne hout := by
    rw [hrest.same d (Nat.lt_of_lt_of_le hd hp.size) hne fun i hi hin => hout i (by omega) hin]
    refine hp.same d hd fun hbad => ?_
    rcases List.mem_cons.mp hbad with rfl | hbad
    · exact hne rfl
    · exact hout j (Nat.le_refl j) hj hbad

theorem moved_storeCopies {cells source : Nat → Piece} {items : List Value} {j : Nat}
    (hm : Movable h w cells source j (j + items.length))
    (hitems : ∀ k, k < items.length → items[k]? = some (source (j + k)).value) :
    Moved h w cells source j (j + items.length) (storeCopies w j items h).2 := by
  induction items generalizing h j with
  | nil =>
    exact ⟨fun i hi hin => by simp only [List.length_nil] at hin; omega, fun _ _ => rfl, Nat.le_refl _,
      fun _ _ => rfl, fun _ _ _ _ => rfl⟩
  | cons v items ih =>
    rw [List.length_cons] at hm hitems ⊢
    have hj : j < j + (items.length + 1) := by omega
    have hv : v = (source j).value := Option.some.inj (hitems 0 (Nat.succ_pos _))
    have hp := placed_setCopy (Nat.lt_of_lt_of_le hj hm.within) hm.lt_size (hm.stands j (Nat.le_refl j) hj)
      (hm.shows j (Nat.le_refl j) hj) (hm.separable j (Nat.le_refl j) hj)
    rw [← hv] at hp
    have hrest := hm.step hj hp
    rw [show j + (items.length + 1) = j + 1 + items.length by omega] at hrest hm ⊢
    refine .cons hm (by omega) hp (ih hrest fun k hk => ?_)
    have hk' := hitems (k + 1) (by omega)
    rwa [List.getElem?_cons_succ, show j + (k + 1) = j + 1 + k by omega] at hk'

end Heap

namespace Program

open Exec
open Heap (Piece InBounds)

variable {m : Machine} {w s : Window}

theorem copyElements_apply {dst src : Value} {s : Option Window}
    (hdst : dst.unwrap = .slice (some w)) (hsrc : src.unwrap = .slice s) :
    copyElements dst src m =
      .ok ((m.heap.sliceElems s).take w.length).length
        { m with heap := (Heap.storeCopies w 0 ((m.heap.sliceElems s).take w.length) m.heap).2 } := by
  have hloop : ∀ (items : List Value) (j : Nat) (m : Machine),
      (items.zipIdx j).forM (fun x => do
        let v ← Heap.copy x.1
        discard (Heap.sliceSet (some w) x.2 v : HeapM Bool) : Value × Nat → Exec Unit) m =
      .ok () { m with heap := (Heap.storeCopies w j items m.heap).2 } := by
    intro items
    induction items with
    | nil => exact fun j m => rfl
    | cons v items ih => exact fun j m => ih (j + 1) _
  unfold copyElements
  rw [hdst, hsrc]
  exact bind_of_ok (hloop ((m.heap.sliceElems s).take w.length) 0 m)

-- The elements of some vectors are pieces in blocks of their own.
structure Vectors (h : Heap) (bs : List BlockId) (pieces : BlockId → Nat → Piece) : Prop where
  stands : ∀ b ∈ bs, ∀ i, i < (h.block b).size → (pieces b i).At h b i
  separable : ∀ b ∈ bs, ∀ i, i < (h.block b).size → (pieces b i).content.Separable
  outside : ∀ b ∈ bs, ∀ d ∈ bs, ∀ i, i < (h.block d).size → b ∉ (pieces d i).blocks
  apart : ∀ b ∈ bs, ∀ d ∈ bs, ∀ i k, i < (h.block b).size → k < (h.block d).size →
    (b, i) ≠ (d, k) → ∀ e ∈ (pieces b i).blocks, e ∉ (pieces d k).blocks

section

variable {pieces : BlockId → Nat → Piece}

-- The elements of the windows can be moved unless a struct or an array in the destination comes
-- behind it in the source.
theorem Vectors.movable (hv : Vectors m.heap [w.block, s.block] pieces) (hw : m.heap.InBounds w)
    (hs : m.heap.InBounds s) (hover : (∀ i, (pieces w.block i).value.block? = none) ∨
      w.block ≠ s.block ∨ w.offset ≤ s.offset) :
    Heap.Movable m.heap w (fun i => pieces w.block (w.offset + i))
      (fun i => pieces s.block (s.offset + i)) 0 (min w.length s.length) := by
  have hwb : w.block ∈ [w.block, s.block] := List.mem_cons_self
  have hsb : s.block ∈ [w.block, s.block] := List.mem_cons_of_mem _ List.mem_cons_self
  have hcell : ∀ i, i < min w.length s.length → w.offset + i < (m.heap.block w.block).size :=
    fun i hi => hw.lt_of_lt_length (Nat.lt_of_lt_of_le hi (Nat.min_le_left _ _))
  have hsource : ∀ i, i < min w.length s.length → s.offset + i < (m.heap.block s.block).size :=
    fun i hi => hs.lt_of_lt_length (Nat.lt_of_lt_of_le hi (Nat.min_le_right _ _))
  refine ⟨Nat.min_le_left _ _, hw.lt_size, fun i _ hi => hv.stands _ hwb _ (hcell i hi), ?_,
    fun i _ hi => (hv.stands _ hsb _ (hsource i hi)).shows,
    fun i _ hi => hv.separable _ hsb _ (hsource i hi),
    fun i _ hi => hv.outside _ hwb _ hsb _ (hsource i hi), ?_⟩
  · intro i k _ hi _ hk hne
    refine hv.apart _ hwb _ hwb _ _ (hcell i hi) (hcell k hk) fun he => ?_
    simp only [Prod.mk.injEq, true_and] at he
    omega
  · intro i k _ hik hk d hd
    rcases hover with hflat | hover
    · unfold Heap.Piece.filled at hd
      rw [hflat, if_neg (by simp)] at hd
      exact absurd hd List.not_mem_nil
    · have hne : (w.block, w.offset + i) ≠ (s.block, s.offset + k) := by
        intro he
        simp only [Prod.mk.injEq] at he
        rcases hover with hblock | hoffset
        · exact hblock he.1
        · omega
      exact hv.apart _ hwb _ hsb _ _ (hcell i (by omega)) (hsource k hk) hne d
        (Heap.Piece.filled_subset _ hd)

-- The values that are copied are those of the pieces in the window of the source.
theorem Vectors.items (hv : Vectors m.heap [w.block, s.block] pieces) (hs : m.heap.InBounds s)
    {k : Nat} (hk : k < min w.length s.length) :
    ((m.heap.sliceElems (some s)).take w.length)[k]? =
      some (pieces s.block (s.offset + k)).value := by
  have hsb : s.block ∈ [w.block, s.block] := List.mem_cons_of_mem _ List.mem_cons_self
  have hlt : k < s.length := Nat.lt_of_lt_of_le hk (Nat.min_le_right _ _)
  have hread := (hv.stands _ hsb (s.offset + k) (hs.lt_of_lt_length hlt)).read
  rw [List.getElem?_take, if_pos (Nat.lt_of_lt_of_le hk (Nat.min_le_left _ _)), ← hread]
  change (m.heap.windowElems s)[k]? = _
  rw [Heap.getElem?_windowElems, if_pos hlt]

-- An element that no copy goes to is the piece that it was, in either vector.
theorem Vectors.kept {h' : Heap} (hv : Vectors m.heap [w.block, s.block] pieces)
    (hw : m.heap.InBounds w) (hs : m.heap.InBounds s) {n : Nat} (hn : n ≤ w.length)
    {source : Nat → Piece}
    (hmoved : Heap.Moved m.heap w (fun i => pieces w.block (w.offset + i)) source 0 n h')
    {b : BlockId} (hb : b ∈ [w.block, s.block]) {i : Nat} (hi : i < (m.heap.block b).size)
    (hout : b = w.block → i < w.offset ∨ w.offset + n ≤ i) : (pieces b i).At h' b i := by
  have hwb : w.block ∈ [w.block, s.block] := List.mem_cons_self
  have hcell : ∀ k, k < n → w.offset + k < (m.heap.block w.block).size :=
    fun k hk => hw.lt_of_lt_length (Nat.lt_of_lt_of_le hk hn)
  have hpiece := hv.stands b hb i hi
  have hspared : ∀ d, d < m.heap.blocks.size → d ≠ w.block →
      (∀ k, k < n → d ∉ (pieces w.block (w.offset + k)).blocks) → h'.block d = m.heap.block d := by
    intro d hd hne hblocks
    refine hmoved.same d hd hne fun k _ hk hfilled => ?_
    exact hblocks k hk (Heap.Piece.filled_subset _ hfilled)
  refine hpiece.frame hmoved.size ?_ fun d hd => ?_
  · by_cases hbw : b = w.block
    · subst hbw
      have hrange := hout rfl
      exact hmoved.others i fun k _ hk => by omega
    · have hlt : b < m.heap.blocks.size := by
        rcases List.mem_cons.mp hb with rfl | hb
        · exact hw.lt_size
        · obtain rfl := List.mem_singleton.mp hb
          exact hs.lt_size
      unfold Heap.element?
      rw [hspared b hlt hbw fun k hk => hv.outside b hb _ hwb _ (hcell k hk)]
  · refine hspared d (hpiece.shows.lt_size d hd) ?_ fun k hk hd' => ?_
    · rintro rfl
      exact hv.outside _ hwb b hb i hi hd
    · refine hv.apart _ hwb b hb _ i (hcell k hk) hi (fun he => ?_) d hd' hd
      simp only [Prod.mk.injEq] at he
      have hrange := hout he.1.symm
      omega

-- A copy gives each element of the destination what the element of the source held, as a store of
-- it does, and leaves all other elements of the two vectors as they are. The windows can overlap as
-- long as the destination does not stand behind the source, or no element is a struct or an array.
theorem copy_moves_elements {dst src : Value} (hdst : dst.unwrap = .slice (some w))
    (hsrc : src.unwrap = .slice (some s)) (hw : m.heap.InBounds w) (hs : m.heap.InBounds s)
    (hv : Vectors m.heap [w.block, s.block] pieces)
    (hover : (∀ i, (pieces w.block i).value.block? = none) ∨
      w.block ≠ s.block ∨ w.offset ≤ s.offset) :
    ∃ m', copyElements dst src m = .ok (min w.length s.length) m' ∧
      (∀ i, i < min w.length s.length → ∃ y bs, m'.heap.element? w.block (w.offset + i) = some y ∧
        m'.heap.Shows y ((pieces w.block (w.offset + i)).content.overlay
          (pieces s.block (s.offset + i)).content) bs) ∧
      ∀ b ∈ [w.block, s.block], ∀ i, i < (m.heap.block b).size →
        (b = w.block → i < w.offset ∨ w.offset + min w.length s.length ≤ i) →
          (pieces b i).At m'.heap b i := by
  have hmovable := hv.movable hw hs hover
  set items := (m.heap.sliceElems (some s)).take w.length with hitems
  have hcount : items.length = min w.length s.length := by
    rw [hitems, List.length_take]
    exact congrArg (min w.length) hs.length_elems
  have hmoved : Heap.Moved m.heap w (fun i => pieces w.block (w.offset + i))
      (fun i => pieces s.block (s.offset + i)) 0 (min w.length s.length)
      (Heap.storeCopies w 0 items m.heap).2 := by
    rw [← hcount, ← Nat.zero_add items.length] at hmovable ⊢
    refine Heap.moved_storeCopies hmovable fun k hk => ?_
    rw [Nat.zero_add]
    exact hv.items hs (hcount ▸ hk)
  refine ⟨{ m with heap := (Heap.storeCopies w 0 items m.heap).2 }, ?_,
    fun i hi => hmoved.holds i (Nat.zero_le i) hi,
    fun b hb i hi hout => hv.kept hw hs (Nat.min_le_left _ _) hmoved hb hi hout⟩
  rw [copyElements_apply hdst hsrc, ← hcount]

end

-- A vector of three structs of one field, which stand in the blocks behind it.
def threeStructs : Machine :=
  { Machine.start .silent with
    heap := { Heap.empty with
      blocks := #[#[.struct ⟨singleField "x", 1, some "T"⟩, .struct ⟨singleField "x", 2, some "T"⟩,
        .struct ⟨singleField "x", 3, some "T"⟩], #[.plainInt 1], #[.plainInt 2], #[.plainInt 3]] } }

def structPiece (i : Nat) : Piece where
  value := .struct ⟨singleField "x", i + 1, some "T"⟩
  content := .struct (singleField "x") (some "T") [.leaf (.plainInt (i + 1))]
  blocks := [i + 1]

def wholeOfThree : Window := ⟨0, 0, 3, 3⟩

def tailOfThree : Window := ⟨0, 1, 2, 2⟩

theorem vectors_threeStructs : Vectors threeStructs.heap [0, 0] fun _ => structPiece := by
  have hzero : ∀ {b : BlockId}, b ∈ [0, 0] → b = 0 := by simp
  refine ⟨fun b hb i hi => ?_, fun b hb i hi => ⟨trivial, trivial⟩, fun b hb d hd i hi => ?_,
    fun b hb d hd i k hi hk hne e he he' => ?_⟩
  · obtain rfl := hzero hb
    have hcases : i = 0 ∨ i = 1 ∨ i = 2 := by
      change i < 3 at hi
      omega
    rcases hcases with rfl | rfl | rfl
    all_goals
      exact ⟨rfl, .struct _ _ [] (by decide) rfl (.cons _ _ [] _ _ [] (.leaf _ rfl) .nil), by decide⟩
  · obtain rfl := hzero hb
    simp [structPiece]
  · obtain rfl := hzero hb
    obtain rfl := hzero hd
    simp only [structPiece, List.mem_singleton] at he he'
    exact hne (congrArg (Prod.mk 0) (Nat.succ.inj (he.symm.trans he')))

-- The last two structs are copied to the front.
theorem structs_move_down : ∃ m', copyElements (.slice (some wholeOfThree)) (.slice (some tailOfThree))
      threeStructs = .ok 2 m' ∧
    (∃ y bs, m'.heap.element? 0 0 = some y ∧ m'.heap.Shows y (structPiece 1).content bs) ∧
    (∃ y bs, m'.heap.element? 0 1 = some y ∧ m'.heap.Shows y (structPiece 2).content bs) ∧
    (structPiece 2).At m'.heap 0 2 := by
  have hdst : (Value.slice (some wholeOfThree)).unwrap = .slice (some wholeOfThree) := rfl
  have hsrc : (Value.slice (some tailOfThree)).unwrap = .slice (some tailOfThree) := rfl
  obtain ⟨m', hcopy, hplaced, hkept⟩ := copy_moves_elements hdst hsrc
    ⟨by decide, by decide, by decide⟩ ⟨by decide, by decide, by decide⟩ vectors_threeStructs
      (.inr (.inr (by decide)))
  exact ⟨m', hcopy, hplaced 0 (by decide), hplaced 1 (by decide),
    hkept 0 List.mem_cons_self 2 (by decide) fun _ => .inr (by decide)⟩

-- The first two structs are copied towards the end. The last element takes the second one when
-- that is no longer what it was.
theorem structs_smear_up : ∃ m', copyElements (.slice (some tailOfThree)) (.slice (some wholeOfThree))
      threeStructs = .ok 2 m' ∧
    threeStructs.heap.sliceElems (some wholeOfThree) =
      [(structPiece 0).value, (structPiece 1).value, (structPiece 2).value] ∧
    threeStructs.heap.block 2 = #[.plainInt 2] ∧
    m'.heap.element? 0 2 = some (structPiece 2).value ∧ m'.heap.block 3 = #[.plainInt 1] :=
  ⟨_, rfl, rfl, rfl, rfl, rfl⟩

end Program

end StepGraph

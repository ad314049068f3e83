import StepGraph.Proofs.Machine.Channels
import StepGraph.Proofs.Machine.Slicing
import StepGraph.Proofs.Number.Wrapping
import StepGraph.Proofs.Store.Overwrite
import Mathlib.Order.Interval.Set.Basic

namespace StepGraph.Heap

-- A turn of a loop: the heap in which the loop asks for its next pair, and the answer.
structure Turn where
  heap : Heap
  answer : Except Failure (Option (Value × Value))

-- No block has lost or gained elements, and those of `own` hold what they held.
structure BlocksSteady (own : Set BlockId) (h h' : Heap) : Prop where
  size : h.blocks.size ≤ h'.blocks.size
  kept : ∀ b, b < h.blocks.size → (h'.block b).size = (h.block b).size
  same : ∀ b ∈ own, h'.block b = h.block b

-- The turns of a loop that starts in the heap `h₀`. Between two turns anything may happen to the
-- heap, except that the cursor and the blocks of `own` are known to the loop alone.
inductive Turns (id : CursorId) (own : Set BlockId) (h₀ : Heap) : List Turn → Heap → Prop
  | start : Turns id own h₀ [] h₀
  | meanwhile {ts : List Turn} {h h' : Heap} (hts : Turns id own h₀ ts h)
      (hsteady : BlocksSteady own h h') (hcursor : h'.cursors[id]? = h.cursors[id]?) :
      Turns id own h₀ ts h'
  | turn {ts : List Turn} {h : Heap} (hts : Turns id own h₀ ts h) :
      Turns id own h₀ (ts ++ [⟨h, ((advance id).run h).1⟩]) ((advance id).run h).2

-- The first `n` turns give one item each, in order, and all others report the end.
def TurnsCount (n : Nat) (item : Nat → Heap → Value × Value → Prop) (ts : List Turn) : Prop :=
  ∀ k t, ts[k]? = some t →
    (k < n → ∃ y, item k t.heap y ∧ t.answer = .ok (some y)) ∧ (n ≤ k → t.answer = .ok none)

-- An element with its number, as it is read at the turn.
def indexed (element? : Heap → Nat → Option Value) (k : Nat) (g : Heap) (y : Value × Value) :
    Prop :=
  y.1 = .plainInt k ∧ element? g k = some y.2

-- A number of an integer type, alone.
def numbered (kind : IntKind) (k : Nat) (_ : Heap) (y : Value × Value) : Prop :=
  ∃ i : IntValue, i.kind = kind ∧ i.val = k ∧ y = (.int i, .nil)

-- A character with the length in bytes of the text before it.
def charOf (s : String) (k : Nat) (_ : Heap) (y : Value × Value) : Prop :=
  ∃ c, s.toList[k]? = some c ∧
    y = (.plainInt (String.ofList (s.toList.take k)).utf8ByteSize, .rune c)

-- No turn but the first `n` gives an item, and none does that comes after the end.
structure TurnsEnd (n : Nat) (ts : List Turn) : Prop where
  bound : ∀ k t, ts[k]? = some t → n ≤ k → t.answer = .ok none
  stays : ∀ (i j : Nat) (s t : Turn), i ≤ j → ts[i]? = some s → ts[j]? = some t →
    s.answer = .ok none → t.answer = .ok none

-- A walk over the keys that a map had. A turn passes over the keys that the map does not have at
-- that time and gives the entry of the next key, as it is then. `given` are the keys whose entries
-- were given so far, and `rest` those that no turn has reached.
inductive Walks (m : Option MapId) (snapshot : List MapKey) :
    List Turn → List MapKey → List MapKey → Prop
  | start : Walks m snapshot [] [] snapshot
  | found {ts : List Turn} {given gone rest : List MapKey} {k : MapKey} {t : Turn} {e : Entry}
      (hwalk : Walks m snapshot ts given (gone ++ k :: rest))
      (hgone : ∀ j ∈ gone, t.heap.findKey? m j = none) (hfound : t.heap.findKey? m k = some e)
      (hanswer : t.answer = .ok (some (e.keyValue, e.value))) :
      Walks m snapshot (ts ++ [t]) (given ++ [k]) rest
  | finished {ts : List Turn} {given gone : List MapKey} {t : Turn}
      (hwalk : Walks m snapshot ts given gone) (hgone : ∀ j ∈ gone, t.heap.findKey? m j = none)
      (hanswer : t.answer = .ok none) : Walks m snapshot (ts ++ [t]) given []

variable {id : CursorId} {own : Set BlockId} {h₀ h h' h'' : Heap} {ts : List Turn} {t : Turn}
  {n : Nat} {item : Nat → Heap → Value × Value → Prop} {m : Option MapId}
  {snapshot given rest : List MapKey} {cursor : Cursor}

namespace BlocksSteady

theorem refl (own : Set BlockId) (h : Heap) : BlocksSteady own h h :=
  ⟨Nat.le_refl _, fun _ _ => rfl, fun _ _ => rfl⟩

theorem trans (h₁ : BlocksSteady own h h') (h₂ : BlocksSteady own h' h'') :
    BlocksSteady own h h'' where
  size := Nat.le_trans h₁.size h₂.size
  kept b hb := (h₂.kept b (Nat.lt_of_lt_of_le hb h₁.size)).trans (h₁.kept b hb)
  same b hb := (h₂.same b hb).trans (h₁.same b hb)

-- A change of anything but the blocks.
theorem of_blocks (hblocks : h'.blocks = h.blocks) : BlocksSteady own h h' := by
  have hsame : ∀ b, h'.block b = h.block b := fun b => by unfold block; rw [hblocks]
  exact ⟨by rw [hblocks], fun b _ => by rw [hsame], fun b _ => hsame b⟩

-- A store into blocks that are not the loop's own.
theorem of_within {bs : List BlockId} (hw : ChangesWithin bs h h') (hout : ∀ b ∈ own, b ∉ bs) :
    BlocksSteady own h h' :=
  ⟨Nat.le_of_eq hw.count.symm, fun b _ => hw.sizes b, fun b hb => hw.same b (hout b hb)⟩

theorem shows (hs : BlocksSteady own h h') {v : Value} {c : Content} {bs : List BlockId}
    (hv : h.Shows v c bs) (hown : ∀ b ∈ bs, b ∈ own) : h'.Shows v c bs :=
  hv.frame hs.size fun b hb => hs.same b (hown b hb)

end BlocksSteady

-- What one turn does.

theorem cursor?_setCursor (h : Heap) (hcursor : h.cursors[id]? = some cursor) (c : Cursor) :
    (setCursor id c h).2.cursors[id]? = some c := by
  have hlt : id < h.cursors.size := (Array.getElem?_eq_some_iff.mp hcursor).1
  change (h.cursors.setIfInBounds id c)[id]? = some c
  rw [Array.getElem?_setIfInBounds_self_of_lt hlt]

theorem advance_step (hcursor : h.cursors[id]? = some cursor) (hlive : ∀ c, cursor ≠ .chan c) :
    (advance id).run h = (.ok (h.step cursor).1, (setCursor id (h.step cursor).2 h).2) := by
  rw [advance_eq, hcursor]
  cases cursor with
  | chan c => exact absurd rfl (hlive c)
  | _ => rfl

theorem blocks_tryReceive (c : ChanId) (h : Heap) : (tryReceive c h).2.blocks = h.blocks := by
  unfold tryReceive
  rw [get_bind]
  cases h.chan? c <;> rfl

-- A turn changes nothing but the cursor, or the channel that it takes a value from.
theorem blocks_advance (id : CursorId) (h : Heap) :
    ((advance id).run h).2.blocks = h.blocks := by
  rw [advance_eq]
  split
  · exact blocks_tryReceive _ h
  · rfl
  · rfl

theorem mem_concat {k : Nat} {s : Turn} (hs : (ts ++ [t])[k]? = some s) :
    ts[k]? = some s ∨ k = ts.length ∧ s = t := by
  rcases Nat.lt_or_ge k ts.length with hk | hk
  · exact .inl (by rwa [List.getElem?_append_left hk] at hs)
  · rw [List.getElem?_append_right hk, List.getElem?_singleton] at hs
    split at hs
    · exact .inr ⟨by omega, (Option.some.inj hs).symm⟩
    · cases hs

-- From the start of a loop on, its own blocks are as they were.
theorem Turns.steady (hts : Turns id own h₀ ts h) :
    BlocksSteady own h₀ h ∧ ∀ t ∈ ts, BlocksSteady own h₀ t.heap := by
  induction hts with
  | start => exact ⟨.refl own h₀, nofun⟩
  | meanwhile hts hsteady _ ih => exact ⟨ih.1.trans hsteady, ih.2⟩
  | @turn ts g hts ih =>
      refine ⟨ih.1.trans (.of_blocks (blocks_advance id g)), fun t ht => ?_⟩
      rcases List.mem_append.mp ht with ht | ht
      · exact ih.2 t ht
      · rw [List.mem_singleton.mp ht]
        exact ih.1

-- What each turn preserves of the turns so far and the cursor after them holds for the whole loop.
theorem Turns.invariant {I : List Turn → Cursor → Prop} (hts : Turns id own h₀ ts h)
    (hcursor : h₀.cursors[id]? = some cursor) (hstart : I [] cursor)
    (hlive : ∀ ts c d, I ts c → c ≠ .chan d)
    (hturn : ∀ ts c g, I ts c → BlocksSteady own h₀ g →
      I (ts ++ [⟨g, .ok (g.step c).1⟩]) (g.step c).2) :
    ∃ c, h.cursors[id]? = some c ∧ I ts c := by
  induction hts with
  | start => exact ⟨cursor, hcursor, hstart⟩
  | meanwhile _ _ hsame ih =>
      obtain ⟨c, hc, hI⟩ := ih
      exact ⟨c, hsame.trans hc, hI⟩
  | @turn ts g hts ih =>
      obtain ⟨c, hc, hI⟩ := ih
      rw [advance_step hc fun d => hlive ts c d hI]
      exact ⟨_, cursor?_setCursor g hc _, hturn ts c g hI hts.steady.1⟩

theorem TurnsCount.concat (hcounts : TurnsCount n item ts)
    (hitem : ts.length < n → ∃ y, item ts.length t.heap y ∧ t.answer = .ok (some y))
    (hend : n ≤ ts.length → t.answer = .ok none) : TurnsCount n item (ts ++ [t]) := by
  intro k s hs
  rcases mem_concat hs with hs | ⟨rfl, rfl⟩
  · exact hcounts k s hs
  · exact ⟨hitem, hend⟩

-- A loop whose cursor goes from `cur 0` to `cur n` and stays there.
theorem Turns.counts (cur : Nat → Cursor) (hts : Turns id own h₀ ts h)
    (hcursor : h₀.cursors[id]? = some (cur 0)) (hlive : ∀ k d, cur k ≠ .chan d)
    (hitem : ∀ k g, k < n → BlocksSteady own h₀ g →
      ∃ y, item k g y ∧ g.step (cur k) = (some y, cur (k + 1)))
    (hend : ∀ g, BlocksSteady own h₀ g → g.step (cur n) = (none, cur n)) :
    TurnsCount n item ts := by
  have hturn : ∀ (ts : List Turn) c g, c = cur (min ts.length n) ∧ TurnsCount n item ts →
      BlocksSteady own h₀ g → (g.step c).2 = cur
        (min (ts ++ [Turn.mk g (.ok (g.step c).1)]).length n) ∧
        TurnsCount n item (ts ++ [Turn.mk g (.ok (g.step c).1)]) := by
    rintro ts c g ⟨rfl, hcounts⟩ hg
    rw [List.length_append, List.length_singleton]
    rcases Nat.lt_or_ge ts.length n with hk | hk
    · obtain ⟨y, hy, hstep⟩ := hitem ts.length g hk hg
      rw [Nat.min_eq_left (Nat.le_of_lt hk), Nat.min_eq_left hk, hstep]
      exact ⟨rfl, hcounts.concat (fun _ => ⟨y, hy, rfl⟩) fun hle => by omega⟩
    · rw [Nat.min_eq_right hk, Nat.min_eq_right (Nat.le_succ_of_le hk), hend g hg]
      exact ⟨rfl, hcounts.concat (fun hlt => by omega) fun _ => rfl⟩
  obtain ⟨c, -, -, hcounts⟩ := hts.invariant
    (I := fun ts c => c = cur (min ts.length n) ∧ TurnsCount n item ts) hcursor
    ⟨by rw [List.length_nil, Nat.zero_min], nofun⟩ (fun ts c d hI => hI.1 ▸ hlive _ d) hturn
  exact hcounts

theorem TurnsCount.imp {item' : Nat → Heap → Value × Value → Prop} (hcounts : TurnsCount n item ts)
    (himp : ∀ k g y, k < n → item k g y → item' k g y) : TurnsCount n item' ts := by
  intro k t ht
  refine ⟨fun hk => ?_, (hcounts k t ht).2⟩
  obtain ⟨y, hy, hanswer⟩ := (hcounts k t ht).1 hk
  exact ⟨y, himp k t.heap y hk hy, hanswer⟩

theorem TurnsCount.ends (hcounts : TurnsCount n item ts) : TurnsEnd n ts where
  bound k t ht hk := (hcounts k t ht).2 hk
  stays i j s t hij hs ht hend := by
    refine (hcounts j t ht).2 (Nat.le_trans (Nat.le_of_not_lt fun hi => ?_) hij)
    obtain ⟨y, -, hy⟩ := (hcounts i s hs).1 hi
    rw [hend] at hy
    cases hy

-- The cursors that count.

theorem Turns.counts_slice {w : Option Window} (hts : Turns id own h₀ ts h)
    (hcursor : h₀.cursors[id]? = some (.slice w 0)) (hw : h₀.ValidSlice w) :
    TurnsCount (sliceLength w) (indexed (·.sliceGet? w)) ts := by
  refine hts.counts (fun k => .slice w k) hcursor (fun _ _ => nofun) (fun k g hk hg => ?_)
    fun g _ => by simp only [step, Nat.lt_irrefl, if_false]
  have hsome : ∃ x, g.sliceGet? w k = some x := by
    cases w with
    | none => exact absurd hk (Nat.not_lt_zero k)
    | some w =>
        have hin := (hw.later hg.size hg.kept w rfl).lt_of_lt_length hk
        exact ⟨_, (if_pos hk).trans (Array.getElem?_eq_getElem hin)⟩
  obtain ⟨x, hx⟩ := hsome
  exact ⟨(.plainInt k, x), ⟨rfl, hx⟩, by simp only [step, hk, if_true, hx, Option.map_some]⟩

theorem Turns.counts_array {b : BlockId} (hts : Turns id own h₀ ts h)
    (hcursor : h₀.cursors[id]? = some (.array b 0)) (hb : b < h₀.blocks.size) :
    TurnsCount (h₀.block b).size (indexed (·.element? b)) ts := by
  refine hts.counts (fun k => .array b k) hcursor (fun _ _ => nofun) (fun k g hk hg => ?_)
    fun g hg => by simp only [step, hg.kept b hb, Nat.lt_irrefl, if_false]
  rw [← hg.kept b hb] at hk
  have hx : g.element? b k = some (g.block b)[k] := Array.getElem?_eq_getElem hk
  exact ⟨(.plainInt k, _), ⟨rfl, hx⟩, by simp only [step, hk, if_true, hx, Option.map_some]⟩

theorem Turns.counts_int {kind : IntKind} {stop : Int} (hts : Turns id own h₀ ts h)
    (hcursor : h₀.cursors[id]? = some (.int kind 0 stop)) :
    TurnsCount stop.toNat (fun k _ y => y = (.intOf kind k, .nil)) ts := by
  refine hts.counts (fun k => .int kind k stop) hcursor (fun _ _ => nofun) (fun k g hk _ => ?_)
    fun g _ => ?_
  · have hlt : (k : Int) < stop := by omega
    exact ⟨_, rfl, by simp only [step, hlt, if_true, Int.natCast_succ]⟩
  · have hge : ¬ (stop.toNat : Int) < stop := by omega
    simp only [step, hge, if_false]

theorem Turns.counts_str {s : String} (hts : Turns id own h₀ ts h)
    (hcursor : h₀.cursors[id]? = some (.str s.toList 0)) : TurnsCount s.length (charOf s) ts := by
  refine hts.counts (fun k =>
      .str (s.toList.drop k) (String.ofList (s.toList.take k)).utf8ByteSize)
    hcursor (fun _ _ => nofun) (fun k g hk _ => ?_) fun g _ => ?_
  · rw [← String.length_toList] at hk
    have hc : s.toList[k]? = some s.toList[k] := List.getElem?_eq_getElem hk
    refine ⟨_, ⟨s.toList[k], hc, rfl⟩, ?_⟩
    rw [List.drop_eq_getElem_cons hk, List.take_add_one, hc, Option.toList_some,
      String.ofList_append, String.utf8ByteSize_append]
    simp [step, String.ofList_cons]
  · rw [← String.length_toList, List.drop_length]
    rfl

-- The cursor of a map.

-- The keys are passed over up to the first one that the map has.
theorem nextEntry_cases (h : Heap) (m : Option MapId) (keys : List MapKey) :
    (∃ gone k rest e, keys = gone ++ k :: rest ∧ (∀ j ∈ gone, h.findKey? m j = none) ∧
      h.findKey? m k = some e ∧ h.nextEntry m keys = (some e, rest)) ∨
    (∀ j ∈ keys, h.findKey? m j = none) ∧ h.nextEntry m keys = (none, []) := by
  induction keys with
  | nil => exact .inr ⟨nofun, rfl⟩
  | cons key keys ih =>
      cases hkey : h.findKey? m key with
      | some e =>
          refine .inl ⟨[], key, keys, e, rfl, nofun, hkey, ?_⟩
          simp only [nextEntry, hkey]
      | none =>
          have hskip : h.nextEntry m (key :: keys) = h.nextEntry m keys := by
            simp only [nextEntry, hkey]
          rw [hskip]
          rcases ih with ⟨gone, k, rest, e, rfl, hgone, hfound, hnext⟩ | ⟨hgone, hnext⟩
          · exact .inl ⟨key :: gone, k, rest, e, rfl, List.forall_mem_cons.mpr ⟨hkey, hgone⟩,
              hfound, hnext⟩
          · exact .inr ⟨List.forall_mem_cons.mpr ⟨hkey, hgone⟩, hnext⟩

theorem Turns.walks (hts : Turns id own h₀ ts h)
    (hcursor : h₀.cursors[id]? = some (.map m snapshot)) :
    ∃ given rest, Walks m snapshot ts given rest := by
  have hinvariant := hts.invariant
    (I := fun ts c => ∃ given rest, c = .map m rest ∧ Walks m snapshot ts given rest) hcursor
    ⟨[], snapshot, rfl, .start⟩ (fun ts c d hI => by obtain ⟨_, _, rfl, -⟩ := hI; exact nofun)
    fun ts c g hI hg => by
      obtain ⟨given, keys, rfl, hwalk⟩ := hI
      rcases nextEntry_cases g m keys with ⟨gone, k, rest, e, rfl, hgone, hfound, hnext⟩ |
        ⟨hgone, hnext⟩
      · refine ⟨given ++ [k], rest, ?_, hwalk.found hgone hfound ?_⟩ <;> simp only [step, hnext]
        rfl
      · refine ⟨given, [], ?_, hwalk.finished hgone ?_⟩ <;> simp only [step, hnext]
        rfl
  obtain ⟨c, -, given, rest, -, hwalk⟩ := hinvariant
  exact ⟨given, rest, hwalk⟩

-- No key is reached twice, so each is given at most once and in its place.
theorem Walks.sublist (hwalk : Walks m snapshot ts given rest) :
    (given ++ rest).Sublist snapshot := by
  induction hwalk with
  | start => exact .refl _
  | @found ts given gone rest k t e hwalk _ _ _ ih =>
      have hskip : (k :: rest).Sublist (gone ++ k :: rest) := List.sublist_append_right gone _
      rw [List.append_assoc]
      exact (hskip.append_left given).trans ih
  | @finished ts given gone t hwalk _ _ ih =>
      exact ((List.nil_sublist gone).append_left given).trans ih

theorem TurnsEnd.concat_none (hends : TurnsEnd n ts) (ht : t.answer = .ok none) :
    TurnsEnd n (ts ++ [t]) where
  bound i s hs hle := by
    rcases mem_concat hs with hs | ⟨rfl, rfl⟩
    · exact hends.bound i s hs hle
    · exact ht
  stays i j r s hij hr hs hend := by
    rcases mem_concat hs with hs | ⟨rfl, rfl⟩
    · have hj : j < ts.length := (List.getElem?_eq_some_iff.mp hs).1
      rcases mem_concat hr with hr | ⟨rfl, rfl⟩
      · exact hends.stays i j r s hij hr hs hend
      · omega
    · exact ht

theorem TurnsEnd.of_items (hlength : ts.length ≤ n) (hitems : ∀ t ∈ ts, t.answer ≠ .ok none) :
    TurnsEnd n ts where
  bound i s hs hle := by
    have hi : i < ts.length := (List.getElem?_eq_some_iff.mp hs).1
    omega
  stays i _ r _ _ hr _ hend := absurd hend (hitems r (List.mem_of_getElem? hr))

-- As long as there are keys to reach, every turn has given the entry of a key.
theorem Walks.ends (hwalk : Walks m snapshot ts given rest) : TurnsEnd snapshot.length ts ∧
    (rest = [] ∨ ts.length + rest.length ≤ snapshot.length ∧ ∀ t ∈ ts, t.answer ≠ .ok none) := by
  induction hwalk with
  | start =>
      have hzero : ([] : List Turn).length + snapshot.length ≤ snapshot.length :=
        Nat.le_of_eq (Nat.zero_add _)
      exact ⟨.of_items (Nat.zero_le _) nofun, .inr ⟨hzero, nofun⟩⟩
  | @found ts given gone rest k t e hwalk _ _ hanswer ih =>
      obtain ⟨-, hnil | ⟨hroom, hitems⟩⟩ := ih
      · simp at hnil
      have hall : ∀ s ∈ ts ++ [t], s.answer ≠ .ok none := by
        intro s hs
        rcases List.mem_append.mp hs with hs | hs
        · exact hitems s hs
        · rw [List.mem_singleton.mp hs, hanswer]
          nofun
      simp only [List.length_append, List.length_cons] at hroom
      have hlength : (ts ++ [t]).length + rest.length ≤ snapshot.length := by
        simp only [List.length_append, List.length_singleton]
        omega
      exact ⟨.of_items (by omega) hall, .inr ⟨hlength, hall⟩⟩
  | @finished ts given gone t hwalk _ hanswer ih =>
      exact ⟨ih.1.concat_none hanswer, .inl rfl⟩

-- How a loop starts.

theorem startCursor_run {kind : RangeKind} {v : Value}
    (hr : (startCursor kind v).run h = (.ok (.cursor id), h₀)) :
    ∃ c h₁, (cursorOf kind v.unwrap).run h = (.ok c, h₁) ∧ h₀.blocks = h₁.blocks ∧
      h₀.cursors[id]? = some c := by
  unfold startCursor at hr
  obtain ⟨c, h₁, hc, hr⟩ := Attempt.run_bind_ok hr
  cases hr
  exact ⟨c, h₁, hc, rfl, Array.getElem?_push_size⟩

theorem length_mapM (f : Value → HeapM Value) (vs : List Value) (h : Heap) :
    ((vs.mapM f : HeapM (List Value)) h).1.length = vs.length := by
  induction vs generalizing h with
  | nil => rfl
  | cons v vs ih =>
      rw [List.mapM_cons]
      exact congrArg (· + 1) (ih (f v h).2)

-- The copy of an array is a new block with as many elements.
theorem copied_array (b : BlockId) (h : Heap) : ∃ c h', copy (.array b) h = (.array c, h') ∧
    h.blocks.size ≤ c ∧ c < h'.blocks.size ∧ (h'.block c).size = (h.block b).size := by
  obtain ⟨vs, g, hmap⟩ : ∃ vs g,
      ((h.block b).toList.mapM (copyUpTo h.blocks.size) : HeapM (List Value)) h = (vs, g) :=
    ⟨_, _, rfl⟩
  have hlength := length_mapM (copyUpTo h.blocks.size) (h.block b).toList h
  have hg := grows_mapM (grows_copyUpTo h.blocks.size) (h.block b).toList h
  rw [hmap] at hlength hg
  refine ⟨g.blocks.size, (newBlock vs.toArray g).2, ?_, hg.size, lt_size_newBlock g _, ?_⟩
  · change copyWith (copyUpTo h.blocks.size) (.array b) h = _
    rw [copyWith_array, hmap]
    rfl
  · rw [block_newBlock, if_pos rfl]
    simpa using hlength

-- How many items the loop over a value has at most, by what the value is when the loop starts.
def itemCount (h : Heap) : Value → Nat
  | .slice w => sliceLength w
  | .array b => (h.block b).size
  | .pointer (some a) =>
      match h.load a with
      | .ok (.array b) => (h.block b).size
      | _ => 0
  | .str s => s.length
  | .map m => (h.keys m).length
  | .int n => n.val.toNat
  | .float64 x => (Binary.integerPart x).toNat
  | _ => 0

-- The turns of a loop over a value without a declared type, which starts in the heap `h`.
def RangesOver (h : Heap) (ts : List Turn) : Value → Prop
  | .slice w => TurnsCount (sliceLength w) (indexed (·.sliceGet? w)) ts
  -- The array is copied at the start, and at each turn the copy still is what the array was.
  | .array b => ∃ c, (copy (.array b) h).1 = .array c ∧
      TurnsCount (h.block b).size (indexed (·.element? c)) ts ∧
      ∀ content bs, h.Shows (.array b) content bs → content.Separable →
        ∀ t ∈ ts, ∃ bs', t.heap.Shows (.array c) content bs'
  -- The elements are those of the array that the pointer leads to at the start.
  | .pointer (some a) => ∃ b, h.load a = .ok (.array b) ∧
      TurnsCount (h.block b).size (indexed (·.element? b)) ts
  | .str s => TurnsCount s.length (charOf s) ts
  | .map m => ∃ given rest, Walks m (h.keys m) ts given rest ∧
      (given ++ rest).Sublist (h.keys m) ∧ ((h.keys m).Nodup → given.Nodup)
  | .int n => TurnsCount n.val.toNat (numbered n.kind) ts
  | .float64 x => TurnsCount (Binary.integerPart x).toNat (fun k _ y =>
    y = (.intOf .int k, .nil)) ts
  | .nil => TurnsCount 0 (fun _ _ _ => False) ts
  | _ => False

theorem Turns.ranges_array {b : BlockId} {kind : RangeKind} {h₁ : Heap}
    (hts : Turns id (Set.Ico h.blocks.size h₀.blocks.size) h₀ ts h')
    (hr : (cursorOf kind (.array b)).run h = (.ok cursor, h₁)) (hblocks : h₀.blocks = h₁.blocks)
    (hcursor : h₀.cursors[id]? = some cursor) : h.RangesOver ts (.array b) := by
  obtain ⟨c, h₂, hcopy, hlow, hhigh, hsize⟩ := copied_array b h
  have hrun : (cursorOf kind (.array b)).run h = (.ok (.array c 0), h₂) := by
    unfold cursorOf
    rw [Attempt.run_lift_bind, hcopy]
    rfl
  rw [hrun] at hr
  cases hr
  have hblock : ∀ d, h₀.block d = h₁.block d := fun d => by unfold block; rw [hblocks]
  refine ⟨c, by rw [hcopy], ?_, fun content bs hs hsep t ht => ?_⟩
  · have hcounts := hts.counts_array hcursor (by rwa [hblocks])
    rwa [hblock, hsize] at hcounts
  · obtain ⟨-, bs', hs', hnew, -⟩ := hs.fresh_copy hsep
    rw [hcopy] at hs'
    have hs₀ : h₀.Shows (.array c) content bs' :=
      hs'.frame (Nat.le_of_eq (congrArg Array.size hblocks).symm) fun d _ => hblock d
    exact ⟨bs', (hts.steady.2 t ht).shows hs₀ fun d hd => ⟨hnew d hd, hs₀.lt_size d hd⟩⟩

theorem Turns.ranges_pointer {a : Address} {kind : RangeKind} {h₁ : Heap}
    (hts : Turns id own h₀ ts h') (hback : ∀ b, h.load a = .ok (.array b) → b < h.blocks.size)
    (hr : (cursorOf kind (.pointer (some a))).run h = (.ok cursor, h₁))
    (hblocks : h₀.blocks = h₁.blocks) (hcursor : h₀.cursors[id]? = some cursor) :
    ∃ b, h.load a = .ok (.array b) ∧ TurnsCount (h.block b).size (indexed (·.element? b)) ts := by
  unfold cursorOf at hr
  rw [Attempt.run_heap_bind] at hr
  split at hr
  · next b hload =>
      cases hr
      have hcounts := hts.counts_array hcursor (by rw [hblocks]; exact hback b hload)
      unfold block at hcounts ⊢
      rw [hblocks] at hcounts
      exact ⟨b, hload, hcounts⟩
  · cases hr
  · cases hr

theorem RangesOver.ends {u : Value} (hranges : h.RangesOver ts u) :
    TurnsEnd (h.itemCount u) ts := by
  cases u with
  | slice | str | int => exact TurnsCount.ends hranges
  | float64 x =>
      have hcounts : TurnsCount _ (fun k _ y => y = (Value.intOf .int k, Value.nil)) ts := hranges
      exact hcounts.ends
  | nil =>
      have hcounts : TurnsCount 0 (fun _ _ _ => False) ts := hranges
      exact hcounts.ends
  | array b =>
      obtain ⟨c, -, hcounts, -⟩ := hranges
      exact hcounts.ends
  | pointer a =>
      cases a with
      | none => exact hranges.elim
      | some a =>
          obtain ⟨b, hload, hcounts⟩ := hranges
          simp only [itemCount, hload]
          exact hcounts.ends
  | map m =>
      obtain ⟨given, rest, hwalk, -⟩ := hranges
      exact hwalk.ends.1
  | _ => exact hranges.elim

theorem Turns.rangesOver {kind : RangeKind} {u : Value} {h₁ : Heap}
    (hts : Turns id (Set.Ico h.blocks.size h₀.blocks.size) h₀ ts h')
    (hback : h.Backed u) (hu : u.unwrap = u) (hchan : ∀ c, u ≠ .chan c)
    (hr : (cursorOf kind u).run h = (.ok cursor, h₁)) (hblocks : h₀.blocks = h₁.blocks)
    (hcursor : h₀.cursors[id]? = some cursor) : h.RangesOver ts u := by
  unfold Backed at hback
  rw [hu] at hback
  cases u with
  | slice w =>
      cases hr
      have hsame : BlocksSteady ∅ h h₀ := .of_blocks hblocks
      exact hts.counts_slice hcursor (hback.later hsame.size hsame.kept)
  | array b => exact hts.ranges_array hr hblocks hcursor
  | pointer a =>
      cases a with
      | none => cases hr
      | some a => exact hts.ranges_pointer hback hr hblocks hcursor
  | str s =>
      cases hr
      exact hts.counts_str hcursor
  | map m =>
      cases hr
      obtain ⟨given, rest, hwalk⟩ := hts.walks hcursor
      have hnodup : (h.keys m).Nodup → given.Nodup := fun hkeys =>
        (List.nodup_append.mp (hwalk.sublist.nodup hkeys)).1
      exact ⟨given, rest, hwalk, hwalk.sublist, hnodup⟩
  | int n =>
      cases hr
      refine (hts.counts_int hcursor).imp fun k g y hk hy => ?_
      have hholds : n.kind.Holds k := n.holds.between (.inl ⟨by omega, by omega⟩)
      exact ⟨.ofInt n.kind k, rfl, IntValue.val_of_holds hholds, hy⟩
  | float64 x =>
      change (if kind = .int ∧ Binary.isWhole x then _ else _ : Attempt Cursor).run h = _ at hr
      split at hr
      · cases hr
        exact hts.counts_int hcursor
      · cases hr
  | nil =>
      cases hr
      have hcounts : TurnsCount 0 (fun _ _ _ => False) ts :=
        hts.counts (fun _ => .empty) hcursor (fun _ _ => nofun)
          (fun k _ hk => absurd hk (Nat.not_lt_zero k)) fun _ _ => rfl
      exact hcounts
  | chan c => exact absurd rfl (hchan c)
  | _ => cases hr

-- A loop over any value that one can loop over but a channel. Slices and the arrays behind pointers
-- are read at each turn, an array is copied at the start, an integer is counted up to in its own
-- kind, and the keys of a map are looked for one after the other. The end is reached, and stays.
theorem cursor_ranges_over_value {kind : RangeKind} {v : Value}
    (hr : (startCursor kind v).run h = (.ok (.cursor id), h₀)) (hback : h.Backed v)
    (hchan : ∀ c, v.unwrap ≠ .chan c)
    (hts : Turns id (Set.Ico h.blocks.size h₀.blocks.size) h₀ ts h') :
    h.RangesOver ts v.unwrap ∧ TurnsEnd (h.itemCount v.unwrap) ts := by
  obtain ⟨cursor, h₁, hrun, hblocks, hcursor⟩ := startCursor_run hr
  have hunwrap : v.unwrap.unwrap = v.unwrap :=
    unwrap_of_not_named (unwrap_not_named v)
  have hbacked : h.Backed v.unwrap := by
    unfold Backed
    rw [hunwrap]
    exact hback
  have hranges := hts.rangesOver hbacked hunwrap hchan hrun hblocks hcursor
  exact ⟨hranges, hranges.ends⟩

theorem Turns.turn_of (hts : Turns id own h₀ ts h)
    {answer : Except Failure (Option (Value × Value))} (hr : (advance id).run h = (answer, h')) :
    Turns id own h₀ (ts ++ [⟨h, answer⟩]) h' := by
  have hturn := hts.turn
  rwa [hr] at hturn

def tenfold (n : Int) : Entry := ⟨.int (.plain n), .plainInt n, .plainInt (10 * n)⟩

-- A map with these entries, and a loop over it that has these keys to reach.
def tenfolds (ns : List Int) (cursors : Array Cursor) : Heap :=
  { empty with maps := #[ns.map tenfold], cursors := cursors }

def toReach (ns : List Int) : Array Cursor := #[.map (some 0) (ns.map fun n => .int (.plain n))]

-- The second key goes and a fourth one comes.
def exchanged (h : Heap) : Heap :=
  (modifyMap 0 (putEntry (tenfold 4)) (remove (some 0) (tenfold 2).key h).2).2

theorem deleted_key_is_passed_over : ∃ h₀ ts h',
    (startCursor .map (.map (some 0))).run (tenfolds [1, 2, 3] #[]) = (.ok (.cursor 0), h₀) ∧
    Turns 0 (Set.Ico (tenfolds [1, 2, 3] #[]).blocks.size h₀.blocks.size) h₀ ts h' ∧
    ts.map (·.answer) = [.ok (some (.plainInt 1, .plainInt 10)),
      .ok (some (.plainInt 3, .plainInt 30)), .ok none] ∧
    (tenfolds [1, 2, 3] #[]).RangesOver ts (.map (some 0)) ∧ TurnsEnd 3 ts := by
  have hstart : (startCursor .map (.map (some 0))).run (tenfolds [1, 2, 3] #[]) =
      (.ok (.cursor 0), tenfolds [1, 2, 3] (toReach [1, 2, 3])) := rfl
  have hone : (advance 0).run (tenfolds [1, 2, 3] (toReach [1, 2, 3])) =
      (.ok (some (.plainInt 1, .plainInt 10)), tenfolds [1, 2, 3] (toReach [2, 3])) := rfl
  have hthree : (advance 0).run (tenfolds [1, 3, 4] (toReach [2, 3])) =
      (.ok (some (.plainInt 3, .plainInt 30)), tenfolds [1, 3, 4] (toReach [])) := rfl
  have hend : (advance 0).run (tenfolds [1, 3, 4] (toReach [])) =
      (.ok none, tenfolds [1, 3, 4] (toReach [])) := rfl
  have hexchange : exchanged (tenfolds [1, 2, 3] (toReach [2, 3])) =
      tenfolds [1, 3, 4] (toReach [2, 3]) := rfl
  have hfirst : Turns 0 (Set.Ico 0 0) (tenfolds [1, 2, 3] (toReach [1, 2, 3])) _ _ :=
    Turns.start.turn_of hone
  have hchanged : Turns 0 (Set.Ico 0 0) _ _ (exchanged (tenfolds [1, 2, 3] (toReach [2, 3]))) :=
    hfirst.meanwhile (.of_blocks rfl) rfl
  rw [hexchange] at hchanged
  have hts := (hchanged.turn_of hthree).turn_of hend
  exact ⟨_, _, _, hstart, hts, rfl, cursor_ranges_over_value hstart trivial nofun hts⟩

-- A map whose key is a struct in block 0, where a variable has it too.
def sharedKey : Heap :=
  { empty with
    blocks := #[#[.plainInt 1]],
    maps := #[[⟨.struct (some "T") [.int (.plain 1)],
      .struct ⟨Program.singleField "x", 0, some "T"⟩, .plainInt 7⟩]] }

-- What is stored into the struct between two turns changes the key that the loop gives, which then
-- is none of those that the map had at the start.
theorem changed_key_is_given : ∃ h₀ ts h' t y key,
    (∀ e ∈ sharedKey.entries (some 0), sharedKey.keyOf e.keyValue = .ok e.key) ∧
    (startCursor .map (.map (some 0))).run sharedKey = (.ok (.cursor 0), h₀) ∧
    Turns 0 (Set.Ico sharedKey.blocks.size h₀.blocks.size) h₀ ts h' ∧
    t ∈ ts ∧ t.answer = .ok (some y) ∧ t.heap.keyOf y.1 = .ok key ∧
    key ∉ sharedKey.keys (some 0) := by
  let h₀ : Heap := { sharedKey with cursors := #[.map (some 0) (sharedKey.keys (some 0))] }
  have hstored : ChangesWithin [0] h₀ (store (.element 0 0) (.plainInt 2) h₀).2 :=
    within_setElement h₀ 0 0 (.plainInt 2)
  have hts : Turns 0 (Set.Ico sharedKey.blocks.size h₀.blocks.size) h₀ _ _ :=
    (Turns.start.meanwhile (.of_within hstored fun b hb => by
      exact absurd (Nat.lt_of_le_of_lt hb.1 hb.2) (Nat.lt_irrefl 1)) rfl).turn
  refine ⟨h₀, _, _, _, _, .struct (some "T") [.int (.plain 2)], ?_, rfl, hts,
    List.mem_singleton_self _, rfl, rfl, by decide⟩
  intro e he
  obtain rfl := List.mem_singleton.mp he
  rfl

end StepGraph.Heap

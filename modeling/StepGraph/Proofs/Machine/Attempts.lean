import StepGraph.Proofs.Machine.Failures
import StepGraph.Proofs.Machine.Spares

namespace StepGraph

variable {α β : Type}

-- An operation that can fail, has nothing to do with the scopes and needs no operands.
def Attempt.Apart (x : Attempt α) : Prop :=
  ∀ h, (x.run h).2.scopes = h.scopes ∧ UnderflowFree (x.run h).1

namespace Attempt.Apart

theorem run {x : Attempt α} (hx : Apart x) : HeapM.Apart x.run := fun h => (hx h).1

theorem pure (a : α) : Apart (pure a) := fun _ => ⟨rfl, .ok a⟩

theorem throw {f : Failure} (hf : UnderflowFree (.error f : Except Failure α)) :
    Apart (throw f : Attempt α) := fun _ => ⟨rfl, hf⟩

theorem bind {x : Attempt α} {f : α → Attempt β} (hx : Apart x) (hf : ∀ a, Apart (f a)) :
    Apart (x >>= f) := by
  intro h
  obtain ⟨hscopes, hsound⟩ := hx h
  change (ExceptT.bindCont f (x.run h).1 (x.run h).2).2.scopes = h.scopes ∧
    UnderflowFree (ExceptT.bindCont f (x.run h).1 (x.run h).2).1
  cases hr : (x.run h).1 with
  | error e =>
      rw [hr] at hsound
      refine ⟨hscopes, fun he => hsound ?_⟩
      cases he
      rfl
  | ok a =>
      obtain ⟨hscopes', hsound'⟩ := hf a (x.run h).2
      exact ⟨hscopes'.trans hscopes, hsound'⟩

theorem lift {x : HeapM α} (hx : HeapM.Apart x) : Apart (monadLift x : Attempt α) :=
  fun h => ⟨hx h, .ok _⟩

theorem ofExcept {x : Except Failure α} (hx : UnderflowFree x) :
    Apart (ExceptT.mk (Pure.pure x : HeapM (Except Failure α))) := fun _ => ⟨rfl, hx⟩

theorem heap : Apart (getThe Heap : Attempt Heap) := fun _ => ⟨rfl, .ok _⟩

theorem forM {l : List α} {f : α → Attempt PUnit} (hf : ∀ a, Apart (f a)) : Apart (l.forM f) :=
  Compositional.forM ⟨pure, bind⟩ hf

end Attempt.Apart

-- An operation that can fail and spares what is there.
def Attempt.Sparing (x : Attempt α) : Prop := ∀ h, SparesHeap h (x.run h).2

theorem Attempt.run_lift_bind {α β : Type} (x : HeapM α) (f : α → Attempt β) (h : Heap) :
    ((monadLift x : Attempt α) >>= f).run h = (f (x h).1).run (x h).2 := rfl

theorem Attempt.run_heap_bind {α : Type} (f : Heap → Attempt α) (h : Heap) :
    (getThe Heap >>= f : Attempt α).run h = (f h).run h := rfl

namespace Attempt.Sparing

theorem pure (a : α) : Sparing (pure a) := fun h => .refl h

theorem throw (f : Failure) : Sparing (throw f : Attempt α) := fun h => .refl h

theorem bind {x : Attempt α} {f : α → Attempt β} (hx : Sparing x) (hf : ∀ a, Sparing (f a)) :
    Sparing (x >>= f) := by
  intro h
  change SparesHeap h (ExceptT.bindCont f (x.run h).1 (x.run h).2).2
  cases (x.run h).1 with
  | error e => exact hx h
  | ok a => exact (hx h).trans (hf a _)

theorem lift {x : HeapM α} (hx : HeapM.Sparing x) : Sparing (monadLift x : Attempt α) :=
  fun h => hx h

theorem heap : Sparing (getThe Heap : Attempt Heap) := fun h => .refl h

end Attempt.Sparing

theorem Attempt.run_bind_pure (x : Attempt α) (b : β) (h : Heap) :
    ((x >>= fun _ => pure b).run h).2 = (x.run h).2 := by
  change ((ExceptT.bindCont (fun _ => pure b) (x.run h).1 : HeapM _) (x.run h).2).2 = _
  cases (x.run h).1 <;> rfl

-- An operation that may change what has come since `h₀`.
def Attempt.SparingFrom (h₀ : Heap) (x : Attempt α) : Prop :=
  ∀ h, SparesHeap h₀ h → SparesHeap h₀ (x.run h).2

namespace Attempt.SparingFrom

variable {h₀ : Heap}

theorem of_sparing {x : Attempt α} (hx : Sparing x) : SparingFrom h₀ x :=
  fun h hs => hs.trans (hx h)

theorem bind {x : Attempt α} {f : α → Attempt β} (hx : SparingFrom h₀ x)
    (hf : ∀ a, SparingFrom h₀ (f a)) : SparingFrom h₀ (x >>= f) := by
  intro h hs
  change SparesHeap h₀ (ExceptT.bindCont f (x.run h).1 (x.run h).2).2
  cases (x.run h).1 with
  | error e => exact hx h hs
  | ok a => exact hf a _ (hx h hs)

end Attempt.SparingFrom

-- An operation that can fail with both properties.
structure Attempt.Gentle (x : Attempt α) : Prop where
  apart : Apart x
  sparing : Sparing x

namespace Attempt.Gentle

theorem run {x : Attempt α} (hx : Gentle x) : HeapM.Gentle x.run := ⟨hx.apart.run, hx.sparing⟩

theorem pure (a : α) : Gentle (pure a) := ⟨.pure a, .pure a⟩

theorem throw {f : Failure} (hf : UnderflowFree (.error f : Except Failure α)) :
    Gentle (throw f : Attempt α) := ⟨.throw hf, .throw f⟩

theorem bind {x : Attempt α} {f : α → Attempt β} (hx : Gentle x) (hf : ∀ a, Gentle (f a)) :
    Gentle (x >>= f) := ⟨hx.apart.bind fun a => (hf a).apart, hx.sparing.bind fun a => (hf a).sparing⟩

theorem lift {x : HeapM α} (hx : HeapM.Gentle x) : Gentle (monadLift x : Attempt α) :=
  ⟨.lift hx.apart, .lift hx.sparing⟩

theorem heap : Gentle (getThe Heap : Attempt Heap) := ⟨.heap, .heap⟩

theorem mapM {l : List α} {f : α → Attempt β} (hf : ∀ a, Gentle (f a)) : Gentle (l.mapM f) :=
  Compositional.mapM ⟨pure, bind⟩ hf

end Attempt.Gentle

attribute [local grind ←] HeapM.Apart.pure HeapM.Apart.bind HeapM.Apart.get HeapM.Apart.mapM
  UnderflowFree.fault UnderflowFree.notDefined Attempt.Apart.pure Attempt.Apart.throw
  Attempt.Apart.bind Attempt.Apart.lift Attempt.Apart.heap Attempt.Apart.forM

namespace Heap

open Attempt (Apart)

theorem apart_deadlock : Apart (throw (.fatal .deadlock) : Attempt α) :=
  .throw (by simp [UnderflowFree])

theorem apart_invalidAddress (a : Address) :
    Apart (throw (.fatal (.invalidAddress a)) : Attempt α) := .throw (by simp [UnderflowFree])

attribute [local grind ←] apart_deadlock apart_invalidAddress apart_setChan apart_tryReceive
  apart_modifyMap apart_newCursor apart_setCursor apart_copy

theorem apart_updateChan {f : Chan → Except Failure Chan} (hf : ∀ c, UnderflowFree (f c))
    (id : ChanId) :
    Apart (updateChan id f) := by
  have hlift : ∀ c, Apart (updateChan.liftExcept (f c)) := fun c => .ofExcept (hf c)
  unfold updateChan
  grind

theorem apart_send (id : ChanId) (v : Value) : Apart (send id v) :=
  apart_updateChan (fun c => c.underflowFree_send v) id

theorem apart_close (id : ChanId) : Apart (close id) := apart_updateChan Chan.underflowFree_close id

theorem apart_receive (id : ChanId) : Apart (receive id) := by
  unfold receive
  grind

theorem apart_storeAt (a : Address) (v : Value) : Apart (storeAt a v) := by
  have hplace : ∀ c place, placeOf a c = some place → HeapM.Apart (store place v) := by
    intro c place hp
    unfold placeOf at hp
    split at hp
    · cases hp
      exact apart_storeCell a v
    · cases hp
      exact apart_storeElement _ _ v
    · cases hp
  unfold storeAt
  refine .bind .heap fun h => ?_
  split
  · next place hp =>
      split
      · exact .lift (hplace _ place hp)
      · exact apart_invalidAddress a
  · exact apart_invalidAddress a

theorem apart_insert (m : Option MapId) (e : Entry) : Apart (insert m e) := by
  unfold insert
  grind

theorem apart_startCursor (kind : RangeKind) (v : Value) : Apart (startCursor kind v) := by
  have hload : ∀ (h : Heap) a e, h.load a = .error e → Apart (throw e : Attempt Cursor) := by
    intro h a e he
    exact .throw fun hne => h.underflowFree_load a (by cases hne; exact he)
  have hcursor : ∀ v, Apart (cursorOf kind v) := by
    intro v
    unfold cursorOf
    grind [notRangeable]
  unfold startCursor
  grind

theorem apart_advance (id : CursorId) : Apart (advance id) := by
  unfold advance
  grind

end Heap

namespace TypeTable

open Attempt (Apart Gentle)

variable (t : TypeTable)

theorem gentle_raise {f : Failure} (hf : UnderflowFree (.error f : Except Failure α)) :
    Gentle (raise f : Attempt α) := .throw hf

section gentle

attribute [local grind ←] HeapM.Gentle.pure HeapM.Gentle.bind HeapM.Gentle.get Gentle.pure
  Gentle.throw Gentle.bind Gentle.lift Gentle.heap Gentle.mapM Heap.gentle_copy Heap.gentle_newSlice
  Heap.gentle_newArray Heap.gentle_newBlock Heap.gentle_newMap Heap.gentle_newChan Heap.gentle_box
  Heap.gentle_slotAddress gentle_zeroValue gentle_coerce gentle_elementOf gentle_raise

theorem gentle_convert (v : Value) (ty : Ty) : Gentle (t.convert v ty) := by
  have hthrow : ∀ v ty, Gentle (throw (cannotConvert v ty) : Attempt Value) :=
    fun _ _ => .throw (.notDefined _ _)
  have horFail : ∀ v ty (o : Option Value), Gentle (orFail (cannotConvert v ty) o) := by
    intro v ty o
    cases o with
    | none => exact hthrow v ty
    | some a => exact .pure a
  have hbare : ∀ v ty, Gentle (t.convertBare v ty) := by
    intro v ty
    unfold convertBare
    split <;> grind [copied]
  unfold convert
  grind

theorem gentle_placeElems (elem : Ty) (next : Nat) (keyed : List Bool) (values : List Value) :
    Gentle (t.placeElems elem next keyed values) := by
  have hplace : ∀ keyed, (∀ next values, Gentle (t.placeElems elem next keyed values)) →
      ∀ i values, Gentle (placeElems.place t elem i keyed values) := by
    intro keyed hkeyed i values
    cases values with
    | nil =>
        unfold placeElems.place
        exact .pure _
    | cons v values =>
        unfold placeElems.place
        grind
  induction keyed generalizing next values with
  | nil =>
      unfold placeElems
      exact .pure _
  | cons key keyed ih =>
      have hplaced := hplace keyed ih
      cases key with
      | false =>
          unfold placeElems
          exact hplaced _ _
      | true =>
          cases values with
          | nil =>
              unfold placeElems
              exact gentle_raise (.notDefined _ _)
          | cons v values =>
              unfold placeElems
              split
              · exact hplaced _ _
              · exact gentle_raise (.notDefined _ _)

theorem gentle_elements (elem : Ty) (length : Nat) (placed : List (Nat × Value)) :
    Gentle (t.elements elem length placed) := by
  have hzeros : Gentle ((List.replicate length ()).mapM fun _ => monadLift (t.zeroValue elem)) :=
    .mapM fun _ => .lift (t.gentle_zeroValue elem)
  unfold elements
  grind

theorem gentle_make (ty : Ty) (args : List Value) : Gentle (t.make ty args) := by
  have hsize : ∀ what args, Gentle (size? what args) := by
    intro what args
    unfold size? size?.natural
    grind
  have hzeros : ∀ n elem,
      Gentle ((List.replicate n ()).mapM fun _ => monadLift (t.zeroValue elem)) :=
    fun _ elem => .mapM fun _ => .lift (t.gentle_zeroValue elem)
  unfold make
  split
  · refine .bind (hsize _ _) fun length => .bind (hsize _ _) fun capacity => ?_
    dsimp only
    split
    · exact gentle_raise (.fault _)
    · exact .bind (hzeros _ _) fun _ => .bind (.lift (Heap.gentle_newBlock _)) fun _ => .pure _
  all_goals grind

theorem gentle_method (v : Value) (pointer : Option Value) (name : String) :
    Gentle (t.method v pointer name) := by
  have hload : ∀ (h : Heap) a e, h.load a = .error e →
      Gentle (throw e : Attempt (Option Value)) := by
    intro h a e he
    exact .throw fun hne => h.underflowFree_load a (by cases hne; exact he)
  have hupTo : ∀ n v pointer, Gentle (t.methodUpTo name n v pointer) := by
    intro n
    induction n with
    | zero =>
        intro v pointer
        unfold methodUpTo
        exact .throw nofun
    | succ n ih =>
        have hpromoted : ∀ s fields, Gentle (methodUpTo.promoted t name n s fields) := by
          intro s fields
          induction fields with
          | nil =>
              unfold methodUpTo.promoted
              exact .pure _
          | cons i rest ihrest =>
              have hrest : ∀ {f : Option Value → Attempt (Option Value)},
                  (∀ m, f (some m) = Pure.pure (some m)) →
                  f none = methodUpTo.promoted t name n s rest → ∀ found, Gentle (f found) := by
                intro f hsome hnone found
                cases found with
                | none => exact hnone ▸ ihrest
                | some m => exact hsome m ▸ .pure _
              unfold methodUpTo.promoted
              refine .bind .heap fun h => ?_
              split
              · exact .bind (.pure _) (hrest (fun _ => rfl) rfl)
              · exact .bind (.pure _) (hrest (fun _ => rfl) rfl)
              · split
                · exact .bind (ih _ _) (hrest (fun _ => rfl) rfl)
                · next e he => exact .bind (hload _ _ _ he) (hrest (fun _ => rfl) rfl)
              · refine .bind (.lift (Heap.gentle_slotAddress _ _)) fun a => ?_
                exact .bind (ih _ _) (hrest (fun _ => rfl) rfl)
        intro v pointer
        unfold methodUpTo
        grind
  unfold method
  grind

end gentle

section apart

attribute [local grind ←] HeapM.Gentle.apart Gentle.apart Heap.apart_storeElement Heap.apart_insert
  gentle_zeroValue gentle_coerce gentle_elementOf gentle_raise Heap.gentle_copy
  Heap.gentle_newSlice Heap.gentle_newArray Heap.gentle_newMap Heap.gentle_newBlock

theorem apart_fillField (layout : Layout) (b : BlockId) (i : Nat) (v : Value) :
    HeapM.Apart (t.fillField layout b i v) := by
  unfold fillField
  grind

theorem apart_composeStruct (ty : Ty) (shape : Shape) (values : List Value) :
    Apart (t.composeStruct ty shape values) := by
  have hfield := t.apart_fillField
  have hnamed : ∀ layout b fields, Apart (t.fillNamed ty layout b fields) := by
    intro layout b fields
    induction fields with
    | nil => exact .pure _
    | cons field fields ih =>
        unfold fillNamed
        grind
  unfold composeStruct
  grind [notComposite]

theorem apart_fillMap (m : MapId) (key value : Ty) (values : List Value) :
    Apart (t.fillMap m key value values) := by
  match values with
  | [] | [_] => exact .pure _
  | k :: v :: rest =>
      have ih := apart_fillMap m key value rest
      have hinsert : ∀ k mapKey, Apart (do
          let v ← monadLift (t.elementOf v value)
          Heap.insert (some m) ⟨mapKey, k, v⟩
          t.fillMap m key value rest) := by
        intro k mapKey
        grind
      unfold fillMap
      refine .bind (.lift (t.gentle_coerce k key).apart) fun k => .bind .heap fun h => ?_
      split
      · exact .bind (.pure _) fun mapKey => hinsert k mapKey
      · next e he =>
          refine .bind (Apart.throw fun hne => h.underflowFree_keyOf k ?_) fun mapKey =>
            hinsert k mapKey
          cases hne
          exact he

theorem apart_compose (ty : Ty) (shape : Shape) (values : List Value) :
    Apart (t.compose ty shape values) := by
  have hstruct := t.apart_composeStruct ty shape values
  have hplace := t.gentle_placeElems
  have helements := t.gentle_elements
  have hmap := t.apart_fillMap
  unfold compose
  grind [notComposite]

end apart

theorem sparingFrom_insert {h₀ : Heap} {m : MapId} (hm : h₀.maps.size ≤ m) (e : Entry) :
    Attempt.SparingFrom h₀ (Heap.insert (some m) e) := by
  intro h hs
  refine ⟨hs.blocks, hs.cells, fun i es hi => ?_, hs.chans, hs.cursors, hs.scopes⟩
  have hlt : i < h₀.maps.size := (Array.getElem?_eq_some_iff.mp hi).1
  change (h.maps.modify m _)[i]? = _
  rw [Array.getElem?_modify, if_neg (by omega)]
  exact hs.maps i es hi

theorem sparingFrom_fillMap {h₀ : Heap} {m : MapId} (hm : h₀.maps.size ≤ m) (key value : Ty)
    (values : List Value) : Attempt.SparingFrom h₀ (t.fillMap m key value values) := by
  match values with
  | [] | [_] => exact .of_sparing (.pure _)
  | k :: v :: rest =>
      have ih := sparingFrom_fillMap hm key value rest
      have hinsert : ∀ k mapKey, Attempt.SparingFrom h₀ (do
          let v ← monadLift (t.elementOf v value)
          Heap.insert (some m) ⟨mapKey, k, v⟩
          t.fillMap m key value rest) := fun k mapKey =>
        .bind (.of_sparing (.lift (t.gentle_elementOf v value).sparing)) fun _ =>
          .bind (sparingFrom_insert hm _) fun _ => ih
      unfold fillMap
      refine .bind (.of_sparing (.lift (t.gentle_coerce k key).sparing)) fun k =>
        .bind (.of_sparing .heap) fun h => ?_
      split
      · exact .bind (.of_sparing (.pure _)) fun mapKey => hinsert k mapKey
      · exact .bind (.of_sparing (.throw _)) fun mapKey => hinsert k mapKey

end TypeTable

-- A literal that names no field twice.
def Shape.Distinct : Shape → Prop
  | .fields names => names.Nodup
  | _ => True

theorem Layout.name_of_index? {l : Layout} {name : String} {i : Nat}
    (hi : l.index? name = some i) : l.names[i]? = some name := by
  unfold index? at hi
  obtain ⟨⟨x, j⟩, hx, rfl⟩ := Option.map_eq_some_iff.mp hi
  obtain ⟨hmem, heq⟩ := List.mem_filter.mp (List.mem_of_getLast? hx)
  rw [← eq_of_beq heq]
  exact List.mk_mem_zipIdx_iff_getElem?.mp hmem

-- The fields of a new struct that are not filled yet. Each stands in blocks of its own that have
-- come since `h₀`.
structure Unfilled (h₀ h : Heap) (b : BlockId) (isOpen : Nat → Prop)
    (blocks : Nat → List BlockId) : Prop where
  spares : SparesHeap h₀ h
  new : ∀ i, ∀ d ∈ b :: blocks i, h₀.blocks.size ≤ d ∧ d < h.blocks.size
  nodup : ∀ i, (b :: blocks i).Nodup
  apart : ∀ i j, i ≠ j → ∀ d ∈ blocks i, d ∉ blocks j
  stands : ∀ i, isOpen i → ∀ x, h.element? b i = some x → h.FillableBlocks [x] (blocks i)

namespace Unfilled

variable {h₀ h h' : Heap} {b : BlockId} {isOpen : Nat → Prop} {blocks : Nat → List BlockId}

theorem grow (hu : Unfilled h₀ h b isOpen blocks) (hg : Heap.GrowsByBlocks h h') :
    Unfilled h₀ h' b isOpen blocks where
  spares := hu.spares.trans (.of_grows hg)
  new i d hd := ⟨(hu.new i d hd).1, Nat.lt_of_lt_of_le (hu.new i d hd).2 hg.size⟩
  nodup := hu.nodup
  apart := hu.apart
  stands i hi x hx := by
    have hsame : ∀ d ∈ b :: blocks i, h'.block d = h.block d :=
      fun d hd => hg.same d (hu.new i d hd).2
    unfold Heap.element? at hx
    rw [hsame b List.mem_cons_self] at hx
    exact (hu.stands i hi x hx).frame fun d hd => hsame d (List.mem_cons_of_mem _ hd)

theorem mono {fewer : Nat → Prop} (hu : Unfilled h₀ h b isOpen blocks)
    (hle : ∀ i, fewer i → isOpen i) : Unfilled h₀ h b fewer blocks :=
  ⟨hu.spares, hu.new, hu.nodup, hu.apart, fun i hi => hu.stands i (hle i hi)⟩

theorem store (hu : Unfilled h₀ h b isOpen blocks) {i : Nat} (hi : isOpen i) {x : Value}
    (hx : h.element? b i = some x) (v : Value) :
    Unfilled h₀ (Heap.store (.element b i) v h).2 b (fun j => isOpen j ∧ j ≠ i) blocks := by
  have hfills := Heap.fills_store hx (hu.stands i hi x hx) (hu.nodup i) v
  set h' := (Heap.store (.element b i) v h).2
  refine ⟨hu.spares.within ?_ hfills.within, ?_, hu.nodup, hu.apart, ?_⟩
  · exact fun d hd => (hu.new i d hd).1
  · intro j d hd
    rw [hfills.within.count]
    exact hu.new j d hd
  · intro j hj y hy
    rw [hfills.others j hj.2] at hy
    refine (hu.stands j hj.1 y hy).frame fun d hd => hfills.within.same d fun hm => ?_
    rcases List.mem_cons.mp hm with rfl | hm
    · exact (List.nodup_cons.mp (hu.nodup j)).1 hd
    · exact hu.apart j i hj.2 d hd hm

end Unfilled

-- The parts of values stand in blocks of their own.
theorem Heap.FillableBlocks.owners {h : Heap} {vs : List Value} {bs : List BlockId}
    (hs : h.FillableBlocks vs bs) (hnodup : bs.Nodup) : ∃ blocks : Nat → List BlockId,
      (∀ i x, vs[i]? = some x → h.FillableBlocks [x] (blocks i)) ∧
      (∀ i, (blocks i).Nodup ∧ ∀ d ∈ blocks i, d ∈ bs) ∧
      ∀ i j, i ≠ j → ∀ d ∈ blocks i, d ∉ blocks j := by
  induction vs generalizing bs with
  | nil => exact ⟨fun _ => [], by simp, by simp, by simp⟩
  | cons v vs ih =>
      obtain ⟨first, rest, rfl, hfirst, hrest⟩ := hs.cons_inv
      obtain ⟨hnodup₁, hnodup₂, hapart⟩ := List.nodup_append.mp hnodup
      obtain ⟨blocks, hstands, hown, hdisjoint⟩ := ih hrest hnodup₂
      refine ⟨fun i => i.casesOn first blocks, fun i x hx => ?_, fun i => ?_,
        fun i j hne d hd hd' => ?_⟩
      · cases i with
        | zero =>
            cases hx
            exact hfirst
        | succ i => exact hstands i x hx
      · cases i with
        | zero => exact ⟨hnodup₁, fun d hd => List.mem_append_left _ hd⟩
        | succ i => exact ⟨(hown i).1, fun d hd => List.mem_append_right _ ((hown i).2 d hd)⟩
      · cases i with
        | zero =>
            cases j with
            | zero => exact hne rfl
            | succ j => exact hapart d hd d ((hown j).2 d hd') rfl
        | succ i =>
            cases j with
            | zero => exact hapart d hd' d ((hown i).2 d hd) rfl
            | succ j => exact hdisjoint i j (by omega) d hd hd'

theorem Heap.BuiltSince.unfilled {h h' : Heap} {v : Value} {b : BlockId} (hb : BuiltSince h h' [v])
    (hv : v.block? = some b) : ∃ blocks, Unfilled h h' b (fun _ => True) blocks := by
  obtain ⟨hg, bs, hs, hnodup, hnew⟩ := hb
  cases hs with
  | flat hflat =>
      rw [hv] at hflat
      cases hflat
  | @block _ d parts _ _ hd hparts hnil =>
      cases hnil
      rw [hv] at hd
      cases hd
      rw [List.append_nil] at hnodup hnew
      obtain ⟨hnot, hnodup⟩ := List.nodup_cons.mp hnodup
      obtain ⟨blocks, hstands, hown, hapart⟩ := hparts.owners hnodup
      refine ⟨blocks, .of_grows hg, fun i d hd => hnew d ?_,
        fun i => List.nodup_cons.mpr ⟨fun hm => hnot ((hown i).2 _ hm), (hown i).1⟩, hapart,
        fun i _ x hx => hstands i x ?_⟩
      · rcases List.mem_cons.mp hd with rfl | hd
        · exact List.mem_cons_self
        · exact List.mem_cons_of_mem _ ((hown i).2 d hd)
      · rwa [← Heap.element?_eq_getElem?]

namespace TypeTable

open Attempt (Gentle)

variable (t : TypeTable)

theorem grows_elementOf (v : Value) (ty : Ty) (h : Heap) :
    Heap.GrowsByBlocks h (t.elementOf v ty h).2 := by
  have hcopy := Heap.grows_copyUpTo h.depth v h
  change Heap.GrowsByBlocks h (t.coerce (Heap.copy v h).1 ty (Heap.copy v h).2).2
  unfold coerce
  split
  · exact hcopy.trans (Heap.built_ofConstant _ _).grows
  · exact hcopy

-- A field of a new struct that is not filled yet takes a value.
theorem unfilled_fillField {h₀ h : Heap} {b : BlockId} {isOpen : Nat → Prop}
    {blocks : Nat → List BlockId} (hu : Unfilled h₀ h b isOpen blocks) (layout : Layout) {i : Nat}
    (hi : isOpen i) (v : Value) :
    Unfilled h₀ (t.fillField layout b i v h).2 b (fun j => isOpen j ∧ j ≠ i) blocks := by
  have hstore : ∀ (x : HeapM Value), Heap.GrowsByBlocks h (x h).2 →
      Unfilled h₀ ((do
        let v ← x
        if ((← get).element? b i).isSome then Heap.store (.element b i) v : HeapM Unit) h).2 b
        (fun j => isOpen j ∧ j ≠ i) blocks := by
    intro x hg
    have hgrown := hu.grow hg
    change Unfilled h₀ ((if ((x h).2.element? b i).isSome then Heap.store (.element b i) (x h).1
      else pure () : HeapM Unit) (x h).2).2 b _ blocks
    cases hx : (x h).2.element? b i with
    | none => exact hgrown.mono fun _ hj => hj.1
    | some y => exact hgrown.store hi hx _
  unfold fillField
  cases layout.fieldType? i with
  | some ty => exact hstore _ (t.grows_elementOf v ty h)
  | none => exact hstore _ (Heap.grows_copyUpTo _ v h)

theorem spares_fillNamed {h₀ h : Heap} {b : BlockId} {isOpen : Nat → Prop}
    {blocks : Nat → List BlockId} (hu : Unfilled h₀ h b isOpen blocks) (ty : Ty) (layout : Layout)
    (entries : List (String × Value)) (hnodup : (entries.map (·.1)).Nodup)
    (hopen : ∀ e ∈ entries, ∀ i, layout.index? e.1 = some i → isOpen i) :
    SparesHeap h₀ ((t.fillNamed ty layout b entries).run h).2 := by
  induction entries generalizing h isOpen with
  | nil => exact hu.spares
  | cons e entries ih =>
      obtain ⟨name, v⟩ := e
      obtain ⟨hnot, hnodup⟩ := List.nodup_cons.mp hnodup
      unfold fillNamed
      cases hi : layout.index? name with
      | none => exact hu.spares
      | some i =>
          refine ih (t.unfilled_fillField hu layout (hopen _ List.mem_cons_self i hi) v) hnodup
            fun e he j hj => ⟨hopen e (List.mem_cons_of_mem _ he) j hj, ?_⟩
          rintro rfl
          have hsame : name = e.1 := Option.some.inj
            ((Layout.name_of_index? hi).symm.trans (Layout.name_of_index? hj))
          exact hnot (hsame ▸ List.mem_map.mpr ⟨e, he, rfl⟩)

theorem spares_fillPositional {h₀ h : Heap} {b : BlockId} {isOpen : Nat → Prop}
    {blocks : Nat → List BlockId} (hu : Unfilled h₀ h b isOpen blocks) (layout : Layout)
    (values : List Value) (k : Nat) (hopen : ∀ i, k ≤ i → isOpen i) :
    SparesHeap h₀ (((values.zipIdx k).forM fun (v, i) =>
      monadLift (t.fillField layout b i v) : Attempt Unit).run h).2 := by
  induction values generalizing h isOpen k with
  | nil => exact hu.spares
  | cons v values ih =>
      exact ih (t.unfilled_fillField hu layout (hopen k (Nat.le_refl k)) v) (k + 1)
        fun i hi => ⟨hopen i (Nat.le_of_succ_le hi), Nat.ne_of_gt hi⟩

-- A literal that names no field twice changes nothing but what it makes.
theorem sparing_composeStruct (ty : Ty) {shape : Shape} (hshape : shape.Distinct)
    (values : List Value) : Attempt.Sparing (t.composeStruct ty shape values) := by
  intro h
  have hbuilt : Heap.BuiltSince h (t.zeroValue ty h).2 [(t.zeroValue ty h).1] :=
    Heap.built_ofConstant (t.zero ty) h
  have hzero : SparesHeap h (t.zeroValue ty h).2 := (t.gentle_zeroValue ty).sparing h
  have hreturn : ∀ (x : Attempt Unit) (v : Value), SparesHeap h (x.run (t.zeroValue ty h).2).2 →
      SparesHeap h ((x >>= fun _ => pure v).run (t.zeroValue ty h).2).2 := by
    intro x v hx
    rwa [Attempt.run_bind_pure]
  unfold composeStruct
  rw [Attempt.run_lift_bind]
  split
  · next layout name zero _ hv =>
      rw [hv] at hbuilt
      obtain ⟨blocks, hu⟩ := hbuilt.unfilled rfl
      split
      · refine hreturn _ _ (t.spares_fillNamed hu ty layout _ ?_ fun _ _ _ _ => trivial)
        rw [List.zip_eq_zip_take_min, List.map_fst_zip (by simp)]
        exact hshape.sublist (List.take_sublist _ _)
      · exact hreturn _ _ (t.spares_fillPositional hu layout values 0 fun _ _ => trivial)
  · exact hzero

theorem sparing_compose (ty : Ty) {shape : Shape} (hshape : shape.Distinct)
    (values : List Value) : Attempt.Sparing (t.compose ty shape values) := by
  have hstruct := t.sparing_composeStruct ty hshape values
  have hmap : ∀ key value, Attempt.Sparing (do
      let m ← monadLift Heap.newMap
      t.fillMap m key value values
      return dressed ty (.map (some m)) : Attempt Value) := by
    intro key value h
    exact Attempt.SparingFrom.bind (t.sparingFrom_fillMap (Nat.le_refl h.maps.size) key value values)
      (fun _ => .of_sparing (.pure _)) _ (Heap.gentle_newMap.sparing h)
  unfold compose
  split
  · exact hstruct
  · exact hstruct
  · exact (Gentle.bind (t.gentle_placeElems _ _ _ _) fun _ => .bind (t.gentle_elements _ _ _) fun _ =>
      .bind (.lift (Heap.gentle_newSlice _)) fun _ => .pure _).sparing
  · exact (Gentle.bind (t.gentle_placeElems _ _ _ _) fun _ => .bind (t.gentle_elements _ _ _) fun _ =>
      .bind (.lift (Heap.gentle_newArray _)) fun _ => .pure _).sparing
  · exact hmap _ _
  · exact .throw _

end TypeTable

end StepGraph

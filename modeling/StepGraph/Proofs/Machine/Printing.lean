import StepGraph.Machine.Run
import StepGraph.Proofs.Text.KeyOrder
import StepGraph.Proofs.Types.Embedding

open EStateM (bind_of_ok bind_of_error)

namespace StepGraph

-- The block whose elements are shown as parts of a value.
def Value.shownBlock? : Value → Option BlockId
  | .struct s => some s.block
  | .array b => some b
  | .slice (some w) => some w.block
  | _ => none

namespace Heap

-- What a value shows of its parts comes to an end: no block and no map lies inside itself. Behind
-- pointers nothing is shown. `blocks` and `maps` are those that the value lies in.
inductive Shallow (h : Heap) : List BlockId → List MapId → Value → Prop
  | leaf {blocks : List BlockId} {maps : List MapId} {v : Value} (hblock : v.shownBlock? = none)
      (hmap : ∀ m, v ≠ .map (some m)) (hnamed : ∀ t x, v ≠ .named t x)
      (hu : h.Unfolds [] [] v) : Shallow h blocks maps v
  | named {blocks : List BlockId} {maps : List MapId} {t : String} {v : Value}
      (hv : Shallow h blocks maps v) : Shallow h blocks maps (.named t v)
  | block {blocks : List BlockId} {maps : List MapId} {v : Value} {b : BlockId}
      (hv : v.shownBlock? = some b) (hu : h.Unfolds [] [] v) (hb : b < h.blocks.size)
      (hnew : b ∉ blocks) (hparts : ∀ x ∈ (h.block b).toList, Shallow h (b :: blocks) maps x) :
      Shallow h blocks maps v
  | map {blocks : List BlockId} {maps : List MapId} {m : MapId} (hm : m < h.maps.size)
      (hnew : m ∉ maps)
      (hkeys : ∀ e ∈ h.entries (some m), Shallow h blocks (m :: maps) e.keyValue)
      (hvalues : ∀ e ∈ h.entries (some m), Shallow h blocks (m :: maps) e.value) :
      Shallow h blocks maps (.map (some m))

-- There is room for every block and map in which nothing has been shown yet, and for the pointer
-- in front of all.
structure Depth (h : Heap) (n : Nat) (blocks : List BlockId) (maps : List MapId) : Prop where
  blocks_nodup : blocks.Nodup
  blocks_lt : ∀ b ∈ blocks, b < h.blocks.size
  maps_nodup : maps.Nodup
  maps_lt : ∀ m ∈ maps, m < h.maps.size
  enough : h.blocks.size + h.maps.size < n + blocks.length + maps.length

namespace Depth

variable {h : Heap} {n : Nat} {blocks : List BlockId} {maps : List MapId}

theorem exists_succ (hd : h.Depth n blocks maps) : ∃ m, n = m + 1 := by
  have hblocks : blocks.length ≤ h.blocks.size := Lists.length_le_of_nodup hd.blocks_nodup hd.blocks_lt
  have hmaps : maps.length ≤ h.maps.size := Lists.length_le_of_nodup hd.maps_nodup hd.maps_lt
  have henough := hd.enough
  exact ⟨n - 1, by omega⟩

theorem enter_block {b : BlockId} (hd : h.Depth (n + 1) blocks maps) (hb : b < h.blocks.size)
    (hnew : b ∉ blocks) : h.Depth n (b :: blocks) maps where
  blocks_nodup := List.nodup_cons.mpr ⟨hnew, hd.blocks_nodup⟩
  blocks_lt := List.forall_mem_cons.mpr ⟨hb, hd.blocks_lt⟩
  maps_nodup := hd.maps_nodup
  maps_lt := hd.maps_lt
  enough := by
    rw [List.length_cons]
    have henough := hd.enough
    omega

theorem enter_map {m : MapId} (hd : h.Depth (n + 1) blocks maps) (hm : m < h.maps.size)
    (hnew : m ∉ maps) : h.Depth n blocks (m :: maps) where
  blocks_nodup := hd.blocks_nodup
  blocks_lt := hd.blocks_lt
  maps_nodup := List.nodup_cons.mpr ⟨hnew, hd.maps_nodup⟩
  maps_lt := List.forall_mem_cons.mpr ⟨hm, hd.maps_lt⟩
  enough := by
    rw [List.length_cons]
    have henough := hd.enough
    omega

theorem start (hn : h.blocks.size + h.maps.size < n) : h.Depth n [] [] where
  blocks_nodup := .nil
  blocks_lt _ hb := absurd hb List.not_mem_nil
  maps_nodup := .nil
  maps_lt _ hm := absurd hm List.not_mem_nil
  enough := hn

end Depth

end Heap

-- No type has a method by which its values tell their text.
def TypeTable.Textless (t : TypeTable) : Prop :=
  ∀ typeName, t.method? typeName TypeTable.errorMethod = none ∧ t.method? typeName "String" = none

namespace Services

open Exec

variable {sv : Services} {m : Machine} {v : Value} {name : String} {plus top : Bool} {n : Nat}
  {blocks : List BlockId} {maps : List MapId}

-- An operation gives a result and changes nothing.
def TellsResult {α : Type} (x : Exec α) (m : Machine) : Prop := ∃ a, x m = .ok a m

theorem TellsResult.bind {α β : Type} {x : Exec α} {f : α → Exec β} (hx : TellsResult x m)
    (hf : ∀ a, TellsResult (f a) m) : TellsResult (x >>= f) m := by
  obtain ⟨a, ha⟩ := hx
  obtain ⟨b, hb⟩ := hf a
  exact ⟨b, by rw [bind_of_ok ha, hb]⟩

theorem TellsResult.after {α β : Type} {x : Exec α} {f : α → Exec β} {a : α} (hx : x m = .ok a m)
    (hf : TellsResult (f a) m) : TellsResult (x >>= f) m := by
  obtain ⟨b, hb⟩ := hf
  exact ⟨b, by rw [bind_of_ok hx, hb]⟩

theorem TellsResult.pure {α : Type} (a : α) : TellsResult (pure a) m := ⟨a, rfl⟩

theorem TellsResult.mapM {α β : Type} {l : List α} {f : α → Exec β}
    (hf : ∀ a ∈ l, TellsResult (f a) m) :
    TellsResult (l.mapM f) m := by
  induction l with
  | nil => exact .pure []
  | cons a l ih =>
      obtain ⟨ha, hl⟩ := List.forall_mem_cons.mp hf
      rw [List.mapM_cons]
      exact ha.bind fun _ => (ih hl).bind fun _ => .pure _

theorem hasMethod_of_undeclared {t : TypeTable} {h : Heap} (hu : h.Unfolds [] [] v)
    (hv : ∀ e, v ≠ .error e) (hnone : ∀ typeName, t.method? typeName name = none) :
    t.hasMethod h v name = .ok false := by
  obtain ⟨found, hfound⟩ := TypeTable.hasMethod_ends (t := t) hu name
  cases found with
  | false => exact hfound
  | true =>
      obtain ⟨x, hx, hset⟩ := TypeTable.hasMethod_follow hv hfound
      obtain ⟨y, hy, ht⟩ := hu.follow
      cases hx.symm.trans hy
      obtain ⟨_, w, m, -, hm⟩ := ((TypeTable.methodSet_iff ht).mp hset).exists_at
      unfold TypeTable.declaredMethod? at hm
      cases hname : w.declaredName? with
      | none =>
          rw [hname] at hm
          cases hm
      | some typeName =>
          rw [hname, Option.bind_some, hnone typeName] at hm
          cases hm

-- Without such methods no value gives a text of its own.
theorem ownText_none (ht : sv.types.Textless) (hu : m.heap.Unfolds [] [] v) :
    sv.ownText v m = .ok none m := by
  unfold ownText
  split
  · next hmay =>
      have hv : ∀ e, v ≠ .error e := by
        rintro e rfl
        cases hmay
      have hmethod : ∀ name, (∀ typeName, sv.types.method? typeName name = none) →
          sv.methodText v name m = .ok none m := by
        intro name hnone
        unfold methodText
        rw [bind_of_ok (heap_apply m), hasMethod_of_undeclared hu hv hnone]
        rfl
      rw [bind_of_ok (hmethod _ fun typeName => (ht typeName).1)]
      exact hmethod _ fun typeName => (ht typeName).2
  · rfl

theorem showWith_of_unfolds (ht : sv.types.Textless) (hu : m.heap.Unfolds [] [] v)
    (hnamed : ∀ t x, v ≠ .named t x) (inner : Value → Exec String) :
    sv.showWith inner plus top v m = showBare inner plus top v m := by
  unfold showWith
  split
  · exact absurd rfl (hnamed _ _)
  · rw [bind_of_ok (ownText_none ht hu)]

theorem showWith_named (ht : sv.types.Textless) (t : String) (v : Value)
    (inner : Value → Exec String) :
    sv.showWith inner plus top (.named t v) m = sv.showWith inner plus top v m := by
  conv_lhs => unfold showWith
  rw [bind_of_ok (ownText_none ht (.flat (fun _ hs => by cases hs) fun _ hp => by cases hp))]

theorem mem_sortBy {α : Type} {before : α → α → Bool} {items : List α} {x : α}
    (hx : x ∈ sortBy before items) : x ∈ items := by
  have hfold : ∀ (items sorted : List α),
      x ∈ items.foldl (fun sorted x => insertLast before x sorted) sorted →
        x ∈ items ∨ x ∈ sorted := by
    intro items
    induction items with
    | nil => exact fun sorted hx => .inr hx
    | cons y items ih =>
        intro sorted hx
        rcases ih _ hx with hx | hx
        · exact .inl (List.mem_cons_of_mem y hx)
        · rcases List.mem_cons.mp ((perm_insertLast before y sorted).subset hx) with rfl | hx
          · exact .inl List.mem_cons_self
          · exact .inr hx
  rcases hfold items [] (List.mem_reverse.mp hx) with hx | hx
  · exact hx
  · cases hx

theorem mem_windowElems {h : Heap} {w : Window} {x : Value} (hx : x ∈ h.windowElems w) :
    x ∈ (h.block w.block).toList := by
  unfold Heap.windowElems at hx
  rw [Array.toList_extract] at hx
  exact List.mem_of_mem_drop (List.mem_of_mem_take hx)

-- A value is shown if its parts are, and what a pointer at the top leads to.
theorem tells_showBare {inner : Value → Exec String} (hnamed : ∀ t x, v ≠ .named t x)
    (hpointer : ∀ a, v = .pointer (some a) → ∃ x, m.heap.load a = .ok x ∧
      (top = true → TellsResult (inner x) m))
    (hblock : ∀ b, v.shownBlock? = some b → ∀ x ∈ (m.heap.block b).toList, TellsResult (inner x) m)
    (hmap : ∀ id, v = .map (some id) → ∀ e ∈ m.heap.entries (some id),
      TellsResult (inner e.keyValue) m ∧ TellsResult (inner e.value) m) :
    TellsResult (showBare inner plus top v) m := by
  have hparts : ∀ (items : List Value) (f : List String → String),
      (∀ x ∈ items, TellsResult (inner x) m) → TellsResult (do return f (← items.mapM inner)) m :=
    fun items f hitems => (TellsResult.mapM hitems).bind fun _ => .pure _
  cases v with
  | slice w =>
      refine .after (heap_apply m) (hparts _ (fun texts => "[" ++ spaced texts ++ "]") fun x hx => ?_)
      cases w with
      | none => cases hx
      | some w => exact hblock _ rfl x (mem_windowElems hx)
  | array b => exact .after (heap_apply m) (hparts _ (fun texts => "[" ++ spaced texts ++ "]") (hblock b rfl))
  | struct s =>
      refine .after (heap_apply m) ((TellsResult.mapM fun item hitem => ?_).bind fun _ => .pure _)
      obtain ⟨fieldName, x⟩ := item
      exact (hblock _ rfl x (List.of_mem_zip hitem).2).bind fun _ => .pure _
  | map id =>
      refine .after (heap_apply m) ((TellsResult.mapM fun e he => ?_).bind fun _ => .pure _)
      cases id with
      | none =>
          have he : e ∈ ([] : List Entry) := mem_sortBy he
          cases he
      | some id =>
          obtain ⟨hkey, hvalue⟩ := hmap id rfl e (mem_sortBy he)
          exact hkey.bind fun _ => hvalue.bind fun _ => .pure _
  | pointer a =>
      cases a with
      | none => exact .pure _
      | some a =>
          obtain ⟨x, hx, hinner⟩ := hpointer a rfl
          refine .after (heap_apply m) ?_
          rw [hx]
          refine .after (ofExcept_ok x m) ?_
          split
          · next htop => exact (hinner (Bool.and_eq_true_iff.mp htop).1).bind fun _ => .pure _
          · exact .pure _
  | named t x => exact absurd rfl (hnamed t x)
  | func f =>
      cases f with
      | none => exact .pure _
      | some f => cases f <;> exact .pure _
  | chan c => cases c <;> exact .pure _
  | _ => exact .pure _

theorem tells_showUpTo (ht : sv.types.Textless) (hv : m.heap.Shallow blocks maps v)
    (hd : m.heap.Depth (n + 1) blocks maps) (htarget : top = true → ∀ a x,
      v.unwrap = .pointer (some a) → m.heap.load a = .ok x →
        TellsResult (sv.showUpTo plus n false x) m) :
    TellsResult (sv.showUpTo plus (n + 1) top v) m := by
  unfold showUpTo
  induction hv generalizing n top with
  | @leaf _ _ v hblock hmap hnamed hu =>
      rw [TellsResult, showWith_of_unfolds ht hu hnamed]
      refine tells_showBare hnamed ?_ ?_ ?_
      · rintro a rfl
        cases hu with
        | flat _ hp => exact absurd rfl (hp a)
        | pointer _ hx => exact ⟨_, hx, fun htop => htarget htop a _ rfl hx⟩
      · intro b hb
        cases hblock.symm.trans hb
      · exact fun id hid => absurd hid (hmap id)
  | named _ ih =>
      rw [TellsResult, showWith_named ht]
      exact ih hd htarget
  | @block blocks maps v b hv hu hb hnew _ ih =>
      have hd' : m.heap.Depth n (b :: blocks) maps := hd.enter_block hb hnew
      obtain ⟨n, rfl⟩ := hd'.exists_succ
      have hnamed : ∀ t x, v ≠ .named t x := by
        rintro t x rfl
        cases hv
      rw [TellsResult, showWith_of_unfolds ht hu hnamed]
      refine tells_showBare hnamed ?_ ?_ ?_
      · rintro a rfl
        cases hv
      · intro b' hb' x hx
        cases hv.symm.trans hb'
        exact ih x hx hd' nofun
      · rintro id rfl
        cases hv
  | @map blocks maps id hm hnew _ _ ihkeys ihvalues =>
      have hd' : m.heap.Depth n blocks (id :: maps) := hd.enter_map hm hnew
      obtain ⟨n, rfl⟩ := hd'.exists_succ
      have hu : m.heap.Unfolds [] [] (.map (some id)) :=
        .flat (fun _ hv => by cases hv) fun _ hv => by cases hv
      have hnamed : ∀ t x, Value.map (some id) ≠ .named t x := fun _ _ hv => by cases hv
      rw [TellsResult, showWith_of_unfolds ht hu hnamed]
      refine tells_showBare hnamed ?_ ?_ ?_
      · intro a ha
        cases ha
      · intro b hb
        cases hb
      · intro id' hid e he
        cases hid
        exact ⟨ihkeys e he hd' nofun, ihvalues e he hd' nofun⟩

-- The text of a value is found if neither the value nor what it points to lies inside itself.
theorem tells_showWhole (ht : sv.types.Textless) (hv : m.heap.Shallow [] [] v)
    (htarget : ∀ a x, v.unwrap = .pointer (some a) → m.heap.load a = .ok x →
      m.heap.Shallow [] [] x) (plus : Bool) : TellsResult (sv.showWhole plus v) m := by
  have hroom : m.heap.blocks.size + m.heap.maps.size + 2 ≤ showDepth m.heap := by
    have hsizes := m.heap.sizes_lt_reach
    unfold showDepth
    omega
  obtain ⟨n, hn⟩ : ∃ n, showDepth m.heap = n + 2 := ⟨showDepth m.heap - 2, by omega⟩
  refine .after (heap_apply m) ?_
  rw [hn]
  refine tells_showUpTo ht hv (.start (by omega)) fun _ a x ha hx => ?_
  exact tells_showUpTo ht (htarget a x ha hx) (.start (by omega)) nofun

variable {t : TypeTable} {structs : StructRef → Prop} {s : StructRef}

theorem hasMethod_of_circle {h : Heap} (hc : Heap.Circle t h name structs)
    (hv : h.follow v = .ok (.struct s)) (hs : structs s) :
    t.hasMethod h v name = Heap.fatal .aborted := by
  cases v with
  | struct =>
      cases hv
      exact hc.methodSetUpTo hs _ _
  | pointer a =>
      cases a with
      | none => cases hv
      | some a =>
          have hload : h.load a = .ok (.struct s) := hv
          unfold TypeTable.hasMethod
          simp only [hload]
          exact hc.methodSetUpTo hs _ _
  | _ => cases hv

-- A value in a circle is not shown, since it is asked for its methods first.
theorem showWhole_of_circle (hc : Heap.Circle sv.types m.heap TypeTable.errorMethod structs)
    (hv : m.heap.follow v = .ok (.struct s)) (hs : structs s) (hmay : mayHaveMethods v = true)
    (plus : Bool) : sv.showWhole plus v m = .error (.fatal (.ofCause .aborted)) m := by
  have hown : sv.ownText v m = .error (.fatal (.ofCause .aborted)) m := by
    have hmethod : sv.methodText v TypeTable.errorMethod m =
        .error (.fatal (.ofCause .aborted)) m := by
      unfold methodText
      rw [bind_of_ok (heap_apply m), hasMethod_of_circle hc hv hs]
      rfl
    unfold ownText
    rw [if_pos hmay, bind_of_error hmethod]
  have hnamed : ∀ t x, v ≠ .named t x := by
    rintro t x rfl
    cases hv
  obtain ⟨n, hn⟩ := exists_showDepth m.heap
  unfold showWhole
  rw [bind_of_ok (heap_apply m), hn]
  unfold showUpTo showWith
  split
  · exact absurd rfl (hnamed _ _)
  · rw [bind_of_error hown]

-- The searches for fields and methods, the tests of a value against a type and the printing of
-- values end where no value lies inside itself. Where the embedded fields of a value run in a
-- circle without the name there is no number of steps in which they end.
theorem searches_end_outside_circles (sv : Services) (m : Machine) (v : Value) :
    (m.heap.Unfolds [] [] v →
      (∀ name, Heap.Over (m.heap.locate v name)) ∧
      (∀ name, ∃ found, sv.types.hasMethod m.heap v name = .ok found) ∧
      (∀ name x pointer, m.heap.follow v = .ok x →
        ∃ r h', (sv.types.method x pointer name).run m.heap = (.ok r, h')) ∧
      (∀ ty, ∃ holds, sv.types.holdsType m.heap v ty = .ok holds) ∧
      (sv.types.Textless → m.heap.Shallow [] [] v →
        (∀ a x, v.unwrap = .pointer (some a) → m.heap.load a = .ok x → m.heap.Shallow [] [] x) →
          ∀ plus, ∃ text, sv.showWhole plus v m = .ok text m)) ∧
    ∀ structs s, m.heap.follow v = .ok (.struct s) → structs s →
      (∀ name, Heap.Circle sv.types m.heap name structs →
        (∀ n, m.heap.locateUpTo name n v = Heap.fatal .aborted) ∧
        (∀ n pointer, sv.types.methodSetUpTo m.heap name n pointer (.struct s) =
          Heap.fatal .aborted) ∧
        (∀ n pointer, ∃ h', (sv.types.methodUpTo name n (.struct s) pointer).run m.heap =
          (Heap.fatal .aborted, h')) ∧
        ∀ names, sv.types.holdsType m.heap v (.interface (name :: names)) =
          Heap.fatal .aborted) ∧
      (Heap.Circle sv.types m.heap TypeTable.errorMethod structs → mayHaveMethods v = true →
        ∀ plus, sv.showWhole plus v m = .error (.fatal (.ofCause .aborted)) m) := by
  refine ⟨fun hu => ⟨fun name => ?_, fun name => ?_, fun name x pointer hx => ?_, fun ty => ?_,
    fun ht hv htarget plus => ?_⟩, fun structs s hv hs => ⟨fun name hc => ⟨fun n => ?_,
      fun n pointer => ?_, fun n pointer => ?_, fun names => ?_⟩, fun hc hmay plus => ?_⟩⟩
  · exact Heap.over_locateUpTo hu .start name
  · exact TypeTable.hasMethod_ends hu name
  · obtain ⟨y, hy, htree⟩ := hu.follow
    cases hx.symm.trans hy
    obtain ⟨r, h', hrun, -⟩ :
        ∃ r h', (sv.types.method x pointer name).run m.heap = (.ok r, h') ∧ _ ∧ _ :=
      TypeTable.method_search htree pointer
    exact ⟨r, h', hrun⟩
  · exact TypeTable.holdsType_ends hu ty
  · exact tells_showWhole ht hv htarget plus
  · exact hc.locateUpTo hv hs n
  · exact hc.methodSetUpTo hs n pointer
  · exact hc.methodUpTo hs (.refl m.heap) n pointer
  · have hbare : v.isBareNil = false := by
      cases v with
      | nil => cases hv
      | _ => rfl
    rw [TypeTable.holdsType_of_interface rfl, hbare]
    unfold TypeTable.hasMethods
    rw [hasMethod_of_circle hc hv hs]
    rfl
  · exact showWhole_of_circle hc hv hs hmay plus

-- A `T` embeds a pointer to a `T`. The pointer is nil, or it leads back to the struct.
def embeddingT : StructRef := ⟨⟨[⟨"T", .pointer (.named "T"), true⟩]⟩, 0, some "T"⟩

def withEmbedded (a : Option Address) : Machine :=
  ⟨{ Heap.empty with blocks := #[#[.pointer a]], cells := #[.boxed (.struct embeddingT)] },
    .start 0, #[], none, none, .silent⟩

theorem circle_of_embedded (hname : name ≠ "T") :
    Heap.Circle ⟨[]⟩ (withEmbedded (some 1)).heap name (· = embeddingT) where
  no_field := by
    rintro s rfl
    have hne : ("T" == name) = false := beq_false_of_ne (Ne.symm hname)
    simp [embeddingT, Layout.index?, Layout.names, List.zipIdx, hne]
  no_method := by
    rintro s rfl
    rfl
  goes_on := by
    rintro s rfl
    exact ⟨0, [], .pointer (some 1), embeddingT, rfl, rfl, rfl, rfl⟩

-- Pointers to the struct in both cases.
theorem nil_is_shown_and_circle_is_not :
    let sv : Services := ⟨⟨[]⟩, fun _ _ => throw .exhausted⟩
    (∃ text, sv.showWhole false (.pointer (some 1)) (withEmbedded none) =
      .ok text (withEmbedded none)) ∧
    sv.showWhole false (.pointer (some 1)) (withEmbedded (some 1)) =
      .error (.fatal (.ofCause .aborted)) (withEmbedded (some 1)) := by
  intro sv
  have hfield : (withEmbedded none).heap.Unfolds [0] [1] (.pointer none) :=
    .flat (fun _ hv => by cases hv) fun _ hv => by cases hv
  have hpointer : (withEmbedded none).heap.Unfolds [] [] (.pointer (some 1)) := by
    refine .pointer List.not_mem_nil rfl (.struct embeddingT (by decide) List.not_mem_nil ?_)
    exact List.forall_mem_singleton.mpr hfield
  have hstruct : (withEmbedded none).heap.Unfolds [] [] (.struct embeddingT) := by
    refine .struct embeddingT (by decide) List.not_mem_nil ?_
    exact List.forall_mem_singleton.mpr (hfield.mono (List.Subset.refl _) (List.nil_subset _))
  have hleaf : ∀ {blocks : List BlockId} {a : Option Address},
      (withEmbedded none).heap.Unfolds [] [] (.pointer a) →
        (withEmbedded none).heap.Shallow blocks [] (.pointer a) := fun hu =>
    .leaf rfl (fun _ hv => by cases hv) (fun _ _ hv => by cases hv) hu
  have hmain := searches_end_outside_circles sv
  refine ⟨((hmain (withEmbedded none) (.pointer (some 1))).1 hpointer).2.2.2.2
    (fun _ => ⟨rfl, rfl⟩) (hleaf hpointer) ?_ false, ?_⟩
  · intro a x ha hx
    cases ha
    cases hx
    refine .block (b := 0) rfl hstruct (by decide) List.not_mem_nil ?_
    exact List.forall_mem_singleton.mpr
      (hleaf (hfield.mono (List.nil_subset _) (List.nil_subset _)))
  · exact ((hmain (withEmbedded (some 1)) (.pointer (some 1))).2 (· = embeddingT) embeddingT rfl
      rfl).2 (circle_of_embedded (by decide)) rfl false

-- A pointer to a struct that embeds the pointer itself is no value in which a search ends.
theorem embedded_pointer_to_itself_is_followed_forever :
    let p : Program := ⟨#[], ⟨[]⟩, [], 1, false⟩
    let m : Machine := withEmbedded (some 1)
    let v : Value := .pointer (some 1)
    (∀ n, m.heap.locateUpTo "x" n v = Heap.fatal .aborted) ∧
      p.select v "x" m = .error (.fatal (.ofCause .aborted)) m ∧
      p.types.holdsType m.heap v (.interface ["M"]) = Heap.fatal .aborted ∧
      (p.services 1).showWhole false v m = .error (.fatal (.ofCause .aborted)) m := by
  intro p m v
  have hx : Heap.Circle p.types m.heap "x" (· = embeddingT) := circle_of_embedded (by decide)
  have hM : Heap.Circle p.types m.heap "M" (· = embeddingT) := circle_of_embedded (by decide)
  refine ⟨hx.locateUpTo rfl rfl, ?_, ?_, ?_⟩
  · have hlocate : m.heap.locate v "x" = Heap.fatal .aborted := hx.locateUpTo rfl rfl _
    change (heap >>= fun h => ofExcept (h.locate v "x") >>= _) m = _
    rw [bind_of_ok (heap_apply m), hlocate]
    rfl
  · rw [TypeTable.holdsType_of_interface rfl]
    unfold TypeTable.hasMethods
    rw [hasMethod_of_circle hM rfl rfl]
    rfl
  · have hError : Heap.Circle (p.services 1).types m.heap TypeTable.errorMethod (· = embeddingT) :=
      circle_of_embedded (by decide)
    exact showWhole_of_circle hError rfl rfl rfl false

end Services

end StepGraph

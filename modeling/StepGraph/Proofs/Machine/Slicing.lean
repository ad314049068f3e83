import StepGraph.Machine.Builtins
import StepGraph.Machine.Step
import StepGraph.Proofs.Machine.Attempts
import StepGraph.Proofs.Store.Assignment
import StepGraph.Proofs.Store.Cells
import StepGraph.Proofs.Store.Outline
import StepGraph.Proofs.Store.Windows
import Mathlib.Logic.Relation

open EStateM (bind_apply bind_of_ok bind_eq_ok)

namespace StepGraph

open Exec
open Heap (BringsValues GrowsByBlocks)

namespace Heap

variable {h : Heap} {s : Option Window} {values : List Value}

-- With values that stand in new blocks behind elements that stand in none, the new slice stands
-- apart from the old one.
theorem append_apart {h₀ : Heap} {bs : List BlockId} (hs : h₀.ValidSlice s)
    (hshort : sliceCapacity s < sliceLength s + values.length)
    (hnew : BringsValues h₀ h values) (hregion : h₀.Region bs) (hmem : ∀ w, s = some w →
      w.block ∈ bs)
    (hflat : ∀ v ∈ h₀.sliceElems s, v.home? = none) :
    ∃ t h', append s values h = (some t, h') ∧
      h'.sliceElems (some t) = h₀.sliceElems s ++ values ∧
      h'.sliceElems s = h₀.sliceElems s ∧
      ∀ w, s = some w → h'.StandApart w.block t.block := by
  have hvalues : values ≠ [] := by
    rintro rfl
    exact Nat.not_lt_of_le hs.length_le hshort
  obtain ⟨first, rest, rfl⟩ := List.exists_cons_of_ne_nil hvalues
  have hs' : h.ValidSlice s := hnew.grows.validSlice hs
  obtain ⟨t, h', happend, -, ha⟩ := appended_anew hs' hshort
  have hg : GrowsByBlocks h₀ h' := hnew.grows.trans ha.grows
  have hold : h.sliceElems s = h₀.sliceElems s := hnew.grows.sliceElems hs
  refine ⟨t, h', happend, ?_, hg.sliceElems hs, fun w hw => ?_⟩
  · rw [ha.shows hs', hold]
  · obtain ⟨hgrown, ds, hds, hlate, hin⟩ := hnew
    obtain ⟨-, fs, hfs, hlate', hin'⟩ := ha.filled
    refine ⟨bs, t.block :: (ds ++ fs), hregion.grow hg, ?_, hmem w hw, List.mem_cons_self, ?_⟩
    · refine ((hds.grow ha.grows).append hfs).cons ha.new.2 fun v hv => ?_
      have hsub : ds ++ fs ⊆ t.block :: (ds ++ fs) := List.subset_cons_self _ _
      rw [ha.elems, hold] at hv
      rcases List.mem_append.mp hv with hv | hv
      · rcases List.mem_append.mp hv with hv | hv
        · exact .of_none (hflat v hv)
        · exact (hin v hv).mono (List.Subset.trans (List.subset_append_left _ _) hsub)
      · obtain rfl := List.eq_of_mem_replicate hv
        exact (hin' _ List.mem_cons_self).mono
          (List.Subset.trans (List.subset_append_right _ _) hsub)
    -- whatever is new has a number that no block had
    · intro c hc hc'
      have hlt := hregion.lt_size c hc
      refine Nat.not_lt_of_le ?_ hlt
      rcases List.mem_cons.mp hc' with rfl | hc'
      · exact Nat.le_trans hgrown.size ha.new.1
      · rcases List.mem_append.mp hc' with hc' | hc'
        · exact hlate c hc'
        · exact Nat.le_trans hgrown.size (hlate' c hc')

end Heap

namespace Program

variable {p : Program}

theorem brings_converted (ty : Option Ty) {h h' : Heap} {v : Value} (hv : BringsValues h h' [v]) :
    BringsValues h (p.converted ty v h').2 [(p.converted ty v h').1] := by
  cases ty with
  | none => exact hv
  | some ty =>
    by_cases hnil : v.isBareNil
    · obtain rfl : v = .nil := by cases v <;> simp_all [Value.isBareNil]
      rw [converted_nil]
      obtain ⟨hg, bs, hr, hlate, hin⟩ := Heap.brings_ofConstant (p.types.zero ty) h'
      exact ⟨hv.grows.trans hg, bs, hr, fun b hb => Nat.le_trans hv.grows.size (hlate b hb), hin⟩
    · rw [converted_settle p ty (by simpa using hnil)]
      rcases p.types.settle_unwrap v ty with hsame | ⟨hnumber, hnumber'⟩
      · exact hv.rewrap hsame
      · obtain ⟨hg, bs, hr, hlate, -⟩ := hv
        refine ⟨hg, bs, hr, hlate, fun w hw => ?_⟩
        obtain rfl := List.mem_singleton.mp hw
        refine .of_none ?_
        unfold Value.home?
        cases hu : (p.types.settle v ty).unwrap <;> first | rfl | (rw [hu] at hnumber'; cases hnumber')

-- A copy of a value, converted for a place, has blocks of its own.
theorem brings_copy (ty : Option Ty) {h : Heap} {v : Value} {c : Content} (hv : h.HasContent v c)
    (hsep : c.Separable) :
    BringsValues h (p.converted ty (Heap.copy v h).1 (Heap.copy v h).2).2
      [(p.converted ty (Heap.copy v h).1 (Heap.copy v h).2).1] :=
  brings_converted ty (.of_fresh (Heap.fresh_copy hv hsep))

-- An assignment of a value to something that is inside a block.
inductive AssignsIn (p : Program) (b : BlockId) (m : Machine) : Machine → Prop
  | assign {target : Target} {operands : List Value} {v : Value} {c : Content} {e : BlockId}
      {i : Nat} {m' : Machine} (hv : m.heap.HasContent v c) (hsep : c.Separable)
      (hplace : place? { m with heap := (Heap.copy v m.heap).2 } target operands =
        some (.element e i))
      (he : m.heap.Inside b e) (hi : (m.heap.element? e i).isSome)
      (hstore : p.storeAll [target] [operands] [v] m = .ok () m') : AssignsIn p b m m'

-- What is assigned inside one of two blocks that stand apart does not change the other one, and
-- they go on standing apart.
theorem AssignsIn.apart {b d : BlockId} {m m' : Machine} (h : p.AssignsIn d m m')
    (ha : m.heap.StandApart b d) :
    m'.heap.StandApart b d ∧ ∀ c, m.heap.Inside b c → m'.heap.block c = m.heap.block c := by
  cases h with
  | @assign target operands v c e i _ hv hsep hplace he hi hstore =>
    have hg : GrowsByBlocks m.heap (Heap.copy v m.heap).2 := Heap.grows_copyUpTo _ v m.heap
    have hread : ((Heap.copy v m.heap).2.read? (.element e i)).isSome := by
      obtain ⟨x, hx⟩ := Option.isSome_iff_exists.mp hi
      have hold : m.heap.read? (.element e i) = some x := hx
      rw [hg.read? hold]
      rfl
    have hstored := storeTarget_place p hplace hread (Heap.copy v m.heap).1
    unfold storeAll at hstore
    rw [bind_of_ok (monadLift_apply _ m), bind_of_ok hstored] at hstore
    cases hstore
    exact ha.store he (brings_copy _ hv hsep) i

-- Any assignments inside two blocks that stand apart, in any order.
theorem apart_of_assigns {b d : BlockId} {m m' : Machine} (ha : m.heap.StandApart b d)
    (h : Relation.ReflTransGen (fun m m' => p.AssignsIn b m m' ∨ p.AssignsIn d m m') m m') :
    m'.heap.StandApart b d := by
  induction h with
  | refl => exact ha
  | tail _ hstep ih =>
    rcases hstep with hstep | hstep
    · exact (hstep.apart ih.symm).1.symm
    · exact (hstep.apart ih).1

-- The arguments of an append, copied and in the element type where it is known.
def appended (p : Program) (elem : Option Ty) (v : Value) : Exec Value := do
  let v ← Heap.copy v
  match elem with
  | some elem => p.coerce v elem
  | none => return v

theorem appended_apply (elem : Option Ty) (v : Value) (m : Machine) : p.appended elem v m =
    .ok (p.converted elem (Heap.copy v m.heap).1 (Heap.copy v m.heap).2).1
      { m with heap := (p.converted elem (Heap.copy v m.heap).1 (Heap.copy v m.heap).2).2 } := by
  cases elem <;> rfl

theorem mapM_appended_cons {elem : Option Ty} {v : Value} {args items : List Value} {m : Machine}
    {h' : Heap}
    (hrest : args.mapM (p.appended elem)
        { m with heap := (p.converted elem (Heap.copy v m.heap).1 (Heap.copy v m.heap).2).2 } =
      .ok items { m with heap := h' }) :
    (v :: args).mapM (p.appended elem) m =
      .ok ((p.converted elem (Heap.copy v m.heap).1 (Heap.copy v m.heap).2).1 :: items)
        { m with heap := h' } := by
  rw [List.mapM_cons, bind_of_ok (appended_apply elem v m), bind_of_ok hrest]
  rfl

theorem brings_appended (elem : Option Ty) {args : List Value} {m : Machine}
    (hargs : ∀ v ∈ args, ∃ c, m.heap.HasContent v c ∧ c.Separable) :
    ∃ items h', args.mapM (p.appended elem) m = .ok items { m with heap := h' } ∧
      BringsValues m.heap h' items ∧ items.length = args.length := by
  induction args generalizing m with
  | nil => exact ⟨[], m.heap, rfl, .nil _, rfl⟩
  | cons v args ih =>
    obtain ⟨c, hv, hsep⟩ := hargs v List.mem_cons_self
    have hbrings := brings_copy (p := p) elem hv hsep
    obtain ⟨items, h', hmap, hitems, hlen⟩ := ih (m := { m with heap := _ }) fun w hw => by
      obtain ⟨d, ⟨bs, hs, hn⟩, hsep⟩ := hargs w (List.mem_cons_of_mem _ hw)
      exact ⟨d, ⟨bs, hbrings.grows.shows hs, hn⟩, hsep⟩
    exact ⟨_, h', mapM_appended_cons hmap, hbrings.cons hitems, congrArg (· + 1) hlen⟩

-- The arguments behind the slice, where the last one is replaced by its elements if it is spread.
def appendedArgs (args : List Value) (spread : Bool) : Exec (List Value) :=
  if spread then expandSpread args else pure args

theorem appendValues_apply {ty : Option Ty} {base : Value} {args given items : List Value}
    {spread : Bool} {m : Machine} {name : Option String} {s : Option Window} {h : Heap}
    (hbase : appendBase base m = .ok (name, s) m) (hgiven : appendedArgs args spread m = .ok given m)
    (hitems : given.mapM (p.appended ((ty.map p.types.resolve).bind Ty.elem?)) m =
      .ok items { m with heap := h }) :
    p.appendValues ty (base :: args) spread m =
      .ok ((Value.slice (Heap.append s items h).1).wearing name)
        { m with heap := (Heap.append s items h).2 } := by
  have hcons : p.appendValues ty (base :: args) spread = (appendBase base >>= fun r =>
      appendedArgs args spread >>= fun given =>
        given.mapM (p.appended ((ty.map p.types.resolve).bind Ty.elem?)) >>= fun items =>
          onHeap (Heap.append r.2 items) >>= fun w => pure ((Value.slice w).wearing r.1)) := by
    cases spread <;> rfl
  rw [hcons, bind_of_ok hbase, bind_of_ok hgiven, bind_of_ok hitems, bind_of_ok (onHeap_apply _ _)]
  rfl

-- An append that runs out of capacity makes a slice that shows the elements of the old one and
-- copies of the values given to it, one by one or as the elements of a slice. As long as no element of the old slice is a struct or an
-- array, no assignment inside the one slice changes anything inside the other, whatever has been
-- assigned inside the two before. An element that is a struct or an array is in both slices.
theorem reallocated_slice_stands_apart (sv : Services) (ty : Option Ty) (base : Value)
    (args : List Value) (spread : Bool) {given : List Value} {m : Machine} {name : Option String}
    {s : Option Window} {bs : List BlockId} (hbase : appendBase base m = .ok (name, s) m)
    (hgiven : appendedArgs args spread m = .ok given m) (hvalid : m.heap.ValidSlice s)
    (hshort : Heap.sliceCapacity s < Heap.sliceLength s + given.length)
    (hargs : ∀ v ∈ given, ∃ c, m.heap.HasContent v c ∧ c.Separable)
    (hregion : m.heap.Region bs) (hs : ∀ w, s = some w → w.block ∈ bs)
    (hflat : ∀ v ∈ m.heap.sliceElems s, v.home? = none) :
    ∃ t items m', p.callBuiltin sv .append ty (base :: args) spread m =
        .ok [(Value.slice (some t)).wearing name] m' ∧
      items.length = given.length ∧
      m'.heap.sliceElems (some t) = m.heap.sliceElems s ++ items ∧
      m'.heap.sliceElems s = m.heap.sliceElems s ∧
      ∀ w, s = some w → ∀ m₁ m₂,
        Relation.ReflTransGen (fun m m' => p.AssignsIn w.block m m' ∨ p.AssignsIn t.block m m')
          m' m₁ →
        (p.AssignsIn t.block m₁ m₂ →
          ∀ c, m₁.heap.Inside w.block c → m₂.heap.block c = m₁.heap.block c) ∧
        (p.AssignsIn w.block m₁ m₂ →
          ∀ c, m₁.heap.Inside t.block c → m₂.heap.block c = m₁.heap.block c) := by
  obtain ⟨items, h₁, hmap, hitems, hcount⟩ :=
    brings_appended (p := p) ((ty.map p.types.resolve).bind Ty.elem?) hargs
  obtain ⟨t, h₂, happend, hshows, hkeeps, hapart⟩ :=
    Heap.append_apart hvalid (hcount ▸ hshort) hitems hregion hs hflat
  refine ⟨t, items, { m with heap := h₂ }, ?_, hcount, hshows, hkeeps, fun w hw m₁ m₂ hruns => ?_⟩
  · have hvalues : p.appendValues ty (base :: args) spread m =
        .ok ((Value.slice (some t)).wearing name) { m with heap := h₂ } := by
      rw [appendValues_apply hbase hgiven hmap, happend]
    unfold callBuiltin
    simp only
    rw [bind_of_ok hvalues]
    rfl
  · have happly := apart_of_assigns (hapart w hw) hruns
    exact ⟨fun hstep => (hstep.apart happly).2, fun hstep => (hstep.apart happly.symm).2⟩

-- A vector of one element in the first block. The second block is there for a struct.
def withElement (v : Value) : Machine :=
  { Machine.start .silent with
    heap := { Heap.empty with blocks := #[#[v], #[.plainInt 1]] } }

def oneLong : Window := ⟨0, 0, 1, 1⟩

def noServices : Services := ⟨.initial, fun _ _ => fatal (.custom "no calls")⟩

theorem reallocated_ints_stand_apart : ∃ t m',
    blank.callBuiltin noServices .append none [.slice (some oneLong), .plainInt 2] false
      (withElement (.plainInt 1)) = .ok [.slice (some t)] m' ∧
    m'.heap.sliceElems (some oneLong) = [.plainInt 1] ∧
    ∀ m₂, blank.AssignsIn t.block m' m₂ → m₂.heap.sliceElems (some oneLong) = [.plainInt 1] := by
  have hflat : ∀ v ∈ (withElement (.plainInt 1)).heap.sliceElems (some oneLong), v.home? = none := by
    intro v hv
    obtain rfl := List.mem_singleton.mp hv
    rfl
  have hregion : (withElement (.plainInt 1)).heap.Region [0] := by
    refine ⟨by decide, fun b hb v hv => .of_none ?_⟩
    obtain rfl := List.mem_singleton.mp hb
    obtain rfl := List.mem_singleton.mp hv
    rfl
  obtain ⟨t, -, m', happend, -, -, hkeeps, hapart⟩ := reallocated_slice_stands_apart (p := blank)
    noServices none (.slice (some oneLong)) [.plainInt 2] false rfl rfl
    (Heap.validSlice_some.mpr ⟨by decide, by decide, by decide⟩) (by decide)
    (fun v hv => by
      obtain rfl := List.mem_singleton.mp hv
      exact ⟨.leaf (.plainInt 2), ⟨[], .leaf _ rfl, .nil⟩, trivial⟩)
    hregion (fun w hw => by cases hw; exact List.mem_cons_self) hflat
  refine ⟨t, m', happend, hkeeps, fun m₂ hstep => ?_⟩
  have hsame := ((hapart oneLong rfl m' m₂ .refl).1 hstep) 0 .self
  change ((m₂.heap.block 0).extract _ _).toList = _
  rw [hsame]
  exact hkeeps

-- An element that is a struct: a field of it is assigned through the new slice, and the old one
-- shows the change.
theorem appended_struct_is_shared : ∃ t m' m₂,
    blank.callBuiltin noServices .append none
        [.slice (some oneLong), .struct ⟨singleField "x", 1, some "T"⟩] false
      (withElement (.struct ⟨singleField "x", 1, some "T"⟩)) = .ok [.slice (some t)] m' ∧
    blank.AssignsIn t.block m' m₂ ∧ m'.heap.Inside oneLong.block 1 ∧
    m'.heap.block 1 = #[.plainInt 1] ∧ m₂.heap.block 1 = #[.plainInt 9] := by
  exact ⟨_, _, _, rfl, @AssignsIn.assign blank _ _ (.field "x")
    [.struct ⟨singleField "x", 1, some "T"⟩] (.plainInt 9) _ 1 0 _ ⟨[], .leaf _ rfl, .nil⟩ trivial rfl
    (.part .self List.mem_cons_self rfl) rfl rfl, .part .self List.mem_cons_self rfl, rfl, rfl⟩

end Program

end StepGraph

namespace StepGraph

open Exec
open Heap (InBounds ValidSlice Backed sliceLength sliceCapacity)

variable {s t : Option Window} {v v' : Value} {m m' : Machine}

namespace Value

-- The value with another slice inside its declared types.
def withWindow (t : Option Window) : Value → Value
  | named name v => .named name (v.withWindow t)
  | slice _ => .slice t
  | v => v

theorem unwrap_withWindow (hv : v.unwrap = .slice s) (t : Option Window) :
    (v.withWindow t).unwrap = .slice t := by
  induction v with
  | named name v ih => exact ih hv
  | slice w => rfl
  | _ => cases hv

theorem withWindow_withWindow (v : Value) (s t : Option Window) :
    (v.withWindow s).withWindow t = v.withWindow t := by
  induction v with
  | named name v ih => exact congrArg (Value.named name) ih
  | _ => rfl

end Value

namespace Program

namespace Bounds

-- The bounds that are given or left out stand in order within a capacity.
def Fits (b : Bounds) (length capacity : Nat) : Prop :=
  0 ≤ b.low.getD 0 ∧ b.low.getD 0 ≤ b.high.getD length ∧
    b.high.getD length ≤ b.max.getD capacity ∧ b.max.getD capacity ≤ capacity

instance (b : Bounds) (length capacity : Nat) : Decidable (b.Fits length capacity) :=
  inferInstanceAs (Decidable (_ ∧ _ ∧ _ ∧ _))

-- What the bounds cut out of a window.
def cut (b : Bounds) (s : Option Window) : Option Window :=
  s.map fun w => ⟨w.block, w.offset + (b.low.getD 0).toNat,
    (b.high.getD (sliceLength s)).toNat - (b.low.getD 0).toNat,
    (b.max.getD (sliceCapacity s)).toNat - (b.low.getD 0).toNat⟩

theorem window_apply (b : Bounds) (length capacity : Nat) (m : Machine) :
    b.window length capacity m =
      if b.Fits length capacity then
        .ok ((b.low.getD 0).toNat, (b.high.getD length).toNat, (b.max.getD capacity).toNat) m
      else (fault (.boundsOutOfRange (b.low.getD 0) (b.high.getD length) capacity) :
        Exec (Nat × Nat × Nat)) m := by
  by_cases hb : b.Fits length capacity
  · rw [if_pos hb]
    obtain ⟨hlow, hhigh, hmax, hcapacity⟩ := hb
    exact congrFun (if_neg (by omega)) m
  · rw [if_neg hb]
    unfold Fits at hb
    exact congrFun (if_pos (by omega)) m

theorem window_ok {b : Bounds} {length capacity : Nat} {r : Nat × Nat × Nat}
    (h : b.window length capacity m = .ok r m') : m' = m ∧ b.Fits length capacity ∧
      r = ((b.low.getD 0).toNat, (b.high.getD length).toNat, (b.max.getD capacity).toNat) := by
  rw [window_apply] at h
  split at h
  · next hfits =>
    cases h
    exact ⟨rfl, hfits, rfl⟩
  · exact absurd h (fault_ne_ok _ _ _ _)

theorem Fits.reslice {b : Bounds} (hb : b.Fits (sliceLength s) (sliceCapacity s)) :
    Heap.reslice? s (b.low.getD 0).toNat (b.high.getD (sliceLength s)).toNat
      (b.max.getD (sliceCapacity s)).toNat = some (b.cut s) := by
  obtain ⟨hlow, hhigh, hmax, hcapacity⟩ := hb
  rw [Heap.reslice?_eq, if_pos (by omega)]
  rfl

-- The bounds of a part of a part, counted from the start of the whole.
def after (b : Bounds) (low high max : Int) : Bounds :=
  ⟨some (b.low.getD 0 + low), some (b.low.getD 0 + high), some (b.low.getD 0 + max)⟩

-- A part of a part of a slice is a part of the slice.
theorem Fits.after {b : Bounds} {low high max : Int}
    (hb : b.Fits (sliceLength s) (sliceCapacity s))
    (hc : Fits ⟨some low, some high, some max⟩ (sliceLength (b.cut s)) (sliceCapacity (b.cut s))) :
    (b.after low high max).Fits (sliceLength s) (sliceCapacity s) ∧
      (b.after low high max).cut s = cut ⟨some low, some high, some max⟩ (b.cut s) := by
  obtain ⟨hlow, hhigh, hmax, hcapacity⟩ := hb
  obtain ⟨hlow', hhigh', hmax', hcapacity'⟩ := hc
  simp only [Option.getD_some] at hlow' hhigh' hmax' hcapacity'
  unfold Bounds.after Fits
  simp only [Option.getD_some]
  cases s with
  | none =>
    have hcut : sliceCapacity (b.cut none) = 0 := rfl
    rw [hcut] at hcapacity'
    exact ⟨by omega, rfl⟩
  | some w =>
    have hcut : sliceCapacity (b.cut (some w)) =
        (b.max.getD (sliceCapacity (some w))).toNat - (b.low.getD 0).toNat := rfl
    rw [hcut] at hcapacity'
    refine ⟨by omega, ?_⟩
    simp only [cut, Option.map_some, Option.getD_some, Option.some.injEq, Window.mk.injEq, true_and]
    omega

end Bounds

-- A slice expression takes a part of a slice, which may be of a declared type, exactly if the bounds
-- stand in order within its capacity. It leaves the machine as it is.
theorem slice_apply (b : Bounds) (hv : v.unwrap = .slice s) (m : Machine) :
    slice b v m =
      if b.Fits (sliceLength s) (sliceCapacity s) then .ok (v.withWindow (b.cut s)) m
      else (fault (.boundsOutOfRange (b.low.getD 0) (b.high.getD (sliceLength s)) (sliceCapacity s)) :
        Exec Value) m := by
  induction v with
  | slice w =>
    obtain rfl : w = s := by cases hv; rfl
    by_cases hb : b.Fits (sliceLength w) (sliceCapacity w)
    · have hwindow := b.window_apply (sliceLength w) (sliceCapacity w) m
      rw [if_pos hb] at hwindow ⊢
      unfold slice
      rw [bind_of_ok hwindow]
      simp only [hb.reslice]
      rfl
    · have hwindow := b.window_apply (sliceLength w) (sliceCapacity w) m
      rw [if_neg hb] at hwindow ⊢
      unfold slice
      rw [bind_apply, hwindow]
      rfl
  | named name v ih =>
    -- an array is not a slice, so the declared type stays
    have hname : slice b (.named name v) = slice b v >>= fun inner => pure (.named name inner) := by
      cases v <;> first | rfl | cases hv
    by_cases hb : b.Fits (sliceLength s) (sliceCapacity s)
    · have hinner := ih hv
      rw [if_pos hb] at hinner ⊢
      rw [hname, bind_of_ok hinner]
      rfl
    · have hinner := ih hv
      rw [if_neg hb] at hinner ⊢
      rw [hname, bind_apply, hinner]
      rfl
  | _ => cases hv

-- An array that is there is cut into a slice that is valid.
theorem backed_sliceArray {block : BlockId} {b : Bounds} (hblock : block < m.heap.blocks.size)
    (h : sliceArray block b m = .ok v' m') : m' = m ∧ m.heap.Backed v' := by
  unfold sliceArray at h
  rw [bind_of_ok (heap_apply m)] at h
  obtain ⟨⟨low, high, max⟩, m₁, hwindow, hdone⟩ := bind_eq_ok.mp h
  obtain ⟨rfl, ⟨hlow, hhigh, hmax, hcapacity⟩, hbounds⟩ := Bounds.window_ok hwindow
  simp only [Prod.mk.injEq] at hbounds
  obtain ⟨rfl, rfl, rfl⟩ := hbounds
  cases hdone
  exact ⟨rfl, Heap.validSlice_some.mpr ⟨hblock, by simp only; omega, by simp only; omega⟩⟩

-- Whatever has its block or its array, each of its parts has it too.
theorem backed_slice {b : Bounds} (hv : m.heap.Backed v) (h : slice b v m = .ok v' m') :
    m' = m ∧ m.heap.Backed v' := by
  induction v generalizing v' m' with
  | named name v ih =>
    unfold slice at h
    obtain ⟨inner, m₁, hinner, hdone⟩ := bind_eq_ok.mp h
    obtain ⟨rfl, hbacked⟩ := ih hv hinner
    cases v <;> (cases hdone; exact ⟨rfl, hbacked⟩)
  | str text =>
    unfold slice at h
    obtain ⟨⟨low, high, max⟩, m₁, hwindow, hdone⟩ := bind_eq_ok.mp h
    obtain ⟨rfl, -, -⟩ := Bounds.window_ok hwindow
    cases hdone
    exact ⟨rfl, trivial⟩
  | slice w =>
    rw [slice_apply b rfl m] at h
    split at h
    · next hfits =>
      cases h
      exact ⟨rfl, ValidSlice.reslice hv hfits.reslice⟩
    · exact absurd h (fault_ne_ok _ _ _ _)
  | array block => exact backed_sliceArray hv h
  | pointer a =>
    unfold slice at h
    rw [bind_of_ok (heap_apply m)] at h
    obtain ⟨target, m₁, hload, hdone⟩ := bind_eq_ok.mp h
    obtain ⟨hderef, rfl⟩ := ofExcept_eq_ok.mp hload
    split at hdone
    · exact backed_sliceArray (hv _ hderef) hdone
    · exact absurd hdone (notDefined_ne_ok _ _ _ _ _)
  | nil =>
    cases h
    exact ⟨rfl, Heap.validSlice_none m.heap⟩
  | _ => exact absurd h (notDefined_ne_ok _ _ _ _ _)

-- The three bounds of a step that has them all are integers of any type, read as 64 bits.
theorem work_slice (p : Program) {low high max : Value} {rest : List Value} {l h k : IntValue}
    (hoperands : m.frame.operands = max :: high :: low :: v :: rest)
    (hl : low.int? = some l) (hh : high.int? = some h) (hk : max.int? = some k)
    (hv : v.unwrap = .slice s) :
    let b : Bounds := ⟨some l.toInt64, some h.toInt64, some k.toInt64⟩
    let popped := { m with frame := { m.frame with operands := rest } }
    p.work (.slice true true true) m =
      if b.Fits (sliceLength s) (sliceCapacity s) then
        .ok () { m with frame := { m.frame with operands := v.withWindow (b.cut s) :: rest } }
      else (fault (.boundsOutOfRange l.toInt64 h.toInt64 (sliceCapacity s)) : Exec Unit) popped := by
  intro b popped
  have hbound : ∀ {v n} (hn : v.int? = some n) (m : Machine),
      bound? (some v) m = .ok (some n.toInt64) m := by
    intro v n hn m
    simp [bound?, hn]
  have hpop : ∀ {v rest} {m : Machine}, m.frame.operands = v :: rest →
      popIf true m = .ok (some v) { m with frame := { m.frame with operands := rest } } ∧
        pop m = .ok v { m with frame := { m.frame with operands := rest } } := by
    intro v rest m hm
    constructor <;> simp [popIf, pop, bind_apply, hm]
  unfold work
  simp only
  rw [bind_of_ok (hpop hoperands).1, bind_of_ok (hpop rfl).1, bind_of_ok (hpop rfl).1,
    bind_of_ok (hpop rfl).2, bind_of_ok (hbound hl _), bind_of_ok (hbound hh _), bind_of_ok (hbound hk _),
    bind_apply, slice_apply b hv]
  by_cases hfits : b.Fits (sliceLength s) (sliceCapacity s)
  · rw [if_pos hfits, if_pos hfits]
    rfl
  · rw [if_neg hfits, if_neg hfits]
    rfl

-- A part of a part is a part, cut out once with the bounds counted from the start of the whole.
theorem slice_slice {a b k c d n : Int} {v₁ v₂ : Value} {m₁ m₂ : Machine} (hv : v.unwrap = .slice s)
    (hfirst : slice ⟨some a, some b, some k⟩ v m = .ok v₁ m₁)
    (hsecond : slice ⟨some c, some d, some n⟩ v₁ m₁ = .ok v₂ m₂) :
    slice ⟨some (a + c), some (a + d), some (a + n)⟩ v m = .ok v₂ m₂ := by
  rw [slice_apply _ hv] at hfirst
  split at hfirst
  · next hfits =>
    cases hfirst
    rw [slice_apply _ (Value.unwrap_withWindow hv _)] at hsecond
    split at hsecond
    · next hfits' =>
      cases hsecond
      obtain ⟨hafter, hcut⟩ := hfits.after hfits'
      change slice (Bounds.after ⟨some a, some b, some k⟩ c d n) v m = _
      rw [slice_apply _ hv, if_pos hafter, hcut, Value.withWindow_withWindow]
    · exact absurd hsecond (fault_ne_ok _ _ _ _)
  · exact absurd hfirst (fault_ne_ok _ _ _ _)

theorem slice_succeeds {low high max : Int} (hv : v.unwrap = .slice s) :
    (∃ v' m', slice ⟨some low, some high, some max⟩ v m = .ok v' m') ↔
      0 ≤ low ∧ low ≤ high ∧ high ≤ max ∧ max ≤ sliceCapacity s := by
  rw [slice_apply _ hv]
  constructor
  · rintro ⟨v', m', h⟩
    split at h
    · next hfits => exact hfits
    · exact absurd h (fault_ne_ok _ _ _ _)
  · intro hfits
    exact ⟨_, _, if_pos hfits⟩

variable {p : Program}

-- The values of an append are copied and converted before there is anything to extend, and what is
-- there is left as it is.
theorem spares_appended (elem : Option Ty) (args : List Value) (m : Machine) :
    ∃ items h', args.mapM (p.appended elem) m = .ok items { m with heap := h' } ∧
      SparesHeap m.heap h' ∧ items.length = args.length := by
  induction args generalizing m with
  | nil => exact ⟨[], m.heap, rfl, .refl _, rfl⟩
  | cons v args ih =>
    have hconverted : SparesHeap (Heap.copy v m.heap).2
        (p.converted elem (Heap.copy v m.heap).1 (Heap.copy v m.heap).2).2 := by
      cases elem with
      | none => exact .refl _
      | some ty => exact (p.types.gentle_coerce _ ty).sparing _
    obtain ⟨items, h', hmap, hspares, hlen⟩ := ih { m with heap := _ }
    exact ⟨_, h', mapM_appended_cons hmap,
      (((Heap.gentle_copy v).sparing m.heap).trans hconverted).trans hspares, congrArg (· + 1) hlen⟩

end Program

-- A change that keeps every slice that is valid and everything that it shows.
def KeepsSlices (h h' : Heap) : Prop :=
  ∀ u, h.ValidSlice u → h'.ValidSlice u ∧ h'.sliceElems u = h.sliceElems u

theorem SparesHeap.keepsSlices {h h' : Heap} (hs : SparesHeap h h') : KeepsSlices h h' := by
  intro u hu
  refine ⟨hu.later hs.blocks_size fun b hb => by rw [hs.block_eq hb], ?_⟩
  cases u with
  | none => rfl
  | some w =>
    change ((h'.block w.block).extract _ _).toList = ((h.block w.block).extract _ _).toList
    rw [hs.block_eq (hu w rfl).lt_size]

namespace Attempt

variable {α β : Type} {h h' : Heap}

theorem run_bind_ok {x : Attempt α} {f : α → Attempt β} {b : β}
    (hr : (x >>= f).run h = (.ok b, h')) :
    ∃ a h₁, x.run h = (.ok a, h₁) ∧ (f a).run h₁ = (.ok b, h') := by
  change (ExceptT.bindCont f (x.run h).1 : HeapM _) (x.run h).2 = _ at hr
  cases hx : x.run h with
  | mk r h₁ =>
    rw [hx] at hr
    cases r with
    | ok a => exact ⟨a, h₁, rfl, hr⟩
    | error e => cases hr

theorem length_mapM {l : List α} {f : α → Attempt β} {bs : List β}
    (hr : (l.mapM f).run h = (.ok bs, h')) : bs.length = l.length := by
  induction l generalizing h h' bs with
  | nil =>
    cases hr
    rfl
  | cons a l ih =>
    rw [List.mapM_cons] at hr
    obtain ⟨b, h₁, -, hr⟩ := run_bind_ok hr
    obtain ⟨bs', h₂, hrest, hr⟩ := run_bind_ok hr
    cases hr
    exact congrArg (· + 1) (ih hrest)

end Attempt

-- What is made for a slice type is a slice whose block has just the room of its capacity.
theorem TypeTable.backed_make (types : TypeTable) {ty : Ty} {args : List Value} {h h' : Heap}
    {v : Value} (hr : (types.make ty args).run h = (.ok v, h')) : h'.Backed v := by
  have hdressed : ∀ {h : Heap} {ty v}, h.Backed v → h.Backed (dressed ty v) := by
    intro h ty v hv
    cases ty <;> exact hv
  unfold make at hr
  split at hr
  · next elem _ =>
    obtain ⟨length, h₁, -, hr⟩ := Attempt.run_bind_ok hr
    obtain ⟨capacity, h₂, -, hr⟩ := Attempt.run_bind_ok hr
    dsimp only at hr
    split at hr
    · cases hr
    · next hcapacity =>
      obtain ⟨zeros, h₃, hzeros, hr⟩ := Attempt.run_bind_ok hr
      have hcount := Attempt.length_mapM hzeros
      rw [List.length_replicate] at hcount
      cases hr
      refine hdressed (Heap.validSlice_some.mpr ?_)
      have hin : length.getD 0 ≤ zeros.length := by omega
      rw [← hcount]
      exact Heap.inBounds_newBlock zeros h₃ hin
  · obtain ⟨id, h₁, -, hr⟩ := Attempt.run_bind_ok hr
    cases hr
    exact hdressed trivial
  · obtain ⟨capacity, h₁, -, hr⟩ := Attempt.run_bind_ok hr
    obtain ⟨zero, h₂, -, hr⟩ := Attempt.run_bind_ok hr
    obtain ⟨id, h₃, -, hr⟩ := Attempt.run_bind_ok hr
    cases hr
    exact hdressed trivial
  · cases hr

namespace Program

variable {p : Program}

-- The predeclared append, with its last argument spread or not, appends copies of its arguments in
-- the element type.
theorem appendValues_appended (p : Program) {ty : Option Ty} {base : Value} {args given : List Value}
    {spread : Bool} {name : Option String} (hbase : appendBase base m = .ok (name, s) m)
    (hgiven : appendedArgs args spread m = .ok given m) (hs : m.heap.ValidSlice s) :
    ∃ items h₁ t h',
      given.mapM (p.appended ((ty.map p.types.resolve).bind Ty.elem?)) m =
        .ok items { m with heap := h₁ } ∧
      items.length = given.length ∧ KeepsSlices m.heap h₁ ∧
      p.appendValues ty (base :: args) spread m =
        .ok ((Value.slice t).wearing name) { m with heap := h' } ∧
      Heap.Appended h₁ s items t h' := by
  obtain ⟨items, h₁, hmap, hspares, hlen⟩ :=
    spares_appended (p := p) ((ty.map p.types.resolve).bind Ty.elem?) given m
  have hkeeps := hspares.keepsSlices
  obtain ⟨t, h', happend, ha⟩ := Heap.appended (hkeeps s hs).1 items
  refine ⟨items, h₁, t, h', hmap, hlen, hkeeps, ?_, ha⟩
  rw [appendValues_apply hbase hgiven hmap, happend]

-- What a program can do where there is a slice.
structure Windowed (p : Program) (m : Machine) (s : Option Window) : Prop where
  -- A slice that is made of values shows them, and all other slices show what they showed.
  made : ∀ values, ∃ w h', Heap.newSlice values m.heap = (.slice (some w), h') ∧ h'.InBounds w ∧
    h'.windowElems w = values ∧ KeepsSlices m.heap h'
  make : ∀ ty args r h', (p.types.make ty args).run m.heap = (r, h') →
    KeepsSlices m.heap h' ∧ ∀ v, r = .ok v → h'.Backed v
  -- What is cut out of a slice, an array or the array behind a pointer is valid.
  cut : ∀ bounds v v' m', m.heap.Backed v → slice bounds v m = .ok v' m' →
    m' = m ∧ m.heap.Backed v'
  succeeds : ∀ (low high max : Int) v, v.unwrap = .slice s →
    ((∃ v' m', slice ⟨some low, some high, some max⟩ v m = .ok v' m') ↔
      0 ≤ low ∧ low ≤ high ∧ high ≤ max ∧ max ≤ sliceCapacity s)
  step : ∀ v low high max rest l h k, m.frame.operands = max :: high :: low :: v :: rest →
    low.int? = some l → high.int? = some h → max.int? = some k → v.unwrap = .slice s →
      ((∃ m', p.work (.slice true true true) m = .ok () m') ↔
        0 ≤ l.toInt64 ∧ l.toInt64 ≤ h.toInt64 ∧ h.toInt64 ≤ k.toInt64 ∧
          k.toInt64 ≤ sliceCapacity s)
  again : ∀ (a b k c d n : Int) v v₁ v₂ m₁ m₂, v.unwrap = .slice s →
    slice ⟨some a, some b, some k⟩ v m = .ok v₁ m₁ →
    slice ⟨some c, some d, some n⟩ v₁ m₁ = .ok v₂ m₂ →
      slice ⟨some (a + c), some (a + d), some (a + n)⟩ v m = .ok v₂ m₂
  append : ∀ values, ∃ t h', Heap.append s values m.heap = (t, h') ∧
    Heap.Appended m.heap s values t h'
  -- The same of the predeclared function, which copies the values first.
  call : ∀ ty base name args given spread, appendBase base m = .ok (name, s) m →
    appendedArgs args spread m = .ok given m →
      ∃ items h₁ t h', given.mapM (p.appended ((ty.map p.types.resolve).bind Ty.elem?)) m =
          .ok items { m with heap := h₁ } ∧
        items.length = given.length ∧ KeepsSlices m.heap h₁ ∧
        p.appendValues ty (base :: args) spread m =
          .ok ((Value.slice t).wearing name) { m with heap := h' } ∧
        Heap.Appended h₁ s items t h'

theorem slices_are_windows (p : Program) (m : Machine) {s : Option Window}
    (hs : m.heap.ValidSlice s) : p.Windowed m s where
  made values := by
    refine ⟨_, _, Heap.newSlice_apply values m.heap,
      Heap.inBounds_newBlock values m.heap (Nat.le_refl _), ?_,
      ((Heap.gentle_newBlock _).sparing m.heap).keepsSlices⟩
    rw [Heap.windowElems_newBlock, List.take_length]
  make ty args r h' hrun := by
    have hspares := (p.types.gentle_make ty args).sparing m.heap
    rw [hrun] at hspares
    refine ⟨hspares.keepsSlices, fun v hv => ?_⟩
    rw [hv] at hrun
    exact p.types.backed_make hrun
  cut _ _ _ _ hv hslice := backed_slice hv hslice
  succeeds low high max v hv := slice_succeeds hv
  step v low high max rest l h k hoperands hl hh hk hv := by
    rw [work_slice p hoperands hl hh hk hv]
    constructor
    · rintro ⟨m', hwork⟩
      split at hwork
      · next hfits => exact hfits
      · exact absurd hwork (fault_ne_ok _ _ _ _)
    · intro hfits
      exact ⟨_, if_pos hfits⟩
  again _ _ _ _ _ _ _ _ _ _ _ hv hfirst hsecond := slice_slice hv hfirst hsecond
  append := Heap.appended hs
  call _ _ _ _ _ _ hbase hgiven := appendValues_appended p hbase hgiven hs

-- A block of four elements, and slices of its first two and its last one.
def fourLong : Machine :=
  { Machine.start .silent with
    heap := { Heap.empty with
      blocks := #[#[.plainInt 1, .plainInt 2, .plainInt 3, .plainInt 4]] } }

def front : Window := ⟨0, 0, 2, 4⟩

def back : Window := ⟨0, 3, 1, 1⟩

theorem front_and_back_are_windows :
    fourLong.heap.ValidSlice (some front) ∧
    (∃ t h', Heap.append (some front) [.plainInt 9] fourLong.heap = (t, h') ∧
      h'.sliceElems t = [.plainInt 1, .plainInt 2, .plainInt 9] ∧
      h'.windowElems back = [.plainInt 4]) ∧
    (∃ t h', Heap.append (some front) [.plainInt 7, .plainInt 8, .plainInt 9] fourLong.heap =
        (some t, h') ∧
      5 ≤ t.capacity ∧ h'.windowElems back = [.plainInt 4]) ∧
    ¬ ∃ v' m', slice ⟨some 1, some 2, some 5⟩ (.slice (some front)) fourLong = .ok v' m' := by
  have hfront : fourLong.heap.ValidSlice (some front) :=
    Heap.validSlice_some.mpr ⟨by decide, by decide, by decide⟩
  have hback : fourLong.heap.ValidSlice (some back) :=
    Heap.validSlice_some.mpr ⟨by decide, by decide, by decide⟩
  have h := slices_are_windows blank fourLong hfront
  refine ⟨hfront, ?_, ?_, ?_⟩
  · obtain ⟨t, h', happend, ha⟩ := h.append [.plainInt 9]
    refine ⟨t, h', happend, ha.shows, ha.missed (by decide) back fun i hi => ?_⟩
    rintro ⟨w, hw, -, -, hlt⟩
    cases hw
    change 3 + i < 0 + 2 + 1 at hlt
    omega
  · obtain ⟨t, h', happend, ha⟩ := h.append [.plainInt 7, .plainInt 8, .plainInt 9]
    obtain ⟨w, filler, rfl, hanew⟩ := ha.anew (by decide)
    refine ⟨w, h', happend, ?_, hanew.grows.sliceElems hback⟩
    rw [show 5 = w.length from hanew.length.symm]
    exact hanew.length_le
  · rw [h.succeeds 1 2 5 _ rfl]
    decide

end Program

end StepGraph

namespace StepGraph.Heap

variable {h h' : Heap} {s : Option Window} {values : List Value} {t : Window} {filler v : Value}

namespace AppendedAnew

-- With the window drawn out to its capacity the slice shows the filler behind the values.
theorem shows_all (ha : AppendedAnew h s values t filler h') (hs : h.ValidSlice s) :
    h'.windowElems { t with length := t.capacity } =
      h.sliceElems s ++ values ++ List.replicate (t.capacity - t.length) filler := by
  have hlength := ha.length
  have hle := ha.length_le
  have hsize : (h'.block t.block).size = t.capacity := by
    rw [← Array.length_toList, ha.elems]
    simp only [List.length_append, List.length_replicate, hs.length_elems]
    omega
  unfold windowElems
  simp only [ha.offset, Nat.zero_add, ← hsize, Array.extract_size]
  rw [ha.elems, hsize]

-- A filler that stands in no block is replaced in one element and stays in the others.
theorem spare_alone (ha : AppendedAnew h s values t filler h') (hs : h.ValidSlice s)
    (hflat : filler.home? = none) {i k : Nat} (hlow : t.length ≤ i) (hhigh : i < t.capacity)
    (hne : k ≠ i) (v : Value) :
    (store (.element t.block i) v h').2.element? t.block k = h'.element? t.block k := by
  have hblock : filler.block? = none := by
    cases hb : filler.block? with
    | none => rfl
    | some b =>
      rw [Value.home?_of_block? hb] at hflat
      cases hflat
  have hread := ha.spare hs hlow hhigh
  rw [store_over_flat hread hblock, element?_setElement h' t.block i k v filler hread,
    if_neg (Ne.symm hne)]

-- A store inside a filler that stands in a block is inside all the spare elements, since they go on
-- being the filler.
theorem spare_together (ha : AppendedAnew h s values t filler h') (hs : h.ValidSlice s)
    {b e : BlockId} (hb : filler.home? = some b) (he : h'.Inside b e) {ds : List BlockId}
    (hds : h'.Region ds) (hv : v.StandsIn ds) (ht : t.block ∉ ds) (k : Nat) {i : Nat}
    (hlow : t.length ≤ i) (hhigh : i < t.capacity) :
    (store (.element e k) v h').2.element? t.block i = some filler := by
  obtain ⟨bs, hr, hnew, hin⟩ := ha.region
  have hmem : e ∈ bs ++ ds := List.mem_append_left ds (hr.mem_of_inside (hin b hb) he)
  have hv' : v.StandsIn (bs ++ ds) := hv.mono (List.subset_append_right bs ds)
  obtain ⟨hwithin, -⟩ := (hr.append hds).store hmem hv' k
  have hout : t.block ∉ bs ++ ds := by
    intro hm
    rcases List.mem_append.mp hm with hm | hm
    · exact Nat.lt_irrefl _ (hnew _ hm).2
    · exact ht hm
  rw [← ha.spare hs hlow hhigh]
  unfold element?
  rw [hwithin.same _ hout]

end AppendedAnew

-- After an append that runs out of capacity all the spare room holds one value, the zero value of
-- the type that the first of the values has at run time. If that stands in a block, the spare
-- elements share it, and if not, each of them is on its own.
theorem spare_room_holds_one_value {first : Value} {rest : List Value} (hs : h.ValidSlice s)
    (hshort : sliceCapacity s < sliceLength s + (first :: rest).length) :
    ∃ t h' zero, append s (first :: rest) h = (some t, h') ∧
      zero = (ofConstant (h.zeroLike first) h).1 ∧
        GrowsByBlocks (ofConstant (h.zeroLike first) h).2 h' ∧
      h'.windowElems { t with length := t.capacity } =
        h.sliceElems s ++ first :: rest ++ List.replicate (t.capacity - t.length) zero ∧
      (zero.home? = none → ∀ i k v, t.length ≤ i → i < t.capacity → k ≠ i →
        (store (.element t.block i) v h').2.element? t.block k = h'.element? t.block k) ∧
      ∀ b e k v ds, zero.home? = some b → h'.Inside b e → h'.Region ds → v.StandsIn ds →
        t.block ∉ ds → ∀ i, t.length ≤ i → i < t.capacity →
          (store (.element e k) v h').2.element? t.block i = some zero := by
  obtain ⟨t, h', happend, hgrows, ha⟩ := appended_anew hs hshort
  exact ⟨t, h', _, happend, rfl, hgrows, ha.shows_all hs,
    fun hflat i k v hlow hhigh hne => ha.spare_alone hs hflat hlow hhigh hne v,
    fun b e k v ds hb he hds hv ht i hlow hhigh => ha.spare_together hs hb he hds hv ht k hlow hhigh⟩

theorem spare_room_of_three_ints : ∃ t h', append none (List.replicate 3 (.plainInt 7)) Heap.empty =
      (some t, h') ∧
    h'.windowElems { t with length := t.capacity } =
      [.plainInt 7, .plainInt 7, .plainInt 7] ++
        List.replicate (t.capacity - t.length) (.plainInt 0) := by
  have hshort : sliceCapacity none < sliceLength none + (List.replicate 3 (Value.plainInt 7)).length := by
    decide
  obtain ⟨t, h', zero, happend, rfl, -, hall, -⟩ :=
    spare_room_holds_one_value (validSlice_none Heap.empty) hshort
  exact ⟨t, h', happend, hall⟩

-- Five structs, each in a block of its own.
def fiveStructs : List Value :=
  [.struct ⟨Program.singleField "x", 0, some "T"⟩, .struct ⟨Program.singleField "x", 1, some "T"⟩,
    .struct ⟨Program.singleField "x", 2, some "T"⟩, .struct ⟨Program.singleField "x", 3, some "T"⟩,
    .struct ⟨Program.singleField "x", 4, some "T"⟩]

def fiveBlocks : Heap := { Heap.empty with blocks := Array.replicate 5 #[.plainInt 1] }

-- Behind the five elements there are spare ones, and they are one struct: what is stored into its
-- field is in each of them.
theorem spare_structs_are_one : ∃ t h' e, append none fiveStructs fiveBlocks = (some t, h') ∧
    t.length = 5 ∧ 6 < t.capacity ∧
    h'.element? t.block 5 = some (.struct ⟨Program.singleField "x", e, some "T"⟩) ∧
    h'.element? t.block 6 = some (.struct ⟨Program.singleField "x", e, some "T"⟩) ∧
    h'.element? e 0 = some (.plainInt 0) ∧
    (store (.element e 0) (.plainInt 9) h').2.element? e 0 = some (.plainInt 9) := by
  have hs := validSlice_none fiveBlocks
  have hshort : sliceCapacity none < sliceLength none + fiveStructs.length := by decide
  obtain ⟨t, h', happend, hgrows, ha⟩ := appended_anew hs hshort
  have hlength : t.length = 5 := ha.length
  have hcapacity : 6 < t.capacity := by
    obtain ⟨k, hk, -⟩ := ha.capacity
    have hle := ha.length_le
    have hpow : max (sliceCapacity none) 1 * 2 ^ k = 2 ^ k := Nat.one_mul _
    have hthree : 3 ≤ k := by
      by_contra hlt
      have hsmall : 2 ^ k ≤ 2 ^ 2 := Nat.pow_le_pow_right (by decide) (by omega)
      omega
    have hlarge : 2 ^ 3 ≤ 2 ^ k := Nat.pow_le_pow_right (by decide) hthree
    omega
  have hfield : h'.element? 5 0 = some (.plainInt 0) := by
    unfold element?
    rw [hgrows.same 5 (by decide)]
    rfl
  refine ⟨t, h', 5, happend, hlength, hcapacity, ha.spare hs (by omega) (by omega),
    ha.spare hs (by omega) hcapacity, hfield, ?_⟩
  rw [store_over_flat hfield rfl, element?_setElement h' 5 0 0 _ _ hfield, if_pos rfl]

end StepGraph.Heap

import StepGraph.Machine.Step
import StepGraph.Proofs.Machine.Exec
import StepGraph.Proofs.Store.Copies
import StepGraph.Proofs.Store.Overwrite

open EStateM (bind_apply bind_of_ok bind_eq_ok)

namespace StepGraph

namespace Heap

-- The value has this content.
def IsContent (h : Heap) (v : Value) (c : Content) : Prop := ∃ bs, h.Shows v c bs

-- A place holds a value of this content, whose parts share no block with each other and do
-- not lie around the place.
structure Holds (h : Heap) (place : Place) (c : Content) : Prop where
  read : ∃ v bs, h.read? place = some v ∧ h.Shows v c bs ∧ (blockOf place ++ bs).Nodup

theorem GrowsByBlocks.isContent {h h' : Heap} (hg : GrowsByBlocks h h') {v : Value} {c : Content}
    (hc : h.IsContent v c) : h'.IsContent v c := by
  obtain ⟨bs, hs⟩ := hc
  exact ⟨bs, hg.shows hs⟩

theorem IsContent.iff_eq {h : Heap} {v : Value} {c c' : Content} (hc : h.IsContent v c) :
    h.IsContent v c' ↔ c = c' := by
  obtain ⟨bs, hs⟩ := hc
  constructor
  · rintro ⟨bs', hs'⟩
    exact (hs.unique hs').1
  · rintro rfl
    exact ⟨bs, hs⟩

-- A store into a place of a value with blocks of its own.
theorem read?_store {h₀ h : Heap} {place : Place} {v : Value} {a c : Content}
    (hold : h₀.Holds place a) (hnew : Fresh h₀ h v c) :
    ∃ w, (store place v h).2.read? place = some w ∧
      (store place v h).2.IsContent w (a.overlay c) := by
  obtain ⟨x, old, hread, hx, hnodup⟩ := hold
  obtain ⟨hg, new, hv, hge, _⟩ := hnew
  have hlt : ∀ d ∈ blockOf place ++ old, d < h₀.blocks.size := by
    intro d hd
    rcases List.mem_append.mp hd with hd | hd
    · cases place with
      | element b i =>
          obtain rfl : d = b := by simpa [blockOf] using hd
          by_contra hn
          simp [read?, element?, block, Nat.le_of_not_lt hn] at hread
      | _ => simp [blockOf] at hd
    · exact hx.lt_size d hd
  obtain ⟨w, bs, hw, hs⟩ := shows_store (hg.read? hread) (hg.shows hx) hv hnodup fun d hd hm =>
    Nat.not_lt_of_le (hge d hm) (hlt d hd)
  exact ⟨w, hw, bs, hs⟩

end Heap

namespace TypeTable

theorem adapt_isLeaf (v : Value) (ty : Ty) (hv : v.isLeaf) : (adapt v ty).isLeaf := by
  unfold adapt
  split <;> first | exact hv | rfl | (split <;> first | exact hv | rfl)

-- What `settle` makes of a value that is none of struct, array or declared.
theorem settle_leaf (t : TypeTable) (v : Value) (ty : Ty) (hv : v.isLeaf) :
    (t.settle v ty).isLeaf ∨ ∃ n w, t.settle v ty = .named n w ∧ w.isLeaf := by
  have hadapt := fun ty => adapt_isLeaf v ty hv
  unfold settle
  split
  · simp [Value.isLeaf] at hv
  · simp [Value.isLeaf] at hv
  · split
    · split
      · exact .inl hv
      · exact .inl hv
      · split
        · split
          · exact .inr ⟨_, _, rfl, hadapt _⟩
          · exact .inl hv
        · exact .inr ⟨_, _, rfl, hv⟩
    · split
      · exact .inl (hadapt _)
      · exact .inl hv

theorem fresh_settle_leaf (t : TypeTable) {v : Value} {ty : Ty} {h : Heap} {c : Content}
    (hv : v.isLeaf) (hc : h.HasContent (t.settle v ty) c) :
    Heap.Fresh h h (t.settle v ty) c := by
  obtain ⟨bs, hs, hn⟩ := hc
  rcases t.settle_leaf v ty hv with hl | ⟨n, w, hw, hl⟩
  · generalize t.settle v ty = w at hs hl ⊢
    cases hs with
    | leaf _ _ => exact Heap.Fresh.leaf h w hl
    | _ => exact (Bool.false_ne_true hl).elim
  · rw [hw] at hs ⊢
    cases hs with
    | leaf _ hl => exact (Bool.false_ne_true hl).elim
    | named _ _ c _ hs =>
        cases hs with
        | leaf _ _ => exact (Heap.Fresh.leaf h w hl).named n
        | _ => exact (Bool.false_ne_true hl).elim

-- An array keeps its block and takes on at most a declared name, whatever block it has.
theorem settle_array (t : TypeTable) (ty : Ty) :
    (∀ b, t.settle (.array b) ty = .array b) ∨
      ∃ n, ∀ b, t.settle (.array b) ty = .named n (.array b) := by
  have hadapt : ∀ b ty, adapt (.array b) ty = .array b := fun b ty => by
    cases ty <;> rfl
  cases ty with
  | named n =>
      simp only [settle, isBasicValue]
      split
      · exact .inl fun _ => rfl
      · exact .inl fun _ => rfl
      · split
        · exact .inl fun _ => rfl
        · exact .inr ⟨n, fun _ => rfl⟩
  | _ => exact .inl fun b => by simp [settle, hadapt]

end TypeTable

namespace Program

open Exec

-- The place that a target stands for. A target that drops the value and an entry of a map are
-- no places.
def place? (m : Machine) : Target → List Value → Option Place
  | .var name, _ => (m.heap.owner? m.frame.scope name).bind fun o => m.heap.location? o name
  | .index, [base, key] =>
      match behindPointers m.heap.reach base m with
      | .ok b _ =>
          match b.unwrap with
          | .slice (some w) =>
              match checkedIndex key w.length m with
              | .ok i _ => some (.element w.block (w.offset + i))
              | .error _ _ => none
          | .array b =>
              match checkedIndex key (m.heap.block b).size m with
              | .ok i _ => some (.element b i)
              | .error _ _ => none
          | _ => none
      | .error _ _ => none
  | .field name, [.package ref] => ref.scope.bind fun s => m.heap.location? s name
  | .field name, [base] =>
      match m.heap.locate base name with
      | .ok (some f) => some (.element f.owner.block f.index)
      | _ => none
  | .deref, [pointer] =>
      match pointer.unwrap with
      | .pointer (some a) => Heap.placeOf a (m.heap.cell? a)
      | _ => none
  | _, _ => none

-- The type that a field brings a value to.
def fieldType? (m : Machine) : Target → List Value → Option Ty
  | .field _, [.package _] => none
  | .field name, [base] =>
      match m.heap.locate base name with
      | .ok (some f) => f.owner.layout.fieldType? f.index
      | _ => none
  | _, _ => none

-- The value that a place of this type takes instead of the given one.
def converted (p : Program) (ty : Option Ty) (v : Value) : HeapM Value :=
  match ty with
  | some ty => p.types.coerce v ty
  | none => pure v

theorem checkedIndex_state {key : Value} {n i : Nat} {m m' : Machine}
    (h : checkedIndex key n m = .ok i m') : m' = m := by
  unfold checkedIndex at h
  cases hk : key.int? with
  | none => exact absurd (by simpa only [hk] using h) (notDefined_ne_ok _ _ _ _ _)
  | some k =>
      rw [hk] at h
      by_cases hn : 0 ≤ k.val ∧ k.val < n
      · simp only [if_pos hn] at h
        cases h
        rfl
      · simp only [if_neg hn] at h
        exact absurd h (fault_ne_ok _ _ _ _)

theorem checkedIndex_lt {key : Value} {n i : Nat} {m m' : Machine}
    (h : checkedIndex key n m = .ok i m') : i < n := by
  unfold checkedIndex at h
  cases hk : key.int? with
  | none => exact absurd (by simpa only [hk] using h) (notDefined_ne_ok _ _ _ _ _)
  | some k =>
      rw [hk] at h
      by_cases hn : 0 ≤ k.val ∧ k.val < n
      · simp only [if_pos hn] at h
        cases h
        omega
      · simp only [if_neg hn] at h
        exact absurd h (fault_ne_ok _ _ _ _)

theorem behindPointers_state (n : Nat) {base b : Value} {m m' : Machine}
    (h : behindPointers n base m = .ok b m') : m' = m := by
  induction n generalizing base with
  | zero => cases h; rfl
  | succ n ih =>
      unfold behindPointers at h
      cases hb : base.unwrap with
      | pointer a =>
          simp only [hb] at h
          rw [bind_of_ok (heap_apply m), bind_eq_ok] at h
          obtain ⟨target, m₁, he, h⟩ := h
          obtain ⟨_, rfl⟩ := ofExcept_eq_ok.mp he
          exact ih h
      | _ =>
          simp only [hb] at h
          cases h
          rfl

theorem behindPointers_self {v : Value} (hv : ∀ a, v.unwrap ≠ .pointer a) (n : Nat) (m : Machine) :
    behindPointers n v m = .ok v m := by
  cases n with
  | zero => rfl
  | succ n =>
      have hself : behindPointers (n + 1) v = pure v := by
        unfold behindPointers
        split
        · next a ha => exact absurd ha (hv a)
        · rfl
      rw [hself, pure_apply]

theorem setLocal_location {h : Heap} {s : ScopeId} {name : String} {place : Place}
    (hl : h.location? s name = some place) (v : Value) :
    Heap.setLocal s name v h = (true, (Heap.store place v h).2) := by
  unfold Heap.setLocal
  rw [Heap.get_bind, hl]
  rfl

theorem assign_location {h : Heap} {s : ScopeId} {name : String} {place : Place}
    (hl : ((h.owner? s name).bind fun o => h.location? o name) = some place) (v : Value) :
    Heap.assign s name v h = (true, (Heap.store place v h).2) := by
  obtain ⟨o, ho, hl⟩ := Option.bind_eq_some_iff.mp hl
  unfold Heap.assign
  rw [Heap.get_bind, ho]
  exact setLocal_location hl v

theorem storeSlot_place {m : Machine} {place : Place} (hread : (m.heap.read? place).isSome)
    (i n : Nat) (v : Value) :
    storeSlot place i n v m = .ok () { m with heap := (Heap.store place v m.heap).2 } := by
  unfold storeSlot
  rw [bind_of_ok (heap_apply m), if_pos hread]
  rfl

theorem storeElement_slice {m : Machine} {base key v : Value} {w : Window} {i : Nat}
    (hb : base.unwrap = .slice (some w)) (hi : checkedIndex key w.length m = .ok i m)
    (hread : (m.heap.read? (.element w.block (w.offset + i))).isSome) :
    storeElement base key v m =
      .ok () { m with heap := (Heap.store (.element w.block (w.offset + i)) v m.heap).2 } := by
  unfold storeElement
  simp only [hb, Heap.sliceLength]
  rw [bind_of_ok hi]
  exact storeSlot_place hread _ _ v

theorem storeElement_array {m : Machine} {base key v : Value} {b : BlockId} {i : Nat}
    (hb : base.unwrap = .array b) (hi : checkedIndex key (m.heap.block b).size m = .ok i m)
    (hread : (m.heap.read? (.element b i)).isSome) :
    storeElement base key v m =
      .ok () { m with heap := (Heap.store (.element b i) v m.heap).2 } := by
  unfold storeElement
  simp only [hb]
  rw [bind_of_ok (heap_apply m), bind_of_ok hi]
  exact storeSlot_place hread _ _ v

theorem locateField_found {m : Machine} {base : Value} {name : String} {f : FieldRef}
    (hf : m.heap.locate base name = .ok (some f)) : locateField base name m = .ok f m := by
  unfold locateField
  rw [bind_of_ok (heap_apply m), hf, bind_of_ok (ofExcept_ok _ m)]
  rfl

theorem grows_converted (p : Program) (ty : Option Ty) (v : Value) (h : Heap) :
    Heap.GrowsByBlocks h (p.converted ty v h).2 := by
  cases ty with
  | none => exact Heap.GrowsByBlocks.refl h
  | some ty =>
      change Heap.GrowsByBlocks h (p.types.coerce v ty h).2
      unfold TypeTable.coerce
      split
      · exact (Heap.newSince_ofConstant _ h).1
      · exact Heap.GrowsByBlocks.refl h

-- A place that holds something goes on holding something when a value is converted.
theorem isSome_read?_converted (p : Program) (ty : Option Ty) (v : Value) {h : Heap}
    {place : Place} (hread : (h.read? place).isSome) :
    ((p.converted ty v h).2.read? place).isSome := by
  obtain ⟨x, hx⟩ := Option.isSome_iff_exists.mp hread
  rw [(grows_converted p ty v h).read? hx]
  rfl

theorem Attempt.get_bind {α : Type} (f : Heap → Attempt α) (h : Heap) :
    (getThe Heap >>= f : Attempt α) h = f h h := rfl

-- A store into a field that was found.
def storeFound (p : Program) (v : Value) (field : FieldRef) : Exec Unit := do
  let v ← match field.owner.layout.fieldType? field.index with
    | some ty => p.coerce v ty
    | none => pure v
  if ((← heap).element? field.owner.block field.index).isSome then
    Heap.store (.element field.owner.block field.index) v

-- A store through a target is a store into the place of the target.
theorem storeTarget_place (p : Program) {m : Machine} {target : Target} {operands : List Value}
    {place : Place} (hplace : place? m target operands = some place)
    (hread : (m.heap.read? place).isSome) (v : Value) :
    p.storeTarget target operands v m = .ok ()
      { m with heap := (Heap.store place (p.converted (fieldType? m target operands) v m.heap).1
        (p.converted (fieldType? m target operands) v m.heap).2).2 } := by
  unfold place? at hplace
  split at hplace
  -- a variable
  · next name ops =>
      unfold storeTarget
      simp only
      rw [bind_of_ok (currentScope_apply m), bind_of_ok (monadLift_apply _ m),
        assign_location hplace v]
      rfl
  -- an element
  · next base key =>
      split at hplace
      · next b m₁ hb =>
          obtain rfl := behindPointers_state _ hb
          unfold storeTarget
          simp only
          rw [bind_of_ok (heap_apply _), bind_of_ok hb]
          split at hplace
          · next w hw =>
              split at hplace
              · next i m₂ hi =>
                  obtain rfl := checkedIndex_state hi
                  obtain rfl := Option.some.inj hplace
                  exact storeElement_slice hw hi hread
              · cases hplace
          · next c hc =>
              split at hplace
              · next i m₂ hi =>
                  obtain rfl := checkedIndex_state hi
                  obtain rfl := Option.some.inj hplace
                  exact storeElement_array hc hi hread
              · cases hplace
          · cases hplace
      · cases hplace
  -- a variable of a package
  · next name ref =>
      obtain ⟨s, hs, hl⟩ := Option.bind_eq_some_iff.mp hplace
      unfold storeTarget storeField
      simp only [hs]
      rw [bind_of_ok (monadLift_apply _ m), setLocal_location hl v]
      rfl
  -- a field
  · next name base hbase =>
      split at hplace
      · next f hf =>
          obtain rfl := Option.some.inj hplace
          have hty : fieldType? m (.field name) [base] = f.owner.layout.fieldType? f.index := by
            cases base <;> simp_all [fieldType?]
          rw [hty]
          have hstore : p.storeTarget (.field name) [base] v m =
              (locateField base name >>= p.storeFound v) m := by
            cases base <;> first | rfl | exact absurd rfl (hbase _)
          rw [hstore, bind_of_ok (locateField_found hf)]
          unfold storeFound
          have hsome := isSome_read?_converted p (f.owner.layout.fieldType? f.index) v hread
          cases hft : f.owner.layout.fieldType? f.index with
          | none =>
              simp only
              rw [bind_of_ok (pure_apply _ _), bind_of_ok (heap_apply _)]
              exact congrFun (if_pos hread) m
          | some ty =>
              rw [hft] at hsome
              simp only
              rw [bind_of_ok (show p.coerce v ty m = _ from monadLift_apply _ m),
                bind_of_ok (heap_apply _)]
              exact congrFun (if_pos hsome) _
      · cases hplace
  -- what a pointer points to
  · next pointer =>
      split at hplace
      · next a ha =>
          unfold storeTarget
          simp only [ha]
          have hat : Heap.storeAt a v m.heap = (.ok (), (Heap.store place v m.heap).2) := by
            unfold Heap.storeAt
            rw [Attempt.get_bind, hplace]
            simp only [hread, ite_true]
            rfl
          unfold attempt
          rw [bind_of_ok (onHeap_apply _ m)]
          change ofExcept (Heap.storeAt a v m.heap).1 { m with heap := (Heap.storeAt a v m.heap).2 } = _
          rw [hat]
          rfl
      · cases hplace
  · cases hplace

theorem local?_location {h : Heap} {s : ScopeId} {name : String} {place : Place}
    (hl : h.location? s name = some place) : h.local? s name = h.read? place := by
  obtain ⟨b, hb, rfl⟩ := Option.map_eq_some_iff.mp hl
  unfold Heap.local?
  rw [hb, Option.bind_some]
  cases b with
  | plain v => simp [Heap.bindingValue?, Heap.read?, hb]
  | shared a => rfl

theorem lookup_location {h : Heap} {s : ScopeId} {name : String} {place : Place}
    (hl : ((h.owner? s name).bind fun o => h.location? o name) = some place) :
    h.lookup s name = h.read? place := by
  obtain ⟨o, ho, hl⟩ := Option.bind_eq_some_iff.mp hl
  unfold Heap.lookup
  rw [ho, Option.bind_some, local?_location hl]

theorem owner?_of_location? {h : Heap} {s : ScopeId} {name : String} {place : Place}
    (hl : h.location? s name = some place) : h.owner? s name = some s := by
  obtain ⟨b, hb, -⟩ := Option.map_eq_some_iff.mp hl
  simp [Heap.owner?, Heap.ownerUpTo, Heap.binds, hb]

theorem index_slice (p : Program) {m : Machine} {base key b w : Value} {win : Window} {i : Nat}
    (hb : behindPointers m.heap.reach base m = .ok b m) (hw : b.unwrap = .slice (some win))
    (hi : checkedIndex key win.length m = .ok i m)
    (hread : m.heap.element? win.block (win.offset + i) = some w) (elem : Option Ty) :
    p.index base key elem m = .ok (w, true) m := by
  have hget : m.heap.sliceGet? (some win) i = some w := by
    simp [Heap.sliceGet?, checkedIndex_lt hi, hread]
  unfold index
  rw [bind_of_ok (heap_apply m), bind_of_ok hb]
  unfold indexBare
  simp only [hw, Heap.sliceLength]
  rw [bind_of_ok hi, bind_of_ok (heap_apply m), hget]
  rfl

theorem index_array (p : Program) {m : Machine} {base key b w : Value} {c : BlockId} {i : Nat}
    (hb : behindPointers m.heap.reach base m = .ok b m) (hc : b.unwrap = .array c)
    (hi : checkedIndex key (m.heap.block c).size m = .ok i m)
    (hread : m.heap.element? c i = some w) (elem : Option Ty) :
    p.index base key elem m = .ok (w, true) m := by
  unfold index
  rw [bind_of_ok (heap_apply m), bind_of_ok hb]
  unfold indexBare
  simp only [hc]
  rw [bind_of_ok (heap_apply m), bind_of_ok hi, bind_of_ok (heap_apply m), hread]
  rfl

-- What a target holds is what its place holds.
theorem loadTarget_place (p : Program) {m : Machine} {target : Target} {operands : List Value}
    {place : Place} (hplace : place? m target operands = some place) {w : Value}
    (hread : m.heap.read? place = some w) (ty : Option Ty) :
    p.loadTarget target operands ty m = .ok w m := by
  unfold place? at hplace
  split at hplace
  · next name ops =>
      unfold loadTarget
      simp only
      rw [bind_of_ok (heap_apply m), bind_of_ok (currentScope_apply m), lookup_location hplace,
        hread]
      rfl
  · next base key =>
      split at hplace
      · next b m₁ hb =>
          obtain rfl := behindPointers_state _ hb
          unfold loadTarget
          split at hplace
          · next win hw =>
              split at hplace
              · next i m₂ hi =>
                  obtain rfl := checkedIndex_state hi
                  obtain rfl := Option.some.inj hplace
                  exact bind_of_ok (index_slice p hb hw hi hread ty)
              · cases hplace
          · next c hc =>
              split at hplace
              · next i m₂ hi =>
                  obtain rfl := checkedIndex_state hi
                  obtain rfl := Option.some.inj hplace
                  exact bind_of_ok (index_array p hb hc hi hread ty)
              · cases hplace
          · cases hplace
      · cases hplace
  · next name ref =>
      obtain ⟨s, hs, hl⟩ := Option.bind_eq_some_iff.mp hplace
      have hlook : m.heap.lookup s name = some w := by
        rw [lookup_location (by rw [owner?_of_location? hl, Option.bind_some, hl]), hread]
      unfold loadTarget member?
      simp only [hs]
      rw [bind_apply, bind_of_ok (heap_apply m), hlook]
      rfl
  · next name base hbase =>
      split at hplace
      · next f hf =>
          obtain rfl := Option.some.inj hplace
          have hload : p.loadTarget (.field name) [base] ty m =
              (do return (← heap).fieldValue (← locateField base name) : Exec Value) m := by
            cases base <;> first | rfl | exact absurd rfl (hbase _)
          rw [hload, bind_of_ok (heap_apply m), bind_of_ok (locateField_found hf)]
          simp only [pure_apply, Heap.fieldValue]
          rw [show m.heap.element? f.owner.block f.index = some w from hread]
          rfl
      · cases hplace
  · next pointer =>
      split at hplace
      · next a ha =>
          unfold loadTarget deref
          simp only [ha]
          rw [bind_of_ok (heap_apply m), Heap.deref, Heap.load, hplace, Option.bind_some, hread]
          rfl
      · cases hplace
  · cases hplace

theorem converted_nil (p : Program) (ty : Ty) (h : Heap) :
    p.converted (some ty) .nil h = Heap.ofConstant (p.types.zero ty) h := rfl

theorem converted_settle (p : Program) (ty : Ty) {v : Value} (hv : v.isBareNil = false) (h : Heap) :
    p.converted (some ty) v h = (p.types.settle v ty, h) := by
  change p.types.coerce v ty h = _
  unfold TypeTable.coerce
  rw [if_neg (by simp [hv])]
  rfl

theorem isContent_of_leaf {v : Value} {h : Heap} (h' : Heap) {c : Content} (hv : v.isLeaf)
    (hc : h.IsContent v c) : h'.IsContent v c := by
  obtain ⟨bs, hs⟩ := hc
  cases hs with
  | leaf _ hl => exact ⟨[], .leaf v hl⟩
  | _ => exact (Bool.false_ne_true hv).elim

-- Values of one content get one content by a conversion, wherever they stand.
theorem isContent_converted (p : Program) (ty : Ty) {u v : Value} {h h' : Heap} {c d : Content}
    (hu : h.IsContent u c) (hv : h'.IsContent v c)
    (hd : (p.converted (some ty) u h).2.IsContent (p.converted (some ty) u h).1 d) :
    (p.converted (some ty) v h').2.IsContent (p.converted (some ty) v h').1 d := by
  obtain ⟨bs, hu'⟩ := hu
  obtain ⟨bs', hv'⟩ := hv
  cases hu' with
  | leaf _ hl =>
      cases hv'
      by_cases hnil : u.isBareNil
      · obtain rfl : u = .nil := by cases u <;> simp_all [Value.isBareNil]
        rw [converted_nil] at hd ⊢
        obtain ⟨ds, hd⟩ := hd
        exact Heap.shows_ofConstant _ h' (Heap.GrowsByBlocks.refl _) hd
      · have hnil : u.isBareNil = false := by simpa using hnil
        rw [converted_settle p ty hnil] at hd ⊢
        rcases p.types.settle_leaf u ty hl with hw | ⟨n, w, hw, hl⟩
        · exact isContent_of_leaf h' hw hd
        · simp only [hw] at hd ⊢
          obtain ⟨ds, hd⟩ := hd
          cases hd with
          | leaf _ hl => exact (Bool.false_ne_true hl).elim
          | named _ _ c ds hs =>
              obtain ⟨ds', hs'⟩ := isContent_of_leaf h' hl ⟨ds, hs⟩
              exact ⟨ds', .named n w c ds' hs'⟩
  | struct s fields bs hb hlen hs =>
      obtain ⟨s', rfl⟩ : ∃ s', v = .struct s' := by
        cases v <;> first | exact ⟨_, rfl⟩ | cases hv'
      rw [converted_settle p ty rfl] at hd ⊢
      obtain rfl := hd.iff_eq.mp ⟨_, .struct s fields bs hb hlen hs⟩
      exact ⟨bs', hv'⟩
  | named t w c bs hs =>
      cases hv' with
      | named _ w' _ _ hs' =>
          rw [converted_settle p ty rfl] at hd ⊢
          obtain rfl := hd.iff_eq.mp ⟨_, .named t w c bs hs⟩
          exact ⟨_, .named t w' c bs' hs'⟩
  | array b elems bs hb hs =>
      cases hv' with
      | array b' _ bs' hb' hs' =>
          rw [converted_settle p ty rfl] at hd ⊢
          have hold := Heap.Shows.array b elems bs hb hs
          have hnew := Heap.Shows.array b' elems bs' hb' hs'
          rcases p.types.settle_array ty with hsame | ⟨n, hname⟩
          · simp only [hsame] at hd ⊢
            obtain rfl := hd.iff_eq.mp ⟨_, hold⟩
            exact ⟨_, hnew⟩
          · simp only [hname] at hd ⊢
            obtain rfl := hd.iff_eq.mp ⟨_, .named n _ _ _ hold⟩
            exact ⟨_, .named n _ _ _ hnew⟩

-- A copy of a value, converted for a place, is new, and it has the content of the value
-- converted for the place.
theorem fresh_converted (p : Program) (ty : Option Ty) {v : Value} {h : Heap} {c : Content}
    (hc : (p.converted ty v h).2.HasContent (p.converted ty v h).1 c) (hsep : c.Separable) :
    Heap.Fresh h (p.converted ty (Heap.copy v h).1 (Heap.copy v h).2).2
      (p.converted ty (Heap.copy v h).1 (Heap.copy v h).2).1 c := by
  cases ty with
  | none => exact Heap.fresh_copy hc hsep
  | some ty =>
      have hleaf : ∀ v : Value, v.isLeaf → Heap.copy v h = (v, h) := fun v hv =>
        Heap.copyWith_leaf _ v h hv
      have hset := fun (v : Value) (h : Heap) (hv : v.isBareNil = false) =>
        converted_settle p ty hv h
      by_cases hnil : v.isBareNil
      · obtain rfl : v = .nil := by cases v <;> simp_all [Value.isBareNil]
        rw [hleaf .nil rfl]
        obtain ⟨bs, hs, hn⟩ := hc
        obtain ⟨hg, hnew⟩ := Heap.newSince_ofConstant (p.types.zero ty) h
        exact ⟨hg, bs, hs, hnew _ c bs (Heap.GrowsByBlocks.refl _) hs, hn⟩
      · have hnil : v.isBareNil = false := by simpa using hnil
        rw [hset v h hnil] at hc
        cases v with
        | struct s =>
            obtain ⟨s', h', hcopy⟩ := Heap.copy_struct s h
            have hfresh := Heap.fresh_copy (v := .struct s) hc hsep
            rw [hcopy] at hfresh ⊢
            rw [hset _ _ rfl]
            exact hfresh
        | named t v =>
            obtain ⟨v', h', hcopy⟩ := Heap.copy_named t v h
            have hfresh := Heap.fresh_copy (v := .named t v) hc hsep
            rw [hcopy] at hfresh ⊢
            rw [hset _ _ rfl]
            exact hfresh
        | array b =>
            obtain ⟨b', h', hcopy⟩ := Heap.copy_array b h
            rw [hcopy, hset _ _ rfl]
            rcases p.types.settle_array ty with hsame | ⟨n, hname⟩
            · simp only [hsame] at hc ⊢
              have hfresh := Heap.fresh_copy hc hsep
              rwa [hcopy] at hfresh
            · simp only [hname] at hc ⊢
              obtain ⟨bs, hs, hn⟩ := hc
              cases hs with
              | leaf _ hl => exact (Bool.false_ne_true hl).elim
              | named _ _ c _ hs =>
                  have hsep' : c.Separable := by cases c <;> simp_all [Content.Separable]
                  have hfresh := Heap.fresh_copy ⟨bs, hs, hn⟩ hsep'
                  rw [hcopy] at hfresh
                  exact hfresh.named n
        | _ =>
            rw [hleaf _ rfl, hset _ _ hnil]
            simp only at hc ⊢
            exact p.types.fresh_settle_leaf rfl hc

-- Reading after writing. A value is assigned to a target, and in the machine that holds the copy
-- of it the target denotes a place. The assignment succeeds, and then the place holds the
-- value, converted for the place, with all of its type and content, exactly if the value that
-- the place held before fits: wherever a struct comes to stand over a struct with as many fields,
-- at the top or inside, both have the same type and the same layout. The place then reads as
-- the overlay of the two contents in either case.
theorem load_after_store (p : Program) (target : Target) (operands : List Value) (v : Value)
    (m m₁ : Machine) (place : Place) (a c : Content)
    (hcopy : m₁ = { m with heap := (Heap.copy v m.heap).2 })
    (hplace : place? m₁ target operands = some place) (hold : m.heap.Holds place a)
    (hv : (p.converted (fieldType? m₁ target operands) v m.heap).2.HasContent
      (p.converted (fieldType? m₁ target operands) v m.heap).1 c)
    (hsep : c.Separable) :
    ∃ m' w, p.storeAll [target] [operands] [v] m = .ok () m' ∧
      m'.heap.read? place = some w ∧ m'.heap.IsContent w (a.overlay c) ∧
      (m'.heap.IsContent w c ↔ a.Fits c) ∧
      ∀ ty, place? m' target operands = some place →
        p.loadTarget target operands ty m' = .ok w m' := by
  have hfresh := fresh_converted p (fieldType? m₁ target operands) hv hsep
  obtain ⟨w, hread, hcontent⟩ := Heap.read?_store hold hfresh
  obtain ⟨x, old, hx, -⟩ := hold
  have hsome : (m₁.heap.read? place).isSome := by
    have hg : Heap.GrowsByBlocks m.heap m₁.heap := by
      rw [hcopy]
      exact Heap.grows_copyUpTo _ v m.heap
    rw [hg.read? hx]
    rfl
  have hstore := storeTarget_place p hplace hsome (Heap.copy v m.heap).1
  have hheap : m₁.heap = (Heap.copy v m.heap).2 := by rw [hcopy]
  rw [← hheap] at hread hcontent
  obtain ⟨m', hm'⟩ : ∃ m', m' = { m₁ with heap := (Heap.store place
    (p.converted (fieldType? m₁ target operands) (Heap.copy v m.heap).1 m₁.heap).1
    (p.converted (fieldType? m₁ target operands) (Heap.copy v m.heap).1 m₁.heap).2).2 } := ⟨_, rfl⟩
  have hheap' : m'.heap = (Heap.store place
      (p.converted (fieldType? m₁ target operands) (Heap.copy v m.heap).1 m₁.heap).1
      (p.converted (fieldType? m₁ target operands) (Heap.copy v m.heap).1 m₁.heap).2).2 := by
    rw [hm']
  rw [← hm'] at hstore
  rw [← hheap'] at hread hcontent
  have hall : p.storeAll [target] [operands] [v] m = .ok () m' := by
    unfold storeAll
    rw [bind_of_ok (monadLift_apply _ m), ← hcopy, bind_of_ok hstore]
    rfl
  refine ⟨m', w, hall, hread, hcontent, ?_, fun ty hp => loadTarget_place p hp hread ty⟩
  rw [hcontent.iff_eq, Content.overlay_eq_iff]

-- A program without code.
def blank : Program := ⟨#[], .initial, [], 1, false⟩

-- One struct of one field in a variable `v`, and one of another type that can be stored there.
def singleField (name : String) : Layout := ⟨[⟨name, .int .int, false⟩]⟩

def twoStructs : Machine where
  heap :=
    { Heap.empty with
      blocks := #[#[.plainInt 1], #[.plainInt 2]]
      scopes := #[⟨[("v", .plain (.struct ⟨singleField "x", 0, some "A"⟩))], none, false⟩] }
  frame := .start 0
  calls := #[]
  deferring := none
  panicTrace := none
  printer := .silent

def stored (typeName field : String) : Value := .struct ⟨singleField field, 1, some typeName⟩

-- A value of the same type replaces what the variable held.
theorem load_after_store_of_same_type :
    ∃ m' w, blank.storeAll [.var "v"] [[]] [stored "A" "x"] twoStructs = .ok () m' ∧
      blank.loadTarget (.var "v") [] none m' = .ok w m' ∧
      m'.heap.IsContent w (.struct (singleField "x") (some "A") [.leaf (.plainInt 2)]) := by
  have hread : twoStructs.heap.Holds (.variable 0 "v")
      (.struct (singleField "x") (some "A") [.leaf (.plainInt 1)]) :=
    ⟨_, [0], rfl, .struct _ _ [] (by decide) rfl (.cons _ _ [] _ _ [] (.leaf _ rfl) .nil),
      by decide⟩
  have hvalue : twoStructs.heap.HasContent (stored "A" "x")
      (.struct (singleField "x") (some "A") [.leaf (.plainInt 2)]) :=
    ⟨[1], .struct _ _ [] (by decide) rfl (.cons _ _ [] _ _ [] (.leaf _ rfl) .nil), by decide⟩
  obtain ⟨m', w, hstore, -, -, hiff, hload⟩ :=
    load_after_store blank (.var "v") [] (stored "A" "x") twoStructs _ (.variable 0 "v") _ _ rfl
      rfl hread hvalue (by simp [Content.Separable, Content.SeparableAll])
  refine ⟨m', w, hstore, hload none ?_, hiff.mpr ?_⟩
  · obtain rfl : _ = m' := EStateM.Result.ok.inj (Eq.trans (by rfl) hstore) |>.2
    rfl
  · simp [Content.Fits, Content.FitsAll]

-- A struct of another type with as many fields leaves the type of the old value in place.
theorem storeAll_keeps_old_type :
    ∃ m', blank.storeAll [.var "v"] [[]] [stored "B" "y"] twoStructs = .ok () m' ∧
      blank.loadTarget (.var "v") [] none m' = .ok (.struct ⟨singleField "x", 0, some "A"⟩) m' ∧
      ¬ m'.heap.IsContent (.struct ⟨singleField "x", 0, some "A"⟩)
        (.struct (singleField "y") (some "B") [.leaf (.plainInt 2)]) := by
  refine ⟨_, rfl, rfl, ?_⟩
  rw [Heap.IsContent.iff_eq (c := .struct (singleField "x") (some "A") [.leaf (.plainInt 2)])
    ⟨[0], .struct _ _ [] (by decide) rfl (.cons _ _ [] _ _ [] (.leaf _ rfl) .nil)⟩]
  simp

end Program

end StepGraph

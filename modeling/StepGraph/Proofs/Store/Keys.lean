import Mathlib.Logic.Relation
import StepGraph.Heap.Map
import StepGraph.Operator.Equality
import StepGraph.Proofs.Store.Outline
import StepGraph.Proofs.Store.Trees

namespace StepGraph

open Relation (ReflTransGen TransGen)

-- A traversal that can fail, item by item.
theorem mapM_ok_iff {α β : Type} {f : α → Except Failure β} {xs : List α} {ys : List β} :
    xs.mapM f = .ok ys ↔ List.Forall₂ (fun x y => f x = .ok y) xs ys := by
  induction xs generalizing ys with
  | nil => cases ys <;> simp [pure, Except.pure]
  | cons x xs ih =>
      rw [List.mapM_cons]
      cases hx : f x with
      | error e => cases ys <;> simp [bind, Except.bind, hx]
      | ok y =>
          cases hxs : xs.mapM f with
          | error e => cases ys <;> simp [bind, Except.bind, hx, ← ih, hxs]
          | ok => cases ys <;> simp [bind, Except.bind, pure, Except.pure, hx, ← ih, hxs]

theorem ok_of_mem_mapM {α β : Type} {f : α → Except Failure β} {xs : List α} {ys : List β} {x : α}
    (h : xs.mapM f = .ok ys) (hx : x ∈ xs) : ∃ y, f x = .ok y := by
  induction mapM_ok_iff.mp h with
  | nil => cases hx
  | @cons z y xs ys hz hzs ih =>
      rcases List.mem_cons.mp hx with rfl | hx
      · exact ⟨y, hz⟩
      · exact ih (mapM_ok_iff.mpr hzs) hx

theorem mem_of_mapM_error {α β : Type} {f : α → Except Failure β} {xs : List α} {e : Failure}
    (h : xs.mapM f = .error e) : ∃ x ∈ xs, f x = .error e := by
  induction xs with
  | nil => cases h
  | cons x xs ih =>
      rw [List.mapM_cons] at h
      cases hx : f x with
      | error e' =>
          rw [hx] at h
          cases h
          exact ⟨x, List.mem_cons_self, hx⟩
      | ok y =>
          rw [hx] at h
          cases hxs : xs.mapM f with
          | error e' =>
              rw [hxs] at h
              cases h
              obtain ⟨z, hz, hze⟩ := ih hxs
              exact ⟨z, List.mem_cons_of_mem x hz, hze⟩
          | ok ys =>
              rw [hxs] at h
              cases h

namespace Value

-- Values that are no key of a map.
def isUnhashable : Value → Bool
  | slice _ | map _ | func _ | method .. | package _ | cursor _ => true
  | _ => false

def isFloating : Value → Bool
  | float32 _ | float64 _ | complex64 _ | complex128 _ => true
  | _ => false

-- Two values that are no struct, no array and of no declared type, and can be keys, are of one
-- kind. Kinds of integers differ.
def SameKind : Value → Value → Prop
  | int a, int b => a.kind = b.kind
  | nil, nil | bool _, bool _ | str _, str _ | float32 _, float32 _ | float64 _, float64 _
  | complex64 _, complex64 _ | complex128 _, complex128 _ | pointer _, pointer _ | chan _, chan _
  | error _, error _ => True
  | _, _ => False

end Value

namespace Heap

-- A part stands right inside a value: a field, an element or what a declared type is around. What
-- a pointer, a channel or an error refers to is no part.
inductive Part (h : Heap) : Value → Value → Prop
  | stored {v x : Value} {b : BlockId} (hv : v.block? = some b) (hx : x ∈ (h.block b).toList) :
      Part h x v
  | inner (t : String) (v : Value) : Part h v (.named t v)

-- The parts of a value, the parts of these and so on, and the value itself.
def Occurs (h : Heap) (x v : Value) : Prop := ReflTransGen h.Part x v

-- There is a last part on every way down into the value.
def Grounded (h : Heap) (v : Value) : Prop := Acc h.Part v

-- At every position the two values are of one kind, and the types there have the same name
-- and the same layout.
inductive SameShape (h : Heap) : Value → Value → Prop
  | leaf (v w : Value) (hkind : v.SameKind w) : SameShape h v w
  | struct (s t : StructRef) (hname : s.typeName = t.typeName) (hlayout : s.layout = t.layout)
      (hsize : (h.block s.block).size = (h.block t.block).size)
      (hfields : ∀ p ∈ (h.block s.block).toList.zip (h.block t.block).toList,
        SameShape h p.1 p.2) :
      SameShape h (.struct s) (.struct t)
  | array (b c : BlockId)
      (helems : ∀ p ∈ (h.block b).toList.zip (h.block c).toList, SameShape h p.1 p.2) :
      SameShape h (.array b) (.array c)
  | named (t : String) (v w : Value) (hv : SameShape h v w) :
      SameShape h (.named t v) (.named t w)

variable {h : Heap} {v w x : Value} {k l : MapKey} {e : Failure} {n : Nat} {path : List BlockId}

theorem keyUpTo_struct (s : StructRef) : h.keyUpTo (n + 1) (.struct s) =
    ((h.block s.block).toList.mapM (h.keyUpTo n)).map (MapKey.struct s.typeName) := by
  change (do return MapKey.struct s.typeName (← (h.block s.block).toList.mapM (h.keyUpTo n))) = _
  cases (h.block s.block).toList.mapM (h.keyUpTo n) <;> rfl

theorem keyUpTo_array (b : BlockId) : h.keyUpTo (n + 1) (.array b) =
    ((h.block b).toList.mapM (h.keyUpTo n)).map MapKey.array := by
  change (do return MapKey.array (← (h.block b).toList.mapM (h.keyUpTo n))) = _
  cases (h.block b).toList.mapM (h.keyUpTo n) <;> rfl

theorem keyUpTo_named (t : String) (v : Value) : h.keyUpTo (n + 1) (.named t v) =
    (h.keyUpTo (n + 1) v).map (MapKey.named t) := by
  change (do return MapKey.named t (← h.keyUpTo (n + 1) v)) = _
  cases h.keyUpTo (n + 1) v <;> rfl

theorem keyUpTo_block {b : BlockId} (hv : v.block? = some b) :
    ∃ f, h.keyUpTo (n + 1) v = ((h.block b).toList.mapM (h.keyUpTo n)).map f := by
  cases v with
  | struct s =>
      cases hv
      exact ⟨_, keyUpTo_struct s⟩
  | array b =>
      cases hv
      exact ⟨_, keyUpTo_array b⟩
  | _ => cases hv

theorem map_ok_inv {α β : Type} {f : α → β} {r : Except Failure α} {b : β}
    (h : r.map f = .ok b) : ∃ a, r = .ok a ∧ f a = b := by
  cases r with
  | error => cases h
  | ok a =>
      cases h
      exact ⟨a, rfl, rfl⟩

theorem map_error_inv {α β : Type} {f : α → β} {r : Except Failure α}
    (h : r.map f = .error e) : r = .error e := by
  cases r with
  | error =>
      cases h
      rfl
  | ok => cases h

-- What a value that is no key fails with, or which part of it is no key.
theorem keyUpTo_error (hk : h.keyUpTo (n + 1) v = .error e) :
    (v.isUnhashable = true ∧ e = .fault (.unhashable v.kindName)) ∨
      (∃ b x, v.block? = some b ∧ x ∈ (h.block b).toList ∧ h.keyUpTo n x = .error e) ∨
      ∃ t w, v = .named t w ∧ h.keyUpTo (n + 1) w = .error e := by
  cases v with
  | struct s =>
      rw [keyUpTo_struct] at hk
      obtain ⟨x, hx, hxe⟩ := mem_of_mapM_error (map_error_inv hk)
      exact .inr (.inl ⟨s.block, x, rfl, hx, hxe⟩)
  | array b =>
      rw [keyUpTo_array] at hk
      obtain ⟨x, hx, hxe⟩ := mem_of_mapM_error (map_error_inv hk)
      exact .inr (.inl ⟨b, x, rfl, hx, hxe⟩)
  | named t w =>
      rw [keyUpTo_named] at hk
      exact .inr (.inr ⟨t, w, rfl, map_error_inv hk⟩)
  | slice | map | func | method | package | cursor => cases hk; exact .inl ⟨rfl, rfl⟩
  | _ => cases hk

theorem keyUpTo_unhashable (hv : v.isUnhashable = true) (n : Nat) :
    h.keyUpTo n v = .error (.fault (.unhashable v.kindName)) := by
  cases n with
  | zero => rfl
  | succ n =>
      cases v with
      | slice | map | func | method | package | cursor => rfl
      | _ => cases hv

-- Where a value is a key, so is all that is inside it.
theorem Occurs.key_ok (hx : h.Occurs x v) (hk : h.keyUpTo n v = .ok k) :
    ∃ m l, h.keyUpTo m x = .ok l := by
  induction hx using ReflTransGen.head_induction_on with
  | refl => exact ⟨n, k, hk⟩
  | head hpart _ ih =>
      obtain ⟨m, l, hl⟩ := ih
      cases m with
      | zero => cases hl
      | succ m =>
          cases hpart with
          | stored hv hx =>
              obtain ⟨f, hf⟩ := keyUpTo_block (h := h) (n := m) hv
              obtain ⟨ks, hks, -⟩ := map_ok_inv (hf.symm.trans hl)
              obtain ⟨l, hl⟩ := ok_of_mem_mapM hks hx
              exact ⟨m, l, hl⟩
          | inner t v =>
              rw [keyUpTo_named] at hl
              obtain ⟨l, hl, -⟩ := map_ok_inv hl
              exact ⟨m + 1, l, hl⟩

theorem Grounded.not_in_itself (hv : h.Grounded v) : ¬ TransGen h.Part v v := by
  have hacc : Acc (TransGen h.Part) v := hv.transGen
  clear hv
  induction hacc with
  | intro v _ ih => exact fun hloop => ih v hloop hloop

-- The blocks around a value on the way to it.
structure Way (h : Heap) (v : Value) (path : List BlockId) : Prop where
  nodup : path.Nodup
  around : ∀ b ∈ path, b < h.blocks.size ∧ ∃ x ∈ (h.block b).toList, h.Occurs v x

theorem Way.length_le (hw : h.Way v path) : path.length ≤ h.blocks.size :=
  Lists.length_le_of_nodup hw.nodup fun b hb => (hw.around b hb).1

theorem Way.inner {t : String} (hw : h.Way (.named t v) path) : h.Way v path where
  nodup := hw.nodup
  around b hb := by
    obtain ⟨hlt, x, hx, hoccurs⟩ := hw.around b hb
    exact ⟨hlt, x, hx, hoccurs.head (.inner t v)⟩

-- A block around a grounded value is not the one that the value stands in.
theorem Way.cons {b : BlockId} (hw : h.Way v path) (hgrounded : h.Grounded v) (hv : v.block? = some b)
    (hx : x ∈ (h.block b).toList) : h.Way x (b :: path) where
  nodup := by
    refine List.nodup_cons.mpr ⟨fun hb => ?_, hw.nodup⟩
    obtain ⟨-, y, hy, hoccurs⟩ := hw.around b hb
    have hloop : TransGen h.Part v v := .tail' hoccurs (.stored hv hy)
    exact hgrounded.not_in_itself hloop
  around d hd := by
    rcases List.mem_cons.mp hd with rfl | hd
    · refine ⟨?_, x, hx, .refl⟩
      by_contra hlt
      simp [block, Array.getElem?_eq_none (Nat.le_of_not_lt hlt)] at hx
    · obtain ⟨hlt, y, hy, hoccurs⟩ := hw.around d hd
      exact ⟨hlt, y, hy, hoccurs.head (.stored hv hx)⟩

-- With room for the blocks that are not around the value, a key fails because of what is inside.
theorem Grounded.keyUpTo_error (hv : h.Grounded v) (hw : h.Way v path) (hroom : h.depth ≤ n + path.length)
    (hk : h.keyUpTo n v = .error e) :
    ∃ x, h.Occurs x v ∧ x.isUnhashable = true ∧ e = .fault (.unhashable x.kindName) := by
  induction hv generalizing n path with
  | intro v hgrounded ih =>
      have hlen := hw.length_le
      unfold depth at hroom
      obtain ⟨n, rfl⟩ : ∃ m, n = m + 1 := ⟨n - 1, by omega⟩
      rcases Heap.keyUpTo_error hk with ⟨hv, he⟩ | ⟨b, x, hb, hx, hxe⟩ | ⟨t, w, rfl, hwe⟩
      · exact ⟨v, .refl, hv, he⟩
      · have hpart : h.Part x v := .stored hb hx
        have hway : h.Way x (b :: path) := hw.cons ⟨v, hgrounded⟩ hb hx
        obtain ⟨y, hy, hye⟩ := ih x hpart hway (by simp [depth]; omega) hxe
        exact ⟨y, hy.tail hpart, hye⟩
      · have hpart : h.Part w (.named t w) := .inner t w
        obtain ⟨y, hy, hye⟩ := ih w hpart hw.inner (by simp [depth]; omega) hwe
        exact ⟨y, hy.tail hpart, hye⟩

theorem Grounded.keyOf_error (hv : h.Grounded v) (hk : h.keyOf v = .error e) :
    ∃ x, h.Occurs x v ∧ x.isUnhashable = true ∧ e = .fault (.unhashable x.kindName) :=
  hv.keyUpTo_error ⟨.nil, fun _ hb => absurd hb List.not_mem_nil⟩ (Nat.le_refl _) hk

theorem keyOf_error_of_occurs (hx : h.Occurs x v) (hu : x.isUnhashable = true) :
    ∃ e, h.keyOf v = .error e := by
  cases hk : h.keyOf v with
  | error e => exact ⟨e, rfl⟩
  | ok k =>
      obtain ⟨m, l, hl⟩ := hx.key_ok hk
      rw [keyUpTo_unhashable hu] at hl
      cases hl

-- The keys of the parts are equal one by one just where the parts are.
theorem allEqual_eq_keys {key : Value → Except Failure MapKey}
    {same : Value → Value → Except Failure Bool} {vs ws : List Value} {ks ls : List MapKey}
    (hlen : vs.length = ws.length) (hks : vs.mapM key = .ok ks) (hls : ws.mapM key = .ok ls)
    (hsame : ∀ p ∈ vs.zip ws, ∀ k l, key p.1 = .ok k → key p.2 = .ok l →
      same p.1 p.2 = .ok (decide (k = l))) :
    allEqual same vs ws = .ok (decide (ks = ls)) := by
  rw [mapM_ok_iff] at hks hls
  induction hks generalizing ws ls with
  | nil =>
      cases hls with
      | nil => rfl
      | cons => cases hlen
  | @cons v k vs ks hv hvs ih =>
      cases hls with
      | nil => cases hlen
      | @cons w l ws ls hw hws =>
          have hrest := ih (Nat.succ.inj hlen) hws fun p hp => hsame p (List.mem_cons_of_mem _ hp)
          unfold allEqual
          rw [hsame (v, w) List.mem_cons_self k l hv hw]
          change (if decide (k = l) = true then allEqual same vs ws else .ok false) = _
          by_cases hkl : k = l
          · simp [hkl, hrest]
          · simp [hkl]

theorem equalUpTo_leaf (hkind : v.SameKind w) (hfloat : v.isFloating = false)
    (hk : h.keyUpTo (n + 1) v = .ok k) (hl : h.keyUpTo (n + 1) w = .ok l) :
    h.equalUpTo (n + 1) v w = .ok (decide (k = l)) := by
  unfold Value.SameKind at hkind
  split at hkind
  case h_1 a b =>
    cases hk
    cases hl
    have hval : a = b ↔ a.val = b.val := by
      cases a
      cases b
      cases hkind
      simp
    change Except.ok (Value.sameNumber (.int a) (.int b)) = _
    simp [Value.sameNumber, Value.unify, hkind, hval, beq_eq_decide]
  all_goals try first | cases hfloat | cases hkind
  all_goals
    cases hk
    cases hl
    simp [equalUpTo, equalWith, equalBare, beq_eq_decide, Value.isNil]

theorem SameShape.equalUpTo_eq (hs : h.SameShape v w)
    (hfloat : ∀ x, h.Occurs x v → x.isFloating = false) (hk : h.keyUpTo n v = .ok k)
    (hl : h.keyUpTo n w = .ok l) : h.equalUpTo n v w = .ok (decide (k = l)) := by
  induction hs generalizing n k l with
  | leaf v w hkind =>
      cases n with
      | zero => cases hk
      | succ n => exact equalUpTo_leaf hkind (hfloat v .refl) hk hl
  | struct s t hname hlayout hsize hfields ih =>
      cases n with
      | zero => cases hk
      | succ n =>
          rw [keyUpTo_struct] at hk hl
          obtain ⟨ks, hks, rfl⟩ := map_ok_inv hk
          obtain ⟨ls, hls, rfl⟩ := map_ok_inv hl
          have hparts := allEqual_eq_keys (by simpa using hsize) hks hls
            fun p hp k l hk hl => ih p hp (fun x hx => hfloat x (hx.tail (.stored rfl
              (List.of_mem_zip hp).1))) hk hl
          change (if s.typeName ≠ t.typeName ∨ s.layout.length ≠ t.layout.length then _ else _) = _
          rw [if_neg (by simp [hname, hlayout])]
          simpa [hname] using hparts
  | array b c helems ih =>
      cases n with
      | zero => cases hk
      | succ n =>
          rw [keyUpTo_array] at hk hl
          obtain ⟨ks, hks, rfl⟩ := map_ok_inv hk
          obtain ⟨ls, hls, rfl⟩ := map_ok_inv hl
          change (if (h.block b).size ≠ (h.block c).size then _ else _) = _
          by_cases hsize : (h.block b).size = (h.block c).size
          · have hparts := allEqual_eq_keys (by simpa using hsize) hks hls
              fun p hp k l hk hl => ih p hp (fun x hx => hfloat x (hx.tail (.stored rfl
                (List.of_mem_zip hp).1))) hk hl
            rw [if_neg (not_not.mpr hsize)]
            simpa using hparts
          · have hlen : ks.length ≠ ls.length := by
              rw [← (mapM_ok_iff.mp hks).length_eq, ← (mapM_ok_iff.mp hls).length_eq]
              simpa using hsize
            have hne : ks ≠ ls := mt (congrArg List.length) hlen
            rw [if_pos hsize]
            simp [hne]
  | named t v w hv ih =>
      cases n with
      | zero => cases hk
      | succ n =>
          rw [keyUpTo_named] at hk hl
          obtain ⟨k, hk', rfl⟩ := map_ok_inv hk
          obtain ⟨l, hl', rfl⟩ := map_ok_inv hl
          change (if t = t then h.equalUpTo (n + 1) v w else _) = _
          rw [if_pos rfl, ih (fun x hx => hfloat x (hx.tail (.inner t v))) hk' hl']
          simp

-- Values of one shape without floating-point numbers are one key just where they are equal, and
-- a value is no key just where something inside it is none.
theorem map_keys_agree_with_equality (h : Heap) (v w : Value) :
    (∀ k l, h.keyOf v = .ok k → h.keyOf w = .ok l → h.SameShape v w →
      (∀ x, h.Occurs x v → x.isFloating = false) →
      (k = l ↔ h.equal v w = .ok true)) ∧
    (h.Grounded v →
      ((∃ e, h.keyOf v = .error e) ↔ ∃ x, h.Occurs x v ∧ x.isUnhashable = true) ∧
      ∀ e, h.keyOf v = .error e →
        ∃ x, h.Occurs x v ∧ x.isUnhashable = true ∧ e = .fault (.unhashable x.kindName)) := by
  constructor
  · intro k l hk hl hs hfloat
    have heq : h.equal v w = .ok (decide (k = l)) :=
      hs.equalUpTo_eq hfloat hk hl
    simp [heq]
  · intro hv
    refine ⟨⟨?_, ?_⟩, fun e he => hv.keyOf_error he⟩
    · rintro ⟨e, he⟩
      obtain ⟨x, hx, hu, -⟩ := hv.keyOf_error he
      exact ⟨x, hx, hu⟩
    · rintro ⟨x, hx, hu⟩
      exact keyOf_error_of_occurs hx hu

-- What is inside a struct or an array is itself or inside one of the parts.
theorem Occurs.cases_block {b : BlockId} (hx : h.Occurs x v) (hv : v.block? = some b) :
    x = v ∨ ∃ y ∈ (h.block b).toList, h.Occurs x y := by
  rcases hx.cases_tail with heq | ⟨y, hxy, hy⟩
  · exact .inl heq.symm
  · cases hy with
    | stored hb hy =>
        cases hv.symm.trans hb
        exact .inr ⟨y, hy, hxy⟩
    | inner => cases hv

theorem Occurs.eq_of_flat (hx : h.Occurs x v) (hv : v.isLeaf) : x = v := by
  rcases hx.cases_tail with heq | ⟨y, -, hy⟩
  · exact heq.symm
  · cases hy with
    | stored hb =>
        cases v with
        | struct | array => cases hv
        | _ => cases hb
    | inner => cases hv

-- Two structs with the same number are one key, and an array with a function in it is none.
theorem structs_of_one_number_are_one_key :
    let h : Heap := { Heap.empty with blocks := #[#[.plainInt 1], #[.plainInt 1], #[.func none]] }
    let layout : Layout := ⟨[⟨"n", .int .int, false⟩]⟩
    let s : Value := .struct ⟨layout, 0, some "T"⟩
    let t : Value := .struct ⟨layout, 1, some "T"⟩
    h.keyOf s = h.keyOf t ∧ h.equal s t = .ok true ∧ ∃ e, h.keyOf (.array 2) = .error e := by
  intro h layout s t
  have hs : h.keyOf s = .ok (.struct (some "T") [.int (.plain 1)]) := rfl
  have ht : h.keyOf t = .ok (.struct (some "T") [.int (.plain 1)]) := rfl
  have hshape : h.SameShape s t := by
    refine .struct _ _ rfl rfl rfl fun p hp => ?_
    obtain rfl : p = (.plainInt 1, .plainInt 1) := List.mem_singleton.mp hp
    exact .leaf _ _ rfl
  have hfloat : ∀ x, h.Occurs x s → x.isFloating = false := by
    intro x hx
    rcases hx.cases_block rfl with rfl | ⟨y, hy, hx⟩
    · rfl
    · obtain rfl : y = .plainInt 1 := List.mem_singleton.mp hy
      rw [hx.eq_of_flat rfl]
      rfl
  have hgrounded : h.Grounded (.array 2) := by
    refine ⟨_, fun y hy => ⟨_, fun z hz => ?_⟩⟩
    cases hy with
    | stored hb hy =>
        cases hb
        obtain rfl : y = .func none := List.mem_singleton.mp hy
        cases hz with
        | stored hb => cases hb
  refine ⟨hs.trans ht.symm, ?_, ?_⟩
  · exact ((map_keys_agree_with_equality h s t).1 _ _ hs ht hshape hfloat).mp rfl
  · have hpart : h.Part (.func none) (.array 2) := .stored rfl List.mem_cons_self
    exact ((map_keys_agree_with_equality h (.array 2) .nil).2 hgrounded).1.mpr
      ⟨.func none, .single hpart, rfl⟩

end Heap

end StepGraph

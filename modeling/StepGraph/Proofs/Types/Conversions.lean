import StepGraph.Machine.Builtins
import StepGraph.Proofs.Machine.Ranges
import StepGraph.Proofs.Store.Assignment
import StepGraph.Text.Utf8

open EStateM (bind_of_ok)

namespace StepGraph.Utf8

variable {c : Char} {cs : List Char} {rest : List UInt8} {s : String} {a b d e : UInt8}

theorem toList_loop (bs : ByteArray) (i : Nat) (r : List UInt8) :
    ByteArray.toList.loop bs i r = r.reverse ++ bs.data.toList.drop i := by
  fun_induction ByteArray.toList.loop bs i r with
  | case1 i r hi ih =>
      have hget : bs.get! i = bs.data.toList[i] := by
        cases bs
        exact getElem!_pos _ i hi
      rw [ih, List.reverse_cons, List.append_assoc, hget, List.singleton_append,
        ← List.drop_eq_getElem_cons]
  | case2 i r hi =>
      have hlength : bs.data.toList.length ≤ i := Nat.le_of_not_lt hi
      rw [List.drop_eq_nil_of_le hlength, List.append_nil]

theorem toList_eq (bs : ByteArray) : bs.toList = bs.data.toList := toList_loop bs 0 []

-- The bytes of a string are those of its characters.
theorem bytes_eq (s : String) : bytes s = s.toList.flatMap String.utf8EncodeChar := by
  have hs : s.toByteArray = s.toList.utf8Encode := by
    rw [← String.toByteArray_ofList, String.ofList_toList]
  unfold bytes
  rw [toList_eq, String.toUTF8_eq_toByteArray, hs]
  exact List.toList_data_toByteArray

theorem length_bytes (s : String) : (bytes s).length = s.utf8ByteSize := by
  unfold bytes
  rw [toList_eq]
  exact String.size_toByteArray

theorem byteAt?_eq (s : String) (i : Nat) : byteAt? s i = (bytes s)[i]? := by
  unfold bytes
  rw [toList_eq]
  by_cases hi : i < s.toUTF8.size
  · exact (dif_pos hi).trans (List.getElem?_eq_getElem hi).symm
  · exact (dif_neg hi).trans (List.getElem?_eq_none (Nat.le_of_not_lt hi)).symm

theorem isContinuation_of_toNat (hlow : 0x80 ≤ b.toNat) (hhigh : b.toNat ≤ 0xBF) :
    isContinuation b = true := by
  have hall : ∀ k < 64, isContinuation (UInt8.ofNat (0x80 + k)) = true := by decide
  have hb : UInt8.ofNat (0x80 + (b.toNat - 0x80)) = b := by
    rw [Nat.add_sub_cancel' hlow, UInt8.ofNat_toNat]
  rw [← hb]
  exact hall _ (by omega)

theorem between (low high : UInt8) (hlow : low.toNat ≤ a.toNat) (hhigh : a.toNat ≤ high.toNat) :
    (low ≤ a && a ≤ high) = true := by
  rw [Bool.and_eq_true, decide_eq_true_eq, decide_eq_true_eq]
  exact ⟨hlow, hhigh⟩

theorem not_between (low high : UInt8) (h : high.toNat < a.toNat) :
    (low ≤ a && a ≤ high) = false := by
  rw [Bool.and_eq_false_iff, decide_eq_false_iff_not, decide_eq_false_iff_not]
  exact .inr (Nat.not_le.mpr h)

theorem secondAllowed_of_toNat (hlow : 0x80 ≤ b.toNat) (hhigh : b.toNat ≤ 0xBF)
    (hlong₃ : a.toNat = 0xE0 → 0xA0 ≤ b.toNat) (hsurrogate : a.toNat = 0xED → b.toNat ≤ 0x9F)
    (hlong₄ : a.toNat = 0xF0 → 0x90 ≤ b.toNat) (hlast : a.toNat = 0xF4 → b.toNat ≤ 0x8F) :
    secondAllowed a b = true := by
  have htoNat : ∀ first : UInt8, (a == first) = true → a.toNat = first.toNat := by
    intro first h
    rw [beq_iff_eq.mp h]
  unfold secondAllowed
  split
  · next h => exact between _ _ (hlong₃ (htoNat _ h)) hhigh
  · split
    · next h => exact between _ _ hlow (hsurrogate (htoNat _ h))
    · split
      · next h => exact between _ _ (hlong₄ (htoNat _ h)) hhigh
      · split
        · next h => exact between _ _ hlow (hlast (htoNat _ h))
        · exact isContinuation_of_toNat hlow hhigh

-- What is read of bytes that begin with those of a character.

theorem decode_nil : decode [] = [] := by rw [decode.eq_def]

theorem decode_one (ha : a.toNat < 0x80) :
    decode (a :: rest) = Char.ofNat a.toNat :: decode rest := by
  have hone : a < 0x80 := ha
  rw [decode.eq_def]
  simp only [hone, if_true]

theorem decode_two (hlow : 0xC2 ≤ a.toNat) (hhigh : a.toNat ≤ 0xDF)
    (hb : isContinuation b = true) : decode (a :: b :: rest) = join2 a b :: decode rest := by
  have hone : ¬ a < 0x80 := Nat.not_lt.mpr (Nat.le_trans (by decide) hlow)
  have htwo := between 0xC2 0xDF hlow hhigh
  rw [decode.eq_def]
  simp only [hone, if_false, htwo, if_true, hb]

theorem decode_three (hlow : 0xE0 ≤ a.toNat) (hhigh : a.toNat ≤ 0xEF)
    (hb : secondAllowed a b = true) (hd : isContinuation d = true) :
    decode (a :: b :: d :: rest) = join3 a b d :: decode rest := by
  have hone : ¬ a < 0x80 := Nat.not_lt.mpr (Nat.le_trans (by decide) hlow)
  have htwo := not_between 0xC2 0xDF hlow
  have hthree := between 0xE0 0xEF hlow hhigh
  rw [decode.eq_def]
  simp only [hone, if_false, htwo, hthree, if_true, hb, hd, Bool.not_true, Bool.false_eq_true]

theorem decode_four (hlow : 0xF0 ≤ a.toNat) (hhigh : a.toNat ≤ 0xF4)
    (hb : secondAllowed a b = true) (hd : isContinuation d = true) (he : isContinuation e = true) :
    decode (a :: b :: d :: e :: rest) = join4 a b d e :: decode rest := by
  have hone : ¬ a < 0x80 := Nat.not_lt.mpr (Nat.le_trans (by decide) hlow)
  have htwo := not_between 0xC2 0xDF (Nat.lt_of_lt_of_le (by decide) hlow)
  have hthree := not_between 0xE0 0xEF hlow
  have hfour := between 0xF0 0xF4 hlow hhigh
  rw [decode.eq_def]
  simp only [hone, if_false, htwo, hthree, hfour, if_true, hb, hd, he, Bool.not_true,
    Bool.false_eq_true]

-- The number of a character is below the surrogates or above them.
theorem char_bounds (c : Char) : c.toNat < 0xD800 ∨ 0xDFFF < c.toNat ∧ c.toNat < 0x110000 :=
  c.valid

theorem decode_encode (c : Char) (rest : List UInt8) :
    decode (String.utf8EncodeChar c ++ rest) = c :: decode rest := by
  have hvalid := char_bounds c
  have hnat : c.val.toNat = c.toNat := rfl
  have hbyte : ∀ n, n < 256 → (UInt8.ofNat n).toNat = n := fun n hn =>
    UInt8.toNat_ofNat_of_lt hn
  have hofNat : ∀ n, n = c.toNat → Char.ofNat n = c := by
    rintro n rfl
    exact Char.ofNat_toNat c
  unfold String.utf8EncodeChar
  simp only [hnat]
  split
  · next h =>
      have ha := hbyte c.toNat (by omega)
      rw [List.singleton_append, decode_one (by omega), ha, Char.ofNat_toNat]
  · split
    · next h =>
        have ha := hbyte (c.toNat / 64 % 0x20 + 0xC0) (by omega)
        have hb := hbyte (c.toNat % 0x40 + 0x80) (by omega)
        change decode (_ :: _ :: rest) = _
        rw [decode_two (by omega) (by omega) (isContinuation_of_toNat (by omega) (by omega)),
          join2, ha, hb, hofNat _ (by omega)]
    · split
      · next h =>
          have ha := hbyte (c.toNat / 4096 % 0x10 + 0xE0) (by omega)
          have hb := hbyte (c.toNat / 64 % 0x40 + 0x80) (by omega)
          have hd := hbyte (c.toNat % 0x40 + 0x80) (by omega)
          change decode (_ :: _ :: _ :: rest) = _
          rw [decode_three (by omega) (by omega)
              (secondAllowed_of_toNat (by omega) (by omega) (by omega) (by omega) (by omega)
                (by omega))
              (isContinuation_of_toNat (by omega) (by omega)),
            join3, ha, hb, hd, hofNat _ (by omega)]
      · next h =>
          have ha := hbyte (c.toNat / 262144 % 0x08 + 0xF0) (by omega)
          have hb := hbyte (c.toNat / 4096 % 0x40 + 0x80) (by omega)
          have hd := hbyte (c.toNat / 64 % 0x40 + 0x80) (by omega)
          have he := hbyte (c.toNat % 0x40 + 0x80) (by omega)
          change decode (_ :: _ :: _ :: _ :: rest) = _
          rw [decode_four (by omega) (by omega)
              (secondAllowed_of_toNat (by omega) (by omega) (by omega) (by omega) (by omega)
                (by omega))
              (isContinuation_of_toNat (by omega) (by omega))
              (isContinuation_of_toNat (by omega) (by omega)),
            join4, ha, hb, hd, he, hofNat _ (by omega)]

theorem decode_flatMap (cs : List Char) : decode (cs.flatMap String.utf8EncodeChar) = cs := by
  induction cs with
  | nil => exact decode_nil
  | cons c cs ih => rw [List.flatMap_cons, decode_encode, ih]

theorem ofBytes_bytes (s : String) : ofBytes (bytes s) = s := by
  unfold ofBytes
  rw [bytes_eq, decode_flatMap, String.ofList_toList]

theorem charOfInt_toNat (c : Char) : charOfInt c.toNat = c := by
  unfold charOfInt
  rw [if_pos ⟨Int.natCast_nonneg _, c.valid⟩]
  exact Char.ofNat_toNat c

end StepGraph.Utf8

namespace StepGraph

def Ty.declaredName? : Ty → Option String
  | .named x => some x
  | _ => none

namespace TypeTable

-- The type leads through `n` declared names to a type that is no name.
inductive StandsFor (t : TypeTable) : Nat → Ty → Ty → Prop
  | self {ty : Ty} (hself : ty.declaredName? = none) : StandsFor t 0 ty ty
  | declared {n : Nat} {x : String} {i : TypeInfo} {ty : Ty} (hinfo : t.info? x = some i)
      (h : StandsFor t n i.underlying ty) : StandsFor t (n + 1) (.named x) ty

variable {t : TypeTable} {ty lit : Ty} {n k : Nat} {v inner : Value} {s : String} {h h' : Heap}

theorem resolveUpTo_self (hself : ty.declaredName? = none) (k : Nat) :
    t.resolveUpTo k ty = ty := by
  cases ty with
  | named x => cases hself
  | _ => cases k <;> rfl

theorem StandsFor.resolveUpTo_eq (hty : t.StandsFor n ty lit) (hn : n ≤ k) :
    t.resolveUpTo k ty = lit := by
  induction hty generalizing k with
  | self hself => exact resolveUpTo_self hself k
  | @declared n x i lit hinfo _ ih =>
      obtain ⟨k, rfl⟩ := Nat.exists_eq_add_of_lt (Nat.lt_of_lt_of_le (Nat.succ_pos n) hn)
      rw [Nat.zero_add, resolveUpTo, hinfo]
      exact ih (by omega)

theorem StandsFor.resolve_eq (hty : t.StandsFor n ty lit) (hn : n ≤ 64) : t.resolve ty = lit :=
  hty.resolveUpTo_eq hn

-- A chain of names that is too long ends in a name.
theorem StandsFor.resolveUpTo_named (hty : t.StandsFor n ty lit) (hn : k < n) :
    ∃ x, t.resolveUpTo k ty = .named x := by
  induction hty generalizing k with
  | self hself => exact absurd hn (Nat.not_lt_zero k)
  | @declared n x i lit hinfo _ ih =>
      cases k with
      | zero => exact ⟨x, rfl⟩
      | succ k =>
          rw [resolveUpTo, hinfo]
          exact ih (Nat.lt_of_succ_lt_succ hn)

theorem isBareNil_of_unwrap (h : v.unwrap ≠ .nil) : v.isBareNil = false := by
  cases v with
  | nil => exact absurd rfl h
  | _ => rfl

theorem run_convert (hty : t.resolve ty = lit) (hnil : v.isBareNil = false)
    (hinterface : lit.isInterface = false)
    (hrun : (t.convertBare v.unwrap lit).run h = (.ok inner, h'))
    (hinner : ∀ s, inner ≠ .struct s) :
    (t.convert v ty).run h = (.ok (inner.wearing ty.declaredName?), h') := by
  have hliteral : t.isInterface ty = false := by
    unfold isInterface
    rw [hty, hinterface]
  unfold convert
  rw [if_neg (by simp [hnil]), if_neg (by simp [hliteral])]
  cases ty with
  | named x =>
      change (ExceptT.bindCont _ ((t.convertBare v.unwrap (t.resolve (.named x))).run h).1 :
        HeapM _) ((t.convertBare v.unwrap (t.resolve (.named x))).run h).2 = _
      rw [hty, hrun]
      cases inner with
      | struct s => exact absurd rfl (hinner s)
      | _ => rfl
  | _ =>
      rw [resolve, resolveUpTo_self rfl] at hty
      subst hty
      exact hrun

-- The texts of the elements.

theorem ints_of_elems {α : Type} (k : IntKind) (f : α → Int) (l : List α) :
    (l.map fun a => Value.intOf k (f a)).filterMap (·.int?) = l.map fun a => .ofInt k (f a) := by
  induction l with
  | nil => rfl
  | cons a l ih =>
      rw [List.map_cons, List.map_cons, ← ih]
      rfl

theorem ofNat_toNat64_byte (b : UInt8) :
    UInt8.ofNat (IntValue.ofInt .uint8 b.toNat).toNat64 = b := by
  have hb : b.toNat < 256 := b.toNat_lt
  have hholds : IntKind.uint8.Holds b.toNat := by
    refine ⟨Int.natCast_nonneg _, ?_⟩
    change _ < (0 : Int) + 256
    omega
  have htoNat : (IntValue.ofInt .uint8 b.toNat).toNat64 = b.toNat := by
    unfold IntValue.toNat64 IntValue.bits
    rw [IntValue.val_of_holds hholds, BitVec.toNat_ofInt]
    omega
  rw [htoNat, UInt8.ofNat_toNat]

theorem charOfInt_rune (c : Char) : Utf8.charOfInt (IntValue.ofInt .int32 c.toNat).val = c := by
  have hbounds := Utf8.char_bounds c
  have hholds : IntKind.int32.Holds c.toNat := by
    refine ⟨?_, ?_⟩
    · change -(2147483648 : Int) ≤ _
      omega
    · change _ < (-2147483648 : Int) + 4294967296
      omega
  rw [IntValue.val_of_holds hholds, Utf8.charOfInt_toNat]

theorem textOfElems_cons {vs : List Value} {n : IntValue} (hv : v.int? = some n)
    (hkind : n.kind = .uint8) : textOfElems (v :: vs) =
      Utf8.ofBytes (((v :: vs).filterMap (·.int?)).map fun n => UInt8.ofNat n.toNat64) := by
  unfold textOfElems
  simp only [List.head?_cons, Option.bind_some, hv, Option.map_some, hkind]

theorem textOfElems_bytes (bs : List UInt8) : textOfElems (bs.map .byte) = Utf8.ofBytes bs := by
  cases bs with
  | nil =>
      -- nothing tells the kind of the elements, and nothing has to
      unfold Utf8.ofBytes
      rw [Utf8.decode_nil]
      rfl
  | cons b bs =>
      have hints : ((b :: bs).map Value.byte).filterMap (·.int?) =
          (b :: bs).map fun b => .ofInt .uint8 b.toNat := ints_of_elems _ _ _
      have hback : ((b :: bs).map fun b => IntValue.ofInt .uint8 b.toNat).map
          (fun n => UInt8.ofNat n.toNat64) = b :: bs := by
        have hcomp : ((fun n : IntValue => UInt8.ofNat n.toNat64) ∘
            fun b : UInt8 => IntValue.ofInt .uint8 b.toNat) = id := funext ofNat_toNat64_byte
        rw [List.map_map, hcomp, List.map_id]
      have hb : (Value.byte b).int? = some (.ofInt .uint8 b.toNat) := rfl
      rw [List.map_cons, textOfElems_cons hb rfl, ← List.map_cons, hints, hback]

theorem textOfElems_runes (cs : List Char) : textOfElems (cs.map .rune) = String.ofList cs := by
  have hints : (cs.map Value.rune).filterMap (·.int?) =
      cs.map fun c => .ofInt .int32 c.toNat := ints_of_elems _ _ _
  have hback : (cs.map fun c => IntValue.ofInt .int32 c.toNat).map
      (fun n => Utf8.charOfInt n.val) = cs := by
    have hcomp : ((fun n : IntValue => Utf8.charOfInt n.val) ∘
        fun c : Char => IntValue.ofInt .int32 c.toNat) = id := by
      funext c
      rw [Function.comp_apply, charOfInt_rune, id_eq]
    rw [List.map_map, hcomp, List.map_id]
  have htext : textOfElems (cs.map .rune) = String.ofList
      (((cs.map Value.rune).filterMap (·.int?)).map fun n => Utf8.charOfInt n.val) := by
    cases cs <;> rfl
  rw [htext, hints, hback]

-- What a string is converted to, and back from.

-- The elements that stand for a string in a slice of bytes or of runes.
def elemsOf (s : String) (kind : IntKind) : List Value :=
  if kind = .uint8 then (Utf8.bytes s).map .byte else s.toList.map .rune

theorem textOfElems_elemsOf (s : String) (kind : IntKind) : textOfElems (elemsOf s kind) = s := by
  unfold elemsOf
  split
  · exact (textOfElems_bytes _).trans (Utf8.ofBytes_bytes s)
  · exact (textOfElems_runes _).trans String.ofList_toList

section

variable {sliceTy stringTy elemTy : Ty} {kind : IntKind} {w : Option Window} {a b c : Nat}

theorem run_convert_str (hv : v.unwrap = .str s) (hslice : t.StandsFor a sliceTy (.slice elemTy))
    (ha : a ≤ 64) (helem : t.StandsFor c elemTy (.int kind)) (hc : c ≤ 64)
    (hkind : kind = .uint8 ∨ kind = .int32) :
    (t.convert v sliceTy).run h =
      (.ok ((Heap.newSlice (elemsOf s kind) h).1.wearing sliceTy.declaredName?),
        (Heap.newSlice (elemsOf s kind) h).2) := by
  have hnil : v.isBareNil = false := isBareNil_of_unwrap (by simp [hv])
  refine run_convert (hslice.resolve_eq ha) hnil rfl ?_ fun _ he => (by cases he)
  have hresolve := helem.resolve_eq hc
  rw [hv]
  rcases hkind with rfl | rfl
  · simp only [convertBare, hresolve]
    rfl
  · simp only [convertBare, hresolve]
    rfl

theorem run_convert_slice (hv : v.unwrap = .slice w) (hstring : t.StandsFor b stringTy .string)
    (hb : b ≤ 64) : (t.convert v stringTy).run h =
      (.ok ((Value.str (textOfElems (h.sliceElems w))).wearing stringTy.declaredName?), h) := by
  have hnil : v.isBareNil = false := isBareNil_of_unwrap (by simp [hv])
  refine run_convert (hstring.resolve_eq hb) hnil rfl ?_ fun _ he => (by cases he)
  rw [hv]
  rfl

-- Too many names in front of a type hide it from a conversion.
theorem run_convert_behind_names (hv : v.unwrap = .str s) (hty : t.StandsFor n ty lit)
    (hn : 64 < n) : ∃ e, (t.convert v ty).run h = (.error e, h) := by
  have hnil : v.isBareNil = false := isBareNil_of_unwrap (by simp [hv])
  obtain ⟨y, hy⟩ := hty.resolveUpTo_named hn
  have hresolve : t.resolve ty = .named y := hy
  have hliteral : t.isInterface ty = false := by
    unfold isInterface
    rw [hresolve]
    rfl
  unfold convert
  rw [if_neg (by simp [hnil]), if_neg (by simp [hliteral])]
  cases hty with
  | self hself => exact absurd hn (Nat.not_lt_zero 64)
  | @declared n x i ty hinfo h' =>
      simp only [hresolve, hv]
      exact ⟨_, rfl⟩

end

end TypeTable

namespace Program

open Exec

variable {α : Type} {p : Program} {m : Machine} {v i : Value} {s : String} {w : Option Window}
  {elem : Option Ty} {n : Nat}

-- Behind a check of the bounds it only matters what is done with indices within them.
theorem checkedIndex_bind {f g : Nat → Exec α} (hfg : ∀ k, k < n → f k m = g k m) :
    (checkedIndex i n >>= f) m = (checkedIndex i n >>= g) m := by
  unfold checkedIndex
  split
  · next x hx =>
      split
      · next hbounds => exact hfg _ (by omega)
      · rfl
  · rfl

theorem index_of_str (hv : v.unwrap = .str s) : p.index v i elem m =
    (checkedIndex i s.utf8ByteSize >>= fun k =>
      pure (Value.byte ((Utf8.byteAt? s k).getD 0), true)) m := by
  unfold index
  rw [bind_of_ok (heap_apply m), bind_of_ok (behindPointers_self (by simp [hv]) _ m)]
  unfold indexBare
  rw [hv]

theorem index_of_slice (hv : v.unwrap = .slice w) : p.index v i elem m =
    (checkedIndex i (Heap.sliceLength w) >>= fun k => do
      pure (← orOutOfRange k (Heap.sliceLength w) (m.heap.sliceGet? w k), true)) m := by
  unfold index
  rw [bind_of_ok (heap_apply m), bind_of_ok (behindPointers_self (by simp [hv]) _ m)]
  unfold indexBare
  rw [hv]
  exact checkedIndex_bind fun k _ => bind_of_ok (heap_apply m)

theorem sliceGet?_eq (h : Heap) (w : Option Window) (k : Nat) :
    h.sliceGet? w k = (h.sliceElems w)[k]? := by
  cases w with
  | none => rfl
  | some w => exact (h.getElem?_windowElems w k).symm

-- A slice that shows the bytes of a string is indexed like the string.
theorem index_bytes {u : Value} (hv : v.unwrap = .str s) (hu : u.unwrap = .slice w)
    (helems : m.heap.sliceElems w = (Utf8.bytes s).map .byte)
    (hlength : Heap.sliceLength w = s.utf8ByteSize) (p : Program) (i : Value) (elem : Option Ty) :
    p.index u i elem m = p.index v i elem m := by
  rw [index_of_str hv, index_of_slice hu, hlength]
  refine checkedIndex_bind fun k hk => ?_
  have hbyte : (Utf8.bytes s)[k]? = some ((Utf8.byteAt? s k).getD 0) := by
    rw [← Utf8.length_bytes] at hk
    rw [Utf8.byteAt?_eq, List.getElem?_eq_getElem hk]
    rfl
  rw [sliceGet?_eq, helems, List.getElem?_map, hbyte]
  rfl

theorem index_in_range (hv : v.unwrap = .str s) {x : IntValue} (hi : i.int? = some x)
    (hx : 0 ≤ x.val ∧ x.val < s.utf8ByteSize) :
    ∃ y, p.index v i elem m = .ok (.byte y, true) m := by
  have hcheck : checkedIndex i s.utf8ByteSize m = .ok x.val.toNat m := by
    unfold checkedIndex
    rw [hi]
    exact congrFun (if_pos hx) m
  rw [index_of_str hv, bind_of_ok hcheck]
  exact ⟨_, rfl⟩

theorem lengthOf_of_str (hv : v.unwrap = .str s) : lengthOf v m = .ok s.utf8ByteSize m := by
  unfold lengthOf
  rw [hv]
  rfl

theorem lengthOf_of_slice (hv : v.unwrap = .slice w) :
    lengthOf v m = .ok (Heap.sliceLength w) m := by
  unfold lengthOf
  rw [hv]
  rfl

end Program

namespace Heap

-- A loop over a string yields the runes that the string is converted to.
theorem ranges_over_runes {v : Value} {s : String} {w : Option Window} {h : Heap}
    (hv : v.unwrap = .str s) (helems : h.sliceElems w = s.toList.map .rune)
    (hlength : sliceLength w = s.length) (kind : RangeKind) (g : Heap) :
    ∃ id h₀, (startCursor kind v).run g = (.ok (.cursor id), h₀) ∧
      ∀ own ts h₁, Turns id own h₀ ts h₁ →
        TurnsCount (sliceLength w) (fun k _ y => h.sliceGet? w k = some y.2) ts := by
  have hstart : (startCursor kind v).run g = (.ok (.cursor g.cursors.size),
      { g with cursors := g.cursors.push (.str s.toList 0) }) := by
    unfold startCursor
    rw [hv]
    rfl
  refine ⟨_, _, hstart, fun own ts h₁ hts => ?_⟩
  rw [hlength]
  refine (hts.counts_str Array.getElem?_push_size).imp fun k _ y _ hy => ?_
  obtain ⟨c, hc, rfl⟩ := hy
  rw [Program.sliceGet?_eq, helems, List.getElem?_map, hc]
  rfl

end Heap

namespace TypeTable

variable {t : TypeTable} {sliceTy elemTy stringTy : Ty} {kind : IntKind} {a b c : Nat}
  {v : Value} {s : String} {h : Heap}

theorem unwrap_wearing (name : Option String) (hv : v.unwrap = v) :
    (v.wearing name).unwrap = v := by
  cases name with
  | none => exact hv
  | some x => exact hv

-- A string that is converted to bytes or to runes is what they are converted back to. The bytes
-- are those that one gets by indexing the string, and the runes those that a loop over it yields.
theorem text_conversions_round_trip (hv : v.unwrap = .str s)
    (hslice : t.StandsFor a sliceTy (.slice elemTy)) (ha : a ≤ 64)
    (hstring : t.StandsFor b stringTy .string) (hb : b ≤ 64)
    (helem : t.StandsFor c elemTy (.int kind)) (hc : c ≤ 64)
    (hkind : kind = .uint8 ∨ kind = .int32) :
    ∃ w u h', u = (Value.slice w).wearing sliceTy.declaredName? ∧
      (t.convert v sliceTy).run h = (.ok u, h') ∧
      (∀ g : Heap, g.sliceElems w = h'.sliceElems w → (t.convert u stringTy).run g =
        (.ok ((Value.str s).wearing stringTy.declaredName?), g)) ∧
      (kind = .uint8 → ∀ (p : Program) (m : Machine), m.heap.sliceElems w = h'.sliceElems w →
        Program.lengthOf v m = .ok s.utf8ByteSize m ∧
        Program.lengthOf u m = .ok s.utf8ByteSize m ∧
        ∀ i elem, p.index u i elem m = p.index v i elem m ∧
          ∀ x, i.int? = some x → 0 ≤ x.val ∧ x.val < s.utf8ByteSize →
            ∃ y, p.index v i elem m = .ok (.byte y, true) m) ∧
      (kind = .int32 → ∀ rangeKind g, ∃ id h₀,
        (Heap.startCursor rangeKind v).run g = (.ok (.cursor id), h₀) ∧
        ∀ own ts h₁, Heap.Turns id own h₀ ts h₁ →
          Heap.TurnsCount (Heap.sliceLength w) (fun k _ y => h'.sliceGet? w k = some y.2) ts) := by
  set elems := elemsOf s kind with helems
  set w : Option Window := some ⟨h.blocks.size, 0, elems.length, elems.length⟩
  set h' := (Heap.newBlock elems.toArray h).2
  have hshown : h'.sliceElems w = elems :=
    (Heap.windowElems_newBlock elems h elems.length elems.length).trans (List.take_length)
  have hu : ((Value.slice w).wearing sliceTy.declaredName?).unwrap = .slice w :=
    unwrap_wearing _ rfl
  refine ⟨w, _, h', rfl, run_convert_str hv hslice ha helem hc hkind, fun g hg => ?_, ?_, ?_⟩
  · rw [run_convert_slice hu hstring hb, hg, hshown, textOfElems_elemsOf]
  · rintro rfl p m hm
    have hlength : Heap.sliceLength w = s.utf8ByteSize := by
      rw [← Utf8.length_bytes]
      exact List.length_map _
    refine ⟨Program.lengthOf_of_str hv, ?_, fun i elem =>
      ⟨Program.index_bytes hv hu (hm.trans hshown) hlength p i elem, fun x hi hx =>
        Program.index_in_range hv hi hx⟩⟩
    rw [Program.lengthOf_of_slice hu, hlength]
  · rintro rfl rangeKind g
    have hlength : Heap.sliceLength w = s.length := by
      rw [← String.length_toList]
      exact List.length_map _
    exact Heap.ranges_over_runes hv hshown hlength rangeKind g

def textTypes : TypeTable :=
  ⟨[("Octet", ⟨.int .uint8, [], none⟩), ("Octets", ⟨.slice (.named "Octet"), [], none⟩),
    ("Text", ⟨.string, [], none⟩)]⟩

def acuteText : Value := .named "Text" (.str "né")

theorem acute_text_has_three_octets : acuteText.unwrap = .str "né" ∧
    textTypes.StandsFor 1 (.named "Octets") (.slice (.named "Octet")) ∧
    textTypes.StandsFor 1 (.named "Octet") (.int .uint8) ∧
    textTypes.StandsFor 1 (.named "Text") .string ∧
    ∃ u h', (textTypes.convert acuteText (.named "Octets")).run Heap.empty = (.ok u, h') ∧
      (textTypes.convert u (.named "Text")).run h' = (.ok acuteText, h') ∧
      ∀ (p : Program) (m : Machine), m.heap = h' → Program.lengthOf u m = .ok 3 m ∧
        p.index u (.plainInt 1) none m = p.index acuteText (.plainInt 1) none m := by
  have hslice : textTypes.StandsFor 1 (.named "Octets") (.slice (.named "Octet")) :=
    .declared rfl (.self rfl)
  have helem : textTypes.StandsFor 1 (.named "Octet") (.int .uint8) := .declared rfl (.self rfl)
  have hstring : textTypes.StandsFor 1 (.named "Text") .string := .declared rfl (.self rfl)
  obtain ⟨w, u, h', -, hrun, hback, hbytes, -⟩ :=
    text_conversions_round_trip (v := acuteText) (h := Heap.empty) rfl hslice (by decide) hstring
      (by decide) helem (by decide) (.inl rfl)
  refine ⟨rfl, hslice, helem, hstring, u, h', hrun, hback h' rfl, fun p m hm => ?_⟩
  obtain ⟨-, hlength, hindex⟩ := hbytes rfl p m (by rw [hm])
  exact ⟨hlength, (hindex _ _).1⟩

-- Types that are declared one as another.

def layerName (n : Nat) : String := String.ofList (List.replicate (n + 1) 'T')

-- The type that leads through `n` names to the innermost.
def layered (lit : Ty) : Nat → Ty
  | 0 => lit
  | n + 1 => .named (layerName n)

def layers (lit : Ty) : Nat → List (String × TypeInfo)
  | 0 => []
  | n + 1 => (layerName n, ⟨layered lit n, [], none⟩) :: layers lit n

theorem layerName_ne {k n : Nat} (hkn : k < n) : layerName k ≠ layerName n := by
  intro h
  have hlength := congrArg (fun s => s.toList.length) h
  simp only [layerName, String.toList_ofList, List.length_replicate] at hlength
  omega

theorem lookup_layers {lit : Ty} {k n : Nat} (hkn : k < n) :
    (layers lit n).lookup (layerName k) = some ⟨layered lit k, [], none⟩ := by
  induction n with
  | zero => cases hkn
  | succ n ih =>
      rw [layers, List.lookup_cons]
      rcases Nat.lt_succ_iff_lt_or_eq.mp hkn with hlt | rfl
      · rw [beq_false_of_ne (layerName_ne hlt)]
        exact ih hlt
      · rw [beq_self_eq_true]

theorem standsFor_layered {lit : Ty} (hlit : lit.declaredName? = none) {k n : Nat} (hkn : k ≤ n) :
    StandsFor ⟨layers lit n⟩ k (layered lit k) lit := by
  induction k with
  | zero => exact .self hlit
  | succ k ih => exact .declared (lookup_layers hkn) (ih (Nat.le_of_lt hkn))

theorem no_conversion_behind_sixty_five_names :
    StandsFor ⟨layers (.slice (.int .uint8)) 65⟩ 65 (.named (layerName 64)) (.slice (.int .uint8)) ∧
    ∃ e, (convert ⟨layers (.slice (.int .uint8)) 65⟩ (.str "x") (.named (layerName 64))).run
      Heap.empty = (.error e, Heap.empty) := by
  have hchain : StandsFor ⟨layers (.slice (.int .uint8)) 65⟩ 65 (.named (layerName 64))
      (.slice (.int .uint8)) := standsFor_layered rfl (Nat.le_refl 65)
  exact ⟨hchain, run_convert_behind_names rfl hchain (by decide)⟩

end TypeTable

end StepGraph

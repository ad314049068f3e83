import StepGraph.Proofs.Number.Wrapping
import Mathlib.Data.Int.Bitwise

namespace StepGraph

namespace IntKind

variable {k : IntKind} {m n : Int}

theorem ofInt_eq_ofInt_iff {w : Nat} :
    BitVec.ofInt w m = BitVec.ofInt w n ↔ m ≡ n [ZMOD 2 ^ w] := by
  have hpos : (0 : Int) < 2 ^ w := Int.pow_pos (by decide)
  have hcast : ((2 ^ w : Nat) : Int) = 2 ^ w := by simp
  rw [← BitVec.toNat_inj, BitVec.toNat_ofInt, BitVec.toNat_ofInt, hcast]
  unfold Int.ModEq
  have hm := Int.emod_nonneg m (Int.ne_of_gt hpos)
  have hn := Int.emod_nonneg n (Int.ne_of_gt hpos)
  omega

theorem eq_ofInt_of_toNat {w : Nat} {x : BitVec w} (h : x.toNat ≡ n [ZMOD 2 ^ w]) :
    x = BitVec.ofInt w n := by
  rw [← ofInt_eq_ofInt_iff.mpr h, BitVec.ofInt_natCast, BitVec.ofNat_toNat, BitVec.setWidth_eq]

theorem toNat_modEq_toInt (raw : BitVec 64) : (raw.toNat : Int) ≡ raw.toInt [ZMOD 2 ^ 64] := by
  rw [BitVec.toInt_eq_toNat_bmod]
  exact Int.bmod_emod.symm

-- The 64 bits of a number of the kind, from bits that may have more: those beyond the width are
-- dropped, and the highest one takes their places in a signed kind.
def normalize (k : IntKind) (raw : BitVec 64) : BitVec 64 :=
  if k.bits = 64 then raw
  else
    let mask := (1#64 <<< k.bits) - 1#64
    let low := raw &&& mask
    if k.isSigned && low >>> (k.bits - 1) &&& 1#64 == 1#64 then low ||| ~~~mask else low

section mask

variable {w : Nat} {raw : BitVec 64}

theorem toNat_mask (hw : w < 64) : ((1#64 <<< w) - 1#64).toNat = 2 ^ w - 1 := by
  have hlt : 2 ^ w < 2 ^ 64 := Nat.pow_lt_pow_right (by decide) hw
  have hpos := Nat.two_pow_pos w
  have hshift : (1#64 <<< w).toNat = 2 ^ w := by
    rw [BitVec.toNat_shiftLeft, Nat.shiftLeft_eq, BitVec.toNat_ofNat]
    omega
  rw [BitVec.toNat_sub, hshift, BitVec.toNat_ofNat]
  omega

theorem toNat_and_mask (hw : w < 64) (raw : BitVec 64) :
    (raw &&& ((1#64 <<< w) - 1#64)).toNat = raw.toNat % 2 ^ w := by
  rw [BitVec.toNat_and, toNat_mask hw, Nat.and_two_pow_sub_one_eq_mod]

-- Ones in the places beyond the mask.
theorem toNat_or_not_mask (hw : w < 64) (raw : BitVec 64) :
    (raw &&& ((1#64 <<< w) - 1#64) ||| ~~~((1#64 <<< w) - 1#64)).toNat =
      raw.toNat % 2 ^ w + (2 ^ 64 - 2 ^ w) := by
  have hlt : 2 ^ w < 2 ^ 64 := Nat.pow_lt_pow_right (by decide) hw
  have hmod := Nat.mod_lt raw.toNat (Nat.two_pow_pos w)
  have happart : raw &&& ((1#64 <<< w) - 1#64) &&& ~~~((1#64 <<< w) - 1#64) = 0#64 := by
    rw [BitVec.and_assoc, BitVec.and_not_self]
    exact BitVec.and_zero
  rw [← BitVec.add_eq_or_of_and_eq_zero _ _ happart, BitVec.toNat_add, toNat_and_mask hw,
    BitVec.toNat_not, toNat_mask hw]
  omega

theorem highest_bit (hw : w < 64) (hpos : 0 < w) (raw : BitVec 64) :
    ((raw &&& ((1#64 <<< w) - 1#64)) >>> (w - 1) &&& 1#64 == 1#64) =
      decide (2 ^ (w - 1) ≤ raw.toNat % 2 ^ w) := by
  have htwo : 2 ^ w = 2 ^ (w - 1) * 2 := by
    rw [← Nat.pow_succ, Nat.succ_eq_add_one, Nat.sub_add_cancel hpos]
  have hmod := Nat.mod_lt raw.toNat (Nat.two_pow_pos w)
  have hbit : ((raw &&& ((1#64 <<< w) - 1#64)) >>> (w - 1) &&& 1#64).toNat =
      raw.toNat % 2 ^ w / 2 ^ (w - 1) % 2 := by
    rw [BitVec.toNat_and, BitVec.toNat_ushiftRight, toNat_and_mask hw, Nat.shiftRight_eq_div_pow]
    exact Nat.and_one_is_mod _
  rw [Bool.eq_iff_iff, beq_iff_eq, decide_eq_true_iff, ← BitVec.toNat_inj, hbit]
  change _ % 2 = 1 ↔ _
  by_cases hhigh : 2 ^ (w - 1) ≤ raw.toNat % 2 ^ w
  · have hdiv : raw.toNat % 2 ^ w / 2 ^ (w - 1) = 1 :=
      Nat.div_eq_of_lt_le (by omega) (by omega)
    simp only [hdiv, hhigh]
  · rw [Nat.div_eq_of_lt (by omega)]
    simp only [hhigh]
    decide

end mask

-- What is left of 64 bits are the bits of the number that they wrap to.
theorem normalize_eq (k : IntKind) (raw : BitVec 64) :
    k.normalize raw = BitVec.ofInt 64 (k.wrap raw.toInt) := by
  have hnat := toNat_modEq_toInt raw
  unfold normalize
  by_cases hwide : k.bits = 64
  · have hwrap := hwide ▸ k.wrap_modEq raw.toInt
    rw [if_pos hwide, ofInt_eq_ofInt_iff.mpr hwrap, BitVec.ofInt_toInt]
  · have hw : k.bits < 64 := Nat.lt_of_le_of_ne k.bits_le hwide
    rw [if_neg hwide]
    simp only [highest_bit hw k.bits_pos]
    have hlow : ((raw.toNat % 2 ^ k.bits : Nat) : Int) ≡ raw.toInt [ZMOD 2 ^ k.bits] := by
      push_cast
      exact (Int.mod_modEq _ _).trans (k.modEq_of_wide hnat)
    have hlt : ((raw.toNat % 2 ^ k.bits : Nat) : Int) < 2 ^ k.bits :=
      mod_cast Nat.mod_lt raw.toNat (Nat.two_pow_pos k.bits)
    have hhigh : 2 ^ (k.bits - 1) ≤ raw.toNat % 2 ^ k.bits ↔
        (2 : Int) ^ (k.bits - 1) ≤ (raw.toNat % 2 ^ k.bits : Nat) := by norm_cast
    have hset := toNat_or_not_mask hw raw
    have hclear := toNat_and_mask hw raw
    have htwo := k.two_pow_bits
    set low := raw.toNat % 2 ^ k.bits
    refine eq_ofInt_of_toNat ?_
    by_cases hneg : k.isSigned = true ∧ 2 ^ (k.bits - 1) ≤ low
    · obtain ⟨hsigned, hle⟩ := hneg
      have hholds : k.Holds (low - 2 ^ k.bits : Int) := by
        rw [holds_iff, if_pos hsigned]
        omega
      rw [hsigned, decide_eq_true hle, Bool.and_self, if_pos rfl, hset,
        wrap_eq_of hholds (by simpa using hlow.sub (Int.modEq_zero_iff_dvd.mpr (Int.dvd_refl _)))]
      have hle64 : 2 ^ k.bits ≤ 2 ^ 64 := Nat.pow_le_pow_right (by decide) k.bits_le
      rw [Nat.cast_add, Nat.cast_sub hle64]
      push_cast
      exact Int.modEq_iff_dvd.mpr ⟨-1, by omega⟩
    · have hholds : k.Holds (low : Int) := by
        rw [holds_iff]
        split
        · next hsigned =>
          have hlow' : ¬ 2 ^ (k.bits - 1) ≤ low := fun hle => hneg ⟨hsigned, hle⟩
          omega
        · omega
      have hif : (k.isSigned && decide (2 ^ (k.bits - 1) ≤ low)) = false := by
        simpa using hneg
      rw [hif, if_neg Bool.false_ne_true, hclear, wrap_eq_of hholds hlow]

end IntKind

namespace IntValue

variable {a b : IntValue}

-- Two values of one kind have the same bits exactly if they are the same integer.
theorem bits_eq_iff (hk : b.kind = a.kind) : a.bits = b.bits ↔ a.val = b.val := by
  constructor
  · intro h
    have hwide := a.kind.modEq_of_wide (IntKind.ofInt_eq_ofInt_iff.mp h)
    exact IntKind.eq_of_modEq a.holds (hk ▸ b.holds) hwide
  · intro h
    exact congrArg (BitVec.ofInt 64) h

theorem toNat_bits (h : 0 ≤ a.val) : (a.bits.toNat : Int) = a.val := by
  have hlt : a.val < 2 ^ 64 := by
    have hle := a.kind.two_pow_le
    have htwo := a.kind.two_pow_bits
    have hholds := IntKind.holds_iff.mp a.holds
    split at hholds <;> omega
  unfold bits
  rw [BitVec.toNat_ofInt]
  omega

theorem toNat_bits_modEq (a : IntValue) : (a.bits.toNat : Int) ≡ a.val [ZMOD 2 ^ 64] := by
  rw [← IntKind.ofInt_eq_ofInt_iff, BitVec.ofInt_natCast, BitVec.ofNat_toNat, BitVec.setWidth_eq]
  rfl

theorem toInt_bits (hk : a.kind.isSigned = true) : a.bits.toInt = a.val := by
  have hle := a.kind.two_pow_le
  have htwo := a.kind.two_pow_bits
  have hholds := IntKind.holds_iff.mp a.holds
  rw [if_pos hk] at hholds
  unfold bits
  exact BitVec.toInt_ofInt_eq_self (by decide) (by omega) (by omega)

-- The value of the kind that 64 bits stand for.
def ofBits (k : IntKind) (raw : BitVec 64) : IntValue := ofInt k raw.toInt

theorem bits_ofBits (k : IntKind) (raw : BitVec 64) : (ofBits k raw).bits = k.normalize raw :=
  (k.normalize_eq raw).symm

theorem ofInt_eq_ofBits (k : IntKind) (n : Int) : ofInt k n = ofBits k (BitVec.ofInt 64 n) := by
  refine ofInt_eq_ofInt_iff.mpr (k.modEq_of_wide (IntKind.ofInt_eq_ofInt_iff.mp ?_))
  rw [BitVec.ofInt_toInt]

-- The operations on the 64 bits.

theorem add_eq_ofBits (a b : IntValue) : a.add b = ofBits a.kind (a.bits + b.bits) := by
  unfold bits
  rw [← BitVec.ofInt_add]
  exact ofInt_eq_ofBits _ _

theorem sub_eq_ofBits (a b : IntValue) : a.sub b = ofBits a.kind (a.bits - b.bits) := by
  unfold bits
  rw [BitVec.sub_eq_add_neg, ← BitVec.ofInt_neg, ← BitVec.ofInt_add]
  exact ofInt_eq_ofBits _ _

theorem mul_eq_ofBits (a b : IntValue) : a.mul b = ofBits a.kind (a.bits * b.bits) := by
  unfold bits
  rw [← BitVec.ofInt_mul]
  exact ofInt_eq_ofBits _ _

theorem neg_eq_ofBits (a : IntValue) : a.neg = ofBits a.kind (-a.bits) := by
  unfold bits
  rw [← BitVec.ofInt_neg]
  exact ofInt_eq_ofBits _ _

theorem complement_eq_ofBits (a : IntValue) : a.complement = ofBits a.kind (~~~a.bits) := by
  have hnot : ~~~a.bits = BitVec.ofInt 64 (-a.val - 1) := by
    unfold bits
    have hone : BitVec.ofInt 64 (-1) = -1#64 := by decide
    rw [BitVec.not_eq_neg_add, Int.sub_eq_add_neg, BitVec.ofInt_add, BitVec.ofInt_neg, hone,
      BitVec.sub_eq_add_neg]
  rw [hnot]
  exact ofInt_eq_ofBits _ _

theorem shl_eq_ofBits {n : Nat} (h : n < a.kind.bits) : a.shl n = ofBits a.kind (a.bits <<< n) := by
  have hshift : a.bits <<< n = BitVec.ofInt 64 (a.val * pow2 n) := by
    refine IntKind.eq_ofInt_of_toNat ?_
    rw [BitVec.toNat_shiftLeft, Nat.shiftLeft_eq]
    push_cast
    exact (Int.mod_modEq _ _).trans (a.toNat_bits_modEq.mul_right _)
  unfold shl
  rw [if_neg (Nat.not_le_of_lt h), hshift]
  exact ofInt_eq_ofBits _ _

theorem shr_eq_ofBits {n : Nat} (h : n < a.kind.bits) : a.shr n =
    ofBits a.kind (if a.kind.isSigned then a.bits.sshiftRight n else a.bits >>> n) := by
  unfold shr
  rw [if_neg (Nat.not_le_of_lt h)]
  split
  · next hsigned =>
    unfold ofBits
    rw [BitVec.toInt_sshiftRight, toInt_bits hsigned]
  · next hsigned =>
    have hnonneg : 0 ≤ a.val := by
      have hholds := IntKind.holds_iff.mp a.holds
      rw [if_neg hsigned] at hholds
      exact hholds.1
    refine ofInt_eq_ofInt_iff.mpr (a.kind.modEq_of_wide ?_)
    rw [← toNat_bits hnonneg]
    calc (a.bits.toNat : Int) >>> n = ((a.bits >>> n).toNat : Int) := by
          rw [BitVec.toNat_ushiftRight]
          rfl
      _ ≡ (a.bits >>> n).toInt [ZMOD 2 ^ 64] := IntKind.toNat_modEq_toInt _

-- The bits of an integer of any size.

section

variable {w : Nat}

theorem getLsbD_ofInt (n : Int) (i : Nat) :
    (BitVec.ofInt w n).getLsbD i = (decide (i < w) && n.testBit i) := by
  cases n with
  | ofNat n =>
    rw [Int.ofNat_eq_natCast, BitVec.ofInt_natCast, BitVec.getLsbD_ofNat]
    rfl
  | negSucc n =>
    rw [BitVec.ofInt_negSucc_eq_not_ofNat, BitVec.getLsbD_not, BitVec.getLsbD_ofNat]
    cases hi : decide (i < w) <;> rfl

theorem ofInt_land (m n : Int) :
    BitVec.ofInt w (m.land n) = BitVec.ofInt w m &&& BitVec.ofInt w n := by
  refine BitVec.eq_of_getLsbD_eq fun i hi => ?_
  simp only [getLsbD_ofInt, BitVec.getLsbD_and, Int.testBit_land, hi, decide_true, Bool.true_and]

theorem ofInt_lor (m n : Int) :
    BitVec.ofInt w (m.lor n) = BitVec.ofInt w m ||| BitVec.ofInt w n := by
  refine BitVec.eq_of_getLsbD_eq fun i hi => ?_
  simp only [getLsbD_ofInt, BitVec.getLsbD_or, Int.testBit_lor, hi, decide_true, Bool.true_and]

theorem ofInt_xor (m n : Int) :
    BitVec.ofInt w (m.xor n) = BitVec.ofInt w m ^^^ BitVec.ofInt w n := by
  refine BitVec.eq_of_getLsbD_eq fun i hi => ?_
  simp only [getLsbD_ofInt, BitVec.getLsbD_xor, Int.testBit_lxor, hi, decide_true, Bool.true_and]

theorem ofInt_ldiff (m n : Int) :
    BitVec.ofInt w (m.ldiff n) = BitVec.ofInt w m &&& ~~~BitVec.ofInt w n := by
  refine BitVec.eq_of_getLsbD_eq fun i hi => ?_
  simp only [getLsbD_ofInt, BitVec.getLsbD_and, BitVec.getLsbD_not, Int.testBit_ldiff, hi,
    decide_true, Bool.true_and]

end

theorem and_eq (a b : IntValue) : a.and b = ofInt a.kind (a.val.land b.val) := by
  rw [ofInt_eq_ofBits, ofInt_land]
  rfl

theorem or_eq (a b : IntValue) : a.or b = ofInt a.kind (a.val.lor b.val) := by
  rw [ofInt_eq_ofBits, ofInt_lor]
  rfl

theorem xor_eq (a b : IntValue) : a.xor b = ofInt a.kind (a.val.xor b.val) := by
  rw [ofInt_eq_ofBits, ofInt_xor]
  rfl

theorem andNot_eq (a b : IntValue) : a.andNot b = ofInt a.kind (a.val.ldiff b.val) := by
  rw [ofInt_eq_ofBits, ofInt_ldiff]
  rfl

end IntValue

end StepGraph

import StepGraph.Number.Fixed
import Mathlib.Data.Int.ModEq

namespace StepGraph

namespace IntKind

variable {k : IntKind} {m n : Int}

theorem modulus_eq (k : IntKind) : (k.modulus : Int) = 2 ^ k.bits := by
  simp [modulus, pow2]

theorem bits_pos (k : IntKind) : 0 < k.bits := by cases k <;> decide

theorem bits_le (k : IntKind) : k.bits ≤ 64 := by cases k <;> decide

theorem two_pow_bits (k : IntKind) : (2 : Int) ^ k.bits = 2 ^ (k.bits - 1) * 2 :=
  (pow_sub_one_mul (Nat.ne_of_gt k.bits_pos) 2).symm

theorem two_pow_le (k : IntKind) : (2 : Int) ^ k.bits ≤ 2 ^ 64 := by cases k <;> decide

theorem holds_iff : k.Holds n ↔
    if k.isSigned then -2 ^ (k.bits - 1) ≤ n ∧ n < 2 ^ (k.bits - 1) else 0 ≤ n ∧ n < 2 ^ k.bits := by
  have htwo := k.two_pow_bits
  have hhalf : (pow2 (k.bits - 1) : Int) = 2 ^ (k.bits - 1) := by simp [pow2]
  unfold Holds lowest
  rw [k.modulus_eq, hhalf]
  split <;> omega

-- Whatever lies between zero and an integer of a kind is of the kind.
theorem Holds.between (hm : k.Holds m) (hn : 0 ≤ n ∧ n ≤ m ∨ m ≤ n ∧ n ≤ 0) : k.Holds n := by
  have hpos : (0 : Int) < 2 ^ (k.bits - 1) := Int.pow_pos (by decide)
  have htwo := k.two_pow_bits
  rw [holds_iff] at hm ⊢
  by_cases hk : k.isSigned = true
  · rw [if_pos hk] at hm ⊢
    omega
  · rw [if_neg hk] at hm ⊢
    omega

theorem wrap_modEq (k : IntKind) (n : Int) : k.wrap n ≡ n [ZMOD 2 ^ k.bits] := by
  rw [← k.modulus_eq]
  unfold wrap
  calc (n - k.lowest) % k.modulus + k.lowest ≡ n - k.lowest + k.lowest [ZMOD k.modulus] :=
        (Int.mod_modEq _ _).add_right _
    _ = n := Int.sub_add_cancel n k.lowest

-- A kind has one integer of each class modulo the number of its values.
theorem eq_of_modEq (hm : k.Holds m) (hn : k.Holds n) (h : m ≡ n [ZMOD 2 ^ k.bits]) : m = n := by
  rw [← k.modulus_eq] at h
  obtain ⟨hlow, hhigh⟩ := hm
  obtain ⟨hlow', hhigh'⟩ := hn
  have hshift : m - k.lowest ≡ n - k.lowest [ZMOD k.modulus] := h.sub_right _
  unfold Int.ModEq at hshift
  rw [Int.emod_eq_of_lt (by omega) (by omega), Int.emod_eq_of_lt (by omega) (by omega)] at hshift
  omega

theorem wrap_eq_wrap_iff : k.wrap m = k.wrap n ↔ m ≡ n [ZMOD 2 ^ k.bits] := by
  constructor
  · intro h
    exact (k.wrap_modEq m).symm.trans (h ▸ k.wrap_modEq n)
  · intro h
    exact eq_of_modEq (k.holds_wrap m) (k.holds_wrap n)
      ((k.wrap_modEq m).trans (h.trans (k.wrap_modEq n).symm))

-- Wrapping a number first does not change what its negation wraps to.
theorem wrap_neg_wrap (k : IntKind) (n : Int) : k.wrap (-k.wrap n) = k.wrap (-n) :=
  wrap_eq_wrap_iff.mpr (k.wrap_modEq n).neg

-- What is congruent modulo the widest kind is so modulo every kind.
theorem modEq_of_wide (k : IntKind) (h : m ≡ n [ZMOD 2 ^ 64]) : m ≡ n [ZMOD 2 ^ k.bits] :=
  h.of_dvd (pow_dvd_pow 2 k.bits_le)

theorem wrap_eq_of (hm : k.Holds m) (h : m ≡ n [ZMOD 2 ^ k.bits]) : k.wrap n = m :=
  eq_of_modEq (k.holds_wrap n) hm ((k.wrap_modEq n).trans h.symm)

end IntKind

namespace IntValue

variable {k : IntKind} {a b : IntValue} {m n : Int}

theorem ofInt_val (a : IntValue) : ofInt a.kind a.val = a := by
  obtain ⟨k, n, h⟩ := a
  simp only [ofInt, mk.injEq, true_and]
  exact IntKind.wrap_of_holds h

theorem withKind_self (h : a.kind = k) : a.withKind k = a := by
  subst h
  exact a.ofInt_val

theorem plain_neg (n : Int) : plain (-n) = (plain n).neg := by
  simp only [plain, neg, ofInt, mk.injEq, true_and]
  exact (IntKind.wrap_neg_wrap .int n).symm

theorem ofInt_eq_ofInt_iff : ofInt k m = ofInt k n ↔ m ≡ n [ZMOD 2 ^ k.bits] := by
  simp only [ofInt, mk.injEq, true_and]
  exact IntKind.wrap_eq_wrap_iff

theorem val_of_holds (h : k.Holds n) : (ofInt k n).val = n := IntKind.wrap_of_holds h

-- A shift to the left multiplies, whatever the number of places.
theorem shl_eq (a : IntValue) (n : Nat) : a.shl n = ofInt a.kind (a.val * 2 ^ n) := by
  unfold shl
  split
  · next hle =>
    refine ofInt_eq_ofInt_iff.mpr (Int.modEq_zero_iff_dvd.mpr ?_).symm
    exact Dvd.dvd.mul_left (pow_dvd_pow 2 hle) a.val
  · simp [pow2]

-- A shift to the right divides and rounds down.
theorem val_shr (a : IntValue) (n : Nat) : (a.shr n).val = a.val / 2 ^ n := by
  have hdiv : a.val >>> n = a.val / 2 ^ n := by
    rw [Int.shiftRight_eq_div_pow]
    simp
  have hholds := IntKind.holds_iff.mp a.holds
  have hrange : a.kind.Holds (a.val >>> n) := a.holds.between <| by
    rcases Int.le_total 0 a.val with h | h
    · exact .inl ⟨Int.le_shiftRight_of_nonneg h, Int.shiftRight_le_of_nonneg h⟩
    · exact .inr ⟨Int.le_shiftRight_of_nonpos h, Int.shiftRight_le_of_nonpos h⟩
  unfold shr
  split
  · next hle =>
    have hpow : (2 : Int) ^ a.kind.bits ≤ 2 ^ n := by
      exact_mod_cast Nat.pow_le_pow_right (by decide) hle
    have htwo := a.kind.two_pow_bits
    have hfill : (if a.isNegative then -1 else 0) = a.val / 2 ^ n := by
      unfold isNegative
      by_cases hneg : a.val < 0
      · have hbound : -a.val ≤ 2 ^ n := by split at hholds <;> omega
        simp [hneg, Int.ediv_eq_neg_one_of_neg_of_le hneg hbound]
      · have hbound : a.val < 2 ^ n := by split at hholds <;> omega
        simp [hneg, Int.ediv_eq_zero_of_lt (by omega) hbound]
    rw [hfill, ← hdiv, val_of_holds hrange]
  · rw [val_of_holds hrange, hdiv]

-- A remainder has the sign of the dividend and fits its kind.
theorem val_rem (a b : IntValue) : (a.rem b).val = a.val.tmod b.val := by
  have hle : (a.val.tmod b.val).natAbs ≤ a.val.natAbs := by
    rw [Int.natAbs_tmod]
    exact Nat.mod_le _ _
  refine val_of_holds (a.holds.between ?_)
  rcases Int.le_total 0 a.val with h | h
  · have hsign := Int.tmod_nonneg b.val h
    omega
  · have hsign := Int.tmod_nonneg b.val (Int.neg_nonneg.mpr h)
    rw [Int.neg_tmod] at hsign
    omega

-- The only quotient that does not fit is that of the least integer by -1.
theorem div_lowest (hk : a.kind.isSigned = true) (ha : a.val = a.kind.lowest) (hb : b.val = -1) :
    a.div b = a := by
  have htwo := a.kind.two_pow_bits
  have hlow : a.kind.lowest = -2 ^ (a.kind.bits - 1) := by
    unfold IntKind.lowest
    rw [if_pos hk]
    simp [pow2]
  have hquot : a.val.tdiv b.val = -a.val := by rw [hb, Int.tdiv_neg, Int.tdiv_one]
  have hwraps : -a.val ≡ a.val [ZMOD 2 ^ a.kind.bits] :=
    Int.modEq_iff_dvd.mpr ⟨-1, by omega⟩
  unfold div
  rw [hquot, ofInt_eq_ofInt_iff.mpr hwraps, a.ofInt_val]

end IntValue

end StepGraph

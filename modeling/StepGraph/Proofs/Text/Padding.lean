import StepGraph.Machine.Show
import StepGraph.Proofs.Machine.Exec
import StepGraph.Proofs.Number.Digits

open EStateM (bind_of_ok)

namespace StepGraph

namespace Directive

def integerVerbs : List Char := ['d', 'b', 'o', 'x', 'X']

def base (d : Directive) : Nat :=
  if d.verb = 'd' then 10 else if d.verb = 'b' then 2 else if d.verb = 'o' then 8 else 16

-- The sign of an integer: `-`, or else what the flags ask for.
def sign (d : Directive) (n : Int) : List Char :=
  if n < 0 then ['-'] else if d.plus then ['+'] else if d.space then [' '] else []

-- What tells the base, if the flags ask for it.
def lead (d : Directive) : List Char :=
  if !d.sharp then []
  else if d.verb = 'b' then ['0', 'b']
  else if d.verb = 'o' then ['0']
  else if d.verb = 'x' then ['0', 'x']
  else if d.verb = 'X' then ['0', 'X']
  else []

def digits (d : Directive) (n : Int) : List Char :=
  let cs := Nat.toDigits d.base n.natAbs
  if d.verb = 'X' then cs.map Char.toUpper else cs

-- An integer as it is before it is padded.
def numeral (d : Directive) (n : Int) : List Char := d.sign n ++ (d.lead ++ d.digits n)

-- The zeros that fill a text up to the width.
def zeros (d : Directive) (text : List Char) : List Char :=
  List.replicate (d.width.getD 0 - text.length) '0'

variable {d : Directive} {n : Int} {c : Char} {cs ds : List Char} {k : Nat}

theorem one_lt_base (d : Directive) : 1 < d.base := by
  unfold base
  split
  · decide
  · split
    · decide
    · split <;> decide

theorem base_le (d : Directive) : d.base ≤ 16 := by
  unfold base
  split
  · decide
  · split
    · decide
    · split <;> decide

theorem read_digits (d : Directive) (n : Int) : Digits.read d.base (d.digits n) = n.natAbs := by
  unfold digits
  split
  · exact Digits.read_map_toDigits d.one_lt_base
      (fun k hk => Digits.value_toUpper_digitChar (Nat.lt_of_lt_of_le hk d.base_le)) _
  · exact Digits.read_toDigits d.one_lt_base d.base_le _

-- The characters that padding and signing look for are no digits.
theorem not_sign_of_mem_digits (hc : c ∈ d.digits n) : c ≠ '-' ∧ c ≠ '+' ∧ c ≠ ' ' := by
  have hall : ∀ k < 16, (Nat.digitChar k ≠ '-' ∧ Nat.digitChar k ≠ '+' ∧ Nat.digitChar k ≠ ' ') ∧
      (Nat.digitChar k).toUpper ≠ '-' ∧ (Nat.digitChar k).toUpper ≠ '+' ∧
      (Nat.digitChar k).toUpper ≠ ' ' := by decide
  unfold digits at hc
  split at hc
  · obtain ⟨c', hc', rfl⟩ := List.mem_map.mp hc
    obtain ⟨k, hk, rfl⟩ := Digits.mem_toDigits d.one_lt_base hc'
    exact (hall k (Nat.lt_of_lt_of_le hk d.base_le)).2
  · obtain ⟨k, hk, rfl⟩ := Digits.mem_toDigits d.one_lt_base hc
    exact (hall k (Nat.lt_of_lt_of_le hk d.base_le)).1

theorem not_sign_of_mem_lead (hc : c ∈ d.lead) : c ≠ '-' ∧ c ≠ '+' ∧ c ≠ ' ' := by
  have hall : ∀ c ∈ ['0', 'b', 'x', 'X'], c ≠ '-' ∧ c ≠ '+' ∧ c ≠ ' ' := by simp
  have hsub : d.lead ⊆ ['0', 'b', 'x', 'X'] := by
    unfold lead
    repeat' split
    all_goals simp
  exact hall c (hsub hc)

-- No sign stands in what follows the sign.
def Unsigned (cs : List Char) : Prop := ∀ c ∈ cs, c ≠ '-' ∧ c ≠ '+' ∧ c ≠ ' '

theorem unsigned_lead_digits (d : Directive) (n : Int) : Unsigned (d.lead ++ d.digits n) := by
  intro c hc
  rcases List.mem_append.mp hc with hc | hc
  · exact not_sign_of_mem_lead hc
  · exact not_sign_of_mem_digits hc

theorem toList_signed {text : String} (hcs : Unsigned cs)
    (htext : text.toList = (if n < 0 then ['-'] else []) ++ cs) :
    (d.signed text).toList = d.sign n ++ cs := by
  unfold signed sign
  by_cases hn : n < 0
  · rw [if_pos hn] at htext ⊢
    have hminus : text.startsWith "-" = true := by
      rw [String.startsWith_string_iff, htext]
      exact List.prefix_append _ _
    rw [if_pos hminus, htext]
  · rw [if_neg hn] at htext ⊢
    have hminus : ¬ text.startsWith "-" = true := by
      rw [String.startsWith_string_iff, htext]
      intro hstart
      exact (hcs '-' (hstart.subset List.mem_cons_self)).1 rfl
    rw [if_neg hminus]
    split
    · rw [String.toList_append, htext]
      rfl
    · split
      · rw [String.toList_append, htext]
        rfl
      · rw [htext]

theorem padZeros_zero (cs : List Char) : padZeros 0 cs = cs := by
  unfold padZeros
  split <;> rfl

theorem padZeros_of_signless (hminus : cs.head? ≠ some '-') (hplus : cs.head? ≠ some '+') :
    padZeros k cs = List.replicate k '0' ++ cs := by
  unfold padZeros
  split
  · exact absurd rfl hminus
  · exact absurd rfl hplus
  · rfl

-- The zeros go behind `-` and `+`, but a blank stays with the digits.
theorem padZeros_sign (hcs : Unsigned cs) (d : Directive) (n : Int) (k : Nat) :
    padZeros k (d.sign n ++ cs) = (d.sign n).filter (· ≠ ' ') ++
      (List.replicate k '0' ++ ((d.sign n).filter (· = ' ') ++ cs)) := by
  have hhead : ∀ c, cs.head? = some c → c ≠ '-' ∧ c ≠ '+' ∧ c ≠ ' ' := fun c hc =>
    hcs c (List.mem_of_head? hc)
  unfold sign
  split
  · rfl
  · split
    · rfl
    · split
      · have hblank : padZeros k (' ' :: cs) = List.replicate k '0' ++ ' ' :: cs :=
          padZeros_of_signless (by simp) (by simp)
        exact hblank
      · exact padZeros_of_signless (fun h => (hhead _ h).1 rfl) fun h => (hhead _ h).2.1 rfl

theorem pads_with_zeros (hverb : d.verb ∈ integerVerbs) (hzero : d.zero = true)
    (hminus : d.minus = false) : d.padsWithZeros = true := by
  have hall : ∀ c ∈ integerVerbs, textVerbs.contains c = false := by
    simp [integerVerbs, textVerbs]
  unfold padsWithZeros
  rw [hzero, hminus, hall d.verb hverb]
  rfl

theorem toList_pad (hverb : d.verb ∈ integerVerbs) (hzero : d.zero = true)
    (hminus : d.minus = false) (text : String) :
    (d.pad text).toList = padZeros (d.width.getD 0 - text.toList.length) text.toList := by
  unfold pad
  by_cases hfill : d.width.getD 0 - text.toList.length = 0
  · simp only [hfill, if_true]
    rw [padZeros_zero]
  · simp only [if_neg hfill, hminus, Bool.false_eq_true, if_false,
      pads_with_zeros hverb hzero hminus, if_true]
    rw [String.toList_ofList]

theorem length_padZeros (k : Nat) (cs : List Char) : (padZeros k cs).length = k + cs.length := by
  unfold padZeros
  split <;> simp [Nat.add_assoc]

theorem sign_cases (d : Directive) (n : Int) :
    d.sign n = ['-'] ∨ d.sign n = ['+'] ∨ d.sign n = [' '] ∨ d.sign n = [] := by
  unfold sign
  repeat' split
  all_goals simp

theorem lead_cases (d : Directive) :
    d.lead = [] ∨ d.lead = ['0'] ∨ ∃ c ≠ '0', d.lead = ['0', c] := by
  unfold lead
  repeat' split
  all_goals simp

-- Zeros that stand somewhere before the digits stand right before them, if nothing is in between
-- but zeros.
theorem zeros_before_lead_iff (hk : k ≠ 0) :
    List.replicate k '0' ++ (d.lead ++ ds) = d.lead ++ (List.replicate k '0' ++ ds) ↔
      d.lead = [] ∨ d.lead = ['0'] := by
  obtain ⟨k, rfl⟩ := Nat.exists_eq_succ_of_ne_zero hk
  rcases d.lead_cases with h | h | ⟨c, hc, h⟩
  · rw [h]
    simp
  · rw [h]
    have hcomm : List.replicate (k + 1) '0' ++ ['0'] = ['0'] ++ List.replicate (k + 1) '0' := by
      rw [← List.replicate_succ', List.replicate_succ]
      rfl
    simp only [← List.append_assoc, hcomm]
    simp
  · rw [h]
    have hsecond : List.replicate k '0' ++ ('0' :: c :: ds) ≠
        c :: (List.replicate (k + 1) '0' ++ ds) := by
      cases k with
      | zero => simp [hc.symm]
      | succ k => simp [List.replicate_succ, hc.symm]
    simpa [List.replicate_succ] using hsecond

-- Where the zeros are between the digits and everything else.
theorem zeros_in_place_iff {text : List Char} :
    (d.sign n).filter (· ≠ ' ') ++ (d.zeros text ++ ((d.sign n).filter (· = ' ') ++
        (d.lead ++ ds))) = d.sign n ++ (d.lead ++ (d.zeros text ++ ds)) ↔
      d.zeros text = [] ∨ d.sign n ≠ [' '] ∧ (d.lead = [] ∨ d.lead = ['0']) := by
  by_cases hk : d.width.getD 0 - text.length = 0
  · have hnone : d.zeros text = [] := by
      unfold zeros
      rw [hk]
      rfl
    rw [hnone]
    rcases d.sign_cases n with h | h | h | h <;> simp [h]
  · have hsome : d.zeros text ≠ [] := by simpa [zeros] using hk
    have hlead : d.zeros text ++ (d.lead ++ ds) = d.lead ++ (d.zeros text ++ ds) ↔
        d.lead = [] ∨ d.lead = ['0'] := zeros_before_lead_iff hk
    rcases d.sign_cases n with h | h | h | h
    · simpa [h, hsome] using hlead
    · simpa [h, hsome] using hlead
    · have hfirst : d.zeros text ++ (' ' :: (d.lead ++ ds)) ≠
          ' ' :: (d.lead ++ (d.zeros text ++ ds)) := by
        obtain ⟨k, hk⟩ := Nat.exists_eq_succ_of_ne_zero hk
        unfold zeros
        rw [hk, List.replicate_succ]
        simp
      simpa [h, hsome] using hfirst
    · simpa [h, hsome] using hlead

end Directive

namespace Services

open Directive

variable {d : Directive} {v : Value} {n : IntValue}

theorem toList_text (n : IntValue) : n.text.toList =
    (if n.val < 0 then ['-'] else []) ++ Nat.toDigits 10 n.val.natAbs := by
  unfold IntValue.text
  rw [Int.toString_eq_repr, Int.repr_eq_if]
  by_cases hn : n.val < 0
  · rw [if_neg (Int.not_le.mpr hn), if_pos hn, String.toList_append, Nat.toList_repr]
    congr 2
    omega
  · rw [if_pos (Int.not_lt.mp hn), if_neg hn, Nat.toList_repr]
    congr 1
    omega

theorem toList_signed_text (hd : d.verb = 'd') : (d.signed n.text).toList = d.numeral n.val := by
  have hdigits : d.lead ++ d.digits n.val = Nat.toDigits 10 n.val.natAbs := by
    simp [lead, digits, base, hd]
  refine toList_signed (d.unsigned_lead_digits n.val) ?_
  rw [hdigits]
  exact toList_text n

theorem toList_radix (hverb : d.verb ∈ ['b', 'o', 'x', 'X']) (n : Int) :
    (radix d d.base (d.verb = 'X') n).toList = d.numeral n := by
  have htoUpper : ∀ s : String, s.toUpper.toList = s.toList.map Char.toUpper := fun s =>
    String.toList_map
  simp only [List.mem_cons, List.not_mem_nil, or_false] at hverb
  refine toList_signed (d.unsigned_lead_digits n) ?_
  rw [String.toList_append, String.toList_append, List.append_assoc]
  congr 1
  · split <;> rfl
  · congr 1
    · cases hsharp : d.sharp <;> rcases hverb with h | h | h | h <;>
        simp [base, lead, h, hsharp]
    · rcases hverb with h | h | h | h <;> simp [digits, h, htoUpper]

-- What a verb for integers makes of an integer.
theorem showVerb_int (hv : v.unwrap = .int n) (hverb : d.verb ∈ integerVerbs) (sv : Services) :
    sv.showVerb d v = pure (String.ofList (d.numeral n.val)) := by
  have htext : ∀ text : String, text.toList = d.numeral n.val →
      (pure text : Exec String) = pure (String.ofList (d.numeral n.val)) := by
    intro text h
    rw [← h, String.ofList_toList]
  simp only [integerVerbs, List.mem_cons, List.not_mem_nil, or_false] at hverb
  have hother : d.verb ≠ 'v' ∧ d.verb ≠ 'w' ∧ d.verb ≠ 'T' := by
    rcases hverb with h | h | h | h | h <;> rw [h] <;> decide
  have hint : sv.showVerb d v = sv.showInt d v n := by
    unfold showVerb
    rw [if_neg (fun h => h.elim hother.1 hother.2.1), if_neg hother.2.2, hv]
  rw [hint]
  unfold showInt
  rcases hverb with h | h | h | h | h
  · rw [h]
    exact htext _ (toList_signed_text h)
  all_goals
    simp only [h]
    refine htext _ ?_
    rw [← toList_radix (by simp [h])]
    simp [base, h]

theorem sprintf_int {format : String} {m : Machine} {sv : Services} (hv : v.unwrap = .int n)
    (hverb : d.verb ∈ integerVerbs) (hformat : Format.pieces format = [.verb d]) :
    sv.sprintf format [v] m = .ok (d.pad (String.ofList (d.numeral n.val))) m := by
  have hpieces : sv.showPieces [.verb d] [v] m =
      .ok (d.pad (String.ofList (d.numeral n.val)) ++ "", []) m := by
    unfold showPieces
    rw [showVerb_int hv hverb]
    rfl
  unfold sprintf
  rw [hformat, bind_of_ok hpieces, String.append_empty]
  rfl

-- Zeros fill an integer between `-` or `+` and what follows, which are the digits unless a blank
-- or what tells the base stands before them.
theorem zeros_fill_integers (hv : v.unwrap = .int n) (hverb : d.verb ∈ integerVerbs)
    (hzero : d.zero = true) (hminus : d.minus = false) :
    ∃ text : String, (∀ (sv : Services) m, sv.showVerb d v m = .ok text m) ∧
      (∀ (sv : Services) m format, Format.pieces format = [.verb d] →
        sv.sprintf format [v] m = .ok (d.pad text) m) ∧
      text.toList = d.sign n.val ++ (d.lead ++ d.digits n.val) ∧
      (d.pad text).toList = (d.sign n.val).filter (· ≠ ' ') ++ (d.zeros text.toList ++
        ((d.sign n.val).filter (· = ' ') ++ (d.lead ++ d.digits n.val))) ∧
      (d.pad text).length = max (d.width.getD 0) text.length ∧
      Digits.read d.base (d.zeros text.toList ++ d.digits n.val) = n.val.natAbs ∧
      ((d.pad text).toList =
          d.sign n.val ++ (d.lead ++ (d.zeros text.toList ++ d.digits n.val)) ↔
        d.zeros text.toList = [] ∨ d.sign n.val ≠ [' '] ∧ (d.lead = [] ∨ d.lead = ['0'])) := by
  have hshow : ∀ (sv : Services) m,
      sv.showVerb d v m = .ok (String.ofList (d.numeral n.val)) m := by
    intro sv m
    rw [showVerb_int hv hverb]
    rfl
  have htext : (String.ofList (d.numeral n.val)).toList = d.numeral n.val := String.toList_ofList
  have hpad : (d.pad (String.ofList (d.numeral n.val))).toList =
      (d.sign n.val).filter (· ≠ ' ') ++ (d.zeros (d.numeral n.val) ++
        ((d.sign n.val).filter (· = ' ') ++ (d.lead ++ d.digits n.val))) := by
    rw [toList_pad hverb hzero hminus, htext]
    exact padZeros_sign (d.unsigned_lead_digits n.val) d n.val _
  refine ⟨_, hshow, fun sv m format h => sprintf_int hv hverb h, htext, ?_, ?_, ?_, ?_⟩
  · rw [hpad, htext]
  · rw [← String.length_toList, ← String.length_toList, toList_pad hverb hzero hminus,
      length_padZeros]
    omega
  · exact (Digits.read_zeros _ _ _).trans (d.read_digits n.val)
  · rw [hpad, htext]
    exact zeros_in_place_iff

-- `%+#06o` of eight.
def octalOfSix : Directive := ⟨false, true, true, false, true, some 6, none, 'o'⟩

theorem zeros_fill_octal_eight :
    (Value.int (.plain 8)).unwrap = .int (.plain 8) ∧ octalOfSix.verb ∈ integerVerbs ∧
      octalOfSix.zero = true ∧ octalOfSix.minus = false ∧
      ∃ text : String, (∀ (sv : Services) m,
        sv.showVerb octalOfSix (.int (.plain 8)) m = .ok text m) ∧
        octalOfSix.pad text = "+00010" := by
  have hverb : octalOfSix.verb ∈ integerVerbs := by decide
  obtain ⟨text, hshow, -, htext, hpad, -, -, -⟩ :=
    zeros_fill_integers (v := .int (.plain 8)) rfl hverb rfl rfl
  refine ⟨rfl, hverb, rfl, rfl, text, hshow, String.toList_inj.mp ?_⟩
  rw [hpad, htext]
  decide

def hexOfSix : Directive := ⟨false, false, true, false, true, some 6, none, 'x'⟩

def blankOfFive : Directive := ⟨false, false, false, true, true, some 5, none, 'd'⟩

-- The prefix of the base and the blank do not stand before the zeros.
theorem zeros_stand_before_prefix_and_blank :
    (∀ (sv : Services) m, sv.sprintf "%#06x" [.int (.plain 255)] m = .ok "000xff" m) ∧
    (∀ k, "000xff".toList ≠ hexOfSix.sign 255 ++ (hexOfSix.lead ++
      (List.replicate k '0' ++ hexOfSix.digits 255))) ∧
    (∀ (sv : Services) m, sv.sprintf "% 05d" [.int (.plain 7)] m = .ok "000 7" m) ∧
    ∀ k, "000 7".toList ≠ blankOfFive.sign 7 ++ (blankOfFive.lead ++
      (List.replicate k '0' ++ blankOfFive.digits 7)) := by
  have hhex : Format.pieces "%#06x" = [.verb hexOfSix] := by
    change Format.scan .text [] ['%', '#', '0', '6', 'x'] = _
    simp [Format.scan, Format.scan.step, Format.advance, Format.advance.advanceWidth,
      Format.digit?, Format.extend, Format.flush, addFlag?, ofVerb, hexOfSix]
  have hblank : Format.pieces "% 05d" = [.verb blankOfFive] := by
    change Format.scan .text [] ['%', ' ', '0', '5', 'd'] = _
    simp [Format.scan, Format.scan.step, Format.advance, Format.advance.advanceWidth,
      Format.digit?, Format.extend, Format.flush, addFlag?, ofVerb, blankOfFive]
  have hhexPad : hexOfSix.pad (String.ofList (hexOfSix.numeral (IntValue.plain 255).val)) =
      "000xff" := by decide
  have hblankPad : blankOfFive.pad (String.ofList (blankOfFive.numeral (IntValue.plain 7).val)) =
      "000 7" := by decide
  refine ⟨fun sv m => ?_, fun k h => ?_, fun sv m => ?_, fun k h => ?_⟩
  · rw [← hhexPad]
    exact sprintf_int rfl (by decide) hhex
  · have hsecond : some '0' = some 'x' := congrArg (fun cs => cs[1]?) h
    exact absurd hsecond (by decide)
  · rw [← hblankPad]
    exact sprintf_int rfl (by decide) hblank
  · have hfirst : some '0' = some ' ' := congrArg List.head? h
    exact absurd hfirst (by decide)

end Services

end StepGraph

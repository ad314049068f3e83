namespace StepGraph.Digits

variable {b n d : Nat} {c : Char} {cs : List Char}

-- What a digit is worth. The letters from `a` on, small or capital, come after nine.
def value (c : Char) : Nat :=
  if c.isDigit then c.toNat - '0'.toNat
  else if c.isLower then 10 + (c.toNat - 'a'.toNat)
  else 10 + (c.toNat - 'A'.toNat)

-- The number that digits stand for, the highest digit first.
def read (b : Nat) (cs : List Char) : Nat := cs.foldl (fun n c => b * n + value c) 0

theorem value_digitChar (hd : d < 16) : value d.digitChar = d := by
  have hall : ∀ d < 16, value (Nat.digitChar d) = d := by decide
  exact hall d hd

theorem value_toUpper_digitChar (hd : d < 16) : value d.digitChar.toUpper = d := by
  have hall : ∀ d < 16, value (Nat.digitChar d).toUpper = d := by decide
  exact hall d hd

theorem mem_toDigits (hb : 1 < b) (hc : c ∈ Nat.toDigits b n) : ∃ d < b, c = d.digitChar := by
  induction n using Nat.base_induction b hb with
  | single m hm =>
      rw [Nat.toDigits_of_lt_base hm, List.mem_singleton] at hc
      exact ⟨m, hm, hc⟩
  | digit m k hk hm ih =>
      rw [← Nat.toDigits_append_toDigits hb hm hk, Nat.toDigits_of_lt_base hk, List.mem_append,
        List.mem_singleton] at hc
      rcases hc with hc | hc
      · exact ih hc
      · exact ⟨k, hk, hc⟩

theorem read_snoc (b : Nat) (cs : List Char) (c : Char) :
    read b (cs ++ [c]) = b * read b cs + value c := by
  unfold read
  rw [List.foldl_append]
  rfl

-- However a digit is written, if only its worth stays the same.
theorem read_map_toDigits (hb : 1 < b) {f : Char → Char} (hf : ∀ d < b, value (f d.digitChar) = d)
    (n : Nat) : read b ((Nat.toDigits b n).map f) = n := by
  induction n using Nat.base_induction b hb with
  | single m hm =>
      rw [Nat.toDigits_of_lt_base hm]
      change b * 0 + value (f m.digitChar) = m
      rw [hf m hm, Nat.mul_zero, Nat.zero_add]
  | digit m k hk hm ih =>
      rw [← Nat.toDigits_append_toDigits hb hm hk, Nat.toDigits_of_lt_base hk, List.map_append,
        List.map_singleton, read_snoc, ih, hf k hk]

theorem read_toDigits (hb : 1 < b) (hhex : b ≤ 16) (n : Nat) : read b (Nat.toDigits b n) = n := by
  have hread := read_map_toDigits (f := id) hb
    (fun d hd => value_digitChar (Nat.lt_of_lt_of_le hd hhex)) n
  rwa [List.map_id] at hread

theorem read_zeros (b k : Nat) (cs : List Char) :
    read b (List.replicate k '0' ++ cs) = read b cs := by
  have hzero : ∀ k, (List.replicate k '0').foldl (fun n c => b * n + value c) 0 = 0 := by
    intro k
    induction k with
    | zero => rfl
    | succ k ih =>
        rw [List.replicate_succ, List.foldl_cons]
        exact ih
  unfold read
  rw [List.foldl_append, hzero]

-- The digits of a number do not begin with a zero, unless that is all there is.
theorem head_toDigits (hb : 1 < b) (hhex : b ≤ 16) (hn : 0 < n) (hcs : Nat.toDigits b n = c :: cs) :
    c ≠ '0' := by
  induction n using Nat.base_induction b hb generalizing cs with
  | single m hm =>
      rw [Nat.toDigits_of_lt_base hm] at hcs
      obtain rfl := (List.cons.inj hcs).1
      intro hzero
      have hvalue := value_digitChar (Nat.lt_of_lt_of_le hm hhex)
      rw [hzero] at hvalue
      exact Nat.ne_of_gt hn hvalue.symm
  | digit m k hk hm ih =>
      rw [← Nat.toDigits_append_toDigits hb hm hk] at hcs
      obtain ⟨c', cs', hm'⟩ := List.exists_cons_of_ne_nil (Nat.toDigits_ne_nil (n := m) (b := b))
      rw [hm'] at hcs
      obtain rfl := (List.cons.inj hcs).1
      exact ih hm hm'

end StepGraph.Digits

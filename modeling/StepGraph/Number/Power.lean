namespace StepGraph

-- Two and ten to a natural power.

def pow2 (k : Nat) : Nat := Nat.pow 2 k

def pow10 (k : Nat) : Nat := Nat.pow 10 k

theorem pow2_pos (k : Nat) : 0 < pow2 k := Nat.two_pow_pos k

theorem pow2_succ (k : Nat) : pow2 (k + 1) = pow2 k * 2 := rfl

end StepGraph

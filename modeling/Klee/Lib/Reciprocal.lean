import Mathlib.Tactic

/-! Division by a multiplication: `N / d + 1` approximates the reciprocal of `d` from above, and a
dividend whose product with `d` stays below `N` does not see the error. -/
namespace Reciprocal

variable {N d n : Nat}

/-- The error of the approximation is at least 1 and at most `d`. -/
theorem exists_error (N : Nat) (hd : 0 < d) : ∃ e, 0 < e ∧ e ≤ d ∧ d * (N / d + 1) = N + e := by
  have hmod := Nat.mod_lt N hd
  have hdiv := Nat.div_add_mod N d
  refine ⟨d - N % d, by omega, by omega, ?_⟩
  rw [Nat.mul_add, Nat.mul_one]
  omega

/-- The product with `d` of the scaled dividend. -/
theorem mul_scaled {e : Nat} (h : d * (N / d + 1) = N + e) :
    d * (n * (N / d + 1)) = n * N + n * e := by
  rw [Nat.mul_left_comm, h, Nat.mul_add]

theorem mul_div_eq (hd : 0 < d) (h : n * d < N) : n * (N / d + 1) / N = n / d := by
  obtain ⟨e, -, hed, he⟩ := exists_error N hd
  have hscaled := mul_scaled (n := n) he
  have hsmall : n * e < N := (Nat.mul_le_mul_left n hed).trans_lt h
  have hlow : d * (n / d) ≤ n := Nat.mul_div_le n d
  have hhigh : n < d * (n / d + 1) := Nat.lt_mul_div_succ n hd
  refine Nat.div_eq_of_lt_le ?_ ?_
  · refine Nat.le_of_mul_le_mul_left ?_ hd
    calc d * (n / d * N) = d * (n / d) * N := (Nat.mul_assoc ..).symm
      _ ≤ n * N := Nat.mul_le_mul_right N hlow
      _ ≤ d * (n * (N / d + 1)) := by omega
  · refine Nat.lt_of_mul_lt_mul_left (a := d) ?_
    calc d * (n * (N / d + 1)) < (n + 1) * N := by rw [Nat.succ_mul]; omega
      _ ≤ d * (n / d + 1) * N := Nat.mul_le_mul_right N hhigh
      _ = d * ((n / d + 1) * N) := Nat.mul_assoc ..

/-- Rounded up, the quotient is always one too large. -/
theorem ceil_mul_div_eq (hd : 0 < d) (hn : 0 < n) (h : n * d ≤ N) :
    n / d * N < n * (N / d + 1) ∧ n * (N / d + 1) ≤ (n / d + 1) * N := by
  obtain ⟨e, hepos, hed, he⟩ := exists_error N hd
  have hscaled := mul_scaled (n := n) he
  have hsmall : n * e ≤ N := (Nat.mul_le_mul_left n hed).trans h
  have hpos : 0 < n * e := Nat.mul_pos hn hepos
  have hlow : d * (n / d) ≤ n := Nat.mul_div_le n d
  have hhigh : n < d * (n / d + 1) := Nat.lt_mul_div_succ n hd
  constructor
  · refine Nat.lt_of_mul_lt_mul_left (a := d) ?_
    calc d * (n / d * N) = d * (n / d) * N := (Nat.mul_assoc ..).symm
      _ ≤ n * N := Nat.mul_le_mul_right N hlow
      _ < d * (n * (N / d + 1)) := by omega
  · refine Nat.le_of_mul_le_mul_left ?_ hd
    calc d * (n * (N / d + 1)) ≤ (n + 1) * N := by rw [Nat.succ_mul]; omega
      _ ≤ d * (n / d + 1) * N := Nat.mul_le_mul_right N hhigh
      _ = d * ((n / d + 1) * N) := Nat.mul_assoc ..

/-- A signed dividend: the quotient rounded down, and corrected by one where the dividend is
negative, is the quotient rounded towards zero. -/
theorem ediv_add_eq_tdiv (hd : 0 < d) {n : Int} (hpos : n * d < N) (hneg : -(n * d) ≤ N) :
    n * (N / d + 1 : Nat) / N + (if n < 0 then 1 else 0) = n.tdiv d := by
  obtain ⟨k, rfl | rfl⟩ := n.eq_nat_or_neg
  · have h : k * d < N := by exact_mod_cast hpos
    rw [if_neg (by omega), add_zero, ← Int.natCast_mul, ← Int.natCast_ediv, mul_div_eq hd h]
    exact Int.ofNat_tdiv k d
  · have h : k * d ≤ N := by
      rw [neg_mul, neg_neg] at hneg
      exact_mod_cast hneg
    rw [Int.neg_tdiv, ← Int.ofNat_tdiv]
    cases k with
    | zero => simp
    | succ k =>
      obtain ⟨hlow, hhigh⟩ := ceil_mul_div_eq hd k.succ_pos h
      have hN : 0 < N := (Nat.mul_pos k.succ_pos hd).trans_le h
      have hquot : -((k + 1 : Nat) : Int) * (N / d + 1 : Nat) / N = -((k + 1) / d : Nat) - 1 := by
        rw [Int.ediv_eq_iff_of_pos (by exact_mod_cast hN)]
        have hlow' : (((k + 1) / d : Nat) : Int) * N < ((k + 1 : Nat) : Int) * (N / d + 1 : Nat) := by
          exact_mod_cast hlow
        have hhigh' : ((k + 1 : Nat) : Int) * (N / d + 1 : Nat) ≤
            ((((k + 1) / d : Nat) : Int) + 1) * N := by
          exact_mod_cast hhigh
        constructor
        · linarith only [hhigh']
        · linarith only [hlow']
      rw [hquot, if_pos (by omega)]
      omega

end Reciprocal

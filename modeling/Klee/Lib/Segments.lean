import Mathlib.Data.BitVec
import Mathlib.Tactic

/-! Numbers that are laid out one behind the other in a larger number. -/
namespace Segments

/-- The numbers of a list, each of some width, with the first as the least significant. -/
def glue : List (Nat × Nat) → Nat
  | [] => 0
  | (w, v) :: l => v + 2 ^ w * glue l

theorem glue_append (l l' : List (Nat × Nat)) :
    glue (l ++ l') = glue l + 2 ^ (l.map (·.1)).sum * glue l' := by
  induction l with
  | nil => simp [glue]
  | cons p l ih =>
    rw [List.cons_append, glue, ih, glue, List.map_cons, List.sum_cons, pow_add]
    ring

def byteAt (x k : Nat) : BitVec 8 := BitVec.ofNat 8 (x / 2 ^ (8 * k))

theorem byteAt_of_lt {x k : Nat} (h : x < 2 ^ (8 * k)) : byteAt x k = 0 := by
  rw [byteAt, Nat.div_eq_of_lt h]
  rfl

/-- The bytes of the lower and then those of the higher part. -/
theorem byteAt_add_mul {x s : Nat} (hx : x < 2 ^ (8 * s)) (y k : Nat) :
    byteAt (x + 2 ^ (8 * s) * y) k = if k < s then byteAt x k else byteAt y (k - s) := by
  unfold byteAt
  split
  case isTrue hk =>
    obtain ⟨d, rfl⟩ := Nat.exists_eq_add_of_lt hk
    have hpow : 2 ^ (8 * (k + d + 1)) * y = 2 ^ (8 * k) * (256 * (2 ^ (8 * d) * y)) := by
      rw [show 8 * (k + d + 1) = 8 * k + (8 + 8 * d) by ring, pow_add, pow_add]
      ring
    rw [hpow, Nat.add_mul_div_left _ _ (Nat.two_pow_pos _)]
    apply BitVec.eq_of_toNat_eq
    rw [BitVec.toNat_ofNat, BitVec.toNat_ofNat]
    omega
  case isFalse hk =>
    obtain ⟨d, rfl⟩ := Nat.exists_eq_add_of_le (not_lt.mp hk)
    rw [Nat.add_sub_cancel_left, Nat.mul_add, pow_add, ← Nat.div_div_eq_div_mul,
      Nat.add_mul_div_left _ _ (Nat.two_pow_pos _), Nat.div_eq_of_lt hx, Nat.zero_add]

end Segments

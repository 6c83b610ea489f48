import Mathlib.Data.BitVec
import Mathlib.Data.Nat.Bitwise
import Mathlib.Tactic

/-! The order of bit vectors by their bits: the highest bit where two values differ decides, and
rounding to a multiple of a power of two changes the bits from there on. -/
namespace BitVec

variable {w : Nat} {u x y : BitVec w} {k : Nat}

section Order

theorem lt_of_bit (i : Nat) (hx : x.getLsbD i = false) (hy : y.getLsbD i = true)
    (h : ∀ j, i < j → x.getLsbD j = y.getLsbD j) : x < y :=
  Nat.lt_of_testBit i hx hy h

theorem le_of_bits (h : ∀ i, x.getLsbD i = true → y.getLsbD i = true) : x ≤ y :=
  Nat.le_of_testBit h

/-- The highest bit where two values differ. -/
theorem exists_getLsbD_ne (h : x ≠ y) : ∃ i, x.getLsbD i ≠ y.getLsbD i ∧
    ∀ j, i < j → x.getLsbD j = y.getLsbD j := by
  have hxor : x.toNat ^^^ y.toNat ≠ 0 := by
    intro h0
    exact h (eq_of_toNat_eq (Nat.xor_eq_zero_iff.mp h0))
  obtain ⟨i, hi, hhigh⟩ := Nat.exists_most_significant_bit hxor
  rw [Nat.testBit_xor, bne_iff_ne] at hi
  refine ⟨i, hi, fun j hj => ?_⟩
  have hj' := hhigh j hj
  rw [Nat.testBit_xor, bne_eq_false_iff_eq] at hj'
  exact hj'

theorem exists_getLsbD_of_lt (h : x < y) : ∃ i, x.getLsbD i = false ∧ y.getLsbD i = true ∧
    ∀ j, i < j → x.getLsbD j = y.getLsbD j := by
  obtain ⟨i, hi, hhigh⟩ := exists_getLsbD_ne (BitVec.ne_of_lt h)
  refine ⟨i, ?_⟩
  cases hx : x.getLsbD i with
  | false =>
    rw [hx] at hi
    exact ⟨rfl, eq_true_of_ne_false (Ne.symm hi), hhigh⟩
  | true =>
    rw [hx] at hi
    have hy := eq_false_of_ne_true (Ne.symm hi)
    exact absurd (lt_of_bit i hy hx fun j hj => (hhigh j hj).symm) (BitVec.lt_asymm h)

theorem not_le_not_iff : ~~~ x ≤ ~~~ y ↔ y ≤ x := by
  rw [BitVec.le_def, BitVec.le_def, toNat_not, toNat_not]
  omega

end Order

/-- The same bits from `k` on. -/
def AgreeFrom (k : Nat) (x y : BitVec w) : Prop := ∀ j, k ≤ j → x.getLsbD j = y.getLsbD j

namespace AgreeFrom

theorem refl (k : Nat) (x : BitVec w) : AgreeFrom k x x := fun _ _ => rfl

/-- Beyond the width all values agree. -/
theorem of_width (x y : BitVec w) : AgreeFrom w x y := fun j hj => by
  rw [getLsbD_of_ge _ _ hj, getLsbD_of_ge _ _ hj]

theorem of_succ (h : AgreeFrom (k + 1) x y) (hk : x.getLsbD k = y.getLsbD k) :
    AgreeFrom k x y := by
  intro j hj
  by_cases hjk : j = k
  · exact hjk ▸ hk
  · exact h j (by omega)

/-- The lower value has the lower bit at the first difference. -/
theorem bits_of_le (h : AgreeFrom (k + 1) x y) (hle : x ≤ y) (hk : x.getLsbD k ≠ y.getLsbD k) :
    x.getLsbD k = false ∧ y.getLsbD k = true := by
  cases hx : x.getLsbD k with
  | false =>
    rw [hx] at hk
    exact ⟨rfl, eq_true_of_ne_false (Ne.symm hk)⟩
  | true =>
    rw [hx] at hk
    have hy := eq_false_of_ne_true (Ne.symm hk)
    have hlt := lt_of_bit k hy hx fun j hj => (h j hj).symm
    exact absurd hle (BitVec.not_le.mpr hlt)

/-- Common bits above the first difference keep the order. -/
theorem or_le_or (h : AgreeFrom k x y) (hle : x ≤ y) (hu : ∀ j, j < k → u.getLsbD j = false) :
    u ||| x ≤ u ||| y := by
  by_cases heq : x = y
  · exact heq ▸ BitVec.le_refl _
  · obtain ⟨i, hx, hy, hhigh⟩ := exists_getLsbD_of_lt (BitVec.lt_of_le_ne hle heq)
    have hik : i < k := by
      by_contra hik
      rw [h i (by omega), hy] at hx
      cases hx
    refine BitVec.le_of_lt (lt_of_bit i ?_ ?_ fun j hj => ?_)
    · rw [getLsbD_or, hu i hik, hx]; rfl
    · rw [getLsbD_or, hy, Bool.or_true]
    · rw [getLsbD_or, getLsbD_or, hhigh j hj]

end AgreeFrom

section Rounding

theorem getLsbD_bit (hk : k < w) (j : Nat) : (1#w <<< k).getLsbD j = decide (k = j) := by
  rw [← twoPow_eq, getLsbD_twoPow]
  simp [hk]

theorem toNat_bit (hk : k < w) : (1#w <<< k).toNat = 2 ^ k := by
  rw [← twoPow_eq, toNat_twoPow_of_lt hk]

theorem and_bit_ne_zero (hk : k < w) (x : BitVec w) :
    x &&& 1#w <<< k ≠ 0#w ↔ x.getLsbD k = true := by
  rw [← twoPow_eq, and_twoPow]
  split
  case isTrue h =>
    refine iff_of_true (fun h0 => ?_) h
    have hbit := congrArg (fun z : BitVec w => z.getLsbD k) h0
    simp [hk] at hbit
  case isFalse h => exact iff_of_false (fun hne => hne rfl) h

theorem getLsbD_neg_bit (hk : k < w) (j : Nat) :
    (-(1#w <<< k)).getLsbD j = (decide (j < w) && decide (k ≤ j)) := by
  have hle : 2 ^ k < 2 ^ w := Nat.pow_lt_pow_right (by decide) hk
  have hpos : 0 < 2 ^ k := Nat.two_pow_pos k
  have hval : (-(1#w <<< k)).toNat = 2 ^ w - (2 ^ k - 1 + 1) := by
    rw [toNat_neg, toNat_bit hk, Nat.mod_eq_of_lt (by omega)]
    omega
  rw [getLsbD, hval, Nat.testBit_two_pow_sub_succ (by omega), Nat.testBit_two_pow_sub_one]
  by_cases h : k ≤ j
  · simp [h, Nat.not_lt.mpr h]
  · simp [h, Nat.lt_of_not_le h]

theorem getLsbD_bit_sub_one (hk : k < w) (j : Nat) :
    (1#w <<< k - 1#w).getLsbD j = decide (j < k) := by
  have hone : (1#w).toNat = 1 := toNat_one (by omega)
  have hle : 1#w ≤ 1#w <<< k := by
    rw [BitVec.le_def, toNat_bit hk, hone]
    exact Nat.two_pow_pos k
  have hval : (1#w <<< k - 1#w).toNat = 2 ^ k - 1 := by
    rw [toNat_sub_of_le hle, toNat_bit hk, hone]
  rw [getLsbD, hval, Nat.testBit_two_pow_sub_one]

/-- The next multiple of `2 ^ k` above a value whose bit `k` is clear. -/
theorem getLsbD_roundUp (hk : k < w) (x : BitVec w) (j : Nat) :
    ((x ||| 1#w <<< k) &&& -(1#w <<< k)).getLsbD j =
      if j < k then false else if j = k then true else x.getLsbD j := by
  rw [getLsbD_and, getLsbD_or, getLsbD_bit hk, getLsbD_neg_bit hk]
  by_cases hjk : j < k
  · simp [hjk]
  · by_cases heq : j = k
    · simp [heq, hk]
    · have hne : k ≠ j := fun h => heq h.symm
      have hle : k ≤ j := by omega
      by_cases hj : j < w
      · simp [hjk, heq, hne, hle, hj]
      · simp [hjk, heq, hne, hj, getLsbD_of_ge _ _ (Nat.le_of_not_lt hj)]

/-- The last value below a multiple of `2 ^ k`. -/
theorem getLsbD_roundDown (hk : k < w) (x : BitVec w) (j : Nat) :
    (x &&& ~~~ (1#w <<< k) ||| (1#w <<< k - 1#w)).getLsbD j =
      if j < k then true else if j = k then false else x.getLsbD j := by
  rw [getLsbD_or, getLsbD_and, getLsbD_not, getLsbD_bit hk, getLsbD_bit_sub_one hk]
  by_cases hjk : j < k
  · simp [hjk]
  · by_cases heq : j = k
    · simp [heq]
    · have hne : k ≠ j := fun h => heq h.symm
      by_cases hj : j < w
      · simp [hjk, heq, hne, hj]
      · simp [hjk, heq, hj, getLsbD_of_ge _ _ (Nat.le_of_not_lt hj)]

/-- Subtracting a bit that is set clears it. -/
theorem sub_bit (hk : k < w) (h : x.getLsbD k = true) :
    x - 1#w <<< k = x &&& ~~~ (1#w <<< k) := by
  have hsplit : x &&& ~~~ (1#w <<< k) ||| 1#w <<< k = x := by
    refine eq_of_getLsbD_eq fun j hj => ?_
    rw [getLsbD_or, getLsbD_and, getLsbD_not, getLsbD_bit hk]
    by_cases heq : k = j
    · simp [← heq, h]
    · simp [heq, hj]
  have hdisjoint : x &&& ~~~ (1#w <<< k) &&& 1#w <<< k = 0#w := by
    refine eq_of_getLsbD_eq fun j hj => ?_
    rw [getLsbD_and, getLsbD_and, getLsbD_not, getLsbD_bit hk, getLsbD_zero]
    by_cases heq : k = j <;> simp [heq, hj]
  rw [BitVec.sub_eq_iff_eq_add, add_eq_or_of_and_eq_zero _ _ hdisjoint, hsplit]

/-- Rounding the complement. -/
theorem not_roundUp (hk : k < w) (x : BitVec w) :
    ~~~ ((x ||| 1#w <<< k) &&& -(1#w <<< k)) =
      ~~~ x &&& ~~~ (1#w <<< k) ||| (1#w <<< k - 1#w) := by
  refine eq_of_getLsbD_eq fun j hj => ?_
  rw [getLsbD_not, getLsbD_roundUp hk, getLsbD_roundDown hk, getLsbD_not]
  split
  · simp [hj]
  · split <;> simp [hj]

end Rounding

section Bits

theorem bit_succ (k : Nat) : 1#w <<< (k + 1) = 1#w <<< k + 1#w <<< k := by
  rw [← twoPow_eq, ← twoPow_eq]
  apply eq_of_toNat_eq
  rw [toNat_add, toNat_twoPow, toNat_twoPow, ← Nat.add_mod, pow_succ, Nat.mul_two]

/-- Setting a bit that is clear adds it. -/
theorem or_bit (h : x.getLsbD k = false) : x ||| 1#w <<< k = x + 1#w <<< k := by
  refine (add_eq_or_of_and_eq_zero _ _ ?_).symm
  rw [← twoPow_eq, and_twoPow, h]
  rfl

/-- Flipping a bit. -/
theorem xor_bit_of_false (hk : k < w) (h : x.getLsbD k = false) :
    x ^^^ 1#w <<< k = x + 1#w <<< k := by
  rw [← or_bit h]
  refine eq_of_getLsbD_eq fun j _ => ?_
  rw [getLsbD_xor, getLsbD_or, getLsbD_bit hk]
  by_cases heq : k = j
  · simp [← heq, h]
  · simp [heq]

theorem xor_bit_of_true (hk : k < w) (h : x.getLsbD k = true) :
    x ^^^ 1#w <<< k = x - 1#w <<< k := by
  rw [sub_bit hk h]
  refine eq_of_getLsbD_eq fun j hj => ?_
  rw [getLsbD_xor, getLsbD_and, getLsbD_not, getLsbD_bit hk]
  by_cases heq : k = j
  · rw [← heq, h]; simp
  · simp [heq, hj]

end Bits

/-- No bit of `x` below `k` is set: `x` is a multiple of `2 ^ k`. -/
def NoneBelow (k : Nat) (x : BitVec w) : Prop := ∀ j, j < k → x.getLsbD j = false

/-- No bit of `x` from `k` on is set: `x` is less than `2 ^ k`. -/
def NoneFrom (k : Nat) (x : BitVec w) : Prop := ∀ j, k ≤ j → x.getLsbD j = false

section LowestBit

theorem noneBelow_iff : NoneBelow k x ↔ x.setWidth k = 0#k := by
  constructor
  · intro h
    refine eq_of_getLsbD_eq fun j hj => ?_
    rw [getLsbD_setWidth, h j hj]
    simp
  · intro h j hj
    have hbit := congrArg (fun z : BitVec k => z.getLsbD j) h
    rw [getLsbD_setWidth] at hbit
    simpa [hj] using hbit

theorem NoneBelow.add (hk : k ≤ w) (hx : NoneBelow k x) (hy : NoneBelow k y) :
    NoneBelow k (x + y) := by
  rw [noneBelow_iff] at hx hy ⊢
  rw [setWidth_add x y hk, hx, hy, BitVec.add_zero]

theorem NoneBelow.eq_zero (h : NoneBelow w x) : x = 0#w := by
  rw [← setWidth_eq x, noneBelow_iff.mp h]

theorem exists_lowest (h : x ≠ 0#w) : ∃ k, k < w ∧ x.getLsbD k = true ∧ NoneBelow k x := by
  have hex : ∃ k, x.getLsbD k = true := by
    by_contra hnone
    rw [not_exists] at hnone
    exact h (NoneBelow.eq_zero fun j _ => eq_false_of_ne_true (hnone j))
  refine ⟨Nat.find hex, lt_of_getLsbD (Nat.find_spec hex), Nat.find_spec hex, fun j hj => ?_⟩
  exact eq_false_of_ne_true (Nat.find_min hex hj)

theorem sub_bit_noneBelow (hk : k < w) (hx : x.getLsbD k = true) (h : NoneBelow k x) :
    NoneBelow (k + 1) (x - 1#w <<< k) := by
  rw [sub_bit hk hx]
  intro j hj
  rw [getLsbD_and, getLsbD_not, getLsbD_bit hk]
  by_cases heq : k = j
  · simp [heq]
  · rw [h j (by omega), Bool.false_and]

/-- `x & -x` is the lowest bit. -/
theorem and_neg_of_lowest (hk : k < w) (hx : x.getLsbD k = true) (h : NoneBelow k x) :
    x &&& -x = 1#w <<< k := by
  -- below and at the bit, `x - 1` has the bits that `x` has not
  have hdisjoint : x &&& ~~~ (1#w <<< k) &&& (1#w <<< k - 1#w) = 0#w := by
    refine eq_of_getLsbD_eq fun j hj => ?_
    rw [getLsbD_and, getLsbD_and, getLsbD_bit_sub_one hk]
    by_cases hjk : j < k
    · simp [h j hjk]
    · simp [hjk]
  have hpred : x - 1#w = x &&& ~~~ (1#w <<< k) ||| (1#w <<< k - 1#w) := by
    rw [← add_eq_or_of_and_eq_zero _ _ hdisjoint, ← sub_bit hk hx]
    ring
  have hneg : -x = ~~~ (x - 1#w) := by
    have hnot := neg_eq_not_add (x - 1#w)
    rw [← sub_eq_iff_eq_add] at hnot
    rw [← hnot]
    ring
  refine eq_of_getLsbD_eq fun j hj => ?_
  rw [hneg, hpred, getLsbD_and, getLsbD_not, getLsbD_roundDown hk, getLsbD_bit hk]
  by_cases hjk : j < k
  · have hne : k ≠ j := by omega
    simp [h j hjk, hne]
  · by_cases heq : j = k
    · simp [heq, hx, hk]
    · have hne : k ≠ j := fun hkj => heq hkj.symm
      simp [hjk, heq, hne, hj]

end LowestBit

theorem setWidth_sub (x y : BitVec w) (hk : k ≤ w) :
    (x - y).setWidth k = x.setWidth k - y.setWidth k := by
  rw [sub_eq_add_neg, setWidth_add _ _ hk, setWidth_neg_of_le hk, ← sub_eq_add_neg]

end BitVec

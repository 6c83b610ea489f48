import Mathlib.Data.BitVec
import Mathlib.Tactic

/-! Bit-vector identities: single bits as truth values, and values that survive
narrowing. -/
namespace BitVec

section OneBit

theorem ne_zero_iff_eq_one (x : BitVec 1) : x ≠ 0#1 ↔ x = 1#1 := by
  revert x; decide

theorem ofBool_one_beq (x : BitVec 1) : ofBool (1#1 == x) = x := by
  revert x; decide

theorem ofBool_zero_beq (x : BitVec 1) : ofBool (0#1 == x) = ~~~ x := by
  revert x; decide

theorem ofBool_beq_zero (x : BitVec 1) : ofBool (x == 0#1) = ~~~ x := by
  revert x; decide

theorem isZero_and_isZero (x y : BitVec 1) :
    ofBool (x == 0) &&& ofBool (y == 0) = ofBool (0 == x ||| y) := by
  revert x y; decide

theorem isZero_isZero (x : BitVec 1) : ofBool (0 == ofBool (0 == x)) = x := by
  revert x; decide

theorem one_xor (x : BitVec 1) : 1#1 ^^^ x = ~~~ x := by
  revert x; decide

theorem xor_eq_add (x y : BitVec 1) : x ^^^ y = x + y := by
  revert x y; decide

theorem xor_eq_sub (x y : BitVec 1) : x ^^^ y = x - y := by
  revert x y; decide

theorem and_eq_mul (x y : BitVec 1) : x &&& y = x * y := by
  revert x y; decide

theorem smtUDiv_one_bit (x y : BitVec 1) (hy : y ≠ 0) : x.smtUDiv y = x := by
  revert x y; decide

theorem smtSDiv_one_bit (x y : BitVec 1) (hy : y ≠ 0) : x.smtSDiv y = x := by
  revert x y; decide

theorem umod_one_bit (x y : BitVec 1) (hy : y ≠ 0) : x % y = 0 := by
  revert x y; decide

theorem srem_one_bit (x y : BitVec 1) (hy : y ≠ 0) : x.srem y = 0 := by
  revert x y; decide

theorem shiftLeft_one_bit (x y : BitVec 1) : x &&& ofBool (y == 0) = x <<< y := by
  revert x y; decide

theorem ushiftRight_one_bit (x y : BitVec 1) : x &&& ofBool (y == 0) = x >>> y := by
  revert x y; decide

theorem sshiftRight_one_bit (x y : BitVec 1) : x.sshiftRight' y = x := by
  revert x y; decide

theorem ult_one_bit (x y : BitVec 1) : ofBool (x == 0) &&& y = ofBool (x.ult y) := by
  revert x y; decide

theorem ule_one_bit (x y : BitVec 1) : ofBool (x == 0) ||| y = ofBool (x.ule y) := by
  revert x y; decide

theorem slt_one_bit (x y : BitVec 1) : x &&& ofBool (y == 0) = ofBool (x.slt y) := by
  revert x y; decide

theorem sle_one_bit (x y : BitVec 1) : x ||| ofBool (y == 0) = ofBool (x.sle y) := by
  revert x y; decide

theorem or_eq_ite (x y : BitVec 1) : x ||| y = if x = 1#1 then 1#1 else y := by
  revert x y; decide

theorem and_eq_ite (x y : BitVec 1) : x &&& y = if x = 1#1 then y else 0#1 := by
  revert x y; decide

theorem isZero_or_eq_ite (x y : BitVec 1) :
    ofBool (x == 0) ||| y = if x = 1#1 then y else 1#1 := by
  revert x y; decide

theorem isZero_and_eq_ite (x y : BitVec 1) :
    ofBool (x == 0) &&& y = if x = 1#1 then 0#1 else y := by
  revert x y; decide

theorem and_eq_one_iff (x y : BitVec 1) : x &&& y = 1#1 ↔ x = 1#1 ∧ y = 1#1 := by
  revert x y; decide

theorem not_one_bit (b : Bool) : ~~~ ofBool b = ofBool !b := by
  cases b <;> rfl

theorem ofBool_eq_one {b : Bool} : ofBool b = 1#1 ↔ b = true := by
  cases b <;> decide

theorem ofBool_eq_zero {b : Bool} : ofBool b = 0#1 ↔ b = false := by
  cases b <;> decide

end OneBit

section Narrow

variable {v w : Nat}

/-- A zero-extended value is the extension of what narrowing leaves of it. -/
theorem setWidth_setWidth_self (x : BitVec v) (h : v ≤ w) : (x.setWidth w).setWidth v = x := by
  rw [setWidth_setWidth_of_le x h, setWidth_eq]

theorem setWidth_signExtend_self (x : BitVec v) (h : v ≤ w) :
    (x.signExtend w).setWidth v = x := by
  apply eq_of_getElem_eq
  intro i hi
  rw [getElem_setWidth, getLsbD_signExtend]
  simp [hi, hi.trans_le h]

theorem beq_setWidth (c : BitVec w) (x : BitVec v) (h : v ≤ w) :
    (c == x.setWidth w) = (c == (c.setWidth v).setWidth w && c.setWidth v == x) := by
  rw [Bool.eq_iff_iff, Bool.and_eq_true, beq_iff_eq, beq_iff_eq, beq_iff_eq]
  constructor
  · rintro rfl
    rw [setWidth_setWidth_self x h]
    exact ⟨rfl, rfl⟩
  · rintro ⟨hc, rfl⟩
    exact hc

theorem beq_signExtend (c : BitVec w) (x : BitVec v) (h : v ≤ w) :
    (c == x.signExtend w) = (c == (c.setWidth v).signExtend w && c.setWidth v == x) := by
  rw [Bool.eq_iff_iff, Bool.and_eq_true, beq_iff_eq, beq_iff_eq, beq_iff_eq]
  constructor
  · rintro rfl
    rw [setWidth_signExtend_self x h]
    exact ⟨rfl, rfl⟩
  · rintro ⟨hc, rfl⟩
    exact hc

end Narrow

section Linear

variable {w : Nat} (c k x : BitVec w)

theorem beq_add : (c == k + x) = (c - k == x) := by
  rw [Bool.eq_iff_iff, beq_iff_eq, beq_iff_eq, BitVec.sub_eq_iff_eq_add, BitVec.add_comm]

theorem beq_sub : (c == k - x) = (k - c == x) := by
  rw [Bool.eq_iff_iff, beq_iff_eq, beq_iff_eq, BitVec.sub_eq_iff_eq_add, eq_comm,
    BitVec.sub_eq_iff_eq_add, BitVec.add_comm]

end Linear

section Slices

variable {m n : Nat}

theorem setWidth_sshiftRight (x : BitVec n) {off w : Nat} (h : off + w ≤ n) :
    (x.sshiftRight off).setWidth w = x.extractLsb' off w := by
  apply eq_of_getLsbD_eq
  intro i hi
  simp only [getLsbD_setWidth, getLsbD_sshiftRight, getLsbD_extractLsb', hi, decide_true,
    Bool.true_and]
  have hn : ¬ n ≤ i := by omega
  have hlt : off + i < n := by omega
  simp [hn, hlt]

/-- A slice of a concatenation that straddles both parts. -/
theorem extractLsb'_append_straddle (x : BitVec m) (y : BitVec n) {off w : Nat} (h : off ≤ n)
    (hw : n ≤ off + w) :
    (x.extractLsb' 0 (w + off - n) ++ y.extractLsb' off (n - off)).setWidth w =
      (x ++ y).extractLsb' off w := by
  apply eq_of_getLsbD_eq
  intro i hi
  rw [getLsbD_setWidth, getLsbD_append, getLsbD_extractLsb', getLsbD_extractLsb',
    getLsbD_extractLsb', getLsbD_append]
  by_cases hlow : i < n - off
  · have h' : off + i < n := by omega
    simp [hi, hlow, h']
  · have h' : ¬ off + i < n := by omega
    have hb : i - (n - off) < w + off - n := by omega
    have he : off + i - n = i - (n - off) := by omega
    simp [hi, hlow, h', hb, he]

/-- Zeros on top of the upper bits. -/
theorem setWidth_zero_append_extractLsb' (x : BitVec n) {i k : Nat} (h : i + k = n) :
    (0#i ++ x.extractLsb' i k).setWidth n = x >>> i := by
  apply eq_of_getLsbD_eq
  intro j hj
  simp only [getLsbD_setWidth, getLsbD_append, getLsbD_extractLsb', getLsbD_zero,
    getLsbD_ushiftRight, hj, decide_true, Bool.true_and]
  split
  · simp_all
  · rw [getLsbD_of_ge x _ (by omega)]

/-- Copies of a set sign bit on top of the upper bits. -/
theorem setWidth_allOnes_append_extractLsb' (x : BitVec n) {i k : Nat} (h : i + k = n)
    (hmsb : x.msb = true) : (allOnes i ++ x.extractLsb' i k).setWidth n = x.sshiftRight i := by
  apply eq_of_getLsbD_eq
  intro j hj
  simp only [getLsbD_setWidth, getLsbD_append, getLsbD_extractLsb', getLsbD_allOnes,
    getLsbD_sshiftRight, hj, decide_true, Bool.true_and, hmsb]
  have hn : ¬ n ≤ j := by omega
  split
  · have hlt : i + j < n := by omega
    simp [*]
  · have hge : ¬ i + j < n := by omega
    have hlt : j - k < i := by omega
    simp [*]

/-- Zeros below the lower bits. -/
theorem setWidth_extractLsb'_append_zero (x : BitVec n) {i k : Nat} (h : k + i = n) :
    (x.extractLsb' 0 k ++ 0#i).setWidth n = x <<< i := by
  apply eq_of_getLsbD_eq
  intro j hj
  simp only [getLsbD_setWidth, getLsbD_append, getLsbD_extractLsb', getLsbD_zero,
    getLsbD_shiftLeft, hj, decide_true, Bool.true_and]
  split
  · simp [*]
  · have hlt : j - i < k := by omega
    simp [*]

end Slices

end BitVec

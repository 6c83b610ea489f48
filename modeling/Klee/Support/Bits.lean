import Klee.Lib.BitBounds

/-! `klee/util/Bits.h`. A failed assertion is an error of the model. -/
namespace Klee

namespace Bits32

def indexOfSingleBit (x : BitVec 32) : Option Nat :=
  if x &&& (x - 1) ≠ 0 then none
  else
    let res := (if x &&& 0xFFFF0000 ≠ 0 then 16 else 0) + (if x &&& 0xFF00FF00 ≠ 0 then 8 else 0) +
      (if x &&& 0xF0F0F0F0 ≠ 0 then 4 else 0) + (if x &&& 0xCCCCCCCC ≠ 0 then 2 else 0) +
      (if x &&& 0xAAAAAAAA ≠ 0 then 1 else 0)
    if res < 32 ∧ 1#32 <<< res = x then some res else none

end Bits32

namespace Bits64

def maxValueOfNBits (n : Nat) : Option (BitVec 64) :=
  if n ≤ 64 then some (if n = 0 then 0 else (-1#64) >>> (64 - n)) else none

def truncateToNBits (x : BitVec 64) (n : Nat) : Option (BitVec 64) :=
  if 0 < n ∧ n ≤ 64 then some (x &&& (-1#64) >>> (64 - n)) else none

def withoutRightmostBit (x : BitVec 64) : BitVec 64 := x &&& (x - 1)

def isolateRightmostBit (x : BitVec 64) : BitVec 64 := x &&& -x

def isPowerOfTwo (x : BitVec 64) : Bool := if x = 0 then false else x &&& (x - 1) == 0

def indexOfSingleBit (x : BitVec 64) : Option Nat :=
  if x &&& (x - 1) ≠ 0 then none
  else do
    let low ← Bits32.indexOfSingleBit ((x ||| x >>> 32).setWidth 32)
    let res := low + if x &&& (0xFFFFFFFF <<< 32) ≠ 0 then 32 else 0
    if res < 64 ∧ 1#64 <<< res = x then some res else none

def indexOfRightmostBit (x : BitVec 64) : Option Nat := indexOfSingleBit (isolateRightmostBit x)

theorem maxValueOfNBits_eq {n : Nat} (h : n ≤ 64) :
    maxValueOfNBits n = some (BitVec.ofNat 64 (2 ^ n - 1)) := by
  rw [maxValueOfNBits, if_pos h]
  refine congrArg some (BitVec.eq_of_getLsbD_eq fun j hj => ?_)
  rw [BitVec.getLsbD_ofNat, Nat.testBit_two_pow_sub_one]
  split
  case isTrue h0 => simp [h0]
  case isFalse h0 =>
    have hones : -1#64 = BitVec.allOnes 64 := by decide
    rw [hones, BitVec.getLsbD_ushiftRight, BitVec.getLsbD_allOnes]
    simp only [hj, decide_true, Bool.true_and, decide_eq_decide]
    omega

/-- The mask keeps the low bits. -/
theorem getLsbD_truncateToNBits {x y : BitVec 64} {n : Nat} (h : truncateToNBits x n = some y)
    (j : Nat) : y.getLsbD j = (decide (j < n) && x.getLsbD j) := by
  rw [truncateToNBits] at h
  split at h
  case isTrue hn =>
    obtain rfl := Option.some.inj h
    have hones : -1#64 = BitVec.allOnes 64 := by decide
    rw [hones, BitVec.getLsbD_and, BitVec.getLsbD_ushiftRight, BitVec.getLsbD_allOnes,
      Bool.and_comm]
    by_cases hj : j < 64
    · congr 1
      rw [decide_eq_decide]
      omega
    · simp [BitVec.getLsbD_of_ge _ _ (Nat.le_of_not_lt hj)]
  case isFalse => cases h

theorem indexOfSingleBit_bit {k : Nat} (h : k < 64) : indexOfSingleBit (1#64 <<< k) = some k := by
  have hall : ∀ k : Fin 64, indexOfSingleBit (1#64 <<< k.val) = some k.val := by decide
  exact hall ⟨k, h⟩

end Bits64

end Klee

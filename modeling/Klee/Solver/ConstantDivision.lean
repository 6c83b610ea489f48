import Klee.Support.Bits

/-! `ConstantDivision.cpp`: constants that replace a multiplication by shifts and a division by a
multiplication. A failed assertion and a division by zero are errors of the model. -/
namespace Klee

section BitOperations

/-- The number of bits in `x` with the value 1. -/
def ones (x : BitVec 32) : BitVec 32 :=
  let x := x - (x >>> 1 &&& 0x55555555)
  let x := (x >>> 2 &&& 0x33333333) + (x &&& 0x33333333)
  let x := (x >>> 4 + x) &&& 0x0f0f0f0f
  let x := x + x >>> 8
  let x := x + x >>> 16
  x &&& 0x0000003f

def ldz (x : BitVec 32) : BitVec 32 :=
  let x := x ||| x >>> 1
  let x := x ||| x >>> 2
  let x := x ||| x >>> 4
  let x := x ||| x >>> 8
  let x := x ||| x >>> 16
  32 - ones x

def log2Ceil (x : BitVec 32) : BitVec 32 := 32 - ldz (x - 1)

/-- At `n = 32` the shift is one of 0. -/
def expBase2 (n : BitVec 32) : BitVec 32 := ((~~~ n &&& (n - 32)) >>> 31) <<< n.toNat

end BitOperations

section Mult

/-- The variables of `ComputeMultConstants64`. -/
structure MultConstants where
  x : BitVec 64
  add : BitVec 64
  sub : BitVec 64

/-- `high`: the region ends at the bit that the carry sets, or runs off. -/
def MultConstants.high (q : BitVec 64) : Option Nat :=
  if q ≠ 0 then Bits64.indexOfSingleBit q else some 64

/-- One round of the loop: the rightmost region `[low, high)` of ones. -/
def MultConstants.round (s : MultConstants) : Option MultConstants := do
  let low ← Bits64.indexOfRightmostBit s.x
  let lowbit := 1#64 <<< low
  let p := s.x + lowbit
  let q := Bits64.isolateRightmostBit p
  let high ← high q
  if high = low + 1 then return ⟨p ^^^ q, s.add ||| lowbit, s.sub⟩
  else
    let below := lowbit >>> 1
    let (add, sub) :=
      if low ≠ 0 ∧ s.add &&& below ≠ 0 then (s.add ^^^ below, s.sub ^^^ below)
      else (s.add, s.sub ||| lowbit)
    return ⟨p ^^^ q, if high ≠ 64 then add ||| 1#64 <<< high else add, sub⟩

def MultConstants.loop : Nat → MultConstants → Option MultConstants
  | 0, s => if s.x = 0 then some s else none
  | fuel + 1, s => if s.x = 0 then some s else s.round.bind (loop fuel)

/-- `add` and `sub`; every round takes one bit of 64 at least. -/
def computeMultConstants64 (multiplicand : BitVec 64) : Option (BitVec 64 × BitVec 64) := do
  let s ← MultConstants.loop 64 ⟨multiplicand, 0, 0⟩
  if multiplicand = s.add - s.sub then some (s.add, s.sub) else none

end Mult

section Div

structure UDivConstants where
  mprime : BitVec 32
  sh1 : BitVec 32
  sh2 : BitVec 32

/-- `l`, which is signed. -/
def udivLog (d : BitVec 32) : BitVec 32 := log2Ceil d

def udivMid (d : BitVec 32) : BitVec 32 := expBase2 (udivLog d) - d

def computeUDivConstants32 (d : BitVec 32) : Option UDivConstants :=
  if d = 0 then none
  else
    let l := udivLog d
    let quotient : BitVec 64 := (1#64 <<< 32 * (udivMid d).setWidth 64) / d.setWidth 64
    some {
      mprime := (quotient + 1).setWidth 32
      sh1 := if (1#32).slt l then 1 else l
      sh2 := if (l - 1).slt 0 then 0 else l - 1 }

structure SDivConstants where
  mprime : BitVec 32
  dsign : BitVec 32
  shpost : BitVec 32

/-- `ABS( (int64_t)d )` -/
def sdivAbs (d : BitVec 32) : BitVec 64 :=
  if (0#64).slt (d.signExtend 64) then d.signExtend 64 else -(d.signExtend 64)

def sdivLog (d : BitVec 32) : BitVec 32 :=
  let l := log2Ceil ((sdivAbs d).setWidth 32)
  if sdivAbs d = 1#64 <<< 31 then 31 else if 1#32 < l then l else 1

/-- `m`, the multiplier in full. -/
def sdivM (d : BitVec 32) : BitVec 64 :=
  let mid := expBase2 (sdivLog d - 1)
  (1#64 <<< 32 * mid.setWidth 64) / sdivAbs d + 1

def computeSDivConstants32 (d : BitVec 32) : Option SDivConstants :=
  if sdivAbs d = 0 then none
  else some {
    mprime := (sdivM d - 1#64 <<< 32).setWidth 32
    dsign := d.sshiftRight 31
    shpost := sdivLog d - 1 }

end Div

end Klee

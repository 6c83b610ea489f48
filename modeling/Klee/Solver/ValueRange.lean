import Klee.Support.Bits

/-! `ValueRange` of `FastCexSolver.cpp`: intervals of unsigned 64-bit values. A failed assertion
and a shift by 64 bits or more are errors of the model. -/
namespace Klee

section Bounds

/-- The loop of `minOR` at the masks below `2 ^ k`. -/
def minORLoop (b d : BitVec 64) : Nat → BitVec 64 → BitVec 64 → BitVec 64
  | 0, a, c => a ||| c
  | k + 1, a, c =>
    let m := 1#64 <<< k
    if ~~~ a &&& c &&& m ≠ 0 then
      let temp := (a ||| m) &&& -m
      if temp ≤ b then temp ||| c else minORLoop b d k a c
    else if a &&& ~~~ c &&& m ≠ 0 then
      let temp := (c ||| m) &&& -m
      if temp ≤ d then a ||| temp else minORLoop b d k a c
    else minORLoop b d k a c

def minOR (a b c d : BitVec 64) : BitVec 64 := minORLoop b d 64 a c

/-- The loop of `maxOR` at the masks below `2 ^ k`. -/
def maxORLoop (a c : BitVec 64) : Nat → BitVec 64 → BitVec 64 → BitVec 64
  | 0, b, d => b ||| d
  | k + 1, b, d =>
    let m := 1#64 <<< k
    if b &&& d &&& m ≠ 0 then
      let temp := (b - m) ||| (m - 1)
      if a ≤ temp then temp ||| d
      else
        let temp := (d - m) ||| (m - 1)
        if c ≤ temp then b ||| temp else maxORLoop a c k b d
    else maxORLoop a c k b d

def maxOR (a b c d : BitVec 64) : BitVec 64 := maxORLoop a c 64 b d

/-- The loop of `minAND` at the masks below `2 ^ k`. -/
def minANDLoop (b d : BitVec 64) : Nat → BitVec 64 → BitVec 64 → BitVec 64
  | 0, a, c => a &&& c
  | k + 1, a, c =>
    let m := 1#64 <<< k
    if ~~~ a &&& ~~~ c &&& m ≠ 0 then
      let temp := (a ||| m) &&& -m
      if temp ≤ b then temp &&& c
      else
        let temp := (c ||| m) &&& -m
        if temp ≤ d then a &&& temp else minANDLoop b d k a c
    else minANDLoop b d k a c

def minAND (a b c d : BitVec 64) : BitVec 64 := minANDLoop b d 64 a c

/-- The loop of `maxAND` at the masks below `2 ^ k`. -/
def maxANDLoop (a c : BitVec 64) : Nat → BitVec 64 → BitVec 64 → BitVec 64
  | 0, b, d => b &&& d
  | k + 1, b, d =>
    let m := 1#64 <<< k
    if b &&& ~~~ d &&& m ≠ 0 then
      let temp := b &&& ~~~ m ||| (m - 1)
      if a ≤ temp then temp &&& d else maxANDLoop a c k b d
    else if ~~~ b &&& d &&& m ≠ 0 then
      let temp := d &&& ~~~ m ||| (m - 1)
      if c ≤ temp then b &&& temp else maxANDLoop a c k b d
    else maxANDLoop a c k b d

def maxAND (a b c d : BitVec 64) : BitVec 64 := maxANDLoop a c 64 b d

end Bounds

def sext (l : BitVec 64) (outWidth inWidth : Nat) : Option (BitVec 64) :=
  let numInvalidBits := 64 - inWidth
  Bits64.truncateToNBits ((l <<< numInvalidBits).sshiftRight numInvalidBits) outWidth

structure ValueRange where
  mMin : BitVec 64 := 1
  mMax : BitVec 64 := 0
deriving DecidableEq, Repr

namespace ValueRange

/-- `ValueRange(value)` -/
def fixed (value : BitVec 64) : ValueRange := ⟨value, value⟩

variable (r b : ValueRange)

def isEmpty : Bool := r.mMax < r.mMin

def isFixed : Bool := r.mMin == r.mMax

def setIntersection : ValueRange :=
  ⟨if r.mMin < b.mMin then b.mMin else r.mMin, if b.mMax < r.mMax then b.mMax else r.mMax⟩

def setUnion : ValueRange :=
  ⟨if b.mMin < r.mMin then b.mMin else r.mMin, if r.mMax < b.mMax then b.mMax else r.mMax⟩

def intersects : Bool := !(r.setIntersection b).isEmpty

def isFullRange (bits : Nat) : Option Bool :=
  if r.mMin = 0 then do return r.mMax == (← Bits64.maxValueOfNBits bits) else some false

def setDifference : ValueRange :=
  if b.isEmpty ∨ r.mMax < b.mMin ∨ b.mMax < r.mMin then r
  else if b.mMin ≤ r.mMin ∧ r.mMax ≤ b.mMax then ⟨1, 0⟩
  else if b.mMin ≤ r.mMin then ⟨b.mMax + 1, r.mMax⟩
  else if r.mMax ≤ b.mMax then ⟨r.mMin, b.mMin - 1⟩
  else ⟨r.mMin, b.mMin - 1⟩

def binaryAnd : Option ValueRange :=
  if r.isEmpty ∨ b.isEmpty then none
  else if r.isFixed ∧ b.isFixed then some (fixed (r.mMin &&& b.mMin))
  else some ⟨minAND r.mMin r.mMax b.mMin b.mMax, maxAND r.mMin r.mMax b.mMin b.mMax⟩

def binaryOr : Option ValueRange :=
  if r.isEmpty ∨ b.isEmpty then none
  else if r.isFixed ∧ b.isFixed then some (fixed (r.mMin ||| b.mMin))
  else some ⟨minOR r.mMin r.mMax b.mMin b.mMax, maxOR r.mMin r.mMax b.mMin b.mMax⟩

/-- The loop of `binaryXor`, which never ends at 0. A value has at most 64 bits to remove. -/
def highestBit : Nat → BitVec 64 → Option (BitVec 64)
  | 0, _ => none
  | fuel + 1, t =>
    if Bits64.isPowerOfTwo t then some t else highestBit fuel (Bits64.withoutRightmostBit t)

def binaryXor : Option ValueRange :=
  if r.isFixed ∧ b.isFixed then some (fixed (r.mMin ^^^ b.mMin))
  else do
    let t ← highestBit 64 (r.mMax ||| b.mMax)
    return ⟨0, t <<< 1 - 1⟩

def binaryShiftLeft (bits : Nat) : Option ValueRange :=
  if bits < 64 then some ⟨r.mMin <<< bits, r.mMax <<< bits⟩ else none

def binaryShiftRight (bits : Nat) : Option ValueRange :=
  if bits < 64 then some ⟨r.mMin >>> bits, r.mMax >>> bits⟩ else none

def concat (bits : Nat) : Option ValueRange := do (← r.binaryShiftLeft bits).binaryOr b

def extract (lowBit maxBit : Nat) : Option ValueRange := do
  (← r.binaryShiftRight lowBit).binaryAnd (fixed (← Bits64.maxValueOfNBits (maxBit - lowBit)))

def full (width : Nat) : Option ValueRange := do return ⟨0, ← Bits64.maxValueOfNBits width⟩

def add (_r _b : ValueRange) (width : Nat) : Option ValueRange := full width
def sub (_r _b : ValueRange) (width : Nat) : Option ValueRange := full width
def mul (_r _b : ValueRange) (width : Nat) : Option ValueRange := full width
def udiv (_r _b : ValueRange) (width : Nat) : Option ValueRange := full width
def sdiv (_r _b : ValueRange) (width : Nat) : Option ValueRange := full width
def urem (_r _b : ValueRange) (width : Nat) : Option ValueRange := full width
def srem (_r _b : ValueRange) (width : Nat) : Option ValueRange := full width

/-- `mustEqual(const std::uint64_t b)` -/
def mustEqualValue (value : BitVec 64) : Bool := r.mMin == r.mMax && r.mMin == value

def mustEqual : Bool := r.isFixed && b.isFixed && r.mMin == b.mMin

def mayEqual : Bool := r.intersects b

def min : Option (BitVec 64) := if r.isEmpty then none else some r.mMin

def max : Option (BitVec 64) := if r.isEmpty then none else some r.mMax

/-- The assertion of `minSigned` and `maxSigned`, which shift the bounds by `bits`. -/
def isWithin (bits : Nat) : Bool := bits < 64 && r.mMin >>> bits == 0 && r.mMax >>> bits == 0

def minSigned (bits : Nat) : Option (BitVec 64) :=
  if r.isWithin bits then
    let smallest := 1#64 <<< (bits - 1)
    if smallest ≤ r.mMax then sext smallest 64 bits else some r.mMin
  else none

def maxSigned (bits : Nat) : Option (BitVec 64) :=
  if r.isWithin bits then
    let smallest := 1#64 <<< (bits - 1)
    if r.mMin < smallest ∧ smallest ≤ r.mMax then some (smallest - 1) else sext r.mMax 64 bits
  else none

end ValueRange

end Klee

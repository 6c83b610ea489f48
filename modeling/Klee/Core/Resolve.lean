import Klee.Core.MemoryMap
import Klee.Solver.TimingSolver

/-! `AddressSpace::resolveOne` and `AddressSpace::resolve`: the objects that a pointer may point
into. -/
namespace Klee

namespace MemoryObject

variable (mo : MemoryObject)

def getBaseExpr : Expr := .constant ⟨64, mo.address⟩

def getSizeExpr : Expr := .constant ⟨64, BitVec.ofNat 64 mo.size⟩

def getOffsetExpr (pointer : Expr) : Expr := SubExpr.create pointer mo.getBaseExpr

def getBoundsCheckOffset (offset : Expr) : Expr :=
  if mo.size = 0 then EqExpr.create offset (.constant ⟨64, 0⟩)
  else UltExpr.create offset mo.getSizeExpr

def getBoundsCheckPointer (pointer : Expr) : Expr :=
  mo.getBoundsCheckOffset (mo.getOffsetExpr pointer)

end MemoryObject

namespace MemoryMap

/-- The objects before `upper_bound`, from the last one down. -/
def downFrom (objects : MemoryMap) (address : BitVec 64) : List ObjectPair :=
  (objects.takeWhile fun p => p.1.address ≤ address).reverse

/-- The objects from `upper_bound` on. -/
def upFrom (objects : MemoryMap) (address : BitVec 64) : List ObjectPair :=
  objects.dropWhile fun p => p.1.address ≤ address

variable (solver : TimingSolver) (constraints : List Expr) (p : Expr)

section ResolveOne

/-! With none for a timeout, and some none for no object. -/

def resolveOneDown : List ObjectPair → Option (Option ObjectPair)
  | [] => some none
  | op :: ops => do
    let mayBeTrue ← solver.mayBeTrue constraints (op.1.getBoundsCheckPointer p)
    if mayBeTrue then return some op
    else
      let mustBeTrue ← solver.mustBeTrue constraints (UgeExpr.create p op.1.getBaseExpr)
      if mustBeTrue then return none else resolveOneDown ops

def resolveOneUp : List ObjectPair → Option (Option ObjectPair)
  | [] => some none
  | op :: ops => do
    let mustBeTrue ← solver.mustBeTrue constraints (UltExpr.create p op.1.getBaseExpr)
    if mustBeTrue then return none
    else
      let mayBeTrue ← solver.mayBeTrue constraints (op.1.getBoundsCheckPointer p)
      if mayBeTrue then return some op else resolveOneUp ops

def holdingExample (objects : MemoryMap) (ex : BitVec 64) : Option ObjectPair :=
  (objects.lookupPrevious ex).filter fun op => (ex - op.1.address).toNat < op.1.size

def resolveOneExpr (objects : MemoryMap) : Option (Option ObjectPair) :=
  match p with
  | .constant c => some (objects.resolveOne (c.value.setWidth 64))
  | p => do
    let cex ← solver.getValue constraints p
    let ex := cex.value.setWidth 64
    match objects.holdingExample ex with
    | some op => return some op
    | none =>
      match ← resolveOneDown solver constraints p (objects.downFrom ex) with
      | some op => return some op
      | none => resolveOneUp solver constraints p (objects.upFrom ex)

end ResolveOne

section Resolve

/-- `rl` and what is returned: 0 for a complete search, 1 for an incomplete one, 2 for one that
goes on. -/
def checkPointerInObject (op : ObjectPair) (rl : List ObjectPair) (maxResolutions : Nat) :
    Nat × List ObjectPair :=
  let inBounds := op.1.getBoundsCheckPointer p
  match solver.mayBeTrue constraints inBounds with
  | none => (1, rl)
  | some false => (2, rl)
  | some true =>
    let rl := rl ++ [op]
    if rl.length = 1 then
      match solver.mustBeTrue constraints inBounds with
      | none => (1, rl)
      | some true => (0, rl)
      | some false => (2, rl)
    else if rl.length = maxResolutions then (1, rl)
    else (2, rl)

variable (maxResolutions : Nat) (expired : ObjectPair → Bool)

/-- The search backwards: `rl`, and what is returned unless the loop is left. The time may be over
when it comes to an object. -/
def resolveDown : List ObjectPair → List ObjectPair → Option Bool × List ObjectPair
  | [], rl => (none, rl)
  | op :: ops, rl =>
    if expired op then (some true, rl)
    else
      let (incomplete, rl) := checkPointerInObject solver constraints p op rl maxResolutions
      if incomplete ≠ 2 then (some (incomplete ≠ 0), rl)
      else
        match solver.mustBeTrue constraints (UgeExpr.create p op.1.getBaseExpr) with
        | none => (some true, rl)
        | some true => (none, rl)
        | some false => resolveDown ops rl

def resolveUp : List ObjectPair → List ObjectPair → Option Bool × List ObjectPair
  | [], rl => (none, rl)
  | op :: ops, rl =>
    if expired op then (some true, rl)
    else
      match solver.mustBeTrue constraints (UltExpr.create p op.1.getBaseExpr) with
      | none => (some true, rl)
      | some true => (none, rl)
      | some false =>
        let (incomplete, rl) := checkPointerInObject solver constraints p op rl maxResolutions
        if incomplete ≠ 2 then (some (incomplete ≠ 0), rl)
        else resolveUp ops rl

/-- Whether the resolution is incomplete, and the pairs; `rl` is empty before. -/
def resolve (objects : MemoryMap) : Bool × List ObjectPair :=
  match p with
  | .constant c => (false, (objects.resolveOne (c.value.setWidth 64)).toList)
  | p =>
    match solver.getValue constraints p with
    | none => (true, [])
    | some cex =>
      let ex := cex.value.setWidth 64
      match resolveDown solver constraints p maxResolutions expired (objects.downFrom ex) [] with
      | (some incomplete, rl) => (incomplete, rl)
      | (none, rl) =>
        let (incomplete, rl) :=
          resolveUp solver constraints p maxResolutions expired (objects.upFrom ex) rl
        (incomplete.getD false, rl)

end Resolve

end MemoryMap

end Klee

import Klee.Core.ByteMemory
import Klee.Expr.Constant
import Klee.Lib.DataLayout

/-! The constants of a module: `evalConstant` and `initializeGlobalObject`. The target is
little-endian, which `evalConstant` asserts, and the types have less than `2^32` bits, so that no
width or offset wraps around. -/
namespace Klee

open LLVM

/-- A constant, with its type. A `scalar` has the value that the program gives it: an integer, a
floating-point number, an address or a constant expression. -/
inductive Constant where
  | scalar (t : LLVMType) (value : ConstantExpr)
  | zero (t : LLVMType)
  | undef (t : LLVMType)
  | array (element : LLVMType) (operands : List Constant)
  | vector (element : LLVMType) (operands : List Constant)
  | struct (packed : Bool) (fields : List LLVMType) (operands : List Constant)

namespace Constant

/-- `getType` -/
def type : Constant → LLVMType
  | scalar t _ => t
  | zero t => t
  | undef t => t
  | array element operands => .array operands.length element
  | vector element operands => .vector operands.length element
  | struct packed fields _ => .struct packed fields

def IsScalar : LLVMType → Prop
  | .integer _ => True
  | .floating _ => True
  | .pointer => True
  | _ => False

variable (dl : DataLayout)

mutual

/-- The operands are of the types of the elements, scalars are as wide as theirs, and only
aggregates are zero as a whole. -/
def WellTyped : Constant → Prop
  | scalar t value => IsScalar t ∧ value.width = dl.sizeInBits t
  | zero t => ¬ IsScalar t
  | undef _ => True
  | array element operands => (∀ t ∈ operands.map type, t = element) ∧ AllWellTyped operands
  | vector element operands => (∀ t ∈ operands.map type, t = element) ∧ AllWellTyped operands
  | struct _ fields operands => operands.map type = fields ∧ AllWellTyped operands

def AllWellTyped : List Constant → Prop
  | [] => True
  | c :: cs => WellTyped c ∧ AllWellTyped cs

end

end Constant

/-- `ConcatExpr::createN` for constants -/
def createN : List ConstantExpr → Option ConstantExpr
  | [] => none
  | [kid] => some kid
  | kid :: kids => (createN kids).map kid.concat

namespace Executor

variable (dl : DataLayout)

/-- `ConstantExpr::create(0, width)`, with the assertion that the width is positive. -/
def createZero (width : Nat) : Option ConstantExpr :=
  if width = 0 then none else some (.alloc 0 width)

/-- The kids of a struct from a field on, each with the padding that comes after it. -/
def padKids (packed : Bool) (fields : List LLVMType) : Nat → List ConstantExpr → List ConstantExpr
  | _, [] => []
  | op, kid :: kids =>
    let thisOffset := dl.elementOffset packed 0 fields op * 8
    let nextOffset := if kids.isEmpty then dl.sizeInBits (.struct packed fields)
      else dl.elementOffset packed 0 fields (op + 1) * 8
    if kid.width < nextOffset - thisOffset then
      kid :: .alloc 0 (nextOffset - thisOffset - kid.width) :: padKids packed fields (op + 1) kids
    else kid :: padKids packed fields (op + 1) kids

mutual

/-- The last of the kids is the most significant. The filters of landing pads, which may be of size
zero, are left out. -/
def evalConstant : Constant → Option ConstantExpr
  | .scalar _ value => some value
  | .zero t => createZero (dl.sizeInBits t)
  | .undef t => createZero (dl.sizeInBits t)
  | .array _ operands => (evalConstants operands).bind fun kids => createN kids.reverse
  | .vector _ operands => (evalConstants operands).bind fun kids => createN kids.reverse
  | .struct packed fields operands => (evalConstants operands).bind fun kids =>
    createN (padKids dl packed fields 0 kids).reverse

def evalConstants : List Constant → Option (List ConstantExpr)
  | [] => some []
  | c :: cs => (evalConstant c).bind fun kid => (evalConstants cs).map (kid :: ·)

end

mutual

def initializeGlobalObject : Constant → Nat → List (Nat × ConstantExpr)
  | .vector element operands, offset => initializeElements (dl.storeSize element) operands offset
  | .zero t, offset => (List.range (dl.storeSize t)).map fun i => (offset + i, .alloc 0 8)
  | .array element operands, offset => initializeElements (dl.storeSize element) operands offset
  | .struct packed fields operands, offset => initializeFields packed fields 0 operands offset
  | .undef _, _ => []
  | .scalar t value, offset => [(offset, value.zext (dl.storeSize t * 8))]

def initializeElements (elementSize : Nat) : List Constant → Nat → List (Nat × ConstantExpr)
  | [], _ => []
  | c :: cs, offset =>
    initializeGlobalObject c offset ++ initializeElements elementSize cs (offset + elementSize)

def initializeFields (packed : Bool) (fields : List LLVMType) :
    Nat → List Constant → Nat → List (Nat × ConstantExpr)
  | _, [], _ => []
  | i, c :: cs, offset =>
    initializeGlobalObject c (offset + dl.elementOffset packed 0 fields i) ++
      initializeFields packed fields (i + 1) cs offset

end

def applyWrites (writes : List (Nat × ConstantExpr)) (m : ByteMemory) : ByteMemory :=
  writes.foldl (fun m w => m.write true w.1 w.2.value) m

end Executor

end Klee

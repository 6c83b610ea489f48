import Klee.Lib.Growing
import Klee.Solver.ArraySymbols
import Klee.Solver.BuilderArith

/-! `construct` of `Z3Builder` and `STPBuilder`: the terms for expressions, with the tables of
arrays, update nodes and expressions that a builder keeps between its calls. A failed assertion
ends the run. -/
namespace Klee

open Smt Growing.Setting

abbrev Cell := List Char × BitVec 32

def SolverArray.term : SolverArray → Term Cell
  | symbol name => .array 32 8 fun i => (name, i)
  | write array index value =>
    .store array.term (.numeral 32 index.toNat) (.numeral 8 value.toNat)

class ArrayBuilder (B : Type) where
  solver : CoreSolverType
  arrHash : B → ArrayHash
  getInitialArray : B → Array → SolverArray × B

instance : ArrayBuilder Z3Builder where
  solver := .z3
  arrHash := Z3Builder.arrHash
  getInitialArray := Z3Builder.getInitialArray

instance : ArrayBuilder STPBuilder where
  solver := .stp
  arrHash := STPBuilder.arrHash
  getInitialArray := STPBuilder.getInitialArray

class BuilderOptions where
  /-- `-use-construct-hash-z3`, `-use-construct-hash-stp` -/
  useConstructHash : Bool
  /-- `-solver-optimize-divides` -/
  optimizeDivides : Bool
  /-- of `Z3Builder` -/
  autoClearConstructCache : Bool

namespace SolverBuilder

abbrev Sized := Term Cell × Nat

structure Builder (B : Type) where
  arrays : B
  updateNodeHash : List ((Array × UpdateNode) × Term Cell)
  constructed : List (Expr × Sized)

def Builder.new {B : Type} (arrays : B) : Builder B := ⟨arrays, [], []⟩

abbrev BuildM (B : Type) := StateT (Builder B) Option

variable {B : Type} [ArrayBuilder B] [BuilderOptions]

section Arrays

def getInitialArray (root : Array) : BuildM B (Term Cell) := fun b =>
  let (array, arrays) := ArrayBuilder.getInitialArray b.arrays root
  some (array.term, { b with arrays })

def getInitialRead (root : Array) (index : Nat) : BuildM B (Term Cell) := do
  let array ← getInitialArray root
  return .select array (bvConst32 32 index)

def hashUpdateNodeExpr (un : Array × UpdateNode) (un_expr : Term Cell) (b : Builder B) :
    Builder B :=
  { b with updateNodeHash := (un, un_expr) :: b.updateNodeHash }

end Arrays

section Cases

def wordsAbove (tmp : ConstantExpr) (res : Term Cell) : Term Cell :=
  if 64 < tmp.width then
    let tmp' := tmp.extract 64 (tmp.width - 64)
    let width := min 64 tmp'.width
    wordsAbove tmp' (.concat (bvConst64 width (tmp'.extract 0 width).value.toNat) res)
  else res
termination_by tmp.width
decreasing_by exact Nat.sub_lt (by omega) (by decide)

def constructConstant (ce : ConstantExpr) : Sized :=
  if ce.width = 1 then (.bool ce.isTrue, 1)
  else if ce.width ≤ 32 then (bvConst32 ce.width ce.value.toNat, ce.width)
  else if ce.width ≤ 64 then (bvConst64 ce.width ce.value.toNat, ce.width)
  else (wordsAbove ce (bvConst64 64 (ce.extract 0 64).value.toNat), ce.width)

def constructExtract (src : Term Cell) (offset width : Nat) : Term Cell :=
  if width = 1 then bvBoolExtract src offset else bvExtract src (offset + width - 1) offset

/-- Only `Z3Builder` asserts that a value gets longer. -/
def constructCast (k : CastKind) (src : Sized) (width : Nat) : BuildM B (Term Cell) :=
  let srcWidth := src.2
  match k with
  | .zext =>
    if srcWidth = 1 then return .ite src.1 (bvOne width) (bvZero width)
    else do
      require (ArrayBuilder.solver B = .z3 → srcWidth < width)
      return .concat (bvZero (width - srcWidth)) src.1
  | .sext =>
    if srcWidth = 1 then
      return .ite src.1 (bvMinusOne (ArrayBuilder.solver B) width) (bvZero width)
    else do
      require (srcWidth ≤ width)
      return .signExtend width src.1

def bvBinary (op : BvOp) (width : Nat) (left right : Term Cell) : BuildM B (Term Cell) := do
  require (left.length = width ∧ right.length = width)
  return .bvop op left right

def constructOperands (op : BvOp) (left right : BuildM B Sized) : BuildM B Sized := do
  let left ← left
  let right ← right
  require (right.2 ≠ 1)
  return (← bvBinary op right.2 left.1 right.1, right.2)

def constant64 : Expr → Option (BitVec 64)
  | .constant ce => if ce.width ≤ 64 then some (ce.value.setWidth 64) else none
  | _ => none

def constructMul (l : Expr) (left right : BuildM B Sized) : BuildM B Sized := do
  let right ← right
  require (right.2 ≠ 1)
  match ArrayBuilder.solver B, constant64 l with
  | .stp, some x => return (← ofOption (constructMulByConstant right.1 right.2 x), right.2)
  | _, _ =>
    let left ← left
    return (← bvBinary .bvmul left.2 left.1 right.1, left.2)

def constructUDiv (r : Expr) (left right : BuildM B Sized) : BuildM B Sized := do
  let left ← left
  require (left.2 ≠ 1)
  let symbolic : BuildM B Sized := do
    let right ← right
    return (← bvBinary .bvudiv right.2 left.1 right.1, right.2)
  match constant64 r with
  | some divisor =>
    if Bits64.isPowerOfTwo divisor then
      return (bvRightShift left.1 (← ofOption (Bits64.indexOfSingleBit divisor)), left.2)
    else if ArrayBuilder.solver B = .stp ∧ BuilderOptions.optimizeDivides ∧ left.2 = 32 then
      return (← ofOption (constructUDivByConstant left.1 left.2 divisor), left.2)
    else symbolic
  | none => symbolic

def constructSDiv (r : Expr) (left right : BuildM B Sized) : BuildM B Sized := do
  let left ← left
  require (left.2 ≠ 1)
  let symbolic : BuildM B Sized := do
    let right ← right
    return (← bvBinary .bvsdiv right.2 left.1 right.1, right.2)
  match ArrayBuilder.solver B, r with
  | .stp, .constant ce =>
    if BuilderOptions.optimizeDivides ∧ ce.value ≠ 1 ∧ ce.value ≠ -1 ∧ left.2 = 32 then
      return (← ofOption (constructSDivByConstant left.1 left.2 (ce.value.setWidth 64)), left.2)
    else symbolic
  | _, _ => symbolic

def constructURem (r : Expr) (left right : BuildM B Sized) : BuildM B Sized := do
  let left ← left
  require (left.2 ≠ 1)
  let symbolic : BuildM B Sized := do
    let right ← right
    return (← bvBinary .bvurem right.2 left.1 right.1, right.2)
  match constant64 r with
  | some divisor =>
    if Bits64.isPowerOfTwo divisor then do
      let bits ← ofOption (Bits64.indexOfSingleBit divisor)
      if bits = 0 then return (bvZero left.2, left.2)
      else
        require (ArrayBuilder.solver B = .z3 → bits < left.2)
        return (.concat (bvZero (left.2 - bits)) (bvExtract left.1 (bits - 1) 0), left.2)
    else if ArrayBuilder.solver B = .stp ∧ BuilderOptions.optimizeDivides ∧ left.2 = 32 then do
      let quotient ← ofOption (constructUDivByConstant left.1 left.2 divisor)
      let quot_times_divisor ← ofOption (constructMulByConstant quotient left.2 divisor)
      return (← ofOption (bvMinusExpr left.2 left.1 quot_times_divisor), left.2)
    else symbolic
  | none => symbolic

/-- `And` and `Or`: on Booleans another term. -/
def constructBitwise (op : BvOp) (onBool : Term Cell → Term Cell → Term Cell)
    (left right : BuildM B Sized) : BuildM B Sized := do
  let left ← left
  let right ← right
  if right.2 = 1 then return (onBool left.1 right.1, right.2)
  else return (.bvop op left.1 right.1, right.2)

def constructShift (shift : CoreSolverType → Term Cell → ShiftAmount Cell → Term Cell) (r : Expr)
    (left right : BuildM B Sized) : BuildM B Sized := do
  let left ← left
  require (left.2 ≠ 1)
  match r with
  | .constant ce => return (shift (ArrayBuilder.solver B) left.1 (.constant ce), left.2)
  | _ =>
    let amount ← right
    return (shift (ArrayBuilder.solver B) left.1 (.symbolic amount.1), left.2)

def constructArith (k : ArithKind) (l r : Expr) (left right : BuildM B Sized) : BuildM B Sized :=
  match k with
  | .add => constructOperands .bvadd left right
  | .sub => constructOperands .bvsub left right
  | .mul => constructMul l left right
  | .udiv => constructUDiv r left right
  | .sdiv => constructSDiv r left right
  | .urem => constructURem r left right
  | .srem => constructOperands .bvsrem left right
  | .and => constructBitwise .bvand .and left right
  | .or => constructBitwise .bvor .or left right
  | .xor => constructBitwise .bvxor (fun left right => .ite left (.not right) right) left right
  | .shl => constructShift constructShl r left right
  | .lshr => constructShift constructLShr r left right
  | .ashr => constructShift constructAShr r left right

def constructEq (l : Expr) (left right : BuildM B Sized) : BuildM B Sized := do
  let left ← left
  let right ← right
  if right.2 = 1 then
    match l with
    | .constant ce => return (if ce.isTrue then right.1 else .not right.1, 1)
    | _ => return (.eq left.1 right.1, 1)
  else return (.eq left.1 right.1, 1)

def constructCompare (cmp : BvCmp) (left right : BuildM B Sized) : BuildM B Sized := do
  let left ← left
  let right ← right
  require (right.2 ≠ 1)
  return (.bvcmp cmp left.1 right.1, 1)

def constructCmp (k : CmpKind) (l : Expr) (left right : BuildM B Sized) : BuildM B Sized :=
  match k with
  | .eq => constructEq l left right
  | .ult => constructCompare .ult left right
  | .ule => constructCompare .ule left right
  | .slt => constructCompare .slt left right
  | .sle => constructCompare .sle left right
  | .ne | .ugt | .uge | .sgt | .sge => failure

end Cases

section Construct

def insertConstructed (e : Expr) (res : Sized) (b : Builder B) : Builder B :=
  { b with constructed := (e, res) :: b.constructed }

/-- The table of `construct` around a case of `constructActual`. -/
def hashed (e : Expr) (actual : BuildM B Sized) : BuildM B Sized :=
  if BuilderOptions.useConstructHash then
    memo Builder.constructed insertConstructed e actual
  else actual

mutual

/-- `construct` with the cases of `constructActual`. -/
def construct : Expr → BuildM B Sized
  | .constant ce => return constructConstant ce
  | .notOptimized src => hashed (.notOptimized src) (construct src)
  | .read root head index => hashed (.read root head index) do
    let array ← getArrayForUpdate root head
    let index ← construct index
    return (.select array index.1, root.getRange)
  | .select cond trueExpr falseExpr => hashed (.select cond trueExpr falseExpr) do
    let c ← construct cond
    let t ← construct trueExpr
    let f ← construct falseExpr
    return (.ite c.1 t.1 f.1, f.2)
  | .concat left right => hashed (.concat left right) do
    let res ← construct right
    let l ← construct left
    return (.concat l.1 res.1, (Expr.concat left right).width)
  | .extract expr offset width => hashed (.extract expr offset width) do
    let src ← construct expr
    return (constructExtract src.1 offset width, width)
  | .cast k src width => hashed (.cast k src width) do
    let src ← construct src
    return (← constructCast k src width, width)
  | .not expr => hashed (.not expr) do
    let res ← construct expr
    return (if res.2 = 1 then .not res.1 else .bvnot res.1, res.2)
  | .arith k left right =>
    hashed (.arith k left right)
      (constructArith k left right (construct left) (construct right))
  | .cmp k left right =>
    hashed (.cmp k left right) (constructCmp k left (construct left) (construct right))

def getArrayForUpdate (root : Array) : UpdateNode → BuildM B (Term Cell)
  | .null => getInitialArray root
  | .node next index value =>
    memo Builder.updateNodeHash hashUpdateNodeExpr (root, .node next index value) do
      let array ← getArrayForUpdate root next
      let index ← construct index
      let value ← construct value
      return .store array index.1 value.1

end

def clearConstructCache (b : Builder B) : Builder B := { b with constructed := [] }

/-- `construct(e)`, which is public; `STPBuilder` always clears its table. -/
def constructExpr (e : Expr) : BuildM B (Term Cell) := do
  let res ← construct e
  if ArrayBuilder.solver B = .stp ∨ BuilderOptions.autoClearConstructCache then
    modify clearConstructCache
  return res.1

end Construct

end SolverBuilder

end Klee

import Klee.Expr.Truth
import Klee.Lib.SmtTerm

/-! The shifts of `Z3Builder` and `STPBuilder`: by a constant they become slices and
concatenations, by a term a chain of cases over all amounts. -/
namespace Klee

open Smt

inductive CoreSolverType where
  | z3
  | stp
deriving DecidableEq

namespace SolverBuilder

variable {V : Type}

section Constants

def bvConst32 (width value : Nat) : Term V := .numeral width value
def bvConst64 (width value : Nat) : Term V := .numeral width value

/-- The loop of `bvZExtConst`: `width` more bits on top of `expr`. -/
def zextWords (width : Nat) (expr : Term V) : Term V :=
  if 64 < width then zextWords (width - 64) (.concat (bvConst64 64 0) expr)
  else .concat (bvConst64 width 0) expr
termination_by width

def bvZExtConst (width value : Nat) : Term V :=
  if width ≤ 64 then bvConst64 width value else zextWords (width - 64) (bvConst64 64 value)

def bvSExtConst (s : CoreSolverType) (width value : Nat) : Term V :=
  if width ≤ 64 then bvConst64 width value
  else match s with
    | .z3 =>
      .concat (.numeral (width - 64) (if value >>> 63 ≠ 0 then -1 else 0)) (bvConst64 64 value)
    | .stp => .signExtend width (bvConst64 64 value)

def bvOne (width : Nat) : Term V := bvZExtConst width 1
def bvZero (width : Nat) : Term V := bvZExtConst width 0
/-- `(int64_t) -1` as 64 unsigned bits -/
def bvMinusOne (s : CoreSolverType) (width : Nat) : Term V := bvSExtConst s width (2 ^ 64 - 1)

end Constants

section ByConstant

def bvExtract (expr : Term V) (top bottom : Nat) : Term V := .extract top bottom expr

def bvBoolExtract (expr : Term V) (bit : Nat) : Term V :=
  .eq (bvExtract expr bit bit) (bvOne 1)

def bvRightShift (expr : Term V) (shift : Nat) : Term V :=
  let width := expr.length
  if shift = 0 then expr
  else if shift ≥ width then bvZero width
  else .concat (bvZero shift) (bvExtract expr (width - 1) shift)

def bvLeftShift (expr : Term V) (shift : Nat) : Term V :=
  let width := expr.length
  if shift = 0 then expr
  else if shift ≥ width then bvZero width
  else .concat (bvExtract expr (width - shift - 1) 0) (bvZero shift)

def constructAShrByConstant (s : CoreSolverType) (expr : Term V) (shift : Nat)
    (isSigned : Term V) : Term V :=
  let width := expr.length
  if shift = 0 then expr
  else if shift ≥ width then bvZero width
  else .ite isSigned (.concat (bvMinusOne s shift) (bvExtract expr (width - 1) shift))
    (bvRightShift expr shift)

end ByConstant

section ByTerm

/-- `extractPartialShiftValue`: the bits that a shift below the width needs. -/
def extractPartialShiftValue (shift : Term V) (width : Nat) : Term V :=
  bvExtract shift (width.size - 1) 0

/-- The test for the amount `i`. -/
def isAmount (s : CoreSolverType) (shift : Term V) (width i : Nat) : Term V :=
  match s with
  | .z3 => .eq shift (bvConst32 width i)
  | .stp => .eq (extractPartialShiftValue shift width) (bvConst32 width.size i)

/-- The loop over the amounts from `n - 1` down to 0. -/
def shiftCases (test shifted : Nat → Term V) : Nat → Term V → Term V
  | 0, res => res
  | i + 1, res => shiftCases test shifted i (.ite (test i) (shifted i) res)

def bvVarShift (s : CoreSolverType) (expr shift : Term V) (shifted : Nat → Term V) (n : Nat)
    (res : Term V) : Term V :=
  let width := expr.length
  .ite (.bvult shift (bvConst32 shift.length width))
    (shiftCases (isAmount s shift width) shifted n res) (bvZero width)

def bvVarLeftShift (s : CoreSolverType) (expr shift : Term V) : Term V :=
  bvVarShift s expr shift (bvLeftShift expr) expr.length (bvZero expr.length)

def bvVarRightShift (s : CoreSolverType) (expr shift : Term V) : Term V :=
  bvVarShift s expr shift (bvRightShift expr) expr.length (bvZero expr.length)

/-- The chain starts with the result of shifting by `width - 1`. -/
def bvVarArithRightShift (s : CoreSolverType) (expr shift : Term V) : Term V :=
  let width := expr.length
  let signedBool := bvBoolExtract expr (width - 1)
  bvVarShift s expr shift (fun i => constructAShrByConstant s expr i signedBool) (width - 1)
    (constructAShrByConstant s expr (width - 1) signedBool)

end ByTerm

inductive ShiftAmount (V : Type) where
  | constant (c : ConstantExpr)
  | symbolic (amount : Term V)

/-- `(unsigned) CE->getLimitedValue()` -/
def unsignedAmount (c : ConstantExpr) : Nat := min c.value.toNat (2 ^ 64 - 1) % 2 ^ 32

def constructShl (s : CoreSolverType) (left : Term V) : ShiftAmount V → Term V
  | .constant c => bvLeftShift left (unsignedAmount c)
  | .symbolic amount => bvVarLeftShift s left amount

def constructLShr (s : CoreSolverType) (left : Term V) : ShiftAmount V → Term V
  | .constant c => bvRightShift left (unsignedAmount c)
  | .symbolic amount => bvVarRightShift s left amount

def constructAShr (s : CoreSolverType) (left : Term V) : ShiftAmount V → Term V
  | .constant c =>
    constructAShrByConstant s left (unsignedAmount c) (bvBoolExtract left (left.length - 1))
  | .symbolic amount => bvVarArithRightShift s left amount

end SolverBuilder

end Klee

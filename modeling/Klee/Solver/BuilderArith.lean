import Klee.Solver.BuilderShifts
import Klee.Solver.ConstantDivision

/-! Multiplication and division by constants in `STPBuilder`. -/
namespace Klee.SolverBuilder

open Smt

variable {V : Type}

section Stp

/-- `vc_bvPlusExpr`: STP stops at operands of another width. -/
def bvPlusExpr (width : Nat) (a b : Term V) : Option (Term V) :=
  if a.length = width ∧ b.length = width then some (.bvop .bvadd a b) else none

def bvMinusExpr (width : Nat) (a b : Term V) : Option (Term V) :=
  if a.length = width ∧ b.length = width then some (.bvop .bvsub a b) else none

end Stp

section Mul

/-- `res + op`; nothing yet is the null handle. -/
def plusShifted (width : Nat) (res : Option (Term V)) (op : Term V) : Option (Term V) :=
  match res with
  | some res => bvPlusExpr width res op
  | none => some op

def minusShifted (width : Nat) (res : Option (Term V)) (op : Term V) : Option (Term V) :=
  match res with
  | some res => bvMinusExpr width res op
  | none => some (.bvneg op)

/-- The loop over the bits `j` from the top down. -/
def mulLoop (expr : Term V) (width : Nat) (add sub : BitVec 64) :
    Nat → Option (Term V) → Option (Option (Term V))
  | 0, res => some res
  | j + 1, res =>
    let bit := 1#64 <<< j
    if add &&& bit ≠ 0 ∨ sub &&& bit ≠ 0 then
      if add &&& bit ≠ 0 ∧ sub &&& bit ≠ 0 then none
      else
        let op := bvLeftShift expr j
        if add &&& bit ≠ 0 then
          (plusShifted width res op).bind fun res => mulLoop expr width add sub j (some res)
        else (minusShifted width res op).bind fun res => mulLoop expr width add sub j (some res)
    else mulLoop expr width add sub j res

def constructMulByConstant (expr : Term V) (width : Nat) (x : BitVec 64) : Option (Term V) := do
  let (add, sub) ← computeMultConstants64 x
  let add ← Bits64.truncateToNBits add width
  let sub ← Bits64.truncateToNBits sub width
  let res ← mulLoop expr width add sub 64 none
  return res.getD (bvZero width)

end Mul

section Div

def constructUDivByConstant (expr_n : Term V) (width : Nat) (d : BitVec 64) :
    Option (Term V) :=
  if width ≠ 32 then none
  else do
    let c ← computeUDivConstants32 (d.setWidth 32)
    let expr_n_64 : Term V := .concat (bvZero 32) expr_n
    let t1_64bits ← constructMulByConstant expr_n_64 64 (c.mprime.setWidth 64)
    let t1 := bvExtract t1_64bits 63 32
    let n_minus_t1 ← bvMinusExpr width expr_n t1
    let shift_sh1 := bvVarRightShift .stp n_minus_t1 (bvConst32 32 c.sh1.toNat)
    let plus_t1 ← bvPlusExpr width shift_sh1 t1
    return bvVarRightShift .stp plus_t1 (bvConst32 32 c.sh2.toNat)

def constructSDivByConstant (expr_n : Term V) (width : Nat) (d : BitVec 64) :
    Option (Term V) :=
  if width ≠ 32 then none
  else do
    let c ← computeSDivConstants32 (d.setWidth 32)
    let expr_dsign : Term V := bvConst32 32 c.dsign.toNat
    let expr_n_64 : Term V := .signExtend 64 expr_n
    let mult_64 ← constructMulByConstant expr_n_64 64 (c.mprime.signExtend 64)
    let mulsh := bvExtract mult_64 63 32
    let n_plus_mulsh ← bvPlusExpr width expr_n mulsh
    let extend_npm : Term V := .signExtend 64 n_plus_mulsh
    let shift_npm := bvVarRightShift .stp extend_npm (bvConst32 32 c.shpost.toNat)
    let shift_shpost := bvExtract shift_npm 31 0
    let is_signed := bvBoolExtract expr_n 31
    let xsign_of_n : Term V := .ite is_signed (bvMinusOne .stp 32) (bvZero 32)
    let q0 ← bvMinusExpr width shift_shpost xsign_of_n
    bvMinusExpr width (.bvop .bvxor q0 expr_dsign) expr_dsign

end Div

end Klee.SolverBuilder

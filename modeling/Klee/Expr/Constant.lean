import Klee.Expr.Eval

/-! Folding of constants, as the methods of `ConstantExpr` do it on `APInt`. The second
operand of a binary method has the width of the first. -/
namespace Klee.ConstantExpr

def alloc (v : Nat) (w : Nat) : ConstantExpr := ⟨w, BitVec.ofNat w v⟩

def isZero (c : ConstantExpr) : Bool := c.value == 0
/-- `getLimitedValue() == 1` -/
def isOne (c : ConstantExpr) : Bool := c.value.toNat == 1
def isTrue (c : ConstantExpr) : Bool := c.width == 1 && c.value != 0
def isFalse (c : ConstantExpr) : Bool := c.width == 1 && c.value == 0
def isAllOnes (c : ConstantExpr) : Bool := c.value == BitVec.allOnes c.width

/-- `Concat`: widen, shift the left part up, or the right part in. -/
def concat (l r : ConstantExpr) : ConstantExpr :=
  let w := l.width + r.width
  ⟨w, l.value.setWidth w <<< r.width ||| r.value.setWidth w⟩

/-- `Extract`: an arithmetic shift, then the low `w` bits. -/
def extract (c : ConstantExpr) (off : Nat) (w : Nat) : ConstantExpr :=
  ⟨w, (c.value.sshiftRight off).setWidth w⟩

def zext (c : ConstantExpr) (w : Nat) : ConstantExpr := ⟨w, c.value.setWidth w⟩
def sext (c : ConstantExpr) (w : Nat) : ConstantExpr := ⟨w, c.value.signExtend w⟩
def not (c : ConstantExpr) : ConstantExpr := ⟨c.width, ~~~ c.value⟩

/-- The shape of `Add` to `AShr`: the method of `APInt` for the operator. -/
def arith (op : {w : Nat} → BitVec w → BitVec w → BitVec w) (l r : ConstantExpr) :
    ConstantExpr := ⟨l.width, op l.value (r.value.setWidth l.width)⟩

def add := arith ArithKind.add.denote
def sub := arith ArithKind.sub.denote
def mul := arith ArithKind.mul.denote
def udiv := arith ArithKind.udiv.denote
def sdiv := arith ArithKind.sdiv.denote
def urem := arith ArithKind.urem.denote
def srem := arith ArithKind.srem.denote
def and := arith ArithKind.and.denote
def or := arith ArithKind.or.denote
def xor := arith ArithKind.xor.denote
def shl := arith ArithKind.shl.denote
def lshr := arith ArithKind.lshr.denote
def ashr := arith ArithKind.ashr.denote

/-- The shape of `Eq` to `Sle`: comparisons return a constant of width 1. -/
def cmp (op : {w : Nat} → BitVec w → BitVec w → Bool) (l r : ConstantExpr) :
    ConstantExpr := ⟨1, BitVec.ofBool (op l.value (r.value.setWidth l.width))⟩

def eq := cmp (· == ·)
def ult := cmp BitVec.ult
def ule := cmp BitVec.ule
def slt := cmp BitVec.slt
def sle := cmp BitVec.sle

@[simp] theorem width_alloc (v : Nat) (w : Nat) : (alloc v w).width = w := rfl
@[simp] theorem width_arith (op : {w : Nat} → BitVec w → BitVec w → BitVec w)
    (l r : ConstantExpr) : (arith op l r).width = l.width := rfl

end Klee.ConstantExpr

import Klee.Expr.Basic
import Klee.Lib.BitVecFacts

/-! The bit-vector meaning of expressions. An expression is read at an explicit width,
so that no cast between equal widths is ever needed; on a well-sorted expression
that width is its own. -/
namespace Klee

abbrev Assignment := Array → Nat → BitVec 8

/-- The byte an array holds before any update. Reads past the end of an array yield 0,
as in `ExprEvaluator::evalRead` and `Assignment::evaluate`. -/
def Array.initial (σ : Assignment) (a : Array) (i : Nat) : BitVec 8 :=
  if a.isConstantArray then a.constantValues.getD i 0
  else if i < a.size then σ a i else 0

/-- The operators of SMT-LIB; a shift past the width follows `APInt`, which agrees. -/
def ArithKind.operator {w : Nat} : ArithKind → BitVec w → BitVec w → BitVec w
  | add, x, y => x + y
  | sub, x, y => x - y
  | mul, x, y => x * y
  | udiv, x, y => x.smtUDiv y
  | sdiv, x, y => x.smtSDiv y
  | urem, x, y => x % y
  | srem, x, y => x.srem y
  | and, x, y => x &&& y
  | or, x, y => x ||| y
  | xor, x, y => x ^^^ y
  | shl, x, y => x <<< y
  | lshr, x, y => x >>> y
  | ashr, x, y => x.sshiftRight' y

/-- The value of an operator. Division by zero is undefined in the program. Its value here
is that of SMT-LIB, except on Booleans, which are always taken to be divided by 1. -/
def ArithKind.denote {w : Nat} : ArithKind → BitVec w → BitVec w → BitVec w
  | udiv, x, y => if w = 1 then x else x.smtUDiv y
  | sdiv, x, y => if w = 1 then x else x.smtSDiv y
  | urem, x, y => if w = 1 then 0 else x % y
  | srem, x, y => if w = 1 then 0 else x.srem y
  | k, x, y => k.operator x y

/-- The operands for which an operator is defined: a non-zero divisor, and a shift amount
below the width. -/
def ArithKind.Defined {w : Nat} : ArithKind → BitVec w → Prop
  | udiv, y | sdiv, y | urem, y | srem, y => y ≠ 0
  | shl, y | lshr, y | ashr, y => y.toNat < w
  | _, _ => True

theorem ArithKind.denote_of_defined {w : Nat} (k : ArithKind) (x y : BitVec w)
    (h : k.Defined y) : k.denote x y = k.operator x y := by
  by_cases hw : w = 1
  · subst hw
    cases k with
    | udiv => exact (BitVec.smtUDiv_one_bit x y h).symm
    | sdiv => exact (BitVec.smtSDiv_one_bit x y h).symm
    | urem => exact (BitVec.umod_one_bit x y h).symm
    | srem => exact (BitVec.srem_one_bit x y h).symm
    | _ => rfl
  · cases k <;> first | rfl | exact if_neg hw

def CmpKind.denote {w : Nat} : CmpKind → BitVec w → BitVec w → Bool
  | eq, x, y => x == y
  | ne, x, y => x != y
  | ult, x, y => x.ult y
  | ule, x, y => x.ule y
  | ugt, x, y => y.ult x
  | uge, x, y => y.ule x
  | slt, x, y => x.slt y
  | sle, x, y => x.sle y
  | sgt, x, y => y.slt x
  | sge, x, y => y.sle x

def CastKind.denote {v : Nat} : CastKind → BitVec v → (w : Nat) → BitVec w
  | zext, x, w => x.setWidth w
  | sext, x, w => x.signExtend w

mutual

/-- The value of an expression read at width `w`. -/
def Expr.eval (σ : Assignment) : Expr → (w : Nat) → BitVec w
  | .constant c, w => c.value.setWidth w
  | .notOptimized e, w => e.eval σ w
  | .read root head index, w => (head.eval σ root (index.eval σ 32)).setWidth w
  | .select c t f, w => if c.eval σ 1 = 1#1 then t.eval σ w else f.eval σ w
  | .concat l r, w => (l.eval σ l.width ++ r.eval σ r.width).setWidth w
  | .extract e off _, w => (e.eval σ e.width).extractLsb' off w
  | .cast k e _, w => k.denote (e.eval σ e.width) w
  | .not e, w => ~~~ e.eval σ w
  | .arith k l r, w => k.denote (l.eval σ w) (r.eval σ w)
  | .cmp k l r, w => (BitVec.ofBool (k.denote (l.eval σ l.width) (r.eval σ l.width))).setWidth w

/-- The byte at index `i` after the updates: the most recent update of `i` wins. -/
def UpdateNode.eval (σ : Assignment) (root : Array) : UpdateNode → BitVec 32 → BitVec 8
  | .null, i => root.initial σ i.toNat
  | .node next index value, i =>
      if index.eval σ 32 = i then value.eval σ 8 else next.eval σ root i

end

mutual

def Expr.WellSorted : Expr → Prop
  | .constant c => 0 < c.width
  | .notOptimized e => e.WellSorted
  | .read _ head index => head.WellSorted ∧ index.WellSorted ∧ index.width = 32
  | .select c t f =>
      (c.WellSorted ∧ c.width = 1) ∧ t.WellSorted ∧ f.WellSorted ∧ f.width = t.width
  | .concat l r => l.WellSorted ∧ r.WellSorted
  | .extract e off w => e.WellSorted ∧ 0 < w ∧ off + w ≤ e.width
  | .cast _ e w => e.WellSorted ∧ e.width ≤ w
  | .not e => e.WellSorted
  | .arith _ l r => l.WellSorted ∧ r.WellSorted ∧ r.width = l.width
  | .cmp _ l r => l.WellSorted ∧ r.WellSorted ∧ r.width = l.width

def UpdateNode.WellSorted : UpdateNode → Prop
  | .null => True
  | .node next index value =>
      next.WellSorted ∧ (index.WellSorted ∧ index.width = 32) ∧
        (value.WellSorted ∧ value.width = 8)

end

mutual

/-- Every read of a constant array without updates inside `e` is within the array
under `σ`. Only the optimisation behind `-const-array-opt` relies on it. -/
def Expr.ConstReadsInBounds (σ : Assignment) : Expr → Prop
  | .constant _ => True
  | .notOptimized e => e.ConstReadsInBounds σ
  | .read root head index => head.ConstReadsInBounds σ ∧ index.ConstReadsInBounds σ ∧
      (root.isConstantArray = true → head = .null → (index.eval σ 32).toNat < root.size)
  | .select c t f =>
      c.ConstReadsInBounds σ ∧ t.ConstReadsInBounds σ ∧ f.ConstReadsInBounds σ
  | .concat l r => l.ConstReadsInBounds σ ∧ r.ConstReadsInBounds σ
  | .extract e _ _ => e.ConstReadsInBounds σ
  | .cast _ e _ => e.ConstReadsInBounds σ
  | .not e => e.ConstReadsInBounds σ
  | .arith _ l r => l.ConstReadsInBounds σ ∧ r.ConstReadsInBounds σ
  | .cmp _ l r => l.ConstReadsInBounds σ ∧ r.ConstReadsInBounds σ

def UpdateNode.ConstReadsInBounds (σ : Assignment) : UpdateNode → Prop
  | .null => True
  | .node next index value => next.ConstReadsInBounds σ ∧
      index.ConstReadsInBounds σ ∧ value.ConstReadsInBounds σ

end

section Equations

-- generates the equations here, once, by which the later modules unfold these functions
attribute [local simp] Expr.width Expr.eval UpdateNode.eval Expr.WellSorted UpdateNode.WellSorted
  Expr.ConstReadsInBounds UpdateNode.ConstReadsInBounds

theorem Expr.width_pos : ∀ e : Expr, e.WellSorted → 0 < e.width
  | .constant _, h => h
  | .notOptimized e, h => e.width_pos h
  | .read _ _ _, _ => by simp [Array.getRange]
  | .select _ t _, h => t.width_pos h.2.1
  | .concat l _, h => Nat.add_pos_left (l.width_pos h.1) _
  | .extract _ _ _, h => h.2.1
  | .cast _ e _, h => (e.width_pos h.1).trans_le h.2
  | .not e, h => e.width_pos h
  | .arith _ l _, h => l.width_pos h.1
  | .cmp _ _ _, _ => Nat.one_pos

end Equations

end Klee

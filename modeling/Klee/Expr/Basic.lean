import Mathlib.Data.List.Basic
import Mathlib.Data.BitVec

/-! Expressions, arrays and update lists as `Expr.h` declares them.
Every array of the program comes from `ArrayCache::CreateArray` with its default
domain (32 bits) and range (8 bits), so both are constants here. The type of an expression
is its width, a number of bits. -/
namespace Klee

/-- The command-line switches that the expression library reads, at their defaults. -/
class ExprOptions where
  /-- `-const-array-opt` -/
  constArrayOpt : Bool := false

export ExprOptions (constArrayOpt)

structure ConstantExpr where
  width : Nat
  value : BitVec width
deriving DecidableEq, Repr

/-- An `Array` object. `id` is its identity (its address): two arrays may share
name and contents. The last two fields are the assertions of the constructor. -/
structure Array where
  id : Nat
  name : String
  size : Nat
  constantValues : List (BitVec 8)
  size_lt : size < 2 ^ 32
  size_eq : constantValues = [] ∨ constantValues.length = size
deriving DecidableEq

namespace Array

def symbolic (id : Nat) (name : String) (size : BitVec 32) : Array :=
  ⟨id, name, size.toNat, [], size.isLt, .inl rfl⟩

def getDomain (_ : Array) : Nat := 32
def getRange (_ : Array) : Nat := 8

def isSymbolicArray (a : Array) : Bool := a.constantValues.isEmpty
def isConstantArray (a : Array) : Bool := !a.isSymbolicArray

theorem isConstantArray_iff (a : Array) :
    a.isConstantArray = true ↔ a.constantValues ≠ [] := by
  simp [isConstantArray, isSymbolicArray]

theorem length_constantValues {a : Array} (h : a.isConstantArray = true) :
    a.constantValues.length = a.size :=
  a.size_eq.resolve_left ((isConstantArray_iff a).mp h)

end Array

inductive CastKind where
  | zext
  | sext
deriving DecidableEq, Repr

inductive ArithKind where
  | add | sub | mul | udiv | sdiv | urem | srem
  | and | or | xor | shl | lshr | ashr
deriving DecidableEq, Repr

inductive CmpKind where
  | eq | ne | ult | ule | ugt | uge | slt | sle | sgt | sge
deriving DecidableEq, Repr

mutual

/-- One constructor for each class of `Expr.h`; the classes that the macros
`CAST_EXPR_CLASS`, `ARITHMETIC_EXPR_CLASS` and `COMPARISON_EXPR_CLASS` stamp out
share one constructor with their kind. -/
inductive Expr where
  | constant (c : ConstantExpr)
  | notOptimized (src : Expr)
  | read (root : Array) (head : UpdateNode) (index : Expr)
  | select (cond trueExpr falseExpr : Expr)
  | concat (left right : Expr)
  | extract (expr : Expr) (offset : Nat) (width : Nat)
  | cast (kind : CastKind) (src : Expr) (width : Nat)
  | not (expr : Expr)
  | arith (kind : ArithKind) (left right : Expr)
  | cmp (kind : CmpKind) (left right : Expr)
deriving DecidableEq

inductive UpdateNode where
  | null
  | node (next : UpdateNode) (index value : Expr)
deriving DecidableEq

end

namespace Expr

@[match_pattern] abbrev zext (src : Expr) (w : Nat) := cast .zext src w
@[match_pattern] abbrev sext (src : Expr) (w : Nat) := cast .sext src w
@[match_pattern] abbrev add (l r : Expr) := arith .add l r
@[match_pattern] abbrev sub (l r : Expr) := arith .sub l r
@[match_pattern] abbrev mul (l r : Expr) := arith .mul l r
@[match_pattern] abbrev and (l r : Expr) := arith .and l r
@[match_pattern] abbrev or (l r : Expr) := arith .or l r
@[match_pattern] abbrev xor (l r : Expr) := arith .xor l r
@[match_pattern] abbrev eq (l r : Expr) := cmp .eq l r

/-- `getWidth` -/
def width : Expr → Nat
  | constant c => c.width
  | notOptimized e => e.width
  | read root _ _ => root.getRange
  | select _ t _ => t.width
  | concat l r => l.width + r.width
  | extract _ _ w => w
  | cast _ _ w => w
  | not e => e.width
  | arith _ l _ => l.width
  | cmp _ _ _ => 1

def isConstant : Expr → Bool
  | constant _ => true
  | _ => false

@[simp] theorem isConstant_constant (c : ConstantExpr) : (constant c).isConstant = true := rfl

theorem isConstant_iff (e : Expr) : e.isConstant = true ↔ ∃ c, e = constant c := by
  cases e <;> simp [isConstant]

theorem isConstant_eq_false_iff (e : Expr) :
    e.isConstant = false ↔ ∀ c, e ≠ constant c := by
  cases e <;> simp [isConstant]

end Expr

structure UpdateList where
  root : Array
  head : UpdateNode
deriving DecidableEq

namespace UpdateNode

@[induction_eliminator]
theorem chainInduction {motive : UpdateNode → Prop} (null : motive null)
    (node : ∀ next index value, motive next → motive (node next index value)) :
    ∀ un : UpdateNode, motive un
  | .null => null
  | .node next index value => node next index value (chainInduction null node next)

/-- `getSize` -/
def size : UpdateNode → Nat
  | null => 0
  | node next _ _ => next.size + 1

end UpdateNode

end Klee

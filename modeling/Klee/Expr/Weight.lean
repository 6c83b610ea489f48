import Klee.Expr.Truth

/-! A weight that no smart constructor increases. It bounds the work of everything that
rebuilds expressions until nothing changes. -/
namespace Klee

mutual

/-- The weights of the operators are ordered so that each rewriting of the constructors,
such as `0 == (a | b)` to `(0 == a) & (0 == b)`, does not increase the sum. -/
def Expr.weight : Expr → Nat
  | .constant _ => 1
  | .notOptimized e => e.weight + 1
  | .read _ head index => head.weight + index.weight + 2
  | .select c t f => c.weight + t.weight + f.weight + 3
  | .concat l r => l.weight + r.weight + 1
  | .extract e _ _ => 2 * e.weight
  | .cast _ e _ => 2 * e.weight
  | .not e => e.weight + 1
  | .arith .and l r => l.weight + r.weight + 1
  | .arith .or l r => l.weight + r.weight + 2
  | .arith _ l r => l.weight + r.weight + 3
  | .cmp .eq (.constant _) r => r.weight + 1
  | .cmp .eq l r => l.weight + r.weight + 1
  | .cmp _ l r => l.weight + r.weight + 3

def UpdateNode.weight : UpdateNode → Nat
  | .null => 0
  | .node next index value => next.weight + index.weight + value.weight

end

namespace UpdateNode

@[simp] theorem weight_null : null.weight = 0 := rfl
@[simp] theorem weight_node (next : UpdateNode) (index value : Expr) :
    (node next index value).weight = next.weight + index.weight + value.weight := rfl

end UpdateNode

namespace Expr

variable (c : ConstantExpr) (e l r t f index : Expr) (root : Array) (head : UpdateNode)

@[simp] theorem weight_constant : (constant c).weight = 1 := rfl
@[simp] theorem weight_notOptimized : (notOptimized e).weight = e.weight + 1 := rfl
@[simp] theorem weight_read :
    (read root head index).weight = head.weight + index.weight + 2 := rfl
@[simp] theorem weight_select : (select e t f).weight = e.weight + t.weight + f.weight + 3 := rfl
@[simp] theorem weight_concat : (concat l r).weight = l.weight + r.weight + 1 := rfl
@[simp] theorem weight_extract (off w : Nat) : (extract e off w).weight = 2 * e.weight := rfl
@[simp] theorem weight_cast (k : CastKind) (w : Nat) : (cast k e w).weight = 2 * e.weight := rfl
@[simp] theorem weight_not : (not e).weight = e.weight + 1 := rfl
@[simp] theorem weight_and : (and l r).weight = l.weight + r.weight + 1 := rfl
@[simp] theorem weight_or : (or l r).weight = l.weight + r.weight + 2 := rfl
@[simp] theorem weight_add : (add l r).weight = l.weight + r.weight + 3 := rfl
@[simp] theorem weight_sub : (sub l r).weight = l.weight + r.weight + 3 := rfl
@[simp] theorem weight_eq_constant : (eq (constant c) r).weight = r.weight + 1 := rfl

theorem weight_pos : ∀ e : Expr, 0 < e.weight
  | constant _ => Nat.one_pos
  | notOptimized _ => Nat.succ_pos _
  | read _ _ _ => Nat.succ_pos _
  | select _ _ _ => Nat.succ_pos _
  | concat _ _ => Nat.succ_pos _
  | extract e _ _ => Nat.mul_pos Nat.two_pos (weight_pos e)
  | cast _ e _ => Nat.mul_pos Nat.two_pos (weight_pos e)
  | not _ => Nat.succ_pos _
  | arith k _ _ => by cases k <;> exact Nat.succ_pos _
  | cmp k l _ => by cases k <;> cases l <;> exact Nat.succ_pos _

theorem weight_eq_le : (eq l r).weight ≤ l.weight + r.weight + 1 := by
  cases l with
  | constant c => rw [weight_eq_constant]; omega
  | _ => exact le_rfl

theorem weight_eq_of_not_constant (h : ∀ c, l ≠ constant c) :
    (eq l r).weight = l.weight + r.weight + 1 := by
  cases l with
  | constant c => exact (h c rfl).elim
  | _ => rfl

/-- Every operator adds a fixed amount to the weights of its operands. -/
theorem exists_weight_arith (k : ArithKind) :
    ∃ n, ∀ l r, (arith k l r).weight = l.weight + r.weight + n := by
  cases k
  case and => exact ⟨1, fun _ _ => rfl⟩
  case or => exact ⟨2, fun _ _ => rfl⟩
  all_goals exact ⟨3, fun _ _ => rfl⟩

theorem weight_arith_le (k : ArithKind) : (arith k l r).weight ≤ l.weight + r.weight + 3 := by
  cases k
  case and => rw [weight_and]; omega
  case or => rw [weight_or]; omega
  all_goals exact le_rfl

theorem weight_cmp (k : CmpKind) (h : k ≠ .eq) :
    (cmp k l r).weight = l.weight + r.weight + 3 := by
  cases k <;> first | rfl | exact (h rfl).elim

end Expr

end Klee

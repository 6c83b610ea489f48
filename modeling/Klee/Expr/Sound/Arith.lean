import Klee.Expr.Sound.Linear

/-! Soundness of the other arithmetic operators and of the comparisons. Above one bit they
only fold constants; on Booleans each becomes a logical operator. -/
namespace Klee

variable [ExprOptions] {s : Option Assignment} {l r : Expr} {w : Nat}

section Mul

theorem mulPartialR_denotes {x y : BitVec w} (hw : 0 < w) (hr : Denotes s r w y) :
    Denotes s (mulExprCreatePartialR ⟨w, x⟩ r) w (x * y) := by
  unfold mulExprCreatePartialR
  split_ifs with h1 hone h0
  · obtain rfl : w = 1 := h1
    exact (andPartialR_denotes (.constant hw) hr).congr fun _ => BitVec.and_eq_mul x y
  · have hx : x = 1#w := by
      apply BitVec.eq_of_toNat_eq
      have hone : x.toNat = 1 := by simpa [ConstantExpr.isOne] using hone
      have hlt := x.isLt
      rw [BitVec.toNat_ofNat, Nat.mod_eq_of_lt (by omega), hone]
    exact hr.congr fun _ => by rw [hx, BitVec.one_mul]
  · simp only [ConstantExpr.isZero, beq_iff_eq] at h0
    refine (Denotes.constant hw).congr fun _ => ?_
    rw [h0, BitVec.ofNat_eq_ofNat, BitVec.zero_mul]
  · exact (Denotes.constant hw).arith .mul hr

theorem mulExprCreate_denotes {x y : BitVec w} (hl : Denotes s l w x) (hr : Denotes s r w y) :
    Denotes s (mulExprCreate l r) w (x * y) := by
  unfold mulExprCreate
  split_ifs with h1
  · obtain rfl : w = 1 := hl.width_eq.symm.trans h1
    exact (hl.arith .and hr).congr fun _ => BitVec.and_eq_mul x y
  · exact hl.arith .mul hr

theorem MulExpr.create_denotes {x y : BitVec w} (hl : Denotes s l w x) (hr : Denotes s r w y) :
    Denotes s (MulExpr.create l r) w (x * y) := by
  refine bcreateR_denotes hl hr (fun a b ha hb => ?_) (fun b hb => ?_) (fun a ha => ?_)
    (mulExprCreate_denotes hl hr)
  · exact constant_arith_denotes .mul hl.width_pos ha hb
  · refine (mulPartialR_denotes hl.width_pos hl).congr fun hs => ?_
    rw [hb hs, BitVec.mul_comm]
  · exact (mulPartialR_denotes hl.width_pos hr).congr fun hs => by rw [ha hs]

end Mul

section DivShift

/-- The shape of `UDiv` to `AShr`: constants fold, and Booleans need an argument `h1`. -/
theorem bcreate_arith_denotes {op : ConstantExpr → ConstantExpr → ConstantExpr}
    {create : Expr → Expr → Expr} (k : ArithKind) {x y : BitVec w} (hl : Denotes s l w x)
    (hr : Denotes s r w y) (hop : op = ConstantExpr.arith k.denote)
    (hc : Denotes s (create l r) w (k.denote x y)) :
    Denotes s (bcreate op create l r) w (k.denote x y) := by
  refine bcreate_denotes hl hr (fun a b ha hb => ?_) hc
  rw [hop]
  exact constant_arith_denotes k hl.width_pos ha hb

/-- On Booleans a quotient is its dividend. -/
theorem divExprCreate_denotes (k : ArithKind) {x y : BitVec w} (hl : Denotes s l w x)
    (hr : Denotes s r w y) (hk : ∀ x y : BitVec 1, k.denote x y = x) :
    Denotes s (divExprCreate k l r) w (k.denote x y) := by
  unfold divExprCreate
  split_ifs with h1
  · obtain rfl : w = 1 := hl.width_eq.symm.trans h1
    exact hl.congr fun _ => (hk x y).symm
  · exact hl.arith k hr

/-- On Booleans a remainder is 0. -/
theorem remExprCreate_denotes (k : ArithKind) {x y : BitVec w} (hl : Denotes s l w x)
    (hr : Denotes s r w y) (hk : ∀ x y : BitVec 1, k.denote x y = 0) :
    Denotes s (remExprCreate k l r) w (k.denote x y) := by
  unfold remExprCreate
  split_ifs with h1
  · obtain rfl : w = 1 := hl.width_eq.symm.trans h1
    exact (Denotes.constant Nat.one_pos).congr fun _ => (hk x y).symm
  · exact hl.arith k hr

/-- On Booleans `l & !r` is both shifts. -/
theorem shiftExprCreate_denotes (k : ArithKind) {x y : BitVec w} (hl : Denotes s l w x)
    (hr : Denotes s r w y)
    (hk : ∀ x y : BitVec 1, x &&& BitVec.ofBool (y == 0) = k.denote x y) :
    Denotes s (shiftExprCreate k l r) w (k.denote x y) := by
  unfold shiftExprCreate
  split_ifs with h1
  · obtain rfl : w = 1 := hl.width_eq.symm.trans h1
    exact (AndExpr.create_denotes hl (Expr.createIsZero_denotes hr)).congr fun _ => hk x y
  · exact hl.arith k hr

theorem aShrExprCreate_denotes {x y : BitVec w} (hl : Denotes s l w x) (hr : Denotes s r w y) :
    Denotes s (aShrExprCreate l r) w (ArithKind.ashr.denote x y) := by
  unfold aShrExprCreate
  split_ifs with h1
  · obtain rfl : w = 1 := hl.width_eq.symm.trans h1
    exact hl.congr fun _ => (BitVec.sshiftRight_one_bit x y).symm
  · exact hl.arith .ashr hr

end DivShift

section Compare

theorem bcreate_cmp_denotes {op : ConstantExpr → ConstantExpr → ConstantExpr}
    {create : Expr → Expr → Expr} (k : CmpKind) {x y : BitVec w} (hl : Denotes s l w x)
    (hr : Denotes s r w y) (hop : op = ConstantExpr.cmp k.denote)
    (hc : Denotes s (create l r) 1 (BitVec.ofBool (k.denote x y))) :
    Denotes s (bcreate op create l r) 1 (BitVec.ofBool (k.denote x y)) := by
  refine bcreate_denotes hl hr (fun a b ha hb => ?_) hc
  rw [hop]
  exact constant_cmp_denotes k ha hb

theorem UltExpr.create_denotes {x y : BitVec w} (hl : Denotes s l w x) (hr : Denotes s r w y) :
    Denotes s (UltExpr.create l r) 1 (BitVec.ofBool (x.ult y)) := by
  refine bcreate_cmp_denotes .ult hl hr rfl ?_
  unfold ultExprCreate
  split_ifs with h1
  · obtain rfl : w = 1 := hl.width_eq.symm.trans h1
    exact (AndExpr.create_denotes (Expr.createIsZero_denotes hl) hr).congr
      fun _ => BitVec.ult_one_bit x y
  · exact hl.cmp .ult hr

theorem UleExpr.create_denotes {x y : BitVec w} (hl : Denotes s l w x) (hr : Denotes s r w y) :
    Denotes s (UleExpr.create l r) 1 (BitVec.ofBool (x.ule y)) := by
  refine bcreate_cmp_denotes .ule hl hr rfl ?_
  unfold uleExprCreate
  split_ifs with h1
  · obtain rfl : w = 1 := hl.width_eq.symm.trans h1
    exact (OrExpr.create_denotes (Expr.createIsZero_denotes hl) hr).congr
      fun _ => BitVec.ule_one_bit x y
  · exact hl.cmp .ule hr

theorem SltExpr.create_denotes {x y : BitVec w} (hl : Denotes s l w x) (hr : Denotes s r w y) :
    Denotes s (SltExpr.create l r) 1 (BitVec.ofBool (x.slt y)) := by
  refine bcreate_cmp_denotes .slt hl hr rfl ?_
  unfold sltExprCreate
  split_ifs with h1
  · obtain rfl : w = 1 := hl.width_eq.symm.trans h1
    exact (AndExpr.create_denotes hl (Expr.createIsZero_denotes hr)).congr
      fun _ => BitVec.slt_one_bit x y
  · exact hl.cmp .slt hr

theorem SleExpr.create_denotes {x y : BitVec w} (hl : Denotes s l w x) (hr : Denotes s r w y) :
    Denotes s (SleExpr.create l r) 1 (BitVec.ofBool (x.sle y)) := by
  refine bcreate_cmp_denotes .sle hl hr rfl ?_
  unfold sleExprCreate
  split_ifs with h1
  · obtain rfl : w = 1 := hl.width_eq.symm.trans h1
    exact (OrExpr.create_denotes hl (Expr.createIsZero_denotes hr)).congr
      fun _ => BitVec.sle_one_bit x y
  · exact hl.cmp .sle hr

end Compare

section Dispatch

theorem ArithKind.create_denotes (k : ArithKind) {x y : BitVec w} (hl : Denotes s l w x)
    (hr : Denotes s r w y) : Denotes s (k.create l r) w (k.denote x y) := by
  cases k with
  | add => exact AddExpr.create_denotes hl hr
  | sub => exact SubExpr.create_denotes hl hr
  | mul => exact MulExpr.create_denotes hl hr
  | udiv =>
    have hc := divExprCreate_denotes .udiv hl hr fun _ _ => rfl
    exact bcreate_arith_denotes .udiv hl hr rfl hc
  | sdiv =>
    have hc := divExprCreate_denotes .sdiv hl hr fun _ _ => rfl
    exact bcreate_arith_denotes .sdiv hl hr rfl hc
  | urem =>
    have hc := remExprCreate_denotes .urem hl hr fun _ _ => rfl
    exact bcreate_arith_denotes .urem hl hr rfl hc
  | srem =>
    have hc := remExprCreate_denotes .srem hl hr fun _ _ => rfl
    exact bcreate_arith_denotes .srem hl hr rfl hc
  | and => exact AndExpr.create_denotes hl hr
  | or => exact OrExpr.create_denotes hl hr
  | xor => exact XorExpr.create_denotes hl hr
  | shl =>
    have hc := shiftExprCreate_denotes .shl hl hr BitVec.shiftLeft_one_bit
    exact bcreate_arith_denotes .shl hl hr rfl hc
  | lshr =>
    have hc := shiftExprCreate_denotes .lshr hl hr BitVec.ushiftRight_one_bit
    exact bcreate_arith_denotes .lshr hl hr rfl hc
  | ashr => exact bcreate_arith_denotes .ashr hl hr rfl (aShrExprCreate_denotes hl hr)

theorem CmpKind.create_denotes (k : CmpKind) {x y : BitVec w} (hl : Denotes s l w x)
    (hr : Denotes s r w y) :
    Denotes s (k.create l r) 1 (BitVec.ofBool (k.denote x y)) := by
  cases k with
  | eq => exact EqExpr.create_denotes hl hr
  | ne => exact NeExpr.create_denotes hl hr
  | ult => exact UltExpr.create_denotes hl hr
  | ule => exact UleExpr.create_denotes hl hr
  | ugt => exact UltExpr.create_denotes hr hl
  | uge => exact UleExpr.create_denotes hr hl
  | slt => exact SltExpr.create_denotes hl hr
  | sle => exact SleExpr.create_denotes hl hr
  | sgt => exact SltExpr.create_denotes hr hl
  | sge => exact SleExpr.create_denotes hr hl

end Dispatch

end Klee

import Klee.Expr.Sound.Logic

/-! Soundness of `Add` and `Sub`: the re-association of constants keeps the value, since
each rewriting is an identity of the ring of bit vectors. -/
namespace Klee

variable [ExprOptions] {s : Option Assignment} {l r : Expr} {w : Nat}

section Partial

theorem constAdd_denotes {x y : BitVec w} (hw : 0 < w) (hr : Denotes s r w y)
    (ih : Denotes s (addExprCreatePartialR ⟨w, x⟩ r) w (x + y)) :
    Denotes s (constAdd ⟨w, x⟩ r) w (x + y) := by
  cases r with
  | constant c =>
    obtain ⟨b, rfl, hb⟩ := hr.constant_inv
    exact constant_arith_denotes .add hw (fun _ => rfl) hb
  | _ => exact ih

theorem constSub_denotes {x y : BitVec w} (hw : 0 < w) (hr : Denotes s r w y)
    (ih : Denotes s (subExprCreatePartialR ⟨w, x⟩ r) w (x - y)) :
    Denotes s (constSub ⟨w, x⟩ r) w (x - y) := by
  cases r with
  | constant c =>
    obtain ⟨b, rfl, hb⟩ := hr.constant_inv
    exact constant_arith_denotes .sub hw (fun _ => rfl) hb
  | _ => exact ih

theorem addExprCreatePartialR_eq (cl : ConstantExpr) (r : Expr) :
    addExprCreatePartialR cl r =
      if cl.width = 1 then xorExprCreatePartialR cl r
      else if cl.isZero then r
      else match r with
        | .add (.constant k) b => constAdd (cl.add k) b
        | .sub (.constant k) b => constSub (cl.add k) b
        | r => .add (.constant cl) r := by
  rw [addExprCreatePartialR.eq_def]
  cases r with
  | arith k a b => cases k <;> cases a <;> cases b <;> rfl
  | _ => rfl

theorem subExprCreatePartialR_eq (cl : ConstantExpr) (r : Expr) :
    subExprCreatePartialR cl r =
      if cl.width = 1 then xorExprCreatePartialR cl r
      else match r with
        | .add (.constant k) b => constSub (cl.sub k) b
        | .sub (.constant k) b => constAdd (cl.sub k) b
        | r => .sub (.constant cl) r := by
  rw [subExprCreatePartialR.eq_def]
  cases r with
  | arith k a b => cases k <;> cases a <;> cases b <;> rfl
  | _ => rfl

/-- The two partial constructors call each other on the second operand of `r`. -/
theorem linearPartialR_denotes {x y : BitVec w} (hw : 0 < w) (hr : Denotes s r w y) :
    Denotes s (addExprCreatePartialR ⟨w, x⟩ r) w (x + y) ∧
      Denotes s (subExprCreatePartialR ⟨w, x⟩ r) w (x - y) := by
  induction hn : sizeOf r using Nat.strong_induction_on generalizing r x y with
  | _ n ih =>
  subst hn
  have hadd {b : Expr} {v z : BitVec w} (hlt : sizeOf b < sizeOf r)
      (hb : Denotes s b w v) : Denotes s (constAdd ⟨w, z⟩ b) w (z + v) :=
    constAdd_denotes hw hb (ih _ hlt hb rfl).1
  have hsub {b : Expr} {v z : BitVec w} (hlt : sizeOf b < sizeOf r)
      (hb : Denotes s b w v) : Denotes s (constSub ⟨w, z⟩ b) w (z - v) :=
    constSub_denotes hw hb (ih _ hlt hb rfl).2
  rw [addExprCreatePartialR_eq, subExprCreatePartialR_eq]
  split
  case isTrue h1 =>
    obtain rfl : w = 1 := h1
    have hx := xorPartialR_denotes (x := x) hw hr
    exact ⟨hx.congr fun _ => BitVec.xor_eq_add x y, hx.congr fun _ => BitVec.xor_eq_sub x y⟩
  case isFalse =>
    constructor
    · split
      case isTrue h0 =>
        simp only [ConstantExpr.isZero, beq_iff_eq] at h0
        exact hr.congr fun _ => by rw [h0, BitVec.ofNat_eq_ofNat, BitVec.zero_add]
      case isFalse =>
        split
        · obtain ⟨u, v, rfl, hb, hy⟩ := hr.arith_constant_inv
          rw [ConstantExpr.add, ConstantExpr.arith_mk]
          refine (hadd (by simp) hb).congr fun hs => ?_
          simp only [hy hs, ArithKind.denote, ArithKind.operator]
          ring
        · obtain ⟨u, v, rfl, hb, hy⟩ := hr.arith_constant_inv
          rw [ConstantExpr.add, ConstantExpr.arith_mk]
          refine (hsub (by simp) hb).congr fun hs => ?_
          simp only [hy hs, ArithKind.denote, ArithKind.operator]
          ring
        · exact (Denotes.constant hw).arith .add hr
    · split
      · obtain ⟨u, v, rfl, hb, hy⟩ := hr.arith_constant_inv
        rw [ConstantExpr.sub, ConstantExpr.arith_mk]
        refine (hsub (by simp) hb).congr fun hs => ?_
        simp only [hy hs, ArithKind.denote, ArithKind.operator]
        ring
      · obtain ⟨u, v, rfl, hb, hy⟩ := hr.arith_constant_inv
        rw [ConstantExpr.sub, ConstantExpr.arith_mk]
        refine (hadd (by simp) hb).congr fun hs => ?_
        simp only [hy hs, ArithKind.denote, ArithKind.operator]
        ring
      · exact (Denotes.constant hw).arith .sub hr

theorem addPartialR_denotes {x y : BitVec w} (hw : 0 < w) (hr : Denotes s r w y) :
    Denotes s (addExprCreatePartialR ⟨w, x⟩ r) w (x + y) := (linearPartialR_denotes hw hr).1

theorem subPartialR_denotes {x y : BitVec w} (hw : 0 < w) (hr : Denotes s r w y) :
    Denotes s (subExprCreatePartialR ⟨w, x⟩ r) w (x - y) := (linearPartialR_denotes hw hr).2

theorem addPartial_denotes {x y : BitVec w} (hl : Denotes s l w x) :
    Denotes s (addExprCreatePartial l ⟨w, y⟩) w (x + y) :=
  (addPartialR_denotes hl.width_pos hl).congr fun _ => BitVec.add_comm y x

theorem subPartial_denotes {x y : BitVec w} (hl : Denotes s l w x) :
    Denotes s (subExprCreatePartial l ⟨w, y⟩) w (x - y) := by
  rw [subExprCreatePartial, ConstantExpr.sub, ConstantExpr.alloc, ConstantExpr.arith_mk]
  refine (addPartial_denotes hl).congr fun _ => ?_
  rw [BitVec.sub_eq_add_neg x y]
  exact congrArg (x + ·) (BitVec.zero_sub y)

end Partial

section Create

theorem constAdd_create_denotes {x y : BitVec w} (hr : Denotes s r w y) :
    Denotes s (constAdd ⟨w, x⟩ r) w (x + y) :=
  constAdd_denotes hr.width_pos hr (addPartialR_denotes hr.width_pos hr)

theorem constSub_create_denotes {x y : BitVec w} (hr : Denotes s r w y) :
    Denotes s (constSub ⟨w, x⟩ r) w (x - y) :=
  constSub_denotes hr.width_pos hr (subPartialR_denotes hr.width_pos hr)

theorem subConst_create_denotes {x y : BitVec w} (hl : Denotes s l w x) :
    Denotes s (subConst l ⟨w, y⟩) w (x - y) := by
  have hsub := subPartial_denotes (y := y) hl
  cases l with
  | constant c =>
    obtain ⟨a, rfl, ha⟩ := hl.constant_inv
    exact constant_arith_denotes .sub hl.width_pos ha fun _ => rfl
  | _ => exact hsub

/-- `AddExpr::create` and `SubExpr::create` call each other on smaller operands. -/
theorem linearCreate_denotes {x y : BitVec w} (hl : Denotes s l w x) (hr : Denotes s r w y) :
    Denotes s (AddExpr.create l r) w (x + y) ∧ Denotes s (SubExpr.create l r) w (x - y) := by
  induction hn : sizeOf l + sizeOf r using Nat.strong_induction_on generalizing l r x y with
  | _ n ih =>
  subst hn
  constructor
  · rw [AddExpr.create.eq_def]
    split
    · obtain ⟨a, rfl, ha⟩ := hl.constant_inv
      obtain ⟨b, rfl, hb⟩ := hr.constant_inv
      exact constant_arith_denotes .add hl.width_pos ha hb
    · obtain ⟨a, rfl, ha⟩ := hl.constant_inv
      exact (addPartialR_denotes hl.width_pos hr).congr fun hs => by rw [ha hs]
    · obtain ⟨b, rfl, hb⟩ := hr.constant_inv
      exact (addPartial_denotes hl).congr fun hs => by rw [hb hs]
    · split
      case isTrue h1 =>
        obtain rfl : w = 1 := hl.width_eq.symm.trans h1
        exact (XorExpr.create_denotes hl hr).congr fun _ => BitVec.xor_eq_add x y
      case isFalse =>
        split
        · obtain ⟨k, a, rfl, ha, hx⟩ := hl.arith_constant_inv
          refine (constAdd_create_denotes (ih _ (by simp) ha hr rfl).1).congr fun hs => ?_
          simp only [hx hs, ArithKind.denote, ArithKind.operator]
          ring
        · obtain ⟨k, a, rfl, ha, hx⟩ := hl.arith_constant_inv
          refine (constAdd_create_denotes (ih _ (by simp; omega) hr ha rfl).2).congr fun hs => ?_
          simp only [hx hs, ArithKind.denote, ArithKind.operator]
          ring
        · obtain ⟨k, b, rfl, hb, hy⟩ := hr.arith_constant_inv
          refine (constAdd_create_denotes (ih _ (by simp) hl hb rfl).1).congr fun hs => ?_
          simp only [hy hs, ArithKind.denote, ArithKind.operator]
          ring
        · obtain ⟨k, b, rfl, hb, hy⟩ := hr.arith_constant_inv
          refine (constAdd_create_denotes (ih _ (by simp) hl hb rfl).2).congr fun hs => ?_
          simp only [hy hs, ArithKind.denote, ArithKind.operator]
          ring
        · exact hl.arith .add hr
  · rw [SubExpr.create.eq_def]
    split
    · obtain ⟨a, rfl, ha⟩ := hl.constant_inv
      obtain ⟨b, rfl, hb⟩ := hr.constant_inv
      exact constant_arith_denotes .sub hl.width_pos ha hb
    · obtain ⟨a, rfl, ha⟩ := hl.constant_inv
      exact (subPartialR_denotes hl.width_pos hr).congr fun hs => by rw [ha hs]
    · obtain ⟨b, rfl, hb⟩ := hr.constant_inv
      exact (subPartial_denotes hl).congr fun hs => by rw [hb hs]
    · split
      case isTrue h1 =>
        obtain rfl : w = 1 := hl.width_eq.symm.trans h1
        exact (XorExpr.create_denotes hl hr).congr fun _ => BitVec.xor_eq_sub x y
      case isFalse =>
        split
        case isTrue heq =>
          subst heq
          rw [hl.width_eq]
          refine (Denotes.constant hl.width_pos).congr fun hs => ?_
          rw [hl.unique hr hs, BitVec.sub_self]
        case isFalse =>
          split
          · obtain ⟨k, a, rfl, ha, hx⟩ := hl.arith_constant_inv
            refine (constAdd_create_denotes (ih _ (by simp) ha hr rfl).2).congr fun hs => ?_
            simp only [hx hs, ArithKind.denote, ArithKind.operator]
            ring
          · obtain ⟨k, a, rfl, ha, hx⟩ := hl.arith_constant_inv
            refine (constSub_create_denotes (ih _ (by simp) ha hr rfl).1).congr fun hs => ?_
            simp only [hx hs, ArithKind.denote, ArithKind.operator]
            ring
          · obtain ⟨k, b, rfl, hb, hy⟩ := hr.arith_constant_inv
            refine (subConst_create_denotes (ih _ (by simp) hl hb rfl).2).congr fun hs => ?_
            simp only [hy hs, ArithKind.denote, ArithKind.operator]
            ring
          · obtain ⟨k, b, rfl, hb, hy⟩ := hr.arith_constant_inv
            refine (subConst_create_denotes (ih _ (by simp) hl hb rfl).1).congr fun hs => ?_
            simp only [hy hs, ArithKind.denote, ArithKind.operator]
            ring
          · exact hl.arith .sub hr

theorem AddExpr.create_denotes {x y : BitVec w} (hl : Denotes s l w x) (hr : Denotes s r w y) :
    Denotes s (AddExpr.create l r) w (x + y) := (linearCreate_denotes hl hr).1

theorem SubExpr.create_denotes {x y : BitVec w} (hl : Denotes s l w x) (hr : Denotes s r w y) :
    Denotes s (SubExpr.create l r) w (x - y) := (linearCreate_denotes hl hr).2

end Create

end Klee

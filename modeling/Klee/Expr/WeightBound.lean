import Klee.Expr.Weight

/-! No smart constructor returns an expression heavier than the one it simplifies. -/
namespace Klee

section Logic

theorem weight_andPartial_le (l : Expr) (cr : ConstantExpr) :
    (andExprCreatePartial l cr).weight ≤ l.weight + 2 := by
  rw [andExprCreatePartial]
  split_ifs
  · omega
  · simp
  · simp

theorem weight_orPartial_le (l : Expr) (cr : ConstantExpr) :
    (orExprCreatePartial l cr).weight ≤ l.weight + 3 := by
  rw [orExprCreatePartial]
  split_ifs
  · simp
  · omega
  · simp

/-- The bound for what `BCREATE_R` makes of its partial constructors. -/
theorem weight_bcreateR_le {op partialL partialR create} {n : Nat} (l r : Expr)
    (hL : ∀ c, (partialL l c).weight ≤ l.weight + 1 + n)
    (hR : ∀ c, (partialR c r).weight ≤ r.weight + 1 + n)
    (hc : (create l r).weight ≤ l.weight + r.weight + n) :
    (bcreateR op partialL partialR create l r).weight ≤ l.weight + r.weight + n := by
  unfold bcreateR
  split
  · simp
    omega
  · simp
    exact (hR _).trans (by omega)
  · simp
    exact (hL _).trans (by omega)
  · exact hc

theorem weight_andCreate_le (l r : Expr) :
    (AndExpr.create l r).weight ≤ l.weight + r.weight + 1 :=
  weight_bcreateR_le l r (weight_andPartial_le l) (weight_andPartial_le r) le_rfl

theorem weight_orCreate_le (l r : Expr) :
    (OrExpr.create l r).weight ≤ l.weight + r.weight + 2 :=
  weight_bcreateR_le l r (weight_orPartial_le l) (weight_orPartial_le r) le_rfl

theorem weight_eqExprCreate_le (l r : Expr) :
    (eqExprCreate l r).weight ≤ (Expr.eq l r).weight := by
  unfold eqExprCreate
  split_ifs
  · exact (Expr.eq l r).weight_pos
  · exact le_rfl

/-- Comparing `e` with a constant through `EqExpr::create`. -/
theorem weight_eqCreate_constant_le (e : Expr) (c : ConstantExpr)
    (ih : (eqExprCreatePartialR c e).weight ≤ e.weight + 1) :
    (EqExpr.create e (.constant c)).weight ≤ e.weight + 1 := by
  cases e with
  | constant k => simp [EqExpr.create, bcreateR]
  | _ => exact ih

theorem weight_eqPartialR_le (cl : ConstantExpr) (r : Expr) :
    (eqExprCreatePartialR cl r).weight ≤ r.weight + 1 := by
  induction hn : sizeOf r using Nat.strong_induction_on generalizing cl r with
  | _ n ih =>
  subst hn
  have hkeep : (eqExprCreate (.constant cl) r).weight ≤ r.weight + 1 :=
    weight_eqExprCreate_le (.constant cl) r
  rw [eqExprCreatePartialR_eq]
  split
  case isTrue =>
    split
    · omega
    · split
      · split
        · simp
          omega
        · exact hkeep
      · rename_i a b
        have ha := weight_eqCreate_constant_le a (.alloc 0 a.width) (ih _ (by simp; omega) _ a rfl)
        have hb := weight_eqCreate_constant_le b (.alloc 0 b.width) (ih _ (by simp) _ b rfl)
        have hand := weight_andCreate_le a.createIsZero b.createIsZero
        simp only [Expr.createIsZero, Expr.weight_or] at *
        omega
      · exact hkeep
  case isFalse =>
    split
    · rename_i src w
      have hsrc := weight_eqCreate_constant_le src (cl.zext src.width) (ih _ (by simp; omega) _ src rfl)
      dsimp only
      split_ifs
      · simp
        omega
      · simp
    · rename_i src w
      have hsrc := weight_eqCreate_constant_le src (cl.zext src.width) (ih _ (by simp; omega) _ src rfl)
      dsimp only
      split_ifs
      · simp
        omega
      · simp
    · rename_i k right
      have hright := ih _ (by simp) (cl.sub k) right rfl
      simp
      omega
    · rename_i k right
      have hright := ih _ (by simp) (k.sub cl) right rfl
      simp
      omega
    · exact hkeep
    · exact hkeep

theorem weight_eqCreate_le (l r : Expr) : (EqExpr.create l r).weight ≤ (Expr.eq l r).weight := by
  unfold EqExpr.create bcreateR
  split
  · exact (Expr.eq _ _).weight_pos
  · exact weight_eqPartialR_le _ r
  · rename_i cr hl
    rw [Expr.weight_eq_of_not_constant l _ fun c hc => hl c hc, eqExprCreatePartial]
    exact (weight_eqPartialR_le cr l).trans (by omega)
  · exact weight_eqExprCreate_le _ _

theorem weight_createIsZero_le (e : Expr) : e.createIsZero.weight ≤ e.weight + 1 :=
  weight_eqCreate_constant_le e _ (weight_eqPartialR_le _ e)

theorem weight_neCreate_le (l r : Expr) :
    (NeExpr.create l r).weight ≤ l.weight + r.weight + 3 := by
  have hne := weight_eqCreate_le (.constant (.alloc 0 1)) (EqExpr.create l r)
  have heq := (weight_eqCreate_le l r).trans (Expr.weight_eq_le l r)
  rw [Expr.weight_eq_constant] at hne
  rw [NeExpr.create]
  omega

theorem weight_xorPartialR_le (cl : ConstantExpr) (r : Expr) :
    (xorExprCreatePartialR cl r).weight ≤ r.weight + 4 := by
  unfold xorExprCreatePartialR
  split_ifs
  · omega
  · exact (weight_eqPartialR_le _ r).trans (by omega)
  · refine (Expr.weight_arith_le (.constant cl) r .xor).trans ?_
    rw [Expr.weight_constant]
    omega

theorem weight_xorCreate_le (l r : Expr) :
    (XorExpr.create l r).weight ≤ l.weight + r.weight + 3 :=
  weight_bcreateR_le l r (fun c => weight_xorPartialR_le c l) (fun c => weight_xorPartialR_le c r)
    le_rfl

end Logic

section Linear

theorem weight_constAdd_le (k : ConstantExpr) (e : Expr)
    (ih : (addExprCreatePartialR k e).weight ≤ e.weight + 4) :
    (constAdd k e).weight ≤ e.weight + 4 := by
  cases e with
  | constant c => simp [constAdd]
  | _ => exact ih

theorem weight_constSub_le (k : ConstantExpr) (e : Expr)
    (ih : (subExprCreatePartialR k e).weight ≤ e.weight + 4) :
    (constSub k e).weight ≤ e.weight + 4 := by
  cases e with
  | constant c => simp [constSub]
  | _ => exact ih

theorem weight_linearPartialR_le (cl : ConstantExpr) (r : Expr) :
    (addExprCreatePartialR cl r).weight ≤ r.weight + 4 ∧
      (subExprCreatePartialR cl r).weight ≤ r.weight + 4 := by
  induction hn : sizeOf r using Nat.strong_induction_on generalizing cl r with
  | _ n ih =>
  subst hn
  rw [addExprCreatePartialR_eq, subExprCreatePartialR_eq]
  split
  case isTrue => exact ⟨weight_xorPartialR_le cl r, weight_xorPartialR_le cl r⟩
  case isFalse =>
    constructor
    · split
      · omega
      · split
        · rename_i k b
          have hb := weight_constAdd_le (cl.add k) b (ih _ (by simp) _ b rfl).1
          simp
          omega
        · rename_i k b
          have hb := weight_constSub_le (cl.add k) b (ih _ (by simp) _ b rfl).2
          simp
          omega
        · simp
          omega
    · split
      · rename_i k b
        have hb := weight_constSub_le (cl.sub k) b (ih _ (by simp) _ b rfl).2
        simp
        omega
      · rename_i k b
        have hb := weight_constAdd_le (cl.sub k) b (ih _ (by simp) _ b rfl).1
        simp
        omega
      · simp
        omega

theorem weight_constAdd_create_le (k : ConstantExpr) (e : Expr) :
    (constAdd k e).weight ≤ e.weight + 4 :=
  weight_constAdd_le k e (weight_linearPartialR_le k e).1

theorem weight_constSub_create_le (k : ConstantExpr) (e : Expr) :
    (constSub k e).weight ≤ e.weight + 4 :=
  weight_constSub_le k e (weight_linearPartialR_le k e).2

theorem weight_subConst_le (e : Expr) (k : ConstantExpr) :
    (subConst e k).weight ≤ e.weight + 4 := by
  have hpartial := (weight_linearPartialR_le ((ConstantExpr.alloc 0 k.width).sub k) e).1
  cases e with
  | constant c => simp [subConst]
  | _ => exact hpartial

theorem weight_linearCreate_le (l r : Expr) :
    (AddExpr.create l r).weight ≤ l.weight + r.weight + 3 ∧
      (SubExpr.create l r).weight ≤ l.weight + r.weight + 3 := by
  induction hn : sizeOf l + sizeOf r using Nat.strong_induction_on generalizing l r with
  | _ n ih =>
  subst hn
  have hl := l.weight_pos
  have hr := r.weight_pos
  constructor
  · rw [AddExpr.create.eq_def]
    split
    · simp
    · rename_i cl _
      have hp := (weight_linearPartialR_le cl r).1
      simp
      omega
    · rename_i cr _
      have hp := (weight_linearPartialR_le cr l).1
      simp only [Expr.weight_constant, addExprCreatePartial]
      omega
    · split
      · exact weight_xorCreate_le l r
      · split
        · refine (weight_constAdd_create_le _ _).trans ((Nat.add_le_add_right (ih _ ?_ _ _ rfl).1 4).trans ?_)
          · simp
          · simp
            omega
        · refine (weight_constAdd_create_le _ _).trans ((Nat.add_le_add_right (ih _ ?_ _ _ rfl).2 4).trans ?_)
          · simp
            omega
          · simp
            omega
        · refine (weight_constAdd_create_le _ _).trans ((Nat.add_le_add_right (ih _ ?_ _ _ rfl).1 4).trans ?_)
          · simp
          · simp
            omega
        · refine (weight_constAdd_create_le _ _).trans ((Nat.add_le_add_right (ih _ ?_ _ _ rfl).2 4).trans ?_)
          · simp
          · simp
            omega
        · simp
  · rw [SubExpr.create.eq_def]
    split
    · simp
    · rename_i cl _
      have hp := (weight_linearPartialR_le cl r).2
      simp
      omega
    · rename_i cr _
      have hp := (weight_linearPartialR_le ((ConstantExpr.alloc 0 cr.width).sub cr) l).1
      simp only [Expr.weight_constant, subExprCreatePartial, addExprCreatePartial]
      omega
    · split
      · exact weight_xorCreate_le l r
      · split
        · rw [Expr.weight_constant]
          omega
        · split
          · refine (weight_constAdd_create_le _ _).trans ((Nat.add_le_add_right (ih _ ?_ _ _ rfl).2 4).trans ?_)
            · simp
            · simp
              omega
          · refine (weight_constSub_create_le _ _).trans ((Nat.add_le_add_right (ih _ ?_ _ _ rfl).1 4).trans ?_)
            · simp
            · simp
              omega
          · refine (weight_subConst_le _ _).trans ((Nat.add_le_add_right (ih _ ?_ _ _ rfl).2 4).trans ?_)
            · simp
            · simp
              omega
          · refine (weight_subConst_le _ _).trans ((Nat.add_le_add_right (ih _ ?_ _ _ rfl).1 4).trans ?_)
            · simp
            · simp
              omega
          · simp

end Linear

section Arith

theorem weight_mulPartialR_le (cl : ConstantExpr) (r : Expr) :
    (mulExprCreatePartialR cl r).weight ≤ r.weight + 4 := by
  unfold mulExprCreatePartialR
  split_ifs
  · exact (weight_andPartial_le r cl).trans (by omega)
  · omega
  · simp
  · refine (Expr.weight_arith_le (.constant cl) r .mul).trans ?_
    rw [Expr.weight_constant]
    omega

/-- The bound for what `BCREATE` and `CMPCREATE` make of their constructor. -/
theorem weight_bcreate_le {op create} {n : Nat} (l r : Expr)
    (hc : (create l r).weight ≤ l.weight + r.weight + n) :
    (bcreate op create l r).weight ≤ l.weight + r.weight + n := by
  unfold bcreate
  split
  · simp only [Expr.weight_constant]
    omega
  · exact hc

theorem weight_shiftExprCreate_le (k : ArithKind) (l r : Expr) :
    (shiftExprCreate k l r).weight ≤ l.weight + r.weight + 3 := by
  unfold shiftExprCreate
  split_ifs
  · have hz := weight_createIsZero_le r
    exact (weight_andCreate_le l _).trans (by omega)
  · exact Expr.weight_arith_le l r k

theorem weight_arithCreate_le (k : ArithKind) (l r : Expr) :
    (k.create l r).weight ≤ (Expr.arith k l r).weight := by
  have hdiv (k : ArithKind) : (divExprCreate k l r).weight ≤ l.weight + r.weight + 3 := by
    unfold divExprCreate
    split_ifs
    · omega
    · exact Expr.weight_arith_le l r k
  have hrem (k : ArithKind) : (remExprCreate k l r).weight ≤ l.weight + r.weight + 3 := by
    unfold remExprCreate
    split_ifs
    · rw [Expr.weight_constant]
      omega
    · exact Expr.weight_arith_le l r k
  cases k with
  | add => exact (weight_linearCreate_le l r).1
  | sub => exact (weight_linearCreate_le l r).2
  | mul =>
    refine weight_bcreateR_le l r (fun c => weight_mulPartialR_le c l)
      (fun c => weight_mulPartialR_le c r) ?_
    unfold mulExprCreate
    split_ifs
    · rw [Expr.weight_and]
      omega
    · exact Expr.weight_arith_le l r .mul
  | udiv => exact weight_bcreate_le l r (hdiv .udiv)
  | sdiv => exact weight_bcreate_le l r (hdiv .sdiv)
  | urem => exact weight_bcreate_le l r (hrem .urem)
  | srem => exact weight_bcreate_le l r (hrem .srem)
  | and => exact weight_andCreate_le l r
  | or => exact weight_orCreate_le l r
  | xor => exact weight_xorCreate_le l r
  | shl => exact weight_bcreate_le l r (weight_shiftExprCreate_le .shl l r)
  | lshr => exact weight_bcreate_le l r (weight_shiftExprCreate_le .lshr l r)
  | ashr =>
    refine weight_bcreate_le (n := 3) l r ?_
    unfold aShrExprCreate
    split_ifs
    · omega
    · exact Expr.weight_arith_le l r .ashr

theorem weight_ultCreate_le (l r : Expr) :
    (UltExpr.create l r).weight ≤ l.weight + r.weight + 3 := by
  refine weight_bcreate_le l r ?_
  unfold ultExprCreate
  split_ifs
  · have hz := weight_createIsZero_le l
    exact (weight_andCreate_le _ r).trans (by omega)
  · exact le_rfl

theorem weight_uleCreate_le (l r : Expr) :
    (UleExpr.create l r).weight ≤ l.weight + r.weight + 3 := by
  refine weight_bcreate_le l r ?_
  unfold uleExprCreate
  split_ifs
  · have hz := weight_createIsZero_le l
    exact (weight_orCreate_le _ r).trans (by omega)
  · exact le_rfl

theorem weight_sltCreate_le (l r : Expr) :
    (SltExpr.create l r).weight ≤ l.weight + r.weight + 3 := by
  refine weight_bcreate_le l r ?_
  unfold sltExprCreate
  split_ifs
  · have hz := weight_createIsZero_le r
    exact (weight_andCreate_le l _).trans (by omega)
  · exact le_rfl

theorem weight_sleCreate_le (l r : Expr) :
    (SleExpr.create l r).weight ≤ l.weight + r.weight + 3 := by
  refine weight_bcreate_le l r ?_
  unfold sleExprCreate
  split_ifs
  · have hz := weight_createIsZero_le r
    exact (weight_orCreate_le l _).trans (by omega)
  · exact le_rfl

theorem weight_cmpCreate_le (k : CmpKind) (l r : Expr) :
    (k.create l r).weight ≤ (Expr.cmp k l r).weight := by
  by_cases hk : k = .eq
  · subst hk
    exact weight_eqCreate_le l r
  · rw [Expr.weight_cmp l r k hk]
    cases k with
    | eq => exact (hk rfl).elim
    | ne => exact weight_neCreate_le l r
    | ult => exact weight_ultCreate_le l r
    | ule => exact weight_uleCreate_le l r
    | ugt => exact (weight_ultCreate_le r l).trans (by omega)
    | uge => exact (weight_uleCreate_le r l).trans (by omega)
    | slt => exact weight_sltCreate_le l r
    | sle => exact weight_sleCreate_le l r
    | sgt => exact (weight_sltCreate_le r l).trans (by omega)
    | sge => exact (weight_sleCreate_le r l).trans (by omega)

end Arith

section Structure

theorem weight_notCreate_le (e : Expr) : (NotExpr.create e).weight ≤ e.weight + 1 := by
  cases e with
  | constant c => simp [NotExpr.create]
  | _ => exact le_rfl

theorem weight_selectCreate_le (c t f : Expr) :
    (SelectExpr.create c t f).weight ≤ (Expr.select c t f).weight := by
  have hz := weight_createIsZero_le c
  have hf := f.weight_pos
  have ht := t.weight_pos
  rw [Expr.weight_select]
  unfold SelectExpr.create
  split
  · split <;> omega
  · split
    · omega
    · split
      · split
        · split
          · exact (weight_orCreate_le c _).trans (by omega)
          · exact (weight_andCreate_le _ _).trans (by omega)
        · split
          · exact (weight_orCreate_le _ _).trans (by omega)
          · exact (weight_andCreate_le c _).trans (by omega)
        · exact le_rfl
      · exact le_rfl

theorem weight_concatCreate_le_of (l r : Expr)
    (ih : ∀ e o v, l = .extract e o v → ∀ off w, (ExtractExpr.create e off w).weight ≤ 2 * e.weight) :
    (ConcatExpr.create l r).weight ≤ l.weight + r.weight + 1 := by
  unfold ConcatExpr.create
  split
  · simp
  · split
    · refine (ih _ _ _ rfl _ _).trans ?_
      rw [Expr.weight_extract]
      omega
    · exact le_rfl
  · exact le_rfl

theorem weight_extractCreate_le (e : Expr) (off w : Nat) :
    (ExtractExpr.create e off w).weight ≤ 2 * e.weight := by
  induction hn : e.concats using Nat.strong_induction_on generalizing e off w with
  | _ n ih =>
  subst hn
  rw [ExtractExpr.create_eq]
  split
  · omega
  · split
    · simp
    · rename_i l r _
      have hlt : l.concats < (Expr.concat l r).concats := by simp only [Expr.concats]; omega
      have hrt : r.concats < (Expr.concat l r).concats := by simp only [Expr.concats]; omega
      rw [Expr.weight_concat]
      split_ifs
      · exact (ih _ hlt l _ w rfl).trans (by omega)
      · exact (ih _ hrt r _ w rfl).trans (by omega)
      · have hel := ih _ hlt l 0 (w + off - r.width) rfl
        have her := ih _ hrt r off (r.width - off) rfl
        refine (weight_concatCreate_le_of _ _ fun e o v he off' w' => ?_).trans (by omega)
        have hle := ExtractExpr.concats_create_le l 0 (w + off - r.width)
        rw [he, Expr.concats] at hle
        exact ih _ (by omega) e off' w' rfl
    · exact le_rfl

theorem weight_concatCreate_le (l r : Expr) :
    (ConcatExpr.create l r).weight ≤ l.weight + r.weight + 1 :=
  weight_concatCreate_le_of l r fun e _ _ _ => weight_extractCreate_le e

theorem weight_castCreate_le (k : CastKind) (e : Expr) (w : Nat) :
    (k.create e w).weight ≤ 2 * e.weight := by
  have hshape (op) : (castCreate k op e w).weight ≤ 2 * e.weight := by
    unfold castCreate
    split_ifs
    · omega
    · exact weight_extractCreate_le e 0 w
    · split
      · simp
      · exact le_rfl
  cases k with
  | zext => exact hshape .zext
  | sext => exact hshape .sext

theorem weight_readRollback_le (root : Array) (head : UpdateNode) (index : Expr)
    (un : UpdateNode) (h : un.weight ≤ head.weight) :
    (readRollback root head index un).weight ≤ (Expr.read root head index).weight := by
  rw [Expr.weight_read]
  induction un with
  | null =>
    unfold readRollback
    split
    · split
      · split <;> simp
      · exact le_rfl
    · exact le_rfl
  | node next i v ih =>
    rw [UpdateNode.weight_node] at h
    rw [readRollback]
    split
    · split
      · omega
      · exact ih (by omega)
    · split
      · rw [Expr.weight_read, UpdateNode.weight_node]
        omega
      · exact le_rfl

theorem weight_readCreate_le (root : Array) (head : UpdateNode) (index : Expr) :
    (ReadExpr.create ⟨root, head⟩ index).weight ≤ (Expr.read root head index).weight :=
  weight_readRollback_le root head index head le_rfl

end Structure

end Klee

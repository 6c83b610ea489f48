import Klee.Solver.BuilderTables

/-! The terms that the solver builders construct have the values of their expressions, and the
tables of the builders never change that. -/
namespace Klee.SolverBuilder

open Smt Smt.Term

section Cases

open Growing.Setting

variable {B : Type} [ArrayBuilder B] [LawfulArrayBuilder B] {ml mr : BuildM B Sized}
  {l r e : Expr} {a b : Sized} {t : Term Cell} {w : Nat}

/-- Two operands, one after the other. -/
theorem Constructs.bind₂ {f : Sized → Sized → BuildM B Sized} (hl : Constructs ml l)
    (hr : Constructs mr r)
    (hf : ∀ a b, a.2 = l.width → b.2 = r.width → HasWidth a.1 l.width → HasWidth b.1 r.width →
      (tables B).Runs (f a b) (fun c => c.2 = e.width ∧ HasWidth c.1 e.width) fun i c =>
        i.Says a.1 l → i.Says b.1 r → i.Says c.1 e) :
    Constructs (ml >>= fun a => mr >>= fun b => f a b) e := by
  refine Runs.bind hl fun a ha => Runs.bind hr fun b hb => ?_
  exact (hf a b ha.1 hb.1 ha.2 hb.2).weaken (fun _ h => h) fun i c _ h hb' ha' => h ha' hb'

section Arith

variable {k : ArithKind} {op : BvOp}

/-- A term that has the value of the operator on the values of the operands, where the shift is
in range, and some value elsewhere. -/
def Computes (k : ArithKind) (a b t : Term Cell) (w : Nat) : Prop :=
  ∀ (env : Cell → (w : Nat) → BitVec w) (x y : BitVec w), IsTerm env a w x → IsTerm env b w y →
    ∃ z, IsTerm env t w z ∧ (k.ShiftInRange y → z = k.denote x y)

theorem runs_computes (h : Computes k a.1 b.1 t l.width) (ha : HasWidth a.1 l.width)
    (hb : HasWidth b.1 r.width) (hwr : r.width = l.width) (hw : w = l.width) :
    (tables B).Runs (pure (t, w))
      (fun c => c.2 = (Expr.arith k l r).width ∧ HasWidth c.1 (Expr.arith k l r).width)
      fun i c => i.Says a.1 l → i.Says b.1 r → i.Says c.1 (.arith k l r) := by
  refine runs_pure ⟨hw, fun env => ?_⟩ fun i hl hr => ?_
  · obtain ⟨x, hx⟩ := ha env
    obtain ⟨y, hy⟩ := (hwr ▸ hb) env
    obtain ⟨z, hz, -⟩ := h env x y hx hy
    exact ⟨z, hz⟩
  · cases i with
    | values i =>
      intro hreg
      rw [Expr.WithinBounds] at hreg
      obtain ⟨z, hz, hv⟩ := h i.env _ _ (hl hreg.1) (Interpretation.Gives.at hr hreg.2.1 hwr)
      rw [Expr.eval]
      exact hz.congr (hv hreg.2.2)
    | missing root => exact ⟨hl, hr⟩
    | apart => exact trivial

/-- The same where the right operand is the constant `y`, whose term is not constructed. -/
def ComputesConstant (k : ArithKind) (a : Term Cell) (y : BitVec w) (t : Term Cell) : Prop :=
  ∀ (env : Cell → (w : Nat) → BitVec w) (x : BitVec w), IsTerm env a w x →
    ∃ z, IsTerm env t w z ∧ (k.ShiftInRange y → z = k.denote x y)

theorem runs_computesConstant {y : BitVec l.width} (h : ComputesConstant k a.1 y t)
    (ha : HasWidth a.1 l.width) (hw : w = l.width) :
    (tables B).Runs (pure (t, w))
      (fun d => d.2 = (Expr.arith k l (.constant ⟨_, y⟩)).width ∧
        HasWidth d.1 (Expr.arith k l (.constant ⟨_, y⟩)).width)
      fun i d => i.Says a.1 l → i.Says d.1 (.arith k l (.constant ⟨_, y⟩)) := by
  refine runs_pure ⟨hw, fun env => ?_⟩ fun i hl => ?_
  · obtain ⟨x, hx⟩ := ha env
    obtain ⟨z, hz, -⟩ := h env x hx
    exact ⟨z, hz⟩
  · cases i with
    | values i =>
      intro hreg
      rw [Expr.WithinBounds, Expr.eval, BitVec.setWidth_eq] at hreg
      obtain ⟨z, hz, hv⟩ := h i.env _ (hl hreg.1)
      rw [Expr.eval, Expr.eval]
      change IsTerm i.env t l.width (k.denote (l.eval i.σ l.width) (BitVec.setWidth l.width y))
      rw [BitVec.setWidth_eq]
      exact hz.congr (hv hreg.2.2)
    | missing root => exact ⟨hl, trivial⟩
    | apart => exact trivial

theorem computes_bvop (hop : Operator k op) (hw : w ≠ 1) (a b : Term Cell) :
    Computes k a b (.bvop op a b) w :=
  fun _ _ _ hx hy => ⟨_, isTerm_bvop hop hx hy hw, fun _ => rfl⟩

theorem runs_bvBinary {a b : Term Cell} (ha : HasWidth a w) (hb : HasWidth b w) (hw : w ≠ 1)
    {f : Term Cell → BuildM B Sized} {P : Sized → Prop} {Q : Reader → Sized → Prop}
    (h : (tables B).Runs (f (.bvop op a b)) P Q) :
    (tables B).Runs (bvBinary op w a b >>= f) P Q := by
  unfold bvBinary
  rw [bind_assoc]
  exact runs_require_bind ⟨ha.length_eq hw, hb.length_eq hw⟩ h

theorem constructOperands_constructs (hop : Operator k op) (hl : Constructs ml l)
    (hr : Constructs mr r) (hwr : r.width = l.width) (hne : l.width ≠ 1) :
    Constructs (constructOperands op ml mr) (.arith k l r) := by
  refine hl.bind₂ hr fun a b _ hb2 ha hb => ?_
  rw [hb2, hwr]
  refine runs_require_bind hne (runs_bvBinary ha (hwr ▸ hb) hne ?_)
  exact runs_computes (computes_bvop hop hne _ _) ha hb hwr rfl

/-- A translation that gives a term in one environment gives the same term in all. -/
theorem exists_term {o : Option (Term Cell)} {v : Nat} {f : BitVec w → BitVec v}
    {a : Term Cell} (ha : HasWidth a w)
    (h : ∀ env x, IsTerm env a w x → ∃ t, o = some t ∧ IsTerm env t v (f x)) :
    ∃ t, o = some t ∧ ∀ env x, IsTerm env a w x → IsTerm env t v (f x) := by
  obtain ⟨x, hx⟩ := ha fun _ _ => 0
  obtain ⟨t, ht, -⟩ := h _ x hx
  refine ⟨t, ht, fun env x hx => ?_⟩
  obtain ⟨t', ht', hv⟩ := h env x hx
  rw [ht] at ht'
  exact Option.some.inj ht' ▸ hv

theorem constant64_eq_some {x : BitVec 64} (h : constant64 e = some x) :
    ∃ c, e = .constant c ∧ c.width ≤ 64 ∧ x = c.value.setWidth 64 := by
  unfold constant64 at h
  split at h
  · split at h
    · exact ⟨_, rfl, ‹_›, (Option.some.inj h).symm⟩
    · cases h
  · cases h

section Mul

theorem setWidth_setWidth_64 (y : BitVec w) (hw : w ≤ 64) : (y.setWidth 64).setWidth w = y :=
  BitVec.eq_of_toNat_eq (by
    have hlt := y.isLt.trans_le (Nat.pow_le_pow_right two_pos hw)
    simp only [BitVec.toNat_setWidth]
    rw [Nat.mod_eq_of_lt hlt, Nat.mod_eq_of_lt y.isLt])

theorem mulByConstant_term {b : Term Cell} (hb : HasWidth b w) (hne : w ≠ 1) (hpos : 0 < w)
    (hw : w ≤ 64) (x : BitVec w) : ∃ t, constructMulByConstant b w (x.setWidth 64) = some t ∧
      ∀ env y, IsTerm env b w y → IsTerm env t w (y * x) := by
  refine exists_term hb fun env y hy => ?_
  obtain ⟨t, ht, hv⟩ := constructMulByConstant_spec (x.setWidth 64) (hy.bits hne) hpos hw
  rw [setWidth_setWidth_64 x hw] at hv
  exact ⟨t, ht, isTerm_of_bits hne hv⟩

theorem constructMul_constructs (hl : Constructs ml l) (hr : Constructs mr r)
    (hwr : r.width = l.width) (hne : l.width ≠ 1) (hpos : 0 < l.width) :
    Constructs (constructMul l ml mr) (.arith .mul l r) := by
  refine Runs.bind hr fun b hb => runs_require_bind (by rw [hb.1, hwr]; exact hne) ?_
  rw [hwr] at hb
  split
  case h_1 x _ hx =>
    obtain ⟨⟨w, c⟩, rfl, hw, rfl⟩ := constant64_eq_some hx
    obtain ⟨t, ht, hv⟩ := mulByConstant_term hb.2 hne hpos hw c
    have hb1 : b.2 = w := hb.1
    rw [hb1]
    refine runs_ofOption_bind ht (runs_pure ⟨rfl, fun env => ?_⟩ fun i hgr => ?_)
    · obtain ⟨y, hy⟩ := hb.2 env
      exact ⟨_, hv env y hy⟩
    · cases i with
      | values i =>
        intro hreg
        rw [Expr.WithinBounds] at hreg
        have hterm := hv i.env _ (Interpretation.Gives.at hgr hreg.2.1 hwr)
        rw [Expr.eval, Expr.eval]
        change IsTerm i.env t w (BitVec.setWidth w c * r.eval i.σ w)
        rw [BitVec.setWidth_eq, mul_comm]
        exact hterm
      | missing root => exact ⟨trivial, hgr⟩
      | apart => exact trivial
  case h_2 =>
    refine Runs.bind hl fun a ha => ?_
    rw [ha.1]
    refine runs_bvBinary ha.2 hb.2 hne ((runs_computes (computes_bvop (k := .mul)
      (fun _ _ _ => rfl) hne _ _) ha.2 (hwr ▸ hb.2) hwr rfl).weaken (fun _ h => h) ?_)
    exact fun i c _ h hgl hgr => h hgl hgr

end Mul

section Div

/-- The right operand is constructed after all. -/
theorem runs_symbolic (hop : Operator k op) (hr : Constructs mr r) (ha : HasWidth a.1 l.width)
    (hwr : r.width = l.width) (hne : l.width ≠ 1) :
    (tables B).Runs (mr >>= fun b => bvBinary op b.2 a.1 b.1 >>= fun t => pure (t, b.2))
      (fun c => c.2 = (Expr.arith k l r).width ∧ HasWidth c.1 (Expr.arith k l r).width)
      fun i c => i.Says a.1 l → i.Says c.1 (.arith k l r) := by
  refine Runs.bind hr fun b hb => ?_
  rw [hb.1, hwr]
  refine runs_bvBinary ha (hwr ▸ hb.2) hne ((runs_computes (computes_bvop hop hne _ _) ha hb.2
    hwr rfl).weaken (fun _ h => h) ?_)
  exact fun i c _ h hgr hgl => h hgl hgr

theorem computes_udivPowerOfTwo {a : Term Cell} {y : BitVec w} {n : Nat} (hw : w ≤ 64)
    (hne : w ≠ 1) (hn : n < 64) (hy : y.setWidth 64 = 1#64 <<< n) :
    ComputesConstant .udiv a y (bvRightShift a n) := by
  intro env x hx
  refine ⟨_, isTerm_of_bits hne (isBits_bvRightShift (hx.bits hne) n), fun _ => ?_⟩
  rw [denote_eq_operator _ hne]
  exact smtUDiv_two_pow (toNat_eq_two_pow hw hn hy).1

theorem smtUDiv_eq_div {x y : BitVec w} (hy : y ≠ 0) : x.smtUDiv y = x / y := by
  rw [BitVec.smtUDiv_eq, if_neg (show ¬ y = 0#w from hy)]

theorem smtSDiv_eq_sdiv {x y : BitVec w} (hy : y ≠ 0) : x.smtSDiv y = x.sdiv y := by
  have hneg : -y ≠ 0 := fun h => hy (neg_eq_zero.mp h)
  rw [BitVec.smtSDiv_eq, BitVec.sdiv_eq]
  cases x.msb <;> cases y.msb <;>
    simp only [smtUDiv_eq_div hy, smtUDiv_eq_div hneg, BitVec.udiv_eq]

theorem udivByConstant_term {a : Term Cell} (ha : HasWidth a w) (hw : w = 32) {y : BitVec w}
    (hy : y ≠ 0) : ∃ t, constructUDivByConstant a w (y.setWidth 64) = some t ∧
      ∀ env x, IsTerm env a w x → IsTerm env t w (x / y) := by
  subst hw
  refine exists_term ha fun env x hx => ?_
  obtain ⟨t, ht, hv⟩ := constructUDivByConstant_spec hy (hx.bits (by decide))
  exact ⟨t, ht, isTerm_of_bits (by decide) hv⟩

theorem constructUDiv_constructs [BuilderOptions] (hl : Constructs ml l) (hr : Constructs mr r)
    (hwr : r.width = l.width) (hne : l.width ≠ 1)
    (hdiv : ArithKind.udiv.DivisorRight (ArrayBuilder.solver B) r) :
    Constructs (constructUDiv r ml mr) (.arith .udiv l r) := by
  refine Runs.bind hl fun a ha => runs_require_bind (by rw [ha.1]; exact hne) ?_
  have hop : Operator .udiv .bvudiv := fun _ _ _ => rfl
  have hsymbolic := runs_symbolic hop hr ha.2 hwr hne
  dsimp only
  split
  case h_2 => exact hsymbolic
  case h_1 d hd =>
    obtain ⟨⟨w, y⟩, rfl, hw, rfl⟩ := constant64_eq_some hd
    have hwl : w = l.width := hwr
    subst hwl
    rw [ha.1]
    refine runs_ite (fun hpow => ?_) fun _ => runs_ite (fun hopt => ?_) fun _ => hsymbolic
    · obtain ⟨n, hn, hy⟩ := isPowerOfTwo_spec hpow
      have hn' := hy ▸ Bits64.indexOfSingleBit_bit hn
      exact runs_ofOption_bind hn' (runs_computesConstant
        (computes_udivPowerOfTwo hw hne hn hy) ha.2 rfl)
    · have hy : y ≠ 0 := hdiv hopt.1 _ rfl
      obtain ⟨t, ht, hv⟩ := udivByConstant_term ha.2 hopt.2.2 hy
      refine runs_ofOption_bind ht (runs_computesConstant (fun env x hx =>
        ⟨_, hv env x hx, fun _ => ?_⟩) ha.2 rfl)
      rw [denote_eq_operator _ hne]
      exact (smtUDiv_eq_div hy).symm

theorem eq_smtSDiv {n d q : BitVec 32} (hd : 2 ≤ d.toInt.natAbs)
    (hq : q.toInt = n.toInt.tdiv d.toInt) : q = n.smtSDiv d := by
  have hne : d ≠ 0 := by
    rintro rfl
    simp at hd
  rw [smtSDiv_eq_sdiv hne]
  apply BitVec.eq_of_toInt_eq
  rw [BitVec.toInt_sdiv, ← hq]
  exact (BitVec.toInt_bmod_cancel q).symm

theorem two_le_natAbs {y : BitVec 32} (h0 : y ≠ 0) (h1 : y ≠ 1) (hneg : y ≠ -1) :
    2 ≤ y.toInt.natAbs := by
  have h0 : y.toInt ≠ 0 := fun h => h0 (BitVec.eq_of_toInt_eq (h.trans (by decide)))
  have h1 : y.toInt ≠ 1 := fun h => h1 (BitVec.eq_of_toInt_eq (h.trans (by decide)))
  have hneg : y.toInt ≠ -1 := fun h => hneg (BitVec.eq_of_toInt_eq (h.trans (by decide)))
  omega

theorem sdivByConstant_term {a : Term Cell} (ha : HasWidth a w) (hw : w = 32) {y : BitVec w}
    (h0 : y ≠ 0) (h1 : y ≠ 1) (hneg : y ≠ -1) :
    ∃ t, constructSDivByConstant a w (y.setWidth 64) = some t ∧
      ∀ env x, IsTerm env a w x → IsTerm env t w (x.smtSDiv y) := by
  subst hw
  refine exists_term ha fun env x hx => ?_
  have hy := two_le_natAbs h0 h1 hneg
  obtain ⟨t, q, ht, hq, hv⟩ := constructSDivByConstant_spec hy (hx.bits (by decide))
  exact ⟨t, ht, isTerm_of_bits (by decide) (hq.congr (eq_smtSDiv hy hv))⟩

theorem constructSDiv_constructs [BuilderOptions] (hl : Constructs ml l) (hr : Constructs mr r)
    (hwr : r.width = l.width) (hne : l.width ≠ 1)
    (hdiv : ArithKind.sdiv.DivisorRight (ArrayBuilder.solver B) r) :
    Constructs (constructSDiv r ml mr) (.arith .sdiv l r) := by
  refine Runs.bind hl fun a ha => runs_require_bind (by rw [ha.1]; exact hne) ?_
  have hop : Operator .sdiv .bvsdiv := fun _ _ _ => rfl
  have hsymbolic := runs_symbolic hop hr ha.2 hwr hne
  dsimp only
  split
  case h_2 => exact hsymbolic
  case h_1 c hs =>
    obtain ⟨w, y⟩ := c
    have hwl : w = l.width := hwr
    subst hwl
    rw [ha.1]
    refine runs_ite (fun hopt => ?_) fun _ => hsymbolic
    obtain ⟨t, ht, hv⟩ := sdivByConstant_term ha.2 hopt.2.2.2 (hdiv hs _ rfl) hopt.2.1 hopt.2.2.1
    refine runs_ofOption_bind ht (runs_computesConstant (fun env x hx =>
      ⟨_, hv env x hx, fun _ => ?_⟩) ha.2 rfl)
    rw [denote_eq_operator _ hne]
    rfl

theorem computes_uremPowerOfTwo {a : Term Cell} {y : BitVec w} {n : Nat} (hw : w ≤ 64)
    (hne : w ≠ 1) (hn : n < 64) (hy : y.setWidth 64 = 1#64 <<< n) (hpos : n ≠ 0) :
    ComputesConstant .urem a y (.concat (bvZero (w - n)) (bvExtract a (n - 1) 0)) := by
  intro env x hx
  obtain ⟨hy, hnw⟩ := toNat_eq_two_pow hw hn hy
  have hslice := ((hx.bits hne).extract (Nat.zero_le (n - 1)) (by omega)).cast
    (by omega : n - 1 + 1 - 0 = n)
  refine ⟨_, isTerm_of_bits hne (isBits_zext hslice (by omega)), fun _ => ?_⟩
  rw [denote_eq_operator _ hne]
  refine Eq.trans ?_ (umod_two_pow hy hnw)
  congr 1
  refine BitVec.eq_of_getLsbD_eq fun i hi => ?_
  rw [BitVec.getLsbD_setWidth, BitVec.getLsbD_extractLsb', BitVec.getLsbD_extractLsb']
  have hi' : i < n - 1 + 1 - 0 := by omega
  simp only [hi, hi', decide_true, Bool.true_and]

theorem computes_uremOne {a : Term Cell} {y : BitVec w} (hw : w ≤ 64) (hne : w ≠ 1)
    (hy : y.setWidth 64 = 1#64 <<< 0) : ComputesConstant .urem a y (bvZero w) := by
  intro env x hx
  refine ⟨_, isTerm_of_bits hne (isBits_bvZero w), fun _ => ?_⟩
  rw [denote_eq_operator _ hne]
  apply BitVec.eq_of_toNat_eq
  change _ = (x % y).toNat
  rw [BitVec.toNat_umod, (toNat_eq_two_pow hw (by decide) hy).1, pow_zero, Nat.mod_one]
  rfl

theorem sub_div_mul (x y : BitVec w) : x - x / y * y = x % y := by
  have hle : x / y * y = BitVec.ofNat w (x.toNat / y.toNat * y.toNat) := by
    apply BitVec.eq_of_toNat_eq
    rw [BitVec.toNat_mul, BitVec.toNat_udiv, BitVec.toNat_ofNat]
  have hlt : x.toNat / y.toNat * y.toNat < 2 ^ w := (Nat.div_mul_le_self _ _).trans_lt x.isLt
  apply BitVec.eq_of_toNat_eq
  rw [BitVec.toNat_sub_of_le, hle, BitVec.toNat_ofNat, Nat.mod_eq_of_lt hlt, BitVec.toNat_umod,
    Nat.mod_eq_sub_div_mul]
  rw [BitVec.le_def, hle, BitVec.toNat_ofNat, Nat.mod_eq_of_lt hlt]
  exact Nat.div_mul_le_self _ _

/-- The remainder from the quotient. -/
theorem uremByConstant_term {a q m : Term Cell} {x y : BitVec w}
    {env : Cell → (w : Nat) → BitVec w} (hne : w ≠ 1) (hx : IsTerm env a w x)
    (hq : IsTerm env q w (x / y)) (hm : ∀ z, IsTerm env q w z → IsTerm env m w (z * y)) :
    ∃ t, bvMinusExpr w a m = some t ∧ IsTerm env t w (x % y) := by
  obtain ⟨t, ht, hv⟩ := bvMinusExpr_spec (hx.bits hne) ((hm _ hq).bits hne)
  exact ⟨t, ht, isTerm_of_bits hne (hv.congr (sub_div_mul x y))⟩

theorem constructURem_constructs [BuilderOptions] (hl : Constructs ml l) (hr : Constructs mr r)
    (hwr : r.width = l.width) (hne : l.width ≠ 1) (hpos : 0 < l.width)
    (hdiv : ArithKind.urem.DivisorRight (ArrayBuilder.solver B) r) :
    Constructs (constructURem r ml mr) (.arith .urem l r) := by
  refine Runs.bind hl fun a ha => runs_require_bind (by rw [ha.1]; exact hne) ?_
  have hop : Operator .urem .bvurem := fun _ _ _ => rfl
  have hsymbolic := runs_symbolic hop hr ha.2 hwr hne
  dsimp only
  split
  case h_2 => exact hsymbolic
  case h_1 d hd =>
    obtain ⟨⟨w, y⟩, rfl, hw, rfl⟩ := constant64_eq_some hd
    have hwl : w = l.width := hwr
    subst hwl
    rw [ha.1]
    refine runs_ite (fun hpow => ?_) fun _ => runs_ite (fun hopt => ?_) fun _ => hsymbolic
    · obtain ⟨n, hn, hy⟩ := isPowerOfTwo_spec hpow
      refine runs_ofOption_bind (hy ▸ Bits64.indexOfSingleBit_bit hn)
        (runs_ite (fun hzero => ?_) fun hnz => ?_)
      · subst hzero
        exact runs_computesConstant (computes_uremOne hw hne hy) ha.2 rfl
      · exact runs_require_bind (fun _ => (toNat_eq_two_pow hw hn hy).2)
          (runs_computesConstant (computes_uremPowerOfTwo hw hne hn hy hnz) ha.2 rfl)
    · obtain ⟨q, hq, hqv⟩ := udivByConstant_term ha.2 hopt.2.2 (hdiv hopt.1 _ rfl)
      have hqw : HasWidth q l.width := fun env => by
        obtain ⟨x, hx⟩ := ha.2 env
        exact ⟨_, hqv env x hx⟩
      obtain ⟨m, hm, hmv⟩ := mulByConstant_term hqw hne hpos hw y
      obtain ⟨t, ht, htv⟩ := exists_term ha.2 fun env x hx =>
        uremByConstant_term hne hx (hqv env x hx) (hmv env)
      refine runs_ofOption_bind hq (runs_ofOption_bind hm (runs_ofOption_bind ht
        (runs_computesConstant (fun env x hx => ⟨_, htv env x hx, fun _ => ?_⟩) ha.2 rfl)))
      rw [denote_eq_operator _ hne]
      rfl

end Div

section Bitwise

theorem constructBitwise_constructs {onBool : Term Cell → Term Cell → Term Cell}
    {g : Bool → Bool → Bool} (hop : Operator k op)
    (honBool : ∀ env a b p q, IsBool env a p → IsBool env b q → IsBool env (onBool a b) (g p q))
    (hg : ∀ x y : BitVec 1, g (x.getLsbD 0) (y.getLsbD 0) = (k.denote x y).getLsbD 0)
    (hl : Constructs ml l) (hr : Constructs mr r) (hwr : r.width = l.width) :
    Constructs (constructBitwise op onBool ml mr) (.arith k l r) := by
  refine hl.bind₂ hr fun a b _ hb2 ha hb => ?_
  rw [hb2, hwr]
  refine runs_ite (fun hone => ?_) fun hne => ?_
  · refine runs_computes (fun env x y hx hy => ⟨_, ?_, fun _ => rfl⟩) ha hb hwr rfl
    exact isTerm_onBool (honBool env a.1 b.1) hg hx hy hone
  · exact runs_computes (computes_bvop hop hne _ _) ha hb hwr rfl

theorem constructShift_constructs (kind : ShiftKind)
    {shift : CoreSolverType → Term Cell → ShiftAmount Cell → Term Cell}
    (hshift : ∀ s, shift s = kind.construct s) (hl : Constructs ml l) (hr : Constructs mr r)
    (hwr : r.width = l.width) (hne : l.width ≠ 1) (hpos : 0 < l.width)
    (hlt : l.width < 2 ^ 32) : Constructs (constructShift shift r ml mr)
      (.arith kind.toArithKind l r) := by
  have hrange {y : BitVec l.width} (h : kind.toArithKind.ShiftInRange y) : y.toNat < l.width := by
    cases kind <;> exact h
  refine Runs.bind hl fun a ha => runs_require_bind (by rw [ha.1]; exact hne) ?_
  rw [ha.1, hshift]
  split
  case h_1 c =>
    obtain ⟨w, y⟩ := c
    have hwl : w = l.width := hwr
    subst hwl
    refine runs_computesConstant (fun env x hx => ⟨_, isTerm_of_bits hne
      (ShiftKind.isBits_construct_constant (hx.bits hne) hpos _), fun hy => ?_⟩) ha.2 rfl
    exact ShiftKind.shifted_of_lt (hrange hy)
      (ShiftKind.unsignedAmount_of_lt ((hrange hy).trans hlt))
  case h_2 =>
    refine Runs.bind hr fun b hb => ?_
    refine (runs_computes (k := kind.toArithKind) (fun env x y hx hy => ⟨_, isTerm_of_bits hne
      (ShiftKind.isBits_construct_symbolic (hx.bits hne) (hy.bits hne) hpos), fun hy => ?_⟩) ha.2
      hb.2 hwr rfl).weaken (fun _ h => h) fun i c _ h hgr hgl => h hgl hgr
    exact ShiftKind.shifted_of_lt (hrange hy) rfl

end Bitwise

/-- The thirteen operators. -/
theorem constructArith_constructs [BuilderOptions] (hl : Constructs ml l) (hr : Constructs mr r)
    (hwr : r.width = l.width) (hpos : 0 < l.width) (hbool : k.onBool = true ∨ l.width ≠ 1)
    (hlt : l.width < 2 ^ 32) (hdiv : k.DivisorRight (ArrayBuilder.solver B) r) :
    Constructs (constructArith k l r ml mr) (.arith k l r) := by
  have hne (h : k.onBool = false) : l.width ≠ 1 :=
    hbool.resolve_left fun htrue => Bool.false_ne_true (h.symm.trans htrue)
  cases k with
  | add => exact constructOperands_constructs (fun _ _ _ => rfl) hl hr hwr (hne rfl)
  | sub => exact constructOperands_constructs (fun _ _ _ => rfl) hl hr hwr (hne rfl)
  | mul => exact constructMul_constructs hl hr hwr (hne rfl) hpos
  | udiv => exact constructUDiv_constructs hl hr hwr (hne rfl) hdiv
  | sdiv => exact constructSDiv_constructs hl hr hwr (hne rfl) hdiv
  | urem => exact constructURem_constructs hl hr hwr (hne rfl) hpos hdiv
  | srem => exact constructOperands_constructs (fun _ _ _ => rfl) hl hr hwr (hne rfl)
  | and =>
    exact constructBitwise_constructs (fun _ _ _ => rfl) (fun _ _ _ _ _ ha hb => ha.and hb)
      (by decide) hl hr hwr
  | or =>
    exact constructBitwise_constructs (fun _ _ _ => rfl) (fun _ _ _ _ _ ha hb => ha.or hb)
      (by decide) hl hr hwr
  | xor =>
    exact constructBitwise_constructs (fun _ _ _ => rfl)
      (fun _ _ _ _ _ ha hb => ha.ite hb.not hb) (by decide) hl hr hwr
  | shl => exact constructShift_constructs .shl (fun _ => rfl) hl hr hwr (hne rfl) hpos hlt
  | lshr => exact constructShift_constructs .lshr (fun _ => rfl) hl hr hwr (hne rfl) hpos hlt
  | ashr => exact constructShift_constructs .ashr (fun _ => rfl) hl hr hwr (hne rfl) hpos hlt

end Arith

section Compare

variable {k : CmpKind}

theorem isTerm_of_isBool {env : Cell → (w : Nat) → BitVec w} {p : Bool} (h : IsBool env t p) :
    IsTerm env t 1 ((BitVec.ofBool p).setWidth 1) := by
  refine isTerm_of_bool rfl (h.congr ?_)
  rw [BitVec.setWidth_eq, bitVec_one_eq]

theorem runs_compare (ha : HasWidth a.1 l.width) (hb : HasWidth b.1 r.width)
    (hwr : r.width = l.width)
    (h : ∀ env (x y : BitVec l.width), IsTerm env a.1 l.width x → IsTerm env b.1 l.width y →
      IsBool env t (k.denote x y)) :
    (tables B).Runs (pure (t, 1))
      (fun c => c.2 = (Expr.cmp k l r).width ∧ HasWidth c.1 (Expr.cmp k l r).width)
      fun i c => i.Says a.1 l → i.Says b.1 r → i.Says c.1 (.cmp k l r) := by
  refine runs_pure ⟨rfl, fun env => ?_⟩ fun i hl hr => ?_
  · obtain ⟨x, hx⟩ := ha env
    obtain ⟨y, hy⟩ := (hwr ▸ hb) env
    exact ⟨_, isTerm_of_isBool (h env x y hx hy)⟩
  · cases i with
    | values i =>
      intro hreg
      rw [Expr.WithinBounds] at hreg
      rw [Expr.eval]
      exact isTerm_of_isBool (h i.env _ _ (hl hreg.1) (Interpretation.Gives.at hr hreg.2 hwr))
    | missing root => exact ⟨hl, hr⟩
    | apart => exact trivial

/-- A Boolean is compared with a constant by taking it or its negation. -/
theorem isBool_eq_constant {env : Cell → (w : Nat) → BitVec w} {c : ConstantExpr}
    (hc : c.width = 1) {y : BitVec c.width} (hy : IsTerm env t c.width y) :
    IsBool env (if c.isTrue then t else .not t) (c.value == y) := by
  obtain ⟨w, x⟩ := c
  have hone : w = 1 := hc
  subst hone
  have hy := hy.bool rfl
  change BitVec 1 at y
  obtain rfl | rfl := BitVec.eq_zero_or_eq_one x
  · refine (IsBool.not hy).congr ?_
    obtain rfl | rfl := BitVec.eq_zero_or_eq_one y <;> rfl
  · refine IsBool.congr hy ?_
    obtain rfl | rfl := BitVec.eq_zero_or_eq_one y <;> rfl

theorem constructEq_constructs (hl : Constructs ml l) (hr : Constructs mr r)
    (hwr : r.width = l.width) : Constructs (constructEq l ml mr) (.cmp .eq l r) := by
  refine hl.bind₂ hr fun a b _ hb2 ha hb => ?_
  rw [hb2, hwr]
  refine runs_ite (fun hone => ?_) fun hne => ?_
  · split
    case h_1 c _ =>
      refine runs_pure ⟨rfl, fun env => ?_⟩ fun i _ hgr => ?_
      · obtain ⟨y, hy⟩ := (hwr ▸ hb) env
        exact ⟨_, isTerm_of_isBool (isBool_eq_constant hone hy)⟩
      · cases i with
        | values i =>
          intro hreg
          rw [Expr.WithinBounds] at hreg
          have hy := Interpretation.Gives.at hgr hreg.2 hwr
          rw [Expr.eval, Expr.eval]
          refine isTerm_of_isBool ((isBool_eq_constant hone hy).congr ?_)
          change _ = (BitVec.setWidth c.width c.value == r.eval i.σ c.width)
          rw [BitVec.setWidth_eq]
          rfl
        | missing root => exact ⟨trivial, hgr⟩
        | apart => exact trivial
    case h_2 =>
      refine runs_compare ha hb hwr fun env x y hx hy => ?_
      refine ((hx.bool hone).eq (hy.bool hone)).congr ?_
      revert x y
      rw [hone]
      intro x y _ _
      obtain rfl | rfl := BitVec.eq_zero_or_eq_one x <;>
        obtain rfl | rfl := BitVec.eq_zero_or_eq_one y <;> rfl
  · exact runs_compare ha hb hwr fun env x y hx hy => (hx.bits hne).eq (hy.bits hne)

theorem constructCompare_constructs {cmp : BvCmp}
    (hcmp : ∀ (w : Nat) (x y : BitVec w), cmp.denote x y = k.denote x y) (hl : Constructs ml l)
    (hr : Constructs mr r) (hwr : r.width = l.width) (hne : l.width ≠ 1) :
    Constructs (constructCompare cmp ml mr) (.cmp k l r) := by
  refine hl.bind₂ hr fun a b _ hb2 ha hb => runs_require_bind (by rw [hb2, hwr]; exact hne) ?_
  refine runs_compare ha hb hwr fun env x y hx hy => ?_
  exact ((hx.bits hne).bvcmp cmp (hy.bits hne)).congr (hcmp _ x y)

theorem constructCmp_constructs (hl : Constructs ml l) (hr : Constructs mr r)
    (hwr : r.width = l.width) (hk : k.canonical l.width = true) :
    Constructs (constructCmp k l ml mr) (.cmp k l r) := by
  cases k with
  | eq => exact constructEq_constructs hl hr hwr
  | ult => exact constructCompare_constructs (fun _ _ _ => rfl) hl hr hwr (bne_iff_ne.mp hk)
  | ule => exact constructCompare_constructs (fun _ _ _ => rfl) hl hr hwr (bne_iff_ne.mp hk)
  | slt => exact constructCompare_constructs (fun _ _ _ => rfl) hl hr hwr (bne_iff_ne.mp hk)
  | sle => exact constructCompare_constructs (fun _ _ _ => rfl) hl hr hwr (bne_iff_ne.mp hk)
  | ne | ugt | uge | sgt | sge => cases hk

end Compare

section Rest

/-- A term with one operand. -/
theorem Constructs.bind_pure {m : BuildM B Sized} {e' : Expr} {f : Sized → Sized}
    (h : Constructs m e')
    (hf : ∀ a, a.2 = e'.width → HasWidth a.1 e'.width → (f a).2 = e.width ∧
      HasWidth (f a).1 e.width)
    (hval : ∀ (a : Sized) (i : Interpretation), a.2 = e'.width → i.Gives a.1 e' →
      i.Gives (f a).1 e)
    (hreads : ∀ P, e'.AllReads P → e.AllReads P) :
    Constructs (m >>= fun a => pure (f a)) e := by
  refine Runs.bind h fun a ha => runs_pure (hf a ha.1 ha.2) fun i hg => ?_
  cases i with
  | values i => exact hval a i ha.1 hg
  | missing root => exact hreads _ hg
  | apart => exact trivial

theorem constructCast_constructs {k : CastKind} {m : BuildM B Sized} (h : Constructs m e)
    (hpos : 0 < e.width) (hlt : e.width < w) :
    Constructs (m >>= fun src => constructCast k src w >>= fun t => pure (t, w)) (.cast k e w) := by
  have hw : w ≠ 1 := by omega
  -- the term that is constructed has the value of the cast
  have hend (a : Sized) (ha : a.2 = e.width ∧ HasWidth a.1 e.width) (t : Term Cell)
      (ht : ∀ env x, IsTerm env a.1 e.width x → IsBits env t w (k.denote x w)) :
      (tables B).Runs (pure (t, w))
        (fun c => c.2 = (Expr.cast k e w).width ∧ HasWidth c.1 (Expr.cast k e w).width)
        fun i c => i.Says a.1 e → i.Says c.1 (.cast k e w) := by
    refine runs_pure ⟨rfl, fun env => ?_⟩ fun i hg => ?_
    · obtain ⟨x, hx⟩ := ha.2 env
      exact ⟨_, isTerm_of_bits hw (ht env x hx)⟩
    · cases i with
      | values i =>
        intro hreg
        rw [Expr.WithinBounds] at hreg
        rw [Expr.eval]
        exact isTerm_of_bits hw (ht i.env _ (hg hreg))
      | missing root => exact hg
      | apart => exact trivial
  refine Runs.bind h fun a ha => ?_
  unfold constructCast
  dsimp only
  rw [ha.1]
  cases k with
  | zext =>
    dsimp only
    split
    case isTrue hone => exact hend a ha _ fun env x hx => isBits_ite_one hx hone w
    case isFalse hne =>
      rw [bind_assoc]
      exact runs_require_bind (fun _ => hlt)
        (hend a ha _ fun env x hx => isBits_zext (hx.bits hne) hlt.le)
  | sext =>
    dsimp only
    split
    case isTrue hone => exact hend a ha _ fun env x hx => isBits_ite_minusOne _ hx hone w
    case isFalse hne =>
      rw [bind_assoc]
      exact runs_require_bind hlt.le
        (hend a ha _ fun env x hx => (hx.bits hne).signExtend hlt.le)

theorem not_constructs {m : BuildM B Sized} (h : Constructs m e) :
    Constructs (m >>= fun res => pure (if res.2 = 1 then .not res.1 else .bvnot res.1, res.2))
      (.not e) := by
  have hterm (a : Term Cell) (env x) (hx : IsTerm env a e.width x) :
      IsTerm env (if e.width = 1 then .not a else .bvnot a) e.width (~~~ x) := by
    split
    case isTrue hone =>
      refine isTerm_of_bool hone ((hx.bool hone).not.congr ?_)
      rw [BitVec.getLsbD_not]
      simp [hone]
    case isFalse hne => exact isTerm_of_bits hne (hx.bits hne).bvnot
  refine h.bind_pure (fun a hw ha => ⟨hw, fun env => ?_⟩) (fun a i hw hg hreg => ?_)
    fun _ h => h
  · obtain ⟨x, hx⟩ := ha env
    rw [hw]
    exact ⟨_, hterm a.1 env x hx⟩
  · rw [Expr.WithinBounds] at hreg
    rw [hw, Expr.eval]
    exact hterm a.1 i.env _ (hg hreg)

theorem extract_constructs {m : BuildM B Sized} {off n : Nat} (h : Constructs m e)
    (hne : e.width ≠ 1) (hn : 0 < n) (hoff : off + n ≤ e.width) :
    Constructs (m >>= fun src => pure (constructExtract src.1 off n, n)) (.extract e off n) := by
  refine h.bind_pure (fun a _ ha => ⟨rfl, fun env => ?_⟩) (fun a i _ hg hreg => ?_) fun _ h => h
  · obtain ⟨x, hx⟩ := ha env
    exact ⟨_, isTerm_constructExtract (hx.bits hne) hn hoff⟩
  · rw [Expr.WithinBounds] at hreg
    rw [Expr.eval]
    exact isTerm_constructExtract ((hg hreg).bits hne) hn hoff

theorem concat_constructs (hl : Constructs ml l) (hr : Constructs mr r) (hl1 : l.width ≠ 1)
    (hr1 : r.width ≠ 1) (hpos : 0 < l.width) : Constructs (mr >>= fun res => ml >>= fun l' =>
      pure (.concat l'.1 res.1, (Expr.concat l r).width)) (.concat l r) := by
  have hw : l.width + r.width ≠ 1 := by omega
  refine hr.bind₂ hl fun b a _ _ hb ha => runs_pure ⟨rfl, fun env => ?_⟩ fun i hgr hgl => ?_
  · obtain ⟨x, hx⟩ := ha env
    obtain ⟨y, hy⟩ := hb env
    exact ⟨_, isTerm_of_bits hw ((hx.bits hl1).concat (hy.bits hr1))⟩
  · cases i with
    | values i =>
      intro hreg
      rw [Expr.WithinBounds] at hreg
      rw [Expr.eval]
      change IsTerm i.env _ (l.width + r.width) (BitVec.setWidth (l.width + r.width) _)
      rw [BitVec.setWidth_eq]
      exact isTerm_of_bits hw (((hgl hreg.1).bits hl1).concat ((hgr hreg.2).bits hr1))
    | missing root => exact ⟨hgl, hgr⟩
    | apart => exact trivial

theorem isTerm_ite {env : Cell → (w : Nat) → BitVec w} {c a b : Term Cell} {p : BitVec 1}
    {x y : BitVec w} (hc : IsTerm env c 1 p) (ha : IsTerm env a w x) (hb : IsTerm env b w y) :
    IsTerm env (.ite c a b) w (if p = 1#1 then x else y) := by
  have hp : (if p = 1#1 then x else y) = if p.getLsbD 0 = true then x else y := by
    simp only [one_iff_getLsbD]
  rw [hp]
  by_cases hw : w = 1
  · refine isTerm_of_bool hw (((hc.bool rfl).ite (ha.bool hw) (hb.bool hw)).congr ?_)
    split <;> rfl
  · exact isTerm_of_bits hw (IsBits.ite (hc.bool rfl) (ha.bits hw) (hb.bits hw))

theorem select_constructs {mc : BuildM B Sized} {c : Expr} (hc : Constructs mc c)
    (hl : Constructs ml l) (hr : Constructs mr r) (hc1 : c.width = 1) (hwr : r.width = l.width) :
    Constructs (mc >>= fun c => ml >>= fun t => mr >>= fun f => pure (.ite c.1 t.1 f.1, f.2))
      (.select c l r) := by
  refine Runs.bind hc fun p hp => Runs.bind hl fun a ha => Runs.bind hr fun b hb => ?_
  refine runs_pure ⟨hb.1.trans hwr, fun env => ?_⟩ fun i hgr hgl hgc => ?_
  · obtain ⟨z, hz⟩ := (hc1 ▸ hp.2) env
    obtain ⟨x, hx⟩ := ha.2 env
    obtain ⟨y, hy⟩ := (hwr ▸ hb.2) env
    exact ⟨_, isTerm_ite hz hx hy⟩
  · cases i with
    | values i =>
      intro hreg
      rw [Expr.WithinBounds] at hreg
      rw [Expr.eval]
      exact isTerm_ite (Interpretation.Gives.at hgc hreg.1 hc1) (hgl hreg.2.1)
        (Interpretation.Gives.at hgr hreg.2.2 hwr)
    | missing root => exact ⟨hgc, hgl, hgr⟩
    | apart => exact trivial

theorem read_constructs {m : BuildM B (Term Cell)} {root : Array} {head : UpdateNode}
    (hm : ConstructsArray m root head) (hr : Constructs mr r) (hwr : r.width = 32) :
    Constructs (m >>= fun array => mr >>= fun index =>
      pure (.select array index.1, root.getRange)) (.read root head r) := by
  refine Runs.bind hm fun a ha => Runs.bind hr fun b hb => ?_
  refine runs_pure ⟨rfl, fun env => ?_⟩ fun i hgr hga => ?_
  · obtain ⟨f, hf⟩ := ha env
    obtain ⟨y, hy⟩ := (hwr ▸ hb.2) env
    exact ⟨_, isTerm_of_bits (show 8 ≠ 1 by decide) (hf.select (hy.bits (by decide)))⟩
  · cases i with
    | values i =>
      intro hreg
      rw [Expr.WithinBounds] at hreg
      obtain ⟨hknown, hhead, hindex, hbound⟩ := hreg
      obtain ⟨f, hf, hbyte⟩ := hga hknown hhead
      have hy := (Interpretation.Gives.at hgr hindex hwr).bits (by decide)
      have hvalue : f (r.eval i.σ 32) = head.eval i.σ root (r.eval i.σ 32) := hbyte _ hbound
      rw [Expr.eval]
      change IsTerm i.env _ 8 (BitVec.setWidth 8 _)
      rw [BitVec.setWidth_eq, ← hvalue]
      exact isTerm_of_bits (by decide) (hf.select hy)
    | missing root' => exact ⟨hga.1, hga.2, hgr⟩
    | apart => exact trivial

/-- A write joins the chain. -/
theorem store_constructs {m : BuildM B (Term Cell)} {root : Array} {next : UpdateNode}
    (hm : ConstructsArray m root next) (hl : Constructs ml l) (hr : Constructs mr r)
    (hwl : l.width = 32) (hwr : r.width = 8) :
    ConstructsArray (m >>= fun array => ml >>= fun index => mr >>= fun value =>
      pure (.store array index.1 value.1)) root (.node next l r) := by
  refine Runs.bind hm fun a ha => Runs.bind hl fun j hj => Runs.bind hr fun v hv => ?_
  refine runs_pure (fun env => ?_) fun i hgv hgj hga => ?_
  · obtain ⟨f, hf⟩ := ha env
    obtain ⟨x, hx⟩ := (hwl ▸ hj.2) env
    obtain ⟨y, hy⟩ := (hwr ▸ hv.2) env
    exact ⟨_, hf.store (hx.bits (by decide)) (hy.bits (by decide))⟩
  · cases i with
    | values i =>
      intro hknown hreg
      rw [UpdateNode.WithinBounds] at hreg
      obtain ⟨f, hf, hbyte⟩ := hga hknown hreg.1
      have hindex := (Interpretation.Gives.at hgj hreg.2.1 hwl).bits (by decide)
      have hvalue := (Interpretation.Gives.at hgv hreg.2.2 hwr).bits (by decide)
      refine ⟨_, hf.store hindex hvalue, fun n hn => ?_⟩
      change _ = UpdateNode.eval i.σ root (.node next l r) n
      rw [UpdateNode.eval]
      by_cases heq : l.eval i.σ 32 = n
      · rw [if_pos heq, heq, Function.update_self]
      · rw [if_neg heq, Function.update_of_ne (Ne.symm heq)]
        exact hbyte n hn
    | missing root' => exact ⟨hga.1, hga.2, hgj, hgv⟩
    | apart => exact trivial

end Rest

end Cases

theorem z3Valid_empty : Z3Valid .empty where
  symbol _ _ h := by cases h
  asserted _ _ h := by cases h
  known _ _ := rfl

theorem stpValid_empty : STPValid .empty := fun _ _ h => by cases h

section Construct

open Growing.Setting

variable {B : Type} [ArrayBuilder B] [LawfulArrayBuilder B] [BuilderOptions]

mutual

theorem construct_constructs : ∀ e : Expr, e.WellSorted →
    e.Constructible (ArrayBuilder.solver B) → Constructs (construct e : BuildM B Sized) e
  | .constant c, _, _ => by
    rw [construct]
    refine runs_pure ⟨constructConstant_snd c, fun env => ⟨_, isTerm_constructConstant c⟩⟩
      fun i => ?_
    cases i with
    | values i =>
      intro _
      rw [Expr.eval]
      change IsTerm i.env _ c.width (BitVec.setWidth c.width c.value)
      rw [BitVec.setWidth_eq]
      exact isTerm_constructConstant c
    | missing root => exact trivial
    | apart => exact trivial
  | .notOptimized e, hsort, hcon => by
    rw [Expr.WellSorted] at hsort
    rw [Expr.Constructible] at hcon
    rw [construct]
    refine Constructs.hashed ((construct_constructs e hsort hcon).weaken (fun _ h => h) ?_)
    intro i a _ hg
    cases i with
    | values i =>
      intro hreg
      rw [Expr.WithinBounds] at hreg
      rw [Expr.eval]
      exact hg hreg
    | missing root => exact hg
    | apart => exact trivial
  | .read root head index, hsort, hcon => by
    rw [Expr.WellSorted] at hsort
    rw [Expr.Constructible] at hcon
    rw [construct]
    exact (read_constructs (getArrayForUpdate_constructs root head hsort.1 hcon.1)
      (construct_constructs index hsort.2.1 hcon.2) hsort.2.2).hashed
  | .select c t f, hsort, hcon => by
    rw [Expr.WellSorted] at hsort
    rw [Expr.Constructible] at hcon
    rw [construct]
    exact (select_constructs (construct_constructs c hsort.1.1 hcon.1)
      (construct_constructs t hsort.2.1 hcon.2.1) (construct_constructs f hsort.2.2.1 hcon.2.2)
      hsort.1.2 hsort.2.2.2).hashed
  | .concat l r, hsort, hcon => by
    rw [Expr.WellSorted] at hsort
    rw [Expr.Constructible] at hcon
    rw [construct]
    exact (concat_constructs (construct_constructs l hsort.1 hcon.1)
      (construct_constructs r hsort.2 hcon.2.1) hcon.2.2.1 hcon.2.2.2
      (l.width_pos hsort.1)).hashed
  | .extract e off n, hsort, hcon => by
    rw [Expr.WellSorted] at hsort
    rw [Expr.Constructible] at hcon
    rw [construct]
    exact (extract_constructs (construct_constructs e hsort.1 hcon.1) hcon.2 hsort.2.1
      hsort.2.2).hashed
  | .cast k e n, hsort, hcon => by
    rw [Expr.WellSorted] at hsort
    rw [Expr.Constructible] at hcon
    rw [construct]
    exact (constructCast_constructs (construct_constructs e hsort.1 hcon.1)
      (e.width_pos hsort.1) hcon.2).hashed
  | .not e, hsort, hcon => by
    rw [Expr.WellSorted] at hsort
    rw [Expr.Constructible] at hcon
    rw [construct]
    exact (not_constructs (construct_constructs e hsort hcon)).hashed
  | .arith k l r, hsort, hcon => by
    rw [Expr.WellSorted] at hsort
    rw [Expr.Constructible] at hcon
    rw [construct]
    exact (constructArith_constructs (construct_constructs l hsort.1 hcon.1)
      (construct_constructs r hsort.2.1 hcon.2.1) hsort.2.2 (l.width_pos hsort.1) hcon.2.2.1
      hcon.2.2.2.1 hcon.2.2.2.2).hashed
  | .cmp k l r, hsort, hcon => by
    rw [Expr.WellSorted] at hsort
    rw [Expr.Constructible] at hcon
    rw [construct]
    exact (constructCmp_constructs (construct_constructs l hsort.1 hcon.1)
      (construct_constructs r hsort.2.1 hcon.2.1) hsort.2.2 hcon.2.2).hashed

theorem getArrayForUpdate_constructs (root : Array) : ∀ un : UpdateNode, un.WellSorted →
    un.Constructible (ArrayBuilder.solver B) →
    ConstructsArray (getArrayForUpdate root un : BuildM B (Term Cell)) root un
  | .null, _, _ => by
    rw [getArrayForUpdate]
    exact getInitialArray_constructs root
  | .node next index value, hsort, hcon => by
    rw [UpdateNode.WellSorted] at hsort
    rw [UpdateNode.Constructible] at hcon
    rw [getArrayForUpdate]
    exact (store_constructs (getArrayForUpdate_constructs root next hsort.1 hcon.1)
      (construct_constructs index hsort.2.1.1 hcon.2.1)
      (construct_constructs value hsort.2.2.1 hcon.2.2) hsort.2.1.2 hsort.2.2.2).memo

end

omit [BuilderOptions] in
/-- Where the symbols are apart, every assignment is that of an environment. -/
theorem exists_fits {b : Builder B} (hb : Inv b)
    (hapart : SymbolsApart (ArrayBuilder.arrHash b.arrays)) (σ : Assignment)
    (known : Array → Prop) : ∃ env, Fits (.values ⟨env, σ, known⟩) b := by
  classical
  let env : Cell → (w : Nat) → BitVec w := fun c w =>
    if h : ∃ root e, (ArrayBuilder.arrHash b.arrays).lookup root = some e ∧ e.base = c.1 then
      (h.choose.initial σ c.2.toNat).setWidth w
    else 0
  refine ⟨env, fun root e _ he => LawfulArrayBuilder.explains b.arrays root e env σ hb.arrays he
    fun j _ => ?_⟩
  have h : ∃ root e', (ArrayBuilder.arrHash b.arrays).lookup root = some e' ∧
      e'.base = e.base := ⟨root, e, he, rfl⟩
  obtain ⟨e', he', hbase⟩ := h.choose_spec
  have hbyte : env (e.base, j) 8 = h.choose.initial σ j.toNat :=
    (dif_pos h).trans (BitVec.setWidth_eq _)
  rw [hbyte]
  obtain heq | ⟨hconst, hconst', hvalues⟩ := hapart _ _ e' e he' he hbase
  · rw [heq]
  · rw [Array.initial, Array.initial, if_pos hconst, if_pos hconst', hvalues]

omit [BuilderOptions] in
/-- A builder without tables. -/
theorem inv_new {arrays : B} (h : LawfulArrayBuilder.Valid arrays) :
    Inv (Builder.new arrays) where
  arrays := h
  constructed _ _ hr := by cases hr
  updateNodeHash _ _ _ ht := by cases ht

omit [BuilderOptions] in
theorem runs_clearConstructCache :
    (tables B).Runs (modify clearConstructCache) (fun _ => True) fun _ _ => True := by
  intro b hb
  have hfits (i : Reader) : Fits i (clearConstructCache b) ↔ Fits i b := by
    cases i <;> exact Iff.rfl
  refine ⟨(), clearConstructCache b, rfl, ?_, fun i hi => (hfits i).mp hi, trivial,
    fun _ _ => trivial⟩
  constructor
  · exact hb.arrays
  · intro e r hr
    cases hr
  · exact fun root un t ht => (hb.updateNodeHash root un t ht).imp_right fun h i hi =>
      h i ((hfits i).mp hi)

theorem constructExpr_runs {e : Expr} (hsort : e.WellSorted)
    (hcon : e.Constructible (ArrayBuilder.solver B)) :
    (tables B).Runs (constructExpr e) (fun t => HasWidth t e.width) fun i t => i.Says t e := by
  refine Runs.bind (construct_constructs e hsort hcon) fun a ha => ?_
  have hend : (tables B).Runs (pure a.1) (fun t => HasWidth t e.width)
      fun i t => i.Says a.1 e → i.Says t e := runs_pure ha.2 fun _ h => h
  split
  · refine runs_clearConstructCache.bind fun _ _ => ?_
    exact hend.weaken (fun _ h => h) fun _ _ _ h _ => h
  · exact hend

/-- Constructing `es` from new arrays succeeds with terms of the right widths, and each has the
value of its expression wherever the arrays of the builder in the end have their bytes; this is so
for any assignment where the arrays have their own symbols. -/
def Faithful (arrays : B) (es : List Expr) : Prop :=
  ∃ ts b, es.mapM constructExpr (.new arrays) = some (ts, b) ∧
    List.Forall₂ (fun e t => HasWidth t e.width) es ts ∧
    (∀ i, Fits (.values i) b → List.Forall₂ (fun e t => i.Gives t e) es ts) ∧
    (SymbolsApart (ArrayBuilder.arrHash b.arrays) →
      ∀ σ known, ∃ env, Fits (.values ⟨env, σ, known⟩) b)

theorem faithful {arrays : B} (h : LawfulArrayBuilder.Valid arrays) {es : List Expr}
    (hes : ∀ e ∈ es, e.WellSorted ∧ e.Constructible (ArrayBuilder.solver B)) :
    Faithful arrays es := by
  have hbuild := runs_mapM (S := tables B) (f := constructExpr)
    fun e he => constructExpr_runs (hes e he).1 (hes e he).2
  obtain ⟨ts, b, hrun, hb, -, hwidth, hsays⟩ := hbuild (.new arrays) (inv_new h)
  exact ⟨ts, b, hrun, hwidth, fun i hi => hsays (.values i) hi, exists_fits hb⟩

end Construct

/-- `x[i] / 12` and the sign of `x[i] with x[1] := 7`, where `i` is a byte of `x` too. -/
def dividedByte : List Expr :=
  let x : Array := .symbolic 0 "x" 4
  let i : Expr := .zext (.read x .null (.constant ⟨32, 0⟩)) 32
  [.arith .udiv (.zext (.read x .null i) 32) (.constant ⟨32, 12⟩),
    .cmp .slt (.read x (.node .null (.constant ⟨32, 1⟩) (.constant ⟨8, 7⟩)) i) (.constant ⟨8, 0⟩)]

end Klee.SolverBuilder

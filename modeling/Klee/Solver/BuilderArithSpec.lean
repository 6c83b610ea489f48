import Klee.Solver.BuilderArith
import Klee.Solver.BuilderShiftsSpec
import Klee.Solver.ConstantDivisionSpec
import Klee.Lib.Reciprocal

/-! The values of the products and quotients by constants that `STPBuilder` constructs. -/
namespace Klee.SolverBuilder

open Smt Smt.Term

variable {V : Type} {env : V → (w : Nat) → BitVec w} {expr a b op : Term V} {w : Nat}
  {x y v : BitVec w}

section Stp

theorem bvPlusExpr_spec (ha : IsBits env a w x) (hb : IsBits env b w y) :
    ∃ t, bvPlusExpr w a b = some t ∧ IsBits env t w (x + y) :=
  ⟨_, if_pos ⟨isBits_length ha, isBits_length hb⟩, ha.bvop .bvadd hb⟩

theorem bvMinusExpr_spec (ha : IsBits env a w x) (hb : IsBits env b w y) :
    ∃ t, bvMinusExpr w a b = some t ∧ IsBits env t w (x - y) :=
  ⟨_, if_pos ⟨isBits_length ha, isBits_length hb⟩, ha.bvop .bvsub hb⟩

end Stp

section Mul

variable {res : Option (Term V)} {add sub m : BitVec 64} {j : Nat}

def IsPartial (env : V → (w : Nat) → BitVec w) (res : Option (Term V)) (w : Nat)
    (v : BitVec w) : Prop :=
  match res with
  | some t => IsBits env t w v
  | none => v = 0

theorem plusShifted_spec (hres : IsPartial env res w v) (hop : IsBits env op w y) :
    ∃ t, plusShifted w res op = some t ∧ IsBits env t w (v + y) := by
  cases res with
  | some t => exact bvPlusExpr_spec hres hop
  | none =>
    have hv : v = 0 := hres
    exact ⟨op, rfl, hop.congr (by rw [hv, zero_add])⟩

theorem minusShifted_spec (hres : IsPartial env res w v) (hop : IsBits env op w y) :
    ∃ t, minusShifted w res op = some t ∧ IsBits env t w (v - y) := by
  cases res with
  | some t => exact bvMinusExpr_spec hres hop
  | none =>
    have hv : v = 0 := hres
    exact ⟨.bvneg op, rfl, hop.bvneg.congr (by rw [hv, zero_sub])⟩

/-- The part of a mask below the bit `j`, as a factor. -/
def lowPart (w : Nat) (a : BitVec 64) (j : Nat) : BitVec w := BitVec.ofNat w (a.toNat % 2 ^ j)

theorem lowPart_succ (w : Nat) (a : BitVec 64) (j : Nat) : lowPart w a (j + 1) =
    lowPart w a j + if a.getLsbD j then BitVec.twoPow w j else 0 := by
  have hsplit : a.toNat % 2 ^ (j + 1) = a.toNat % 2 ^ j + 2 ^ j * (a.getLsbD j).toNat := by
    rw [pow_succ, Nat.mod_mul, BitVec.getLsbD, Nat.toNat_testBit]
  rw [lowPart, hsplit, BitVec.ofNat_add]
  congr 1
  cases a.getLsbD j with
  | false => simp
  | true =>
    apply BitVec.eq_of_toNat_eq
    rw [Bool.toNat_true, mul_one, BitVec.toNat_ofNat, if_pos rfl, BitVec.toNat_twoPow]

/-- The loop adds the products with the bits of `add` and takes those of `sub` away, by induction
on the bits that are left. -/
theorem mulLoop_spec (hexpr : IsBits env expr w x)
    (hdisjoint : ∀ i, add.getLsbD i = true → sub.getLsbD i = false) (hj : j ≤ 64)
    (hres : IsPartial env res w v) : ∃ r, mulLoop expr w add sub j res = some r ∧
      IsPartial env r w (v + x * (lowPart w add j - lowPart w sub j)) := by
  induction j generalizing res v with
  | zero =>
    refine ⟨res, rfl, ?_⟩
    have hzero (a : BitVec 64) : lowPart w a 0 = 0 := by simp [lowPart, Nat.mod_one]
    rwa [hzero, hzero, sub_self, mul_zero, add_zero]
  | succ j ih =>
    have hlt : j < 64 := hj
    have hop := isBits_bvLeftShift hexpr j
    rw [BitVec.shiftLeft_eq_mul_twoPow] at hop
    have hbit (a : BitVec 64) : a &&& 1#64 <<< j ≠ 0 ↔ a.getLsbD j = true :=
      BitVec.and_bit_ne_zero hlt a
    rw [mulLoop, lowPart_succ, lowPart_succ]
    dsimp only
    simp only [hbit]
    cases hadd : add.getLsbD j with
    | true =>
      have hsub := hdisjoint j hadd
      obtain ⟨t, ht, htv⟩ := plusShifted_spec hres hop
      have hpartial : IsPartial env (some t) w _ := htv
      obtain ⟨r, hr, hrv⟩ := ih hlt.le hpartial
      refine ⟨r, by simpa [hsub, ht] using hr, ?_⟩
      rw [hsub]
      convert hrv using 1
      simp only [if_true, if_false, Bool.false_eq_true]
      ring
    | false =>
      cases hsub : sub.getLsbD j with
      | true =>
        obtain ⟨t, ht, htv⟩ := minusShifted_spec hres hop
        have hpartial : IsPartial env (some t) w _ := htv
        obtain ⟨r, hr, hrv⟩ := ih hlt.le hpartial
        refine ⟨r, by simpa [ht] using hr, ?_⟩
        convert hrv using 1
        simp only [if_true, if_false, Bool.false_eq_true]
        ring
      | false =>
        obtain ⟨r, hr, hrv⟩ := ih hlt.le hres
        refine ⟨r, by simpa using hr, ?_⟩
        simpa using hrv

theorem lowPart_all (w : Nat) (a : BitVec 64) : lowPart w a 64 = a.setWidth w := by
  apply BitVec.eq_of_toNat_eq
  rw [lowPart, Nat.mod_eq_of_lt a.isLt]
  simp

/-- Truncation keeps the bits that a product of width `w` can see. -/
theorem setWidth_truncateToNBits (h : Bits64.truncateToNBits add w = some sub) :
    sub.setWidth w = add.setWidth w := by
  refine BitVec.eq_of_getLsbD_eq fun i hi => ?_
  rw [BitVec.getLsbD_setWidth, BitVec.getLsbD_setWidth, Bits64.getLsbD_truncateToNBits h]
  simp [hi]

/-- The term multiplies by the constant, modulo `2 ^ w`. -/
theorem constructMulByConstant_spec (m : BitVec 64) (hexpr : IsBits env expr w x) (hw : 0 < w)
    (hw64 : w ≤ 64) : ∃ t, constructMulByConstant expr w m = some t ∧
      IsBits env t w (x * m.setWidth w) := by
  obtain ⟨add, sub, hconst, hand, hdiff⟩ := computeMultConstants64_spec m
  have hcut (z : BitVec 64) : ∃ z', Bits64.truncateToNBits z w = some z' :=
    ⟨_, if_pos ⟨hw, hw64⟩⟩
  obtain ⟨add', hadd⟩ := hcut add
  obtain ⟨sub', hsub⟩ := hcut sub
  have hdisjoint (i : Nat) (hi : add'.getLsbD i = true) : sub'.getLsbD i = false := by
    rw [Bits64.getLsbD_truncateToNBits hadd, Bool.and_eq_true] at hi
    have hbit := congrArg (fun z : BitVec 64 => z.getLsbD i) hand
    simp only [BitVec.getLsbD_and, hi.2, Bool.true_and] at hbit
    rw [Bits64.getLsbD_truncateToNBits hsub, hbit]
    simp
  have hnone : IsPartial env none w 0 := rfl
  obtain ⟨r, hloop, hr⟩ := mulLoop_spec hexpr hdisjoint le_rfl hnone
  have hvalue : 0 + x * (lowPart w add' 64 - lowPart w sub' 64) = x * m.setWidth w := by
    rw [zero_add, lowPart_all, lowPart_all, setWidth_truncateToNBits hadd,
      setWidth_truncateToNBits hsub, ← BitVec.setWidth_sub _ _ hw64, hdiff]
  rw [hvalue] at hr
  refine ⟨r.getD (bvZero w), ?_, ?_⟩
  · simp only [constructMulByConstant, hconst, hadd, hsub, hloop, Option.bind_eq_bind,
      Option.bind_some]
    rfl
  · cases r with
    | some t => exact hr
    | none =>
      have hzero : x * m.setWidth w = 0 := hr
      exact (isBits_bvZero w).congr hzero.symm

/-- The masks of every multiplier recode it, and the sum of shifted copies is the product: shifts
that reach the width fall away with the truncated masks. -/
theorem constructMulByConstant_correct (m : BitVec 64) :
    (∃ add sub, computeMultConstants64 m = some (add, sub) ∧ add &&& sub = 0 ∧ add - sub = m) ∧
    ∀ (V : Type) (env : V → (w : Nat) → BitVec w) (expr : Term V) (w : Nat) (x : BitVec w),
      0 < w → w ≤ 64 → IsBits env expr w x → ∃ t, constructMulByConstant expr w m = some t ∧
        IsBits env t w (x * m.setWidth w) := by
  refine ⟨?_, fun V env expr w x hw hw64 hx => constructMulByConstant_spec m hx hw hw64⟩
  obtain ⟨add, sub, hconstants, hdisjoint, hdiff⟩ := computeMultConstants64_spec m
  exact ⟨add, sub, hconstants, hdisjoint, hdiff⟩

theorem constructMulByConstant_correct_byte :
    ∃ t, constructMulByConstant (.numeral 8 200 : Term Nat) 8 0x8000000000000107#64 = some t ∧
      IsBits (fun _ _ => 0) t 8 (200#8 * 7#8) :=
  (constructMulByConstant_correct 0x8000000000000107#64).2 Nat (fun _ _ => 0) (.numeral 8 200) 8
    200#8 (by decide) (by decide) rfl

end Mul

section UDiv

/-- The upper 32 bits of a product of two 32-bit values. -/
theorem toNat_mulHigh (x y : BitVec 32) :
    ((x.setWidth 64 * y.setWidth 64).extractLsb' 32 32).toNat = y.toNat * x.toNat / 2 ^ 32 := by
  have hx := x.isLt
  have hy := y.isLt
  have hlt : x.toNat * y.toNat < 2 ^ 32 * 2 ^ 32 := Nat.mul_lt_mul'' hx hy
  rw [BitVec.extractLsb'_toNat, Nat.shiftRight_eq_div_pow, BitVec.toNat_mul,
    BitVec.toNat_setWidth, BitVec.toNat_setWidth, Nat.mod_eq_of_lt (hx.trans (by norm_num)),
    Nat.mod_eq_of_lt (hy.trans (by norm_num)), Nat.mod_eq_of_lt (hlt.trans_eq (by norm_num)),
    Nat.mod_eq_of_lt (Nat.div_lt_of_lt_mul hlt), Nat.mul_comm]

/-- The term divides by the constant. -/
theorem constructUDivByConstant_spec {n d : BitVec 32} (hd : d ≠ 0) (hn : IsBits env expr 32 n) :
    ∃ t, constructUDivByConstant expr 32 (d.setWidth 64) = some t ∧ IsBits env t 32 (n / d) := by
  obtain ⟨c, l, hc, hlog, -, hmprime, hsh1, hsh2⟩ := computeUDivConstants32_spec hd
  have hpos : 0 < d.toNat := Nat.pos_of_ne_zero fun h => hd (BitVec.eq_of_toNat_eq h)
  -- the upper half of the product
  have hn64 : IsBits env (.concat (bvZero 32) expr) 64 (n.setWidth 64) := isBits_zero_concat 32 hn
  obtain ⟨p, hp, hpv⟩ := constructMulByConstant_spec (c.mprime.setWidth 64) hn64 (by decide) le_rfl
  rw [BitVec.setWidth_eq] at hpv
  have ht1 := (hpv.extract (by decide : 32 ≤ 63) (by decide)).cast rfl
  rw [BitVec.setWidth_eq] at ht1
  obtain ⟨t1, ht1v⟩ : ∃ t1, t1 = (n.setWidth 64 * c.mprime.setWidth 64).extractLsb' 32 32 :=
    ⟨_, rfl⟩
  have ht1' : IsBits env (bvExtract p 63 32) 32 t1 := ht1v ▸ ht1
  have ht1n : t1.toNat = (2 ^ 32 * (2 ^ l - d.toNat) / d.toNat + 1) * n.toNat / 2 ^ 32 := by
    rw [ht1v, toNat_mulHigh, hmprime]
  obtain ⟨hle, hquotient⟩ := udiv_by_multiplier hpos d.isLt n.isLt hlog ht1n
  -- the sums and shifts
  obtain ⟨a, ha, hav⟩ := bvMinusExpr_spec hn ht1'
  have hamount {w : Nat} (k : BitVec 32) : IsBits env (bvConst32 32 k.toNat) 32 k :=
    (isBits_bvConst32 32 k.toNat).congr (by simp)
  have hfits : AmountFits .stp 32 32 := .self (by decide)
  have hshift1 := isBits_bvVarRightShift hav (hamount (w := 32) c.sh1) (by decide) hfits
  obtain ⟨b, hb, hbv⟩ := bvPlusExpr_spec hshift1 ht1'
  have hshift2 := isBits_bvVarRightShift hbv (hamount (w := 32) c.sh2) (by decide) hfits
  refine ⟨_, ?_, hshift2.congr (BitVec.eq_of_toNat_eq ?_)⟩
  · have hcut : (d.setWidth 64).setWidth 32 = d := BitVec.setWidth_setWidth_self d (by decide)
    rw [constructUDivByConstant, if_neg (not_not.mpr rfl), hcut, hc]
    simp only [Option.bind_eq_bind, Option.bind_some, hp, ha, hb]
    rfl
  · have hsub : (n - t1).toNat = n.toNat - t1.toNat := BitVec.toNat_sub_of_le hle
    have hdiv : (n.toNat - t1.toNat) / 2 ^ min l 1 ≤ n.toNat - t1.toNat := Nat.div_le_self _ _
    have hlt := n.isLt
    rw [BitVec.toNat_ushiftRight, BitVec.toNat_add, BitVec.toNat_ushiftRight, hsub,
      Nat.shiftRight_eq_div_pow, Nat.shiftRight_eq_div_pow, hsh1, hsh2, BitVec.toNat_udiv,
      Nat.mod_eq_of_lt (by omega), hquotient]

/-- The constants of every divisor exist and nothing overflows on the way, and the term built from
them divides. -/
theorem constructUDivByConstant_correct (d : BitVec 32) (hd : d ≠ 0) :
    (∃ c, computeUDivConstants32 d = some c ∧ 2 ^ 32 * (udivMid d).toNat < 2 ^ 64 ∧
      2 ^ 32 * (udivMid d).toNat / d.toNat + 1 < 2 ^ 64 ∧
      c.mprime.toNat = 2 ^ 32 * (udivMid d).toNat / d.toNat + 1) ∧
    ∀ (V : Type) (env : V → (w : Nat) → BitVec w) (expr : Term V) (n : BitVec 32),
      IsBits env expr 32 n → ∃ t, constructUDivByConstant expr 32 (d.setWidth 64) = some t ∧
        IsBits env t 32 (n / d) := by
  refine ⟨?_, fun V env expr n hn => constructUDivByConstant_spec hd hn⟩
  obtain ⟨c, l, hc, hlog, hmid, hmprime, -, -⟩ := computeUDivConstants32_spec hd
  have hpos : 0 < d.toNat := Nat.pos_of_ne_zero fun h => hd (BitVec.eq_of_toNat_eq h)
  have hquotient := udiv_quotient_lt hpos d.isLt hlog
  have hlt := (udivMid d).isLt
  rw [← hmid] at hmprime hquotient
  exact ⟨c, hc, by omega, by omega, hmprime⟩

theorem constructUDivByConstant_correct_seven :
    ∃ t, constructUDivByConstant (.numeral 32 4294967295 : Term Nat) 32 7#64 = some t ∧
      IsBits (fun _ _ => 0) t 32 (4294967295#32 / 7#32) :=
  (constructUDivByConstant_correct 7#32 (by decide)).2 Nat (fun _ _ => 0) (.numeral 32 4294967295)
    4294967295#32 rfl

end UDiv

section SDiv

/-! Values given by integers. -/

theorem ofInt_shiftRight_extract (z : Int) {k : Nat} (hk : k ≤ 32) :
    (BitVec.ofInt 64 z >>> k).extractLsb' 0 32 = BitVec.ofInt 32 (z / 2 ^ k) := by
  apply BitVec.eq_of_toNat_eq
  have hsplit : (2 : Int) ^ 64 = 2 ^ k * (2 ^ (32 - k) * 2 ^ 32) := by
    rw [← pow_add, ← pow_add]
    congr 1
    omega
  have hpos : (0 : Int) < 2 ^ k := by positivity
  -- whole multiples of 2 ^ 64 do not reach the 32 bits
  have hcut : z % 2 ^ 64 / 2 ^ k % 2 ^ 32 = z / 2 ^ k % 2 ^ 32 := by
    have hdiv : z / 2 ^ k = z % 2 ^ 64 / 2 ^ k + z / 2 ^ 64 * 2 ^ (32 - k) * 2 ^ 32 := by
      have hz : z = z % 2 ^ 64 + 2 ^ k * (z / 2 ^ 64 * 2 ^ (32 - k) * 2 ^ 32) := by
        have := Int.emod_add_mul_ediv z (2 ^ 64)
        rw [hsplit] at this ⊢
        linarith only [this]
      conv_lhs => rw [hz]
      rw [Int.add_mul_ediv_left _ _ hpos.ne']
    rw [hdiv, Int.add_mul_emod_self_right]
  have hnonneg : 0 ≤ z % 2 ^ 64 := Int.emod_nonneg z (by decide)
  rw [BitVec.extractLsb'_toNat, BitVec.toNat_ushiftRight, BitVec.toNat_ofInt, BitVec.toNat_ofInt,
    Nat.shiftRight_zero, Nat.shiftRight_eq_div_pow]
  have hleft : ((z % 2 ^ 64).toNat : Int) = z % 2 ^ 64 := Int.toNat_of_nonneg hnonneg
  have hright : ((z / 2 ^ k % 2 ^ 32).toNat : Int) = z / 2 ^ k % 2 ^ 32 :=
    Int.toNat_of_nonneg (Int.emod_nonneg _ (by decide))
  apply Int.ofNat.inj
  calc (((z % 2 ^ 64).toNat / 2 ^ k % 2 ^ 32 : Nat) : Int)
      = ((z % 2 ^ 64).toNat : Int) / 2 ^ k % 2 ^ 32 := by push_cast; rfl
    _ = ((z / 2 ^ k % 2 ^ 32).toNat : Int) := by rw [hleft, hright, hcut]

theorem extract_high (x : BitVec 64) : x.extractLsb' 32 32 = (x >>> 32).extractLsb' 0 32 := by
  refine BitVec.eq_of_getLsbD_eq fun i hi => ?_
  rw [BitVec.getLsbD_extractLsb', BitVec.getLsbD_extractLsb', BitVec.getLsbD_ushiftRight,
    Nat.zero_add]

theorem signExtend_ofInt {z : Int} (hlow : -2 ^ 31 ≤ z) (hhigh : z < 2 ^ 31) :
    (BitVec.ofInt 32 z).signExtend 64 = BitVec.ofInt 64 z := by
  rw [BitVec.signExtend, BitVec.toInt_ofInt_eq_self (by decide) hlow hhigh]

/-- The quotient by the absolute value of the divisor. -/
theorem sdiv_by_multiplier {d : BitVec 32} {l : Nat} (n : BitVec 32) (hd : 0 < d.toInt.natAbs)
    (hl : 0 < l) (h : IsLog2Ceil d.toInt.natAbs l) :
    n.toInt * sdivMultiplier d l / 2 ^ 32 / 2 ^ (l - 1) + (if n.toInt < 0 then 1 else 0) =
      n.toInt.tdiv d.toInt.natAbs := by
  have hpow : (2 : Int) ^ 31 * 2 ^ l = 2 ^ 32 * 2 ^ (l - 1) := by
    rw [← pow_add, ← pow_add]
    congr 1
    omega
  have hle : (d.toInt.natAbs : Int) ≤ 2 ^ l := by exact_mod_cast h.le_pow
  have hlow : -2 ^ 31 ≤ n.toInt := BitVec.le_toInt n
  have hhigh : n.toInt < 2 ^ 31 := BitVec.toInt_lt
  have hdpos : (0 : Int) < d.toInt.natAbs := by exact_mod_cast hd
  have hN : ((2 ^ 32 * 2 ^ (l - 1) : Nat) : Int) = 2 ^ 31 * 2 ^ l := by
    rw [hpow]
    push_cast
    rfl
  have hupper : n.toInt * d.toInt.natAbs < (2 ^ 32 * 2 ^ (l - 1) : Nat) := by
    rw [hN]
    calc n.toInt * d.toInt.natAbs < 2 ^ 31 * d.toInt.natAbs := Int.mul_lt_mul_of_pos_right hhigh hdpos
      _ ≤ 2 ^ 31 * 2 ^ l := Int.mul_le_mul_of_nonneg_left hle (by decide)
  have hlower : -(n.toInt * d.toInt.natAbs) ≤ (2 ^ 32 * 2 ^ (l - 1) : Nat) := by
    rw [hN, ← neg_mul]
    calc -n.toInt * d.toInt.natAbs ≤ 2 ^ 31 * d.toInt.natAbs :=
          Int.mul_le_mul_of_nonneg_right (by linarith only [hlow]) hdpos.le
      _ ≤ 2 ^ 31 * 2 ^ l := Int.mul_le_mul_of_nonneg_left hle (by decide)
  have hquot := Reciprocal.ediv_add_eq_tdiv hd hupper hlower
  rw [Int.ediv_ediv_of_nonneg (by decide), ← hpow, ← hN]
  exact hquot

/-- Adding the dividend to the upper half of the product never overflows. -/
theorem sum_range {d : BitVec 32} {l : Nat} (n : BitVec 32) (hd : 0 < d.toInt.natAbs) (hl : 0 < l)
    (h : IsLog2Ceil d.toInt.natAbs l) :
    -2 ^ 31 ≤ n.toInt * sdivMultiplier d l / 2 ^ 32 ∧
      n.toInt * sdivMultiplier d l / 2 ^ 32 < 2 ^ 31 := by
  have hm : (sdivMultiplier d l : Int) ≤ 2 ^ 32 := by
    exact_mod_cast (sdivMultiplier_bounds h hl hd).2
  have hm0 : (0 : Int) ≤ sdivMultiplier d l := Int.natCast_nonneg _
  have hlow : -2 ^ 31 ≤ n.toInt := BitVec.le_toInt n
  have hhigh : n.toInt < 2 ^ 31 := BitVec.toInt_lt
  constructor
  · rw [Int.le_ediv_iff_mul_le (by decide)]
    calc -2 ^ 31 * 2 ^ 32 ≤ -2 ^ 31 * (sdivMultiplier d l : Int) := by linarith only [hm]
      _ ≤ n.toInt * sdivMultiplier d l := Int.mul_le_mul_of_nonneg_right hlow hm0
  · rw [Int.ediv_lt_iff_lt_mul (by decide)]
    by_cases hpos : 0 ≤ n.toInt
    · calc n.toInt * sdivMultiplier d l ≤ n.toInt * 2 ^ 32 := Int.mul_le_mul_of_nonneg_left hm hpos
        _ < 2 ^ 31 * 2 ^ 32 := Int.mul_lt_mul_of_pos_right hhigh (by decide)
    · have hneg : n.toInt * sdivMultiplier d l ≤ 0 :=
        Int.mul_nonpos_of_nonpos_of_nonneg (by omega) hm0
      exact hneg.trans_lt (by decide)

/-- `(q0 ^ dsign) - dsign` negates `q0` where `dsign` is -1. -/
theorem xor_sub_sign (q dsign : BitVec 32) (neg : Prop) [Decidable neg]
    (h : dsign.toInt = if neg then -1 else 0) :
    (q ^^^ dsign) - dsign = if neg then -q else q := by
  split
  case isTrue hneg =>
    rw [if_pos hneg] at h
    have hones : dsign = BitVec.allOnes 32 := BitVec.toInt_inj.mp (h.trans (by decide))
    rw [hones, BitVec.xor_allOnes, BitVec.neg_eq_not_add]
    exact (sub_eq_add_neg _ _).trans (congrArg (~~~ q + ·) (by decide))
  case isFalse hneg =>
    rw [if_neg hneg] at h
    have hzero : dsign = 0 := BitVec.toInt_inj.mp (h.trans (by decide))
    rw [hzero, sub_zero]
    exact BitVec.xor_zero

/-- The corrections for the signs of the dividend and of the divisor. -/
theorem sdiv_corrections {n d dsign : BitVec 32} (hd : 2 ≤ d.toInt.natAbs) {z : Int}
    (hz : z + (if n.toInt < 0 then 1 else 0) = n.toInt.tdiv d.toInt.natAbs)
    (hdsign : dsign.toInt = if d.toInt < 0 then -1 else 0) :
    (((BitVec.ofInt 32 z - if decide (n.toInt < 0) = true then BitVec.allOnes 32 else 0#32) ^^^ dsign)
      - dsign).toInt = n.toInt.tdiv d.toInt := by
  have hq0 : (BitVec.ofInt 32 z - if decide (n.toInt < 0) = true then BitVec.allOnes 32 else 0#32) =
      BitVec.ofInt 32 (n.toInt.tdiv d.toInt.natAbs) := by
    have hones : BitVec.allOnes 32 = BitVec.ofInt 32 (-1) := by decide
    rw [← hz, BitVec.ofInt_add, sub_eq_add_neg]
    split
    case isTrue hneg => rw [if_pos (of_decide_eq_true hneg), hones, ← BitVec.ofInt_neg, neg_neg]
    case isFalse hneg =>
      rw [if_neg (fun h => hneg (decide_eq_true h))]
      rfl
  -- the quotient is far from the ends of the range
  have hbound : (n.toInt.tdiv d.toInt.natAbs).natAbs ≤ 2 ^ 30 := by
    rw [Int.natAbs_tdiv, Int.natAbs_natCast]
    calc n.toInt.natAbs / d.toInt.natAbs ≤ 2 ^ 31 / d.toInt.natAbs :=
          Nat.div_le_div_right (natAbs_toInt_le n)
      _ ≤ 2 ^ 31 / 2 := Nat.div_le_div_left hd two_pos
  have hself {q : Int} (hq : q.natAbs ≤ 2 ^ 30) : (BitVec.ofInt 32 q).toInt = q :=
    BitVec.toInt_ofInt_eq_self (by decide) (by omega) (by omega)
  rw [xor_sub_sign _ _ (d.toInt < 0) hdsign, hq0]
  split
  case isTrue hneg =>
    have habs : (d.toInt.natAbs : Int) = -d.toInt := Int.ofNat_natAbs_of_nonpos hneg.le
    rw [← BitVec.ofInt_neg, hself (by rwa [Int.natAbs_neg]), habs, Int.tdiv_neg, neg_neg]
  case isFalse hneg =>
    rw [hself hbound, Int.natAbs_of_nonneg (not_lt.mp hneg)]

/-- The sign of the dividend, as `bvBoolExtract` tests it. -/
theorem isBool_sign {n : BitVec 32} (hn : IsBits env expr 32 n) :
    IsBool env (bvBoolExtract expr 31) (decide (n.toInt < 0)) := by
  have hbit := isBool_bvBoolExtract hn (by decide)
  rw [isBits_length hn, BitVec.msb_eq_toInt] at hbit
  exact hbit

/-- The term divides by the constant, rounding towards zero. -/
theorem constructSDivByConstant_spec {n d : BitVec 32} (hd : 2 ≤ d.toInt.natAbs)
    (hn : IsBits env expr 32 n) : ∃ t q, constructSDivByConstant expr 32 (d.setWidth 64) = some t ∧
      IsBits env t 32 q ∧ q.toInt = n.toInt.tdiv d.toInt := by
  obtain ⟨c, l, hc, hl, hl31, hlog, hmprime, hdsign, hshpost⟩ := computeSDivConstants32_spec hd
  have hpos : 0 < d.toInt.natAbs := by omega
  obtain ⟨hsumlow, hsumhigh⟩ := sum_range n hpos hl hlog
  obtain ⟨m, hm⟩ : ∃ m, m = n.toInt * sdivMultiplier d l := ⟨_, rfl⟩
  rw [← hm] at hsumlow hsumhigh
  -- the product and its upper half
  have hn64 : IsBits env (.signExtend 64 expr) 64 (BitVec.ofInt 64 n.toInt) :=
    hn.signExtend (by decide)
  obtain ⟨p, hp, hpv⟩ :=
    constructMulByConstant_spec (c.mprime.signExtend 64) hn64 (by decide) le_rfl
  have hproduct : BitVec.ofInt 64 n.toInt * (c.mprime.signExtend 64).setWidth 64 =
      BitVec.ofInt 64 (m - n.toInt * 2 ^ 32) := by
    rw [BitVec.setWidth_eq, BitVec.signExtend, ← BitVec.ofInt_mul, hmprime, hm]
    congr 1
    ring
  rw [hproduct] at hpv
  have hmulsh : IsBits env (bvExtract p 63 32) 32 (BitVec.ofInt 32 (m / 2 ^ 32 - n.toInt)) := by
    refine (hpv.extract (by decide : 32 ≤ 63) (by decide)).congr ?_
    rw [extract_high, ofInt_shiftRight_extract _ le_rfl]
    congr 1
    omega
  -- the sum with the dividend
  obtain ⟨a, ha, hav⟩ := bvPlusExpr_spec hn hmulsh
  have hsum : n + BitVec.ofInt 32 (m / 2 ^ 32 - n.toInt) = BitVec.ofInt 32 (m / 2 ^ 32) := by
    have hself : n = BitVec.ofInt 32 n.toInt := BitVec.ofInt_toInt.symm
    refine (congrArg (· + _) hself).trans ?_
    rw [← BitVec.ofInt_add]
    congr 1
    ring
  rw [hsum] at hav
  -- the arithmetic shift
  have hext : IsBits env (.signExtend 64 a) 64 (BitVec.ofInt 64 (m / 2 ^ 32)) :=
    (hav.signExtend (by decide)).congr (signExtend_ofInt hsumlow hsumhigh)
  have hamount : IsBits env (bvConst32 32 c.shpost.toNat) 32 c.shpost :=
    (isBits_bvConst32 32 c.shpost.toNat).congr (by simp)
  have hfits : AmountFits .stp 64 32 := ⟨by decide, nofun⟩
  have hshift := isBits_bvVarRightShift hext hamount (by decide) hfits
  have hlow : IsBits env
      (bvExtract (bvVarRightShift .stp (.signExtend 64 a) (bvConst32 32 c.shpost.toNat)) 31 0) 32
      (BitVec.ofInt 32 (m / 2 ^ 32 / 2 ^ (l - 1))) := by
    refine (hshift.extract (Nat.zero_le 31) (by decide)).congr ?_
    rw [hshpost]
    exact ofInt_shiftRight_extract _ (by omega)
  -- the corrections for the signs
  have hsign := IsBits.ite (isBool_sign hn) (isBits_bvMinusOne .stp 32) (isBits_bvZero 32)
  obtain ⟨b, hb, hbv⟩ := bvMinusExpr_spec hlow hsign
  have hdconst : IsBits env (bvConst32 32 c.dsign.toNat) 32 c.dsign :=
    (isBits_bvConst32 32 c.dsign.toNat).congr (by simp)
  obtain ⟨t, ht, htv⟩ := bvMinusExpr_spec (hbv.bvop .bvxor hdconst) hdconst
  have hcut : (d.setWidth 64).setWidth 32 = d := BitVec.setWidth_setWidth_self d (by decide)
  have hterm : constructSDivByConstant expr 32 (d.setWidth 64) = some t := by
    rw [constructSDivByConstant, if_neg (not_not.mpr rfl), hcut, hc]
    simp only [Option.bind_eq_bind, Option.bind_some, hp, ha]
    rw [show bvMinusExpr 32 _ _ = some b from hb, Option.bind_some]
    exact ht
  refine ⟨t, _, hterm, htv, ?_⟩
  exact sdiv_corrections hd (hm ▸ sdiv_by_multiplier n hpos hl hlog) hdsign

/-- Every divisor but 0, 1 and -1: the term built from its constants divides towards zero. -/
theorem constructSDivByConstant_correct (d : BitVec 32) (h0 : d.toInt ≠ 0) (h1 : d.toInt ≠ 1)
    (hneg1 : d.toInt ≠ -1) :
    ∀ (V : Type) (env : V → (w : Nat) → BitVec w) (expr : Term V) (n : BitVec 32),
      IsBits env expr 32 n → ∃ t q, constructSDivByConstant expr 32 (d.setWidth 64) = some t ∧
        IsBits env t 32 q ∧ q.toInt = n.toInt.tdiv d.toInt :=
  fun _ _ _ _ hn => constructSDivByConstant_spec (by omega) hn

theorem constructSDivByConstant_correct_minimum :
    ∃ t q, constructSDivByConstant (.numeral 32 2147483648 : Term Nat) 32 4294967289#64 = some t ∧
      IsBits (fun _ _ => 0) t 32 q ∧ q.toInt = Int.tdiv (-2147483648) (-7) :=
  constructSDivByConstant_correct (-7#32) (by decide) (by decide) (by decide) Nat (fun _ _ => 0)
    (.numeral 32 2147483648) 2147483648#32 rfl

end SDiv

end Klee.SolverBuilder

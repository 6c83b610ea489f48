import Mathlib.Data.BitVec
import Mathlib.Tactic

/-! What `IntrinsicCleanerPass` puts in the place of the intrinsics for arithmetic with an overflow
flag and for saturating arithmetic. -/
namespace Klee.IntrinsicCleaner

section Lowering

inductive WithOverflow where
  | sadd
  | ssub
  | smul
  | uadd
  | usub
  | umul
deriving DecidableEq, Repr

inductive Saturating where
  | sadd
  | ssub
  | uadd
  | usub
deriving DecidableEq, Repr

variable {w : Nat}

/-- `extractvalue` 0 and 1 of what replaces the call. The operation is done at twice the width. -/
def withOverflow (id : WithOverflow) (op1 op2 : BitVec w) : BitVec w × Bool :=
  let bw2 := w * 2
  let unsignedResult (result_ext : BitVec bw2) : BitVec w × Bool :=
    let int_max := (BitVec.allOnes w).setWidth bw2
    (result_ext.setWidth w, int_max.ult result_ext)
  let signedResult (result_ext : BitVec bw2) : BitVec w × Bool :=
    let int_max := (BitVec.intMax w).signExtend bw2
    let int_min := (BitVec.intMin w).signExtend bw2
    (result_ext.setWidth w, int_max.slt result_ext || result_ext.slt int_min)
  match id with
  | .uadd => unsignedResult (op1.setWidth bw2 + op2.setWidth bw2)
  | .usub => unsignedResult (op1.setWidth bw2 - op2.setWidth bw2)
  | .umul => unsignedResult (op1.setWidth bw2 * op2.setWidth bw2)
  | .sadd => signedResult (op1.signExtend bw2 + op2.signExtend bw2)
  | .ssub => signedResult (op1.signExtend bw2 - op2.signExtend bw2)
  | .smul => signedResult (op1.signExtend bw2 * op2.signExtend bw2)

/-- What replaces the call: the operation at the width of the operands, and a `select`. -/
def saturating (id : Saturating) (op1 op2 : BitVec w) : BitVec w :=
  let sign (x : BitVec w) : Bool := x.slt 0
  match id with
  | .usub =>
    let result := op1 - op2
    if op1.ult op2 then 0 else result
  | .uadd =>
    let result := op1 + op2
    if result.ult op1 then BitVec.allOnes w else result
  | .ssub =>
    let result := op1 - op2
    let saturated := if sign op2 then BitVec.intMax w else BitVec.intMin w
    if (sign op1 ^^ sign result) && (sign op1 ^^ sign op2) then saturated else result
  | .sadd =>
    let result := op1 + op2
    let saturated := if sign op2 then BitVec.intMin w else BitVec.intMax w
    if (sign op1 ^^ sign result) && !(sign op1 ^^ sign op2) then saturated else result

end Lowering

section Meaning

def value (isSigned : Bool) {w : Nat} (x : BitVec w) : Int := if isSigned then x.toInt else x.toNat

def minValue (isSigned : Bool) (w : Nat) : Int := if isSigned then -2 ^ (w - 1) else 0

def maxValue (isSigned : Bool) (w : Nat) : Int := if isSigned then 2 ^ (w - 1) - 1 else 2 ^ w - 1

def Representable (isSigned : Bool) (w : Nat) (r : Int) : Prop :=
  minValue isSigned w ≤ r ∧ r ≤ maxValue isSigned w

instance (isSigned : Bool) (w : Nat) (r : Int) : Decidable (Representable isSigned w r) :=
  inferInstanceAs (Decidable (_ ∧ _))

def WithOverflow.isSigned : WithOverflow → Bool
  | sadd | ssub | smul => true
  | uadd | usub | umul => false

def WithOverflow.exact : WithOverflow → Int → Int → Int
  | sadd | uadd => (· + ·)
  | ssub | usub => (· - ·)
  | smul | umul => (· * ·)

def Saturating.isSigned : Saturating → Bool
  | sadd | ssub => true
  | uadd | usub => false

def Saturating.exact : Saturating → Int → Int → Int
  | sadd | uadd => (· + ·)
  | ssub | usub => (· - ·)

def clamp (isSigned : Bool) (w : Nat) (r : Int) : Int :=
  max (minValue isSigned w) (min r (maxValue isSigned w))

end Meaning

section Extension

variable {w : Nat}

theorem setWidth_eq_ofInt (x : BitVec w) (v : Nat) : x.setWidth v = BitVec.ofInt v x.toNat := by
  rw [BitVec.ofInt_natCast, BitVec.ofNat_toNat]

theorem ofInt_sub (r s : Int) : BitVec.ofInt w (r - s) = BitVec.ofInt w r - BitVec.ofInt w s := by
  rw [Int.sub_eq_add_neg, BitVec.ofInt_add, BitVec.ofInt_neg, BitVec.sub_eq_add_neg]

/-- Truncation wraps. -/
theorem setWidth_ofInt {v : Nat} (hle : w ≤ v) (r : Int) :
    (BitVec.ofInt v r).setWidth w = BitVec.ofInt w r := by
  have hdvd : (2 : Int) ^ w ∣ 2 ^ v := pow_dvd_pow 2 hle
  have hpos (n : Nat) : (0 : Int) < 2 ^ n := Int.pow_pos (by decide)
  apply BitVec.eq_of_toNat_eq
  rw [BitVec.toNat_setWidth, BitVec.toNat_ofInt, BitVec.toNat_ofInt]
  zify
  rw [Int.toNat_of_nonneg (Int.emod_nonneg r (hpos v).ne'),
    Int.toNat_of_nonneg (Int.emod_nonneg r (hpos w).ne'), Int.emod_emod_of_dvd r hdvd]

theorem toNat_allOnes_setWidth (w : Nat) :
    ((BitVec.allOnes w).setWidth (w * 2)).toNat = 2 ^ w - 1 := by
  have hle : 2 ^ w ≤ 2 ^ (w * 2) := Nat.pow_le_pow_right (by decide) (by omega)
  have hpos := Nat.two_pow_pos w
  rw [BitVec.toNat_setWidth, BitVec.toNat_allOnes, Nat.mod_eq_of_lt (by omega)]

/-- A difference that is negative is beyond all values of half the width. -/
theorem ult_ofInt {r : Int} (hlo : -2 ^ w < r) (hhi : r < 2 ^ (w * 2)) :
    ((BitVec.allOnes w).setWidth (w * 2)).ult (BitVec.ofInt (w * 2) r) =
      decide (¬ Representable false w r) := by
  have hsquare : (2 : Int) ^ (w * 2) = 2 ^ w * 2 ^ w := by rw [Nat.mul_two, pow_add]
  have hone : (1 : Int) ≤ 2 ^ w := one_le_pow₀ (by decide)
  have hpow : ((2 ^ w - 1 : Nat) : Int) = 2 ^ w - 1 := by
    rw [Nat.cast_sub Nat.one_le_two_pow]
    rfl
  rw [BitVec.ult, toNat_allOnes_setWidth, BitVec.toNat_ofInt]
  simp only [decide_eq_decide, Representable, minValue, maxValue, Bool.false_eq_true, if_false]
  zify
  rw [Int.toNat_of_nonneg (Int.emod_nonneg r (by positivity)), hpow]
  rcases lt_or_ge r 0 with hneg | hnonneg
  · have hmod : r % 2 ^ (w * 2) = r + 2 ^ (w * 2) := by
      rw [← Int.add_mul_emod_self_left r _ 1, mul_one]
      exact Int.emod_eq_of_lt (by nlinarith) (by omega)
    rw [hmod]
    constructor
    · omega
    · intro _
      nlinarith
  · rw [Int.emod_eq_of_lt hnonneg hhi]
    omega

/-- At twice the width nothing wraps, and the bounds are those of the width. -/
theorem slt_ofInt (hw : 0 < w) {r : Int} (hlo : -2 ^ (w * 2 - 1) ≤ r) (hhi : r < 2 ^ (w * 2 - 1)) :
    (((BitVec.intMax w).signExtend (w * 2)).slt (BitVec.ofInt (w * 2) r) ||
        (BitVec.ofInt (w * 2) r).slt ((BitVec.intMin w).signExtend (w * 2))) =
      decide (¬ Representable true w r) := by
  have hmax : ((BitVec.intMax w).signExtend (w * 2)).toInt = 2 ^ (w - 1) - 1 := by
    rw [BitVec.toInt_signExtend_of_le (by omega), BitVec.toInt_intMax]
  have hmin : ((BitVec.intMin w).signExtend (w * 2)).toInt = -2 ^ (w - 1) := by
    rw [BitVec.toInt_signExtend_of_le (by omega), BitVec.toInt_intMin_of_pos hw]
  have hr : (BitVec.ofInt (w * 2) r).toInt = r :=
    BitVec.toInt_ofInt_eq_self (by omega) hlo hhi
  rw [BitVec.slt, BitVec.slt, hmax, hmin, hr, ← Bool.decide_or, decide_eq_decide]
  simp only [Representable, minValue, maxValue, if_true]
  omega

end Extension

section Correctness

variable {w : Nat} {op1 op2 : BitVec w}

/-- The exact result of an unsigned operation is in the range of the doubled width, below zero for
a difference only. -/
theorem exact_bounds_unsigned {id : WithOverflow} (hid : id.isSigned = false) (hw : 0 < w)
    (op1 op2 : BitVec w) :
    -2 ^ w < id.exact op1.toNat op2.toNat ∧ id.exact op1.toNat op2.toNat < 2 ^ (w * 2) := by
  have h1 : (op1.toNat : Int) < 2 ^ w := by exact_mod_cast op1.isLt
  have h2 : (op2.toNat : Int) < 2 ^ w := by exact_mod_cast op2.isLt
  have hsquare : (2 : Int) ^ (w * 2) = 2 ^ w * 2 ^ w := by rw [Nat.mul_two, pow_add]
  have htwo : (2 : Int) ≤ 2 ^ w := le_self_pow₀ (by decide) hw.ne'
  have hpos1 : (0 : Int) ≤ op1.toNat := Int.natCast_nonneg _
  have hpos2 : (0 : Int) ≤ op2.toNat := Int.natCast_nonneg _
  cases id with
  | sadd => cases hid
  | ssub => cases hid
  | smul => cases hid
  | uadd =>
    simp only [WithOverflow.exact]
    exact ⟨by omega, by nlinarith⟩
  | usub =>
    simp only [WithOverflow.exact]
    exact ⟨by omega, by nlinarith⟩
  | umul =>
    simp only [WithOverflow.exact]
    exact ⟨by nlinarith, by nlinarith⟩

theorem exact_bounds_signed {id : WithOverflow} (hid : id.isSigned = true) (hw : 0 < w)
    (op1 op2 : BitVec w) :
    -2 ^ (w * 2 - 1) ≤ id.exact op1.toInt op2.toInt ∧
      id.exact op1.toInt op2.toInt < 2 ^ (w * 2 - 1) := by
  obtain ⟨n, rfl⟩ := Nat.exists_eq_succ_of_ne_zero hw.ne'
  have hlo1 := BitVec.le_toInt op1
  have hlo2 := BitVec.le_toInt op2
  have hhi1 := @BitVec.toInt_lt _ op1
  have hhi2 := @BitVec.toInt_lt _ op2
  have hdouble : (2 : Int) ^ ((n + 1) * 2 - 1) = 2 * (2 ^ n * 2 ^ n) := by
    rw [show (n + 1) * 2 - 1 = n + n + 1 by omega, pow_succ, pow_add]
    ring
  have hone : (1 : Int) ≤ 2 ^ n := one_le_pow₀ (by decide)
  simp only [Nat.succ_eq_add_one, Nat.add_sub_cancel] at hlo1 hlo2 hhi1 hhi2
  rw [hdouble]
  cases id with
  | uadd => cases hid
  | usub => cases hid
  | umul => cases hid
  | sadd =>
    simp only [WithOverflow.exact]
    exact ⟨by nlinarith, by nlinarith⟩
  | ssub =>
    simp only [WithOverflow.exact]
    exact ⟨by nlinarith, by nlinarith⟩
  | smul =>
    simp only [WithOverflow.exact]
    exact ⟨by nlinarith, by nlinarith⟩

/-- The operation at the doubled width gives the exact result there. -/
theorem withOverflow_unsigned {id : WithOverflow} (hid : id.isSigned = false) :
    withOverflow id op1 op2 =
      ((BitVec.ofInt (w * 2) (id.exact op1.toNat op2.toNat)).setWidth w,
        ((BitVec.allOnes w).setWidth (w * 2)).ult
          (BitVec.ofInt (w * 2) (id.exact op1.toNat op2.toNat))) := by
  cases id with
  | sadd => cases hid
  | ssub => cases hid
  | smul => cases hid
  | uadd =>
    simp only [WithOverflow.exact, BitVec.ofInt_add, ← setWidth_eq_ofInt]
    rfl
  | usub =>
    simp only [WithOverflow.exact, ofInt_sub, ← setWidth_eq_ofInt]
    rfl
  | umul =>
    simp only [WithOverflow.exact, BitVec.ofInt_mul, ← setWidth_eq_ofInt]
    rfl

theorem withOverflow_signed {id : WithOverflow} (hid : id.isSigned = true) :
    withOverflow id op1 op2 =
      ((BitVec.ofInt (w * 2) (id.exact op1.toInt op2.toInt)).setWidth w,
        ((BitVec.intMax w).signExtend (w * 2)).slt
            (BitVec.ofInt (w * 2) (id.exact op1.toInt op2.toInt)) ||
          (BitVec.ofInt (w * 2) (id.exact op1.toInt op2.toInt)).slt
            ((BitVec.intMin w).signExtend (w * 2))) := by
  cases id with
  | uadd => cases hid
  | usub => cases hid
  | umul => cases hid
  | sadd =>
    simp only [WithOverflow.exact, BitVec.ofInt_add]
    rfl
  | ssub =>
    simp only [WithOverflow.exact, ofInt_sub]
    rfl
  | smul =>
    simp only [WithOverflow.exact, BitVec.ofInt_mul]
    rfl

theorem withOverflow_eq (hw : 0 < w) (id : WithOverflow) (op1 op2 : BitVec w) :
    withOverflow id op1 op2 =
      (BitVec.ofInt w (id.exact (value id.isSigned op1) (value id.isSigned op2)),
        decide (¬ Representable id.isSigned w
          (id.exact (value id.isSigned op1) (value id.isSigned op2)))) := by
  have hwidth : w ≤ w * 2 := by omega
  cases hid : id.isSigned with
  | false =>
    have hbounds := exact_bounds_unsigned hid hw op1 op2
    rw [withOverflow_unsigned hid, ult_ofInt hbounds.1 hbounds.2, setWidth_ofInt hwidth]
    rfl
  | true =>
    have hbounds := exact_bounds_signed hid hw op1 op2
    rw [withOverflow_signed hid, slt_ofInt hw hbounds.1 hbounds.2, setWidth_ofInt hwidth]
    rfl

/-- Where the flag and the bound are right, so is the `select`. -/
theorem select_eq_clamp {isSigned overflow : Bool} {r : Int} (saturated : BitVec w)
    (hoverflow : overflow = decide (¬ Representable isSigned w r))
    (hsaturated : ¬ Representable isSigned w r →
      saturated = BitVec.ofInt w (clamp isSigned w r)) :
    (if overflow then saturated else BitVec.ofInt w r) = BitVec.ofInt w (clamp isSigned w r) := by
  subst hoverflow
  by_cases hr : Representable isSigned w r
  · have hclamp : clamp isSigned w r = r := by
      rw [clamp, min_eq_left hr.2, max_eq_right hr.1]
    rw [decide_eq_false (not_not.mpr hr), hclamp]
    rfl
  · rw [decide_eq_true hr]
    exact hsaturated hr

theorem allOnes_eq_ofInt (w : Nat) : BitVec.allOnes w = BitVec.ofInt w (2 ^ w - 1) := by
  have hcast : ((BitVec.allOnes w).toNat : Int) = 2 ^ w - 1 := by
    rw [BitVec.toNat_allOnes, Nat.cast_sub Nat.one_le_two_pow]
    rfl
  rw [← hcast, ← setWidth_eq_ofInt, BitVec.setWidth_eq]

theorem saturating_unsigned {id : Saturating} (hid : id.isSigned = false) (op1 op2 : BitVec w) :
    saturating id op1 op2 = BitVec.ofInt w (clamp false w (id.exact op1.toNat op2.toNat)) := by
  have h1 := op1.isLt
  have h2 := op2.isLt
  have hpow : ((2 ^ w : Nat) : Int) = 2 ^ w := by norm_cast
  have hself (x : BitVec w) : BitVec.ofInt w x.toNat = x := by
    rw [← setWidth_eq_ofInt, BitVec.setWidth_eq]
  cases id with
  | sadd => cases hid
  | ssub => cases hid
  | uadd =>
    have hresult : op1 + op2 = BitVec.ofInt w (op1.toNat + op2.toNat) := by
      rw [BitVec.ofInt_add, hself, hself]
    have hoverflow : (op1 + op2).ult op1 =
        decide (¬ Representable false w (op1.toNat + op2.toNat)) := by
      rw [BitVec.ult, BitVec.toNat_add, decide_eq_decide, Representable, minValue, maxValue]
      simp only [Bool.false_eq_true, if_false]
      rcases lt_or_ge (op1.toNat + op2.toNat) (2 ^ w) with hlt | hge
      · rw [Nat.mod_eq_of_lt hlt]
        omega
      · rw [Nat.mod_eq_sub_mod hge, Nat.mod_eq_of_lt (by omega)]
        omega
    have hselect := select_eq_clamp (BitVec.allOnes w) hoverflow fun hr => by
      rw [allOnes_eq_ofInt]
      congr 1
      simp only [Representable, clamp, minValue, maxValue, Bool.false_eq_true, if_false] at hr ⊢
      omega
    rw [← hresult] at hselect
    exact hselect
  | usub =>
    have hresult : op1 - op2 = BitVec.ofInt w (op1.toNat - op2.toNat) := by
      rw [ofInt_sub, hself, hself]
    have hoverflow : op1.ult op2 = decide (¬ Representable false w (op1.toNat - op2.toNat)) := by
      rw [BitVec.ult, decide_eq_decide, Representable, minValue, maxValue]
      simp only [Bool.false_eq_true, if_false]
      omega
    have hselect := select_eq_clamp (0 : BitVec w) hoverflow fun hr => by
      have hclamp : clamp false w (op1.toNat - op2.toNat) = 0 := by
        simp only [Representable, clamp, minValue, maxValue, Bool.false_eq_true, if_false] at hr ⊢
        omega
      rw [hclamp]
      rfl
    rw [← hresult] at hselect
    exact hselect

/-- What wraps once -/
theorem toInt_ofInt_wrap {r : Int} {n : Nat} (hlo : -3 * 2 ^ n ≤ r) (hhi : r < 3 * 2 ^ n) :
    (BitVec.ofInt (n + 1) r).toInt =
      if r < -2 ^ n then r + 2 * 2 ^ n else if 2 ^ n ≤ r then r - 2 * 2 ^ n else r := by
  have hmod : (2 : Int) * 2 ^ n = (2 ^ (n + 1) : Nat) := by
    push_cast
    ring
  have hwrap (k : Int) : (BitVec.ofInt (n + 1) (r + 2 * 2 ^ n * k)).toInt =
      (BitVec.ofInt (n + 1) r).toInt := by
    rw [BitVec.toInt_ofInt, BitVec.toInt_ofInt, hmod, Int.add_mul_bmod_self_left]
  have hself {s : Int} (hlo : -2 ^ n ≤ s) (hhi : s < 2 ^ n) :
      (BitVec.ofInt (n + 1) s).toInt = s :=
    BitVec.toInt_ofInt_eq_self (Nat.succ_pos n) hlo hhi
  split_ifs with hneg hpos
  · rw [← hwrap 1, hself (by omega) (by omega), mul_one]
  · rw [← hwrap (-1), hself (by omega) (by omega)]
    omega
  · exact hself (by omega) (by omega)

/-- The result of an addition or a subtraction has left the range of the signed numbers if and only
if its sign tells so. -/
theorem saturating_signed {id : Saturating} (hid : id.isSigned = true) (hw : 0 < w)
    (op1 op2 : BitVec w) :
    saturating id op1 op2 = BitVec.ofInt w (clamp true w (id.exact op1.toInt op2.toInt)) := by
  obtain ⟨n, rfl⟩ := Nat.exists_eq_succ_of_ne_zero hw.ne'
  have hlo1 : -2 ^ n ≤ op1.toInt := BitVec.le_toInt op1
  have hlo2 : -2 ^ n ≤ op2.toInt := BitVec.le_toInt op2
  have hhi1 : op1.toInt < 2 ^ n := BitVec.toInt_lt
  have hhi2 : op2.toInt < 2 ^ n := BitVec.toInt_lt
  have hsign (x : BitVec (n + 1)) : x.slt 0 = decide (x.toInt < 0) := by
    show decide (x.toInt < (0#(n + 1)).toInt) = _
    rw [BitVec.toInt_zero]
  have hmax : BitVec.intMax (n + 1) = BitVec.ofInt (n + 1) (2 ^ n - 1) := by
    have hint : (BitVec.intMax (n + 1)).toInt = 2 ^ n - 1 := BitVec.toInt_intMax
    rw [← hint, BitVec.ofInt_toInt]
  have hmin : BitVec.intMin (n + 1) = BitVec.ofInt (n + 1) (-2 ^ n) := by
    have hint : (BitVec.intMin (n + 1)).toInt = -2 ^ n := BitVec.toInt_intMin_of_pos hw
    rw [← hint, BitVec.ofInt_toInt]
  have hrange (r : Int) : Representable true (n + 1) r ↔ -2 ^ n ≤ r ∧ r ≤ 2 ^ n - 1 := Iff.rfl
  cases id with
  | uadd => cases hid
  | usub => cases hid
  | sadd =>
    have hresult : op1 + op2 = BitVec.ofInt (n + 1) (op1.toInt + op2.toInt) := by
      rw [BitVec.ofInt_add, BitVec.ofInt_toInt, BitVec.ofInt_toInt]
    have hwrap := toInt_ofInt_wrap (r := op1.toInt + op2.toInt) (n := n) (by omega) (by omega)
    have hoverflow : ((op1.slt 0 ^^ (op1 + op2).slt 0) && !(op1.slt 0 ^^ op2.slt 0)) =
        decide (¬ Representable true (n + 1) (op1.toInt + op2.toInt)) := by
      rw [hsign, hsign, hsign, hresult, hwrap]
      simp only [hrange]
      grind
    have hselect := select_eq_clamp
      (if op2.slt 0 then BitVec.intMin (n + 1) else BitVec.intMax (n + 1)) hoverflow
      fun hr => by
        rw [hsign, hmin, hmax]
        simp only [hrange, clamp, minValue, maxValue, if_true, Nat.add_sub_cancel,
          decide_eq_true_eq] at hr ⊢
        split_ifs <;> (congr 1; omega)
    rw [← hresult] at hselect
    exact hselect
  | ssub =>
    have hresult : op1 - op2 = BitVec.ofInt (n + 1) (op1.toInt - op2.toInt) := by
      rw [ofInt_sub, BitVec.ofInt_toInt, BitVec.ofInt_toInt]
    have hwrap := toInt_ofInt_wrap (r := op1.toInt - op2.toInt) (n := n) (by omega) (by omega)
    have hoverflow : ((op1.slt 0 ^^ (op1 - op2).slt 0) && (op1.slt 0 ^^ op2.slt 0)) =
        decide (¬ Representable true (n + 1) (op1.toInt - op2.toInt)) := by
      rw [hsign, hsign, hsign, hresult, hwrap]
      simp only [hrange]
      grind
    have hselect := select_eq_clamp
      (if op2.slt 0 then BitVec.intMax (n + 1) else BitVec.intMin (n + 1)) hoverflow
      fun hr => by
        rw [hsign, hmin, hmax]
        simp only [hrange, clamp, minValue, maxValue, if_true, Nat.add_sub_cancel,
          decide_eq_true_eq] at hr ⊢
        split_ifs <;> (congr 1; omega)
    rw [← hresult] at hselect
    exact hselect

theorem saturating_eq (hw : 0 < w) (id : Saturating) (op1 op2 : BitVec w) :
    saturating id op1 op2 = BitVec.ofInt w
      (clamp id.isSigned w (id.exact (value id.isSigned op1) (value id.isSigned op2))) := by
  cases hid : id.isSigned with
  | false => exact saturating_unsigned hid op1 op2
  | true => exact saturating_signed hid hw op1 op2

/-- The instructions give the result of the intrinsic, at every width. -/
theorem lowering_exact (hw : 0 < w) (op1 op2 : BitVec w) :
    (∀ id : WithOverflow, withOverflow id op1 op2 =
      (BitVec.ofInt w (id.exact (value id.isSigned op1) (value id.isSigned op2)),
        decide (¬ Representable id.isSigned w
          (id.exact (value id.isSigned op1) (value id.isSigned op2))))) ∧
    ∀ id : Saturating, saturating id op1 op2 = BitVec.ofInt w
      (clamp id.isSigned w (id.exact (value id.isSigned op1) (value id.isSigned op2))) :=
  ⟨fun id => withOverflow_eq hw id op1 op2, fun id => saturating_eq hw id op1 op2⟩

/-- At width 1 the product of the only negative number with itself is out of range. -/
theorem lowering_exact_bit :
    withOverflow .smul 1#1 1#1 = (1#1, true) ∧ saturating .ssub 0#1 1#1 = 0#1 := by
  obtain ⟨hoverflow, -⟩ := lowering_exact Nat.one_pos 1#1 1#1
  obtain ⟨-, hsaturating⟩ := lowering_exact Nat.one_pos 0#1 1#1
  exact ⟨(hoverflow .smul).trans (by decide), (hsaturating .ssub).trans (by decide)⟩

end Correctness

end Klee.IntrinsicCleaner

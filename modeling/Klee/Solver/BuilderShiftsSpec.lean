import Klee.Solver.BuilderShifts
import Mathlib.Data.Nat.Size

/-! The values of the shifts that the solver builders construct, against constant folding. -/
namespace Klee.SolverBuilder

open Smt Smt.Term

variable {V : Type} {env : V → (w : Nat) → BitVec w} {s : CoreSolverType}
  {expr shift isSigned res : Term V} {w : Nat} {x y : BitVec w}

section Constants

theorem isBits_bvConst32 (w v : Nat) : IsBits env (bvConst32 w v) w (BitVec.ofNat w v) :=
  (isBits_numeral w v).congr (BitVec.ofInt_natCast w v)

theorem isBits_bvConst64 (w v : Nat) : IsBits env (bvConst64 w v) w (BitVec.ofNat w v) :=
  isBits_bvConst32 w v

/-- Zeros on top keep the value. -/
theorem isBits_zero_concat (k : Nat) {m : Nat} {z : BitVec m} (h : IsBits env expr m z) :
    IsBits env (.concat (bvConst64 k 0) expr) (k + m) (z.setWidth (k + m)) := by
  refine ((isBits_bvConst64 k 0).concat h).congr (BitVec.eq_of_toNat_eq ?_)
  have hlt : z.toNat < 2 ^ (k + m) :=
    z.isLt.trans_le (Nat.pow_le_pow_right two_pos (Nat.le_add_left m k))
  rw [BitVec.toNat_setWidth, Nat.mod_eq_of_lt hlt]
  simp

theorem isBits_zextWords (k : Nat) {m : Nat} {z : BitVec m} (h : IsBits env expr m z) :
    IsBits env (zextWords k expr) (k + m) (z.setWidth (k + m)) := by
  induction k using Nat.strong_induction_on generalizing expr m z with
  | _ k ih =>
  rw [zextWords]
  split
  case isTrue hk =>
    have hrest := (ih (k - 64) (by omega) (isBits_zero_concat 64 h)).cast
      (by omega : k - 64 + (64 + m) = k + m)
    refine hrest.congr (BitVec.eq_of_toNat_eq ?_)
    have hlt {n : Nat} (hn : m ≤ n) : z.toNat < 2 ^ n :=
      z.isLt.trans_le (Nat.pow_le_pow_right two_pos hn)
    simp only [BitVec.toNat_setWidth]
    rw [Nat.mod_eq_of_lt (hlt (by omega)), Nat.mod_eq_of_lt (hlt (by omega))]
  case isFalse => exact isBits_zero_concat k h

theorem isBits_bvZExtConst (w : Nat) {v : Nat} (hv : v < 2 ^ 64) :
    IsBits env (bvZExtConst w v) w (BitVec.ofNat w v) := by
  unfold bvZExtConst
  split
  · exact isBits_bvConst64 w v
  · refine ((isBits_zextWords (w - 64) (isBits_bvConst64 64 v)).cast (by omega)).congr ?_
    apply BitVec.eq_of_toNat_eq
    have hw : 2 ^ 64 ≤ 2 ^ w := Nat.pow_le_pow_right two_pos (by omega)
    have hw' : 2 ^ 64 ≤ 2 ^ (w - 64 + 64) := Nat.pow_le_pow_right two_pos (by omega)
    simp only [BitVec.toNat_setWidth, BitVec.toNat_ofNat]
    rw [Nat.mod_eq_of_lt hv, Nat.mod_eq_of_lt (hv.trans_le hw')]

theorem isBits_bvZero (w : Nat) : IsBits env (bvZero w) w 0#w :=
  isBits_bvZExtConst w (by decide)

/-- All 64-bit words of ones cut to at most 64 bits. -/
theorem isBits_ones (hw : w ≤ 64) :
    IsBits env (bvConst64 w (2 ^ 64 - 1)) w (BitVec.allOnes w) := by
  refine (isBits_bvConst64 w _).congr (BitVec.eq_of_getLsbD_eq fun i hi => ?_)
  rw [BitVec.getLsbD_ofNat, Nat.testBit_two_pow_sub_one, BitVec.getLsbD_allOnes]
  simp [hi.trans_le hw]

theorem isBits_bvMinusOne (s : CoreSolverType) (w : Nat) :
    IsBits env (bvMinusOne s w) w (BitVec.allOnes w) := by
  unfold bvMinusOne bvSExtConst
  split
  case isTrue hw => exact isBits_ones hw
  case isFalse hw =>
    have hlow : IsBits env (bvConst64 64 (2 ^ 64 - 1)) 64 (BitVec.allOnes 64) := isBits_ones le_rfl
    cases s with
    | z3 =>
      have hhigh : IsBits env (.numeral (w - 64) (-1)) (w - 64) (BitVec.allOnes (w - 64)) :=
        (isBits_numeral (w - 64) (-1)).congr
          ((BitVec.ofInt_neg (n := 1)).trans BitVec.neg_one_eq_allOnes)
      refine ((hhigh.concat hlow).cast (by omega)).congr (BitVec.eq_of_getLsbD_eq fun i hi => ?_)
      rw [BitVec.getLsbD_setWidth, BitVec.getLsbD_append]
      simp only [BitVec.getLsbD_allOnes, hi, decide_true, Bool.true_and]
      split
      · simp [*]
      · have hlt : i - 64 < w - 64 := by omega
        simp [hlt]
    | stp =>
      refine (hlow.signExtend (by omega)).congr (BitVec.eq_of_getLsbD_eq fun i hi => ?_)
      rw [BitVec.getLsbD_signExtend, BitVec.msb_allOnes (by decide), BitVec.getLsbD_allOnes,
        BitVec.getLsbD_allOnes]
      simp [hi]

end Constants

section ByConstant

theorem isBool_bvBoolExtract (h : IsBits env expr w x) (hw : 0 < w) :
    IsBool env (bvBoolExtract expr (expr.length - 1)) x.msb := by
  rw [isBits_length h]
  have hbit := ((h.extract le_rfl (by omega : w - 1 < w)).cast (by omega : _ = 1)).eq
    (isBits_bvZExtConst 1 (by decide : 1 < 2 ^ 64))
  have hone (b : BitVec 1) : (b == BitVec.ofNat 1 1) = b.getLsbD 0 := by
    revert b
    decide
  rw [hone, BitVec.getLsbD_setWidth, BitVec.getLsbD_extractLsb'] at hbit
  rw [BitVec.msb_eq_getLsbD_last]
  have hlt : 0 < w - 1 + 1 - (w - 1) := by omega
  simp only [hlt, Nat.one_pos, decide_true, Bool.true_and, Nat.add_zero] at hbit
  exact hbit

theorem isBits_bvRightShift (h : IsBits env expr w x) (n : Nat) :
    IsBits env (bvRightShift expr n) w (x >>> n) := by
  unfold bvRightShift
  rw [isBits_length h]
  dsimp only
  split
  case isTrue h0 => exact h.congr (by rw [h0, BitVec.ushiftRight_zero])
  case isFalse h0 =>
    split
    case isTrue hn => exact (isBits_bvZero w).congr (BitVec.ushiftRight_eq_zero hn).symm
    case isFalse hn =>
      have hpart := (isBits_bvZero n).concat (h.extract (by omega : n ≤ w - 1) (by omega))
      refine (hpart.cast (by omega)).congr ?_
      exact BitVec.setWidth_zero_append_extractLsb' x (by omega)

theorem isBits_bvLeftShift (h : IsBits env expr w x) (n : Nat) :
    IsBits env (bvLeftShift expr n) w (x <<< n) := by
  unfold bvLeftShift
  rw [isBits_length h]
  dsimp only
  split
  case isTrue h0 => exact h.congr (by rw [h0, BitVec.shiftLeft_zero])
  case isFalse h0 =>
    split
    case isTrue hn => exact (isBits_bvZero w).congr (BitVec.shiftLeft_eq_zero hn).symm
    case isFalse hn =>
      have hpart := (h.extract (Nat.zero_le (w - n - 1)) (by omega)).concat (isBits_bvZero n)
      refine (hpart.cast (by omega)).congr ?_
      exact BitVec.setWidth_extractLsb'_append_zero x (by omega)

/-- Shifting to zero beyond the width. -/
theorem isBits_constructAShrByConstant (h : IsBits env expr w x)
    (hs : IsBool env isSigned x.msb) (n : Nat) :
    IsBits env (constructAShrByConstant s expr n isSigned) w
      (if n < w then x.sshiftRight n else 0) := by
  unfold constructAShrByConstant
  rw [isBits_length h]
  dsimp only
  split
  case isTrue h0 =>
    refine h.congr ?_
    rw [h0, BitVec.sshiftRight_zero]
    split
    · rfl
    · obtain rfl : w = 0 := by omega
      exact BitVec.eq_nil x
  case isFalse h0 =>
    split
    case isTrue hn => exact (isBits_bvZero w).congr (if_neg (by omega)).symm
    case isFalse hn =>
      have hpart := (isBits_bvMinusOne s n).concat (h.extract (by omega : n ≤ w - 1) (by omega))
      refine (IsBits.ite hs (hpart.cast (by omega : n + (w - 1 + 1 - n) = w))
        (isBits_bvRightShift h n)).congr ?_
      rw [if_pos (show n < w by omega)]
      cases hmsb : x.msb with
      | true => exact BitVec.setWidth_allOnes_append_extractLsb' x (by omega) hmsb
      | false => exact (BitVec.sshiftRight_eq_of_msb_false hmsb).symm

end ByConstant

section ByTerm

theorem lt_two_pow_size (w : Nat) : w < 2 ^ w.size := Nat.lt_size_self w

/-- The bits that `extractPartialShiftValue` takes are there. -/
theorem size_le (hw : 0 < w) : 0 < w.size ∧ w.size ≤ w :=
  ⟨Nat.size_pos.mpr hw, Nat.size_le.mpr Nat.lt_two_pow_self⟩

/-- An amount of `n` bits can be compared with the amounts below `w`. -/
def AmountFits (s : CoreSolverType) (w n : Nat) : Prop := w.size ≤ n ∧ (s = .z3 → n = w)

theorem AmountFits.self (hw : 0 < w) : AmountFits s w w := ⟨(size_le hw).2, fun _ => rfl⟩

/-- The test for an amount below the width; for an overshift its value does not matter. -/
theorem isBool_isAmount {n : Nat} {y : BitVec n} (h : IsBits env shift n y) (hw : 0 < w)
    (hn : AmountFits s w n) (i : Nat) (hi : i < w) :
    ∃ p, IsBool env (isAmount s shift w i) p ∧ (y.toNat < w → p = decide (y.toNat = i)) := by
  cases s with
  | z3 =>
    obtain rfl := hn.2 rfl
    refine ⟨_, h.eq (isBits_bvConst32 n i), fun _ => ?_⟩
    rw [Bool.eq_iff_iff, beq_iff_eq, decide_eq_true_iff, ← BitVec.toNat_inj, BitVec.toNat_ofNat,
      Nat.mod_eq_of_lt (hi.trans Nat.lt_two_pow_self)]
  | stp =>
    have hpos := (size_le hw).1
    have hle := hn.1
    have hpart := (h.extract (Nat.zero_le (w.size - 1)) (by omega)).cast
      (by omega : w.size - 1 + 1 - 0 = w.size)
    refine ⟨_, hpart.eq (isBits_bvConst32 w.size i), fun hy => ?_⟩
    have hsize := lt_two_pow_size w
    rw [Bool.eq_iff_iff, beq_iff_eq, decide_eq_true_iff, ← BitVec.toNat_inj, BitVec.toNat_ofNat,
      Nat.mod_eq_of_lt (hi.trans hsize), BitVec.toNat_setWidth, BitVec.extractLsb'_toNat,
      Nat.shiftRight_zero, (by omega : w.size - 1 + 1 - 0 = w.size), Nat.mod_mod,
      Nat.mod_eq_of_lt (hy.trans hsize)]

/-- The chain selects the case of the amount, by induction on the cases that are left. -/
theorem isBits_shiftCases {m : Nat} {y : BitVec m} {test shifted : Nat → Term V}
    {f : Nat → BitVec w} {n : Nat}
    (htest : ∀ i < n, ∃ p, IsBool env (test i) p ∧ (y.toNat < w → p = decide (y.toNat = i)))
    (hshifted : ∀ i < n, IsBits env (shifted i) w (f i)) {z : BitVec w}
    (hres : IsBits env res w z) :
    ∃ v, IsBits env (shiftCases test shifted n res) w v ∧
      (y.toNat < w → v = if y.toNat < n then f y.toNat else z) := by
  induction n generalizing res z with
  | zero => exact ⟨z, hres, fun _ => by simp⟩
  | succ n ih =>
    obtain ⟨p, hp, hpy⟩ := htest n n.lt_succ_self
    obtain ⟨v, hv, hvy⟩ := ih (fun i hi => htest i (hi.trans n.lt_succ_self))
      (fun i hi => hshifted i (hi.trans n.lt_succ_self))
      (IsBits.ite hp (hshifted n n.lt_succ_self) hres)
    refine ⟨v, hv, fun hy => (hvy hy).trans ?_⟩
    rw [hpy hy]
    by_cases hlt : y.toNat < n
    · rw [if_pos hlt, if_pos (by omega)]
    · by_cases heq : y.toNat = n
      · simp [heq]
      · have hge : ¬ y.toNat < n + 1 := by omega
        simp [hlt, heq, hge]

/-- The chain under the test for an overshift. -/
theorem isBits_bvVarShift {m : Nat} {y : BitVec m} {shifted : Nat → Term V} {f : Nat → BitVec w}
    {n : Nat} {z : BitVec w} (hx : IsBits env expr w x) (hy : IsBits env shift m y) (hn : n ≤ w)
    (hw : 0 < w) (hm : AmountFits s w m)
    (hshifted : ∀ i, IsBits env (shifted i) w (f i)) (hres : IsBits env res w z) :
    IsBits env (bvVarShift s expr shift shifted n res) w
      (if y.toNat < w then if y.toNat < n then f y.toNat else z else 0) := by
  unfold bvVarShift
  rw [isBits_length hx, isBits_length hy]
  obtain ⟨v, hv, hvy⟩ := isBits_shiftCases (y := y)
    (fun i hi => isBool_isAmount hy hw hm i (hi.trans_le hn)) (fun i _ => hshifted i) hres
  refine (IsBits.ite (hy.bvult (isBits_bvConst32 m w)) hv (isBits_bvZero w)).congr ?_
  have hult : y.ult (BitVec.ofNat m w) = decide (y.toNat < w) := by
    have hw : w < 2 ^ m := (lt_two_pow_size w).trans_le (Nat.pow_le_pow_right two_pos hm.1)
    rw [BitVec.ult, BitVec.toNat_ofNat, Nat.mod_eq_of_lt hw]
  rw [hult]
  by_cases hlt : y.toNat < w
  · simp [hlt, hvy hlt]
  · simp [hlt]

theorem isBits_bvVarLeftShift (hx : IsBits env expr w x) (hy : IsBits env shift w y)
    (hw : 0 < w) : IsBits env (bvVarLeftShift s expr shift) w (x <<< y.toNat) := by
  unfold bvVarLeftShift
  rw [isBits_length hx]
  refine (isBits_bvVarShift hx hy le_rfl hw (.self hw) (isBits_bvLeftShift hx)
    (isBits_bvZero w)).congr ?_
  split
  · rfl
  · rename_i hge
    exact (BitVec.shiftLeft_eq_zero (by omega)).symm

theorem isBits_bvVarRightShift {m : Nat} {y : BitVec m} (hx : IsBits env expr w x)
    (hy : IsBits env shift m y) (hw : 0 < w) (hm : AmountFits s w m) :
    IsBits env (bvVarRightShift s expr shift) w (x >>> y.toNat) := by
  unfold bvVarRightShift
  rw [isBits_length hx]
  refine (isBits_bvVarShift hx hy le_rfl hw hm (isBits_bvRightShift hx)
    (isBits_bvZero w)).congr ?_
  split
  · rfl
  · rename_i hge
    exact (BitVec.ushiftRight_eq_zero (by omega)).symm

theorem isBits_bvVarArithRightShift (hx : IsBits env expr w x) (hy : IsBits env shift w y)
    (hw : 0 < w) : IsBits env (bvVarArithRightShift s expr shift) w
      (if y.toNat < w then x.sshiftRight y.toNat else 0) := by
  have hsign := isBool_bvBoolExtract hx hw
  unfold bvVarArithRightShift
  dsimp only
  refine (isBits_bvVarShift hx hy (by rw [isBits_length hx]; omega) hw (.self hw)
    (isBits_constructAShrByConstant hx hsign)
    (isBits_constructAShrByConstant hx hsign _)).congr ?_
  rw [isBits_length hx]
  split
  case isTrue hlt =>
    split
    · rfl
    · rename_i hge
      rw [if_pos (by omega)]
      congr 1
      omega
  case isFalse => rfl

end ByTerm

inductive ShiftKind where
  | shl
  | lshr
  | ashr
deriving DecidableEq

namespace ShiftKind

def toArithKind : ShiftKind → ArithKind
  | shl => .shl
  | lshr => .lshr
  | ashr => .ashr

/-- `ConstantExpr::Shl`, `LShr`, `AShr` -/
def fold : ShiftKind → ConstantExpr → ConstantExpr → ConstantExpr
  | shl => .shl
  | lshr => .lshr
  | ashr => .ashr

/-- The cases of `constructActual`. -/
def construct (s : CoreSolverType) : ShiftKind → Term V → ShiftAmount V → Term V
  | shl => constructShl s
  | lshr => constructLShr s
  | ashr => constructAShr s

/-- What both builders construct for the amount `n`. -/
def shifted (k : ShiftKind) (x : BitVec w) (n : Nat) : BitVec w :=
  match k with
  | shl => x <<< n
  | lshr => x >>> n
  | ashr => if n < w then x.sshiftRight n else 0

variable {k : ShiftKind}

theorem isBits_construct_constant (hx : IsBits env expr w x) (hw : 0 < w) (c : ConstantExpr) :
    IsBits env (k.construct s expr (.constant c)) w (k.shifted x (unsignedAmount c)) := by
  cases k with
  | shl => exact isBits_bvLeftShift hx _
  | lshr => exact isBits_bvRightShift hx _
  | ashr => exact isBits_constructAShrByConstant hx (isBool_bvBoolExtract hx hw) _

theorem isBits_construct_symbolic (hx : IsBits env expr w x) (hy : IsBits env shift w y)
    (hw : 0 < w) :
    IsBits env (k.construct s expr (.symbolic shift)) w (k.shifted x y.toNat) := by
  cases k with
  | shl => exact isBits_bvVarLeftShift hx hy hw
  | lshr => exact isBits_bvVarRightShift hx hy hw (.self hw)
  | ashr => exact isBits_bvVarArithRightShift hx hy hw

theorem fold_eq (k : ShiftKind) (x y : BitVec w) :
    k.fold ⟨w, x⟩ ⟨w, y⟩ = ⟨w, k.toArithKind.denote x y⟩ := by
  cases k <;> simp [fold, toArithKind, ConstantExpr.shl, ConstantExpr.lshr, ConstantExpr.ashr,
    ConstantExpr.arith]

/-- A shift of `x` by `y` has one value: folded, built with a constant amount, and built with a
symbolic amount, by either solver. A shift of a Boolean never reaches the builders, as its
`create` function rewrites it. -/
def Agrees (k : ShiftKind) (x y : BitVec w) : Prop :=
  if w = 1 then ∀ σ l r, Denotes (some σ) l w x → Denotes (some σ) r w y →
    k.fold ⟨w, x⟩ ⟨w, y⟩ = ⟨w, (k.toArithKind.create l r).eval σ w⟩
  else ∀ (V : Type) (env : V → (w : Nat) → BitVec w) (s : CoreSolverType) (left amount : Term V)
    (v : BitVec w), IsBits env left w x → IsBits env amount w y →
    k.fold ⟨w, x⟩ ⟨w, y⟩ = ⟨w, v⟩ →
    IsBits env (k.construct s left (.constant ⟨w, y⟩)) w v ∧
    IsBits env (k.construct s left (.symbolic amount)) w v

/-- Over some term of every value the builders' results can be compared as values. -/
theorem agrees_iff_shifted (hw : 0 < w) (hne : w ≠ 1) : k.Agrees x y ↔
    k.shifted x (unsignedAmount ⟨w, y⟩) = k.toArithKind.denote x y ∧
      k.shifted x y.toNat = k.toArithKind.denote x y := by
  rw [Agrees, if_neg hne]
  constructor
  · intro h
    let env : Bool → (w : Nat) → BitVec w := fun b m => (if b then x else y).setWidth m
    have hx : IsBits env (.var true w) w x := congrArg (fun z => some (Value.bitVec w z))
      (BitVec.setWidth_eq x)
    have hy : IsBits env (.var false w) w y := congrArg (fun z => some (Value.bitVec w z))
      (BitVec.setWidth_eq y)
    obtain ⟨hc, hv⟩ := h Bool env .z3 _ _ _ hx hy (fold_eq k x y)
    exact ⟨(isBits_construct_constant hx hw _).unique hc,
      (isBits_construct_symbolic hx hy hw).unique hv⟩
  · rintro ⟨hc, hv⟩ V env s left amount v hx hy hfold
    obtain rfl : k.toArithKind.denote x y = v := by
      rw [fold_eq] at hfold
      cases hfold
      rfl
    exact ⟨(isBits_construct_constant hx hw _).congr hc,
      (isBits_construct_symbolic hx hy hw).congr hv⟩

/-- The `create` functions rewrite shifts of Booleans to their values. -/
theorem agrees_of_bool {x y : BitVec 1} : k.Agrees x y := by
  rw [Agrees, if_pos rfl]
  intro σ l r hl hr
  rw [fold_eq, (ArithKind.create_denotes k.toArithKind hl hr).eval]

theorem shifted_of_lt {n : Nat} (h : y.toNat < w) (hn : n = y.toNat) :
    k.shifted x n = k.toArithKind.denote x y := by
  subst hn
  cases k with
  | shl => exact (BitVec.shiftLeft_eq' ..).symm
  | lshr => exact (BitVec.ushiftRight_eq' ..).symm
  | ashr => exact if_pos h

/-- The builders shift to zero from the width on. -/
theorem shifted_overshift {n : Nat} (hn : w ≤ n) : k.shifted x n = 0 := by
  cases k with
  | shl => exact BitVec.shiftLeft_eq_zero hn
  | lshr => exact BitVec.ushiftRight_eq_zero hn
  | ashr => exact if_neg (by omega)

/-- So does constant folding, apart from the arithmetic shift. -/
theorem denote_overshift (hk : k ≠ .ashr) (h : w ≤ y.toNat) : k.toArithKind.denote x y = 0 := by
  cases k with
  | shl =>
    change x <<< y = 0
    rw [BitVec.shiftLeft_eq', BitVec.shiftLeft_eq_zero h]
    rfl
  | lshr =>
    change x >>> y = 0
    rw [BitVec.ushiftRight_eq', BitVec.ushiftRight_eq_zero h]
    rfl
  | ashr => exact (hk rfl).elim

/-- Ones keep a bit when they are shifted by less than their width. -/
theorem shifted_allOnes_ne_zero {n : Nat} (hn : n < w) :
    k.shifted (BitVec.allOnes w) n ≠ 0 := by
  intro h
  have hpos : 0 < w := by omega
  cases k with
  | shl =>
    have hbit := congrArg (BitVec.getLsbD · n) h
    simp [shifted, hn] at hbit
  | lshr =>
    have hbit := congrArg (BitVec.getLsbD · 0) h
    simp [shifted, hn] at hbit
  | ashr =>
    have hbit := congrArg (BitVec.getLsbD · 0) h
    simp [shifted, hn, BitVec.getLsbD_sshiftRight] at hbit
    omega

/-- Folding an arithmetic shift of ones keeps the sign bit. -/
theorem sshiftRight_allOnes_ne_zero (hpos : 0 < w) : (BitVec.allOnes w).sshiftRight' y ≠ 0 := by
  intro h
  have hbit := congrArg (BitVec.getLsbD · 0) h
  simp only [BitVec.sshiftRight_eq', BitVec.getLsbD_sshiftRight, BitVec.msb_allOnes hpos,
    BitVec.getLsbD_allOnes] at hbit
  simp at hbit
  omega

/-- The amount as the builders read it. -/
theorem unsignedAmount_le : unsignedAmount ⟨w, y⟩ ≤ y.toNat :=
  (Nat.mod_le _ _).trans (min_le_left _ _)

theorem unsignedAmount_of_lt (h : y.toNat < 2 ^ 32) : unsignedAmount ⟨w, y⟩ = y.toNat := by
  unfold unsignedAmount
  rw [min_eq_left (by dsimp only; omega), Nat.mod_eq_of_lt h]

/-- Constant folding and both builders agree on all values of the left operand exactly if the
operands are Booleans, the amount is below the width, or the shift is not arithmetic and the
amount is at least the width even after it is cut to 32 bits. Widths are `int`s in the
builders. -/
theorem agrees_iff (k : ShiftKind) {w : Nat} (hpos : 0 < w) (hw : w < 2 ^ 31) (y : BitVec w) :
    (∀ x, k.Agrees x y) ↔
      w = 1 ∨ y.toNat < w ∨ (k ≠ .ashr ∧ w ≤ unsignedAmount ⟨w, y⟩) := by
  by_cases h1 : w = 1
  · subst h1
    simp [agrees_of_bool]
  simp only [agrees_iff_shifted hpos h1, h1, false_or]
  constructor
  · intro h
    by_contra hnot
    obtain ⟨hge, hcut⟩ := not_or.mp hnot
    rw [not_lt] at hge
    obtain ⟨hconst, hvar⟩ := h (BitVec.allOnes w)
    by_cases hk : k = .ashr
    · subst hk
      rw [shifted_overshift hge] at hvar
      exact sshiftRight_allOnes_ne_zero hpos hvar.symm
    · rw [denote_overshift hk hge] at hconst
      exact shifted_allOnes_ne_zero (by by_contra hn; exact hcut ⟨hk, by omega⟩) hconst
  · rintro (hlt | ⟨hk, hcut⟩) x
    · have hsmall : y.toNat < 2 ^ 32 := by omega
      exact ⟨shifted_of_lt hlt (unsignedAmount_of_lt hsmall), shifted_of_lt hlt rfl⟩
    · have hge : w ≤ y.toNat := hcut.trans unsignedAmount_le
      rw [shifted_overshift hcut, shifted_overshift hge, denote_overshift hk hge]
      exact ⟨rfl, rfl⟩

theorem agrees_iff_byte : ashr.Agrees 128#8 3#8 :=
  (agrees_iff .ashr (by decide) (by decide) 3#8).mpr (.inr (.inl (by decide))) 128#8

/-- A left shift by `2^32` leaves the value as it is where the amount is a constant, and gives
0 where it is folded; an arithmetic overshift gives 0 in the builders, and the sign where it is
folded. -/
theorem not_agrees : ¬ shl.Agrees 1#64 4294967296#64 ∧ ¬ ashr.Agrees 128#8 8#8 := by
  rw [agrees_iff_shifted (by decide) (by decide), agrees_iff_shifted (by decide) (by decide)]
  constructor
  · rintro ⟨hconst, -⟩
    have hcut : unsignedAmount ⟨64, 4294967296#64⟩ = 0 := by decide
    rw [hcut, denote_overshift (by decide) (by decide)] at hconst
    revert hconst
    decide
  · decide

end ShiftKind

end Klee.SolverBuilder

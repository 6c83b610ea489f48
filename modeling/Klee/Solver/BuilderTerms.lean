import Klee.Solver.BuilderArithSpec
import Klee.Solver.BuilderConstruct

/-! The values of the terms in the cases of `construct`, and the expressions that the cases are
made for. -/
namespace Klee

open Smt Smt.Term

def ArithKind.ShiftInRange {w : Nat} : ArithKind → BitVec w → Prop
  | shl, y | lshr, y | ashr, y => y.toNat < w
  | _, _ => True

mutual

/-- Under `σ` every read is inside its array, one that is known, and every shift by less than
the width. -/
def Expr.WithinBounds (known : Array → Prop) (σ : Assignment) : Expr → Prop
  | .constant _ => True
  | .notOptimized e => e.WithinBounds known σ
  | .read root head index => known root ∧ head.WithinBounds known σ ∧ index.WithinBounds known σ ∧
      (index.eval σ 32).toNat < root.size
  | .select c t f => c.WithinBounds known σ ∧ t.WithinBounds known σ ∧ f.WithinBounds known σ
  | .concat l r => l.WithinBounds known σ ∧ r.WithinBounds known σ
  | .extract e _ _ => e.WithinBounds known σ
  | .cast _ e _ => e.WithinBounds known σ
  | .not e => e.WithinBounds known σ
  | .arith k l r =>
    l.WithinBounds known σ ∧ r.WithinBounds known σ ∧ k.ShiftInRange (r.eval σ l.width)
  | .cmp _ l r => l.WithinBounds known σ ∧ r.WithinBounds known σ

def UpdateNode.WithinBounds (known : Array → Prop) (σ : Assignment) : UpdateNode → Prop
  | .null => True
  | .node next index value =>
    next.WithinBounds known σ ∧ index.WithinBounds known σ ∧ value.WithinBounds known σ

end

def ArithKind.onBool : ArithKind → Bool
  | and | or | xor => true
  | _ => false

/-- The comparisons that are left by canonicalization, and those of Booleans. -/
def CmpKind.canonical (k : CmpKind) (w : Nat) : Bool :=
  match k with
  | eq => true
  | ult | ule | slt | sle => w != 1
  | _ => false

def ArithKind.DivisorRight (s : CoreSolverType) (k : ArithKind) (r : Expr) : Prop :=
  match k with
  | udiv | sdiv | urem => s = .stp → ∀ c, r = .constant c → c.value ≠ 0
  | _ => True

mutual

/-- The expressions that the builders are made for: Booleans occur only where a case of
`constructActual` looks for them, and casts make a value longer. -/
def Expr.Constructible (s : CoreSolverType) : Expr → Prop
  | .constant _ => True
  | .notOptimized e => e.Constructible s
  | .read _ head index => head.Constructible s ∧ index.Constructible s
  | .select c t f => c.Constructible s ∧ t.Constructible s ∧ f.Constructible s
  | .concat l r => l.Constructible s ∧ r.Constructible s ∧ l.width ≠ 1 ∧ r.width ≠ 1
  | .extract e _ _ => e.Constructible s ∧ e.width ≠ 1
  | .cast _ e w => e.Constructible s ∧ e.width < w
  | .not e => e.Constructible s
  | .arith k l r => l.Constructible s ∧ r.Constructible s ∧ (k.onBool = true ∨ l.width ≠ 1) ∧
      l.width < 2 ^ 32 ∧ k.DivisorRight s r
  | .cmp k l r => l.Constructible s ∧ r.Constructible s ∧ k.canonical l.width = true

def UpdateNode.Constructible (s : CoreSolverType) : UpdateNode → Prop
  | .null => True
  | .node next index value =>
    next.Constructible s ∧ index.Constructible s ∧ value.Constructible s

end

namespace SolverBuilder

section Terms

variable {env : Cell → (w : Nat) → BitVec w} {a b c : Term Cell} {w : Nat} {x y : BitVec w}

/-- The term has the value `x`: as a Boolean if it has one bit. -/
def IsTerm (env : Cell → (w : Nat) → BitVec w) (t : Term Cell) (w : Nat) (x : BitVec w) : Prop :=
  if w = 1 then IsBool env t (x.getLsbD 0) else IsBits env t w x

theorem IsTerm.bits (h : IsTerm env a w x) (hw : w ≠ 1) : IsBits env a w x := by
  rwa [IsTerm, if_neg hw] at h

theorem IsTerm.bool (h : IsTerm env a w x) (hw : w = 1) : IsBool env a (x.getLsbD 0) := by
  rwa [IsTerm, if_pos hw] at h

theorem isTerm_of_bits (hw : w ≠ 1) (h : IsBits env a w x) : IsTerm env a w x := by
  rwa [IsTerm, if_neg hw]

theorem isTerm_of_bool (hw : w = 1) (h : IsBool env a (x.getLsbD 0)) : IsTerm env a w x := by
  rwa [IsTerm, if_pos hw]

theorem IsTerm.congr (h : IsTerm env a w x) (hxy : x = y) : IsTerm env a w y := hxy ▸ h

theorem bitVec_one_eq (p : Bool) : (BitVec.ofBool p).getLsbD 0 = p := by
  cases p <;> rfl

theorem one_iff_getLsbD (x : BitVec 1) : x = 1#1 ↔ x.getLsbD 0 = true := by
  revert x
  decide

section Constant

/-- A word of a constant, from the arithmetic shift of `Extract`. -/
theorem getLsbD_extract (c : ConstantExpr) {off n i : Nat} (hi : i < n)
    (hoff : off + n ≤ c.width) :
    (c.extract off n).value.getLsbD i = c.value.getLsbD (off + i) := by
  rw [ConstantExpr.extract]
  simp only [BitVec.getLsbD_setWidth, BitVec.getLsbD_sshiftRight]
  have h1 : i < c.width := by omega
  have h2 : off + i < c.width := by omega
  have h3 : ¬ c.width ≤ i := by omega
  simp [hi, h2, h3]

theorem isBits_word (c : ConstantExpr) {off n : Nat} (hoff : off + n ≤ c.width) :
    IsBits env (bvConst64 n (c.extract off n).value.toNat) n (c.value.extractLsb' off n) := by
  refine (isBits_bvConst64 n _).congr (BitVec.eq_of_getLsbD_eq fun i hi => ?_)
  change (BitVec.ofNat (c.extract off n).width _).getLsbD i = _
  rw [BitVec.ofNat_toNat, BitVec.setWidth_eq, getLsbD_extract c hi hoff,
    BitVec.getLsbD_extractLsb']
  simp [hi]

/-- The words above the first `n` bits of `v`, by induction on what is left. -/
theorem isBits_wordsAbove {N : Nat} (v : BitVec N) (tmp : ConstantExpr) (res : Term Cell)
    (n : Nat) (hN : n + tmp.width = N) (htmp : tmp.value = v.extractLsb' n tmp.width)
    (hres : IsBits env res (n + min 64 tmp.width) (v.extractLsb' 0 (n + min 64 tmp.width))) :
    IsBits env (wordsAbove tmp res) N v := by
  rw [wordsAbove]
  split
  case isTrue hlong =>
    obtain ⟨tmp', htmp'⟩ : ∃ tmp', tmp' = tmp.extract 64 (tmp.width - 64) := ⟨_, rfl⟩
    have hwidth : tmp'.width = tmp.width - 64 := by rw [htmp']; rfl
    have hvalue : tmp'.value = v.extractLsb' (n + 64) tmp'.width := by
      refine BitVec.eq_of_getLsbD_eq fun i hi => ?_
      have hbit : (tmp.extract 64 (tmp.width - 64)).value.getLsbD i = tmp.value.getLsbD (64 + i) :=
        getLsbD_extract tmp (by omega) (by omega)
      have hin : i < tmp'.width := hi
      have hin' : 64 + i < tmp.width := by omega
      subst htmp'
      rw [hbit, htmp, BitVec.getLsbD_extractLsb', BitVec.getLsbD_extractLsb']
      simp [hin, hin', Nat.add_assoc]
    have hmin : min 64 tmp.width = 64 := by omega
    rw [hmin] at hres
    dsimp only
    rw [← htmp']
    refine isBits_wordsAbove v tmp' _ (n + 64) (by omega) hvalue ?_
    have hword : IsBits env (bvConst64 _ (tmp'.extract 0 (min 64 tmp'.width)).value.toNat)
        (min 64 tmp'.width) (tmp'.value.extractLsb' 0 _) := isBits_word tmp' (by omega)
    refine ((hword.concat hres).cast (by omega)).congr (BitVec.eq_of_getLsbD_eq fun i hi => ?_)
    rw [BitVec.getLsbD_setWidth, BitVec.getLsbD_append, BitVec.getLsbD_extractLsb',
      BitVec.getLsbD_extractLsb', BitVec.getLsbD_extractLsb', hvalue, BitVec.getLsbD_extractLsb']
    simp only [hi, decide_true, Bool.true_and, Nat.zero_add]
    by_cases hlow : i < n + 64
    · simp [hlow]
    · have h1 : i - (n + 64) < min 64 tmp'.width := by omega
      have h2 : i - (n + 64) < tmp'.width := by omega
      have h3 : n + 64 + (i - (n + 64)) = i := by omega
      simp only [hlow, if_false, h1, h2, h3, decide_true, Bool.true_and]
  case isFalse hshort =>
    have hmin : n + min 64 tmp.width = N := by omega
    refine (hres.cast hmin).congr (BitVec.eq_of_getLsbD_eq fun i hi => ?_)
    rw [BitVec.getLsbD_setWidth, BitVec.getLsbD_extractLsb']
    simp [hi, hmin]
termination_by tmp.width
decreasing_by subst htmp'; exact Nat.sub_lt (by omega) (by decide)

theorem constructConstant_snd (c : ConstantExpr) : (constructConstant c).2 = c.width := by
  unfold constructConstant
  split
  · exact Eq.symm ‹_›
  · split
    · rfl
    · split <;> rfl

/-- Constants of any width. -/
theorem isTerm_constructConstant (c : ConstantExpr) :
    IsTerm env (constructConstant c).1 c.width c.value := by
  have hsmall : IsBits env (bvConst32 c.width c.value.toNat) c.width c.value :=
    (isBits_bvConst32 _ _).congr (by rw [BitVec.ofNat_toNat, BitVec.setWidth_eq])
  unfold constructConstant
  split
  case isTrue hone =>
    refine isTerm_of_bool hone ((isBool_bool _).congr ?_)
    obtain ⟨w, v⟩ := c
    subst hone
    obtain rfl | rfl := BitVec.eq_zero_or_eq_one v <;> rfl
  case isFalse hone =>
    refine isTerm_of_bits hone ?_
    split
    · exact hsmall
    · split
      · exact hsmall
      · rename_i h64
        refine isBits_wordsAbove c.value c _ 0 (Nat.zero_add _) ?_ ?_
        · exact (BitVec.extractLsb'_eq_self).symm
        · have hmin : 0 + min 64 c.width = 64 := by omega
          rw [hmin]
          exact isBits_word c (by omega)

end Constant

section Slices

/-- Any bit, as a Boolean. -/
theorem isBool_bvBoolExtract_bit (h : IsBits env a w x) {bit : Nat} (hbit : bit < w) :
    IsBool env (bvBoolExtract a bit) (x.getLsbD bit) := by
  have hslice := ((h.extract le_rfl hbit).cast (by omega : _ = 1)).eq
    (isBits_bvZExtConst 1 (by decide : 1 < 2 ^ 64))
  refine hslice.congr ?_
  have hone (b : BitVec 1) : (b == BitVec.ofNat 1 1) = b.getLsbD 0 := by
    revert b
    decide
  rw [hone, BitVec.getLsbD_setWidth, BitVec.getLsbD_extractLsb']
  simp

theorem isTerm_constructExtract (h : IsBits env a w x) {off n : Nat} (hn : 0 < n)
    (hoff : off + n ≤ w) : IsTerm env (constructExtract a off n) n (x.extractLsb' off n) := by
  unfold constructExtract
  split
  case isTrue hone =>
    refine isTerm_of_bool hone ((isBool_bvBoolExtract_bit h (by omega)).congr ?_)
    subst hone
    simp
  case isFalse hne =>
    refine isTerm_of_bits hne ?_
    have hwidth : off + n - 1 + 1 - off = n := by omega
    refine ((h.extract (by omega) (by omega)).cast hwidth).congr ?_
    refine BitVec.eq_of_getLsbD_eq fun i hi => ?_
    rw [BitVec.getLsbD_setWidth, BitVec.getLsbD_extractLsb', BitVec.getLsbD_extractLsb']
    simp [hi, hwidth]

end Slices

section Casts

/-- A Boolean becomes 1 or 0. -/
theorem isBits_ite_one (h : IsTerm env a w x) (hw : w = 1) (n : Nat) :
    IsBits env (.ite a (bvOne n) (bvZero n)) n (x.setWidth n) := by
  refine (IsBits.ite (h.bool hw) (isBits_bvZExtConst n (by decide)) (isBits_bvZero n)).congr ?_
  subst hw
  obtain rfl | rfl := BitVec.eq_zero_or_eq_one x
  · simp
  · exact BitVec.eq_of_toNat_eq (by simp)

/-- A Boolean becomes -1 or 0. -/
theorem isBits_ite_minusOne (s : CoreSolverType) (h : IsTerm env a w x) (hw : w = 1) (n : Nat) :
    IsBits env (.ite a (bvMinusOne s n) (bvZero n)) n (x.signExtend n) := by
  refine (IsBits.ite (h.bool hw) (isBits_bvMinusOne s n) (isBits_bvZero n)).congr ?_
  subst hw
  refine BitVec.eq_of_getLsbD_eq fun i hi => ?_
  rw [BitVec.getLsbD_signExtend]
  obtain rfl | rfl := BitVec.eq_zero_or_eq_one x
  · simp
  · simp [hi, BitVec.msb_eq_getLsbD_last]

theorem isBits_zext (h : IsBits env a w x) {n : Nat} (hn : w ≤ n) :
    IsBits env (.concat (bvZero (n - w)) a) n (x.setWidth n) := by
  refine (((isBits_bvZero (n - w)).concat h).cast (by omega)).congr ?_
  refine BitVec.eq_of_getLsbD_eq fun i hi => ?_
  rw [BitVec.getLsbD_setWidth, BitVec.getLsbD_append, BitVec.getLsbD_setWidth]
  by_cases hlow : i < w
  · simp [hlow, hi]
  · simp [hlow, BitVec.getLsbD_of_ge x i (Nat.le_of_not_lt hlow)]

end Casts

section Operators

def Operator (k : ArithKind) (op : BvOp) : Prop :=
  ∀ (w : Nat) (x y : BitVec w), op.denote x y = k.operator x y

/-- Apart from Booleans operators have their values of SMT-LIB. -/
theorem denote_eq_operator (k : ArithKind) (hw : w ≠ 1) : k.denote x y = k.operator x y := by
  cases k <;> first | rfl | exact if_neg hw

theorem isTerm_bvop {k : ArithKind} {op : BvOp} (hop : Operator k op) (ha : IsTerm env a w x)
    (hb : IsTerm env b w y) (hw : w ≠ 1) : IsTerm env (.bvop op a b) w (k.denote x y) := by
  refine isTerm_of_bits hw (((ha.bits hw).bvop op (hb.bits hw)).congr ?_)
  rw [hop, denote_eq_operator k hw]

/-- The forms of the bitwise operators on Booleans. -/
theorem isTerm_onBool {k : ArithKind} {f : Term Cell → Term Cell → Term Cell}
    {g : Bool → Bool → Bool}
    (hf : ∀ p q, IsBool env a p → IsBool env b q → IsBool env (f a b) (g p q))
    (hg : ∀ x y : BitVec 1, g (x.getLsbD 0) (y.getLsbD 0) = (k.denote x y).getLsbD 0)
    (ha : IsTerm env a w x) (hb : IsTerm env b w y) (hw : w = 1) :
    IsTerm env (f a b) w (k.denote x y) := by
  refine isTerm_of_bool hw ((hf _ _ (ha.bool hw) (hb.bool hw)).congr ?_)
  subst hw
  exact hg x y

section PowerOfTwo

theorem toNat_bit {k : Nat} (hk : k < 64) : (1#64 <<< k).toNat = 2 ^ k := by
  have hone : (1#64).toNat = 1 := rfl
  rw [BitVec.toNat_shiftLeft, hone, Nat.shiftLeft_eq, one_mul,
    Nat.mod_eq_of_lt (Nat.pow_lt_pow_right (by decide) hk)]

theorem isPowerOfTwo_spec {d : BitVec 64} (h : Bits64.isPowerOfTwo d = true) :
    ∃ k < 64, d = 1#64 <<< k := by
  unfold Bits64.isPowerOfTwo at h
  split at h
  · cases h
  · rename_i hne
    have hpos : d.toNat ≠ 0 := fun h => hne (BitVec.eq_of_toNat_eq h)
    have hand : d.toNat &&& (d.toNat - 1) = 0 := by
      have hd := congrArg BitVec.toNat (beq_iff_eq.mp h)
      have hle : (1 : BitVec 64) ≤ d := by
        rw [BitVec.le_def]
        exact Nat.pos_of_ne_zero hpos
      rw [BitVec.toNat_and, BitVec.toNat_sub_of_le hle] at hd
      exact hd
    obtain ⟨k, hk⟩ := (Nat.and_sub_one_eq_zero_iff_isPowerOfTwo hpos).mp hand
    have hlt : k < 64 := by
      by_contra hge
      have hle := Nat.pow_le_pow_right two_pos (Nat.le_of_not_lt hge)
      have := d.isLt
      omega
    exact ⟨k, hlt, BitVec.eq_of_toNat_eq (hk.trans (toNat_bit hlt).symm)⟩

/-- A constant divisor that is a power of two. -/
theorem toNat_eq_two_pow {k : Nat} (hw : w ≤ 64) (hk : k < 64)
    (hy : y.setWidth 64 = 1#64 <<< k) : y.toNat = 2 ^ k ∧ k < w := by
  have hy : y.toNat = 2 ^ k := by
    have h := congrArg BitVec.toNat hy
    rwa [BitVec.toNat_setWidth, Nat.mod_eq_of_lt (y.isLt.trans_le
      (Nat.pow_le_pow_right two_pos hw)), toNat_bit hk] at h
  refine ⟨hy, ?_⟩
  by_contra hge
  have hle := Nat.pow_le_pow_right two_pos (Nat.le_of_not_lt hge)
  have := y.isLt
  omega

theorem smtUDiv_two_pow {k : Nat} (hy : y.toNat = 2 ^ k) : x >>> k = x.smtUDiv y := by
  have hne : y ≠ 0 := by
    rintro rfl
    have := Nat.two_pow_pos k
    simp at hy
    omega
  apply BitVec.eq_of_toNat_eq
  rw [BitVec.smtUDiv_eq, if_neg (by simpa using hne), BitVec.toNat_ushiftRight,
    BitVec.toNat_udiv, hy, Nat.shiftRight_eq_div_pow]

/-- The low bits are the remainder. -/
theorem umod_two_pow {k : Nat} (hy : y.toNat = 2 ^ k) (hk : k < w) :
    (x.extractLsb' 0 k).setWidth w = x % y := by
  apply BitVec.eq_of_toNat_eq
  have hlt : x.toNat % 2 ^ k < 2 ^ w :=
    (Nat.mod_lt _ (Nat.two_pow_pos k)).trans (Nat.pow_lt_pow_right (by decide) hk)
  rw [BitVec.toNat_setWidth, BitVec.extractLsb'_toNat, Nat.shiftRight_zero, BitVec.toNat_umod,
    hy, Nat.mod_eq_of_lt hlt]

end PowerOfTwo

end Operators

end Terms

end SolverBuilder

end Klee

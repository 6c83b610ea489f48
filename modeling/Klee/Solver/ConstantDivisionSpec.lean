import Klee.Solver.ConstantDivision
import Klee.Lib.Reciprocal
import Mathlib.Data.Nat.Size

/-! What the constants of `ConstantDivision.cpp` are: `add - sub` is the multiplier, and the
multipliers of the divisions are reciprocals with an error that no dividend sees. -/
namespace Klee

open BitVec (NoneBelow NoneFrom)

section Rightmost

variable {x : BitVec 64}

/-- `isolateRightmostBit` and its index; of 0 it is the bit 64, which is no bit at all. -/
theorem isolateRightmostBit_spec (x : BitVec 64) : ∃ high, high ≤ 64 ∧
    Bits64.isolateRightmostBit x = 1#64 <<< high ∧
    MultConstants.high (1#64 <<< high) = some high ∧
    (∀ k, k ≤ 64 → NoneBelow k x → k ≤ high) ∧
    x ^^^ 1#64 <<< high = x - 1#64 <<< high ∧ NoneBelow (min (high + 1) 64) (x - 1#64 <<< high) := by
  by_cases h : x = 0
  · subst h
    exact ⟨64, le_rfl, by decide, by decide, fun k hk _ => hk, by decide, fun j _ => by simp⟩
  · obtain ⟨high, hhigh, hbit, hbelow⟩ := BitVec.exists_lowest h
    have hne : (1#64 <<< high : BitVec 64) ≠ 0 := by
      intro h0
      have hval := congrArg BitVec.toNat h0
      rw [BitVec.toNat_bit hhigh] at hval
      exact absurd hval (Nat.two_pow_pos high).ne'
    refine ⟨high, hhigh.le, BitVec.and_neg_of_lowest hhigh hbit hbelow, ?_, ?_,
      BitVec.xor_bit_of_true hhigh hbit, ?_⟩
    · rw [MultConstants.high, if_pos hne, Bits64.indexOfSingleBit_bit hhigh]
    · intro k _ hk
      by_contra hlt
      rw [hk high (by omega)] at hbit
      cases hbit
    · rw [min_eq_left hhigh]
      exact BitVec.sub_bit_noneBelow hhigh hbit hbelow

/-- The rightmost bit of a value that is not 0. -/
theorem indexOfRightmostBit_spec (h : x ≠ 0) : ∃ low, low < 64 ∧
    Bits64.indexOfRightmostBit x = some low ∧ x.getLsbD low = true ∧ NoneBelow low x := by
  obtain ⟨low, hlow, hbit, hbelow⟩ := BitVec.exists_lowest h
  refine ⟨low, hlow, ?_, hbit, hbelow⟩
  rw [Bits64.indexOfRightmostBit, Bits64.isolateRightmostBit,
    BitVec.and_neg_of_lowest hlow hbit hbelow, Bits64.indexOfSingleBit_bit hlow]

end Rightmost

namespace MultConstants

/-- The bits of the multiplier from `k` on are still in `x`, those below are in `add` and
`sub`. -/
structure Inv (m : BitVec 64) (k : Nat) (s : MultConstants) : Prop where
  le : k ≤ 64
  x : NoneBelow k s.x
  add : NoneFrom k s.add
  sub : NoneFrom k s.sub
  disjoint : ∀ j, s.add.getLsbD j = true → s.sub.getLsbD j = false
  total : s.add - s.sub + s.x = m

variable {m : BitVec 64} {k low high : Nat} {s : MultConstants}

/-- A region of one bit is added. -/
theorem Inv.single (h : Inv m k s) (hk : k ≤ low) (hlow : low < 64) (hhigh : high = low + 1)
    (hx : NoneBelow (min (high + 1) 64) (s.x + 1#64 <<< low - 1#64 <<< high)) :
    Inv m (min (high + 1) 64)
      ⟨s.x + 1#64 <<< low - 1#64 <<< high, s.add ||| 1#64 <<< low, s.sub⟩ where
  le := min_le_right _ _
  x := hx
  add j hj := by
    have hne : low ≠ j := by omega
    rw [BitVec.getLsbD_or, BitVec.getLsbD_bit hlow, h.add j (by omega)]
    simp [hne]
  sub j hj := h.sub j (by omega)
  disjoint j hj := by
    rw [BitVec.getLsbD_or, BitVec.getLsbD_bit hlow, Bool.or_eq_true, decide_eq_true_iff] at hj
    cases hj with
    | inl hj => exact h.disjoint j hj
    | inr hj => exact h.sub j (hj ▸ hk)
  total := by
    dsimp only
    rw [← h.total, BitVec.or_bit (h.add low hk), hhigh, BitVec.bit_succ]
    ring

/-- A region of more bits: the bit above it is added, and `sub` takes over what is taken away. -/
theorem Inv.region {add sub : BitVec 64} (h : Inv m k s) (hk : k ≤ low) (hlow : low < high)
    (hhigh : high ≤ 64) (hadd : NoneFrom k add) (hsub : NoneFrom (low + 1) sub)
    (hdisjoint : ∀ j, add.getLsbD j = true → sub.getLsbD j = false)
    (htotal : add - sub = s.add - s.sub - 1#64 <<< low)
    (hx : NoneBelow (min (high + 1) 64) (s.x + 1#64 <<< low - 1#64 <<< high)) :
    Inv m (min (high + 1) 64) ⟨s.x + 1#64 <<< low - 1#64 <<< high,
      if high ≠ 64 then add ||| 1#64 <<< high else add, sub⟩ where
  le := min_le_right _ _
  x := hx
  add j hj := by
    dsimp only
    split
    case isTrue hne =>
      have hjne : high ≠ j := by omega
      rw [BitVec.getLsbD_or, BitVec.getLsbD_bit (by omega), hadd j (by omega)]
      simp [hjne]
    case isFalse => exact hadd j (by omega)
  sub j hj := hsub j (by omega)
  disjoint j hj := by
    dsimp only at hj
    split at hj
    case isTrue hne =>
      rw [BitVec.getLsbD_or, BitVec.getLsbD_bit (by omega), Bool.or_eq_true,
        decide_eq_true_iff] at hj
      cases hj with
      | inl hj => exact hdisjoint j hj
      | inr hj => exact hsub j (by omega)
    case isFalse => exact hdisjoint j hj
  total := by
    have hhighAdd : (if high ≠ 64 then add ||| 1#64 <<< high else add) =
        add + 1#64 <<< high := by
      split
      case isTrue => exact BitVec.or_bit (hadd high (by omega))
      case isFalse h64 =>
        rw [not_not.mp h64]
        exact (BitVec.add_zero add).symm
    dsimp only
    rw [hhighAdd, ← h.total]
    calc add + 1#64 <<< high - sub + (s.x + 1#64 <<< low - 1#64 <<< high)
        = (add - sub) + (s.x + 1#64 <<< low) := by ring
      _ = s.add - s.sub + s.x := by rw [htotal]; ring

/-- A round keeps the invariant and goes on above the region. -/
theorem round_spec (h : Inv m k s) (hx : s.x ≠ 0) :
    ∃ s' k', s.round = some s' ∧ Inv m k' s' ∧ k < k' := by
  obtain ⟨low, hlow, hindex, hbit, hbelow⟩ := indexOfRightmostBit_spec hx
  have hk : k ≤ low := by
    by_contra hlt
    rw [h.x low (by omega)] at hbit
    cases hbit
  -- adding the lowest bit carries over the whole region
  have hcarry : NoneBelow (low + 1) (s.x + 1#64 <<< low) := by
    have hsplit : s.x + 1#64 <<< low = (s.x - 1#64 <<< low) + 1#64 <<< (low + 1) := by
      rw [BitVec.bit_succ]
      ring
    rw [hsplit]
    refine (BitVec.sub_bit_noneBelow hlow hbit hbelow).add hlow fun j hj => ?_
    rw [← BitVec.twoPow_eq, BitVec.getLsbD_twoPow]
    simp
    omega
  obtain ⟨high, hhigh, hq, hhindex, hleast, hxor, hrest⟩ :=
    isolateRightmostBit_spec (s.x + 1#64 <<< low)
  have hlt : low < high := hleast (low + 1) hlow hcarry
  have hkhigh : k < min (high + 1) 64 := by
    have := h.le
    omega
  rw [round, hindex]
  simp only [Option.bind_eq_bind, Option.bind_some, hq, hhindex, hxor]
  split
  case isTrue hone => exact ⟨_, _, rfl, h.single hk hlow hone hrest, hkhigh⟩
  case isFalse =>
    refine ⟨_, _, rfl, ?_, hkhigh⟩
    by_cases hadj : low ≠ 0 ∧ s.add &&& 1#64 <<< low >>> 1 ≠ 0
    · -- the bit below was added: it is subtracted instead
      simp only [if_pos hadj]
      obtain ⟨low, rfl⟩ := Nat.exists_eq_succ_of_ne_zero hadj.1
      have hhalf : 1#64 <<< (low + 1) >>> 1 = 1#64 <<< low := by
        refine BitVec.eq_of_getLsbD_eq fun j _ => ?_
        rw [BitVec.getLsbD_ushiftRight, BitVec.getLsbD_bit hlow, BitVec.getLsbD_bit (by omega)]
        rw [decide_eq_decide]
        omega
      rw [Nat.succ_eq_add_one, hhalf] at hadj ⊢
      have hset := (BitVec.and_bit_ne_zero (by omega) s.add).mp hadj.2
      have hflip (z : BitVec 64) (j : Nat) : (z ^^^ 1#64 <<< low).getLsbD j =
          (z.getLsbD j ^^ decide (low = j)) := by
        rw [BitVec.getLsbD_xor, BitVec.getLsbD_bit (by omega)]
      have hlowk : low < k := by
        by_contra hge
        rw [h.add low (by omega)] at hset
        cases hset
      refine h.region hk hlt hhigh (fun j hj => ?_) (fun j hj => ?_) (fun j hj => ?_) ?_ hrest
      · have hne : low ≠ j := by omega
        rw [hflip, h.add j hj]
        simp [hne]
      · have hne : low ≠ j := by omega
        rw [hflip, h.sub j (by omega)]
        simp [hne]
      · rw [hflip] at hj ⊢
        by_cases heq : low = j
        · rw [← heq, hset] at hj
          simp at hj
        · rw [decide_eq_false heq, Bool.xor_false] at hj ⊢
          exact h.disjoint j hj
      · rw [BitVec.xor_bit_of_true (by omega) hset,
          BitVec.xor_bit_of_false (by omega) (h.disjoint low hset), BitVec.bit_succ]
        ring
    · simp only [if_neg hadj]
      refine h.region hk hlt hhigh h.add (fun j hj => ?_) (fun j hj => ?_) ?_ hrest
      · have hne : low ≠ j := by omega
        rw [BitVec.getLsbD_or, BitVec.getLsbD_bit hlow, h.sub j (by omega)]
        simp [hne]
      · have hne : low ≠ j := by
          rintro rfl
          rw [h.add low hk] at hj
          cases hj
        rw [BitVec.getLsbD_or, BitVec.getLsbD_bit hlow, h.disjoint j hj]
        simp [hne]
      · rw [BitVec.or_bit (h.sub low hk)]
        ring

/-- The loop ends, by induction on the rounds that are left, each of which goes on by a bit. -/
theorem loop_spec {fuel : Nat} (h : Inv m k s) (hfuel : 64 ≤ fuel + k) :
    ∃ s', loop fuel s = some s' ∧ s'.x = 0 ∧ Inv m 64 s' := by
  induction fuel generalizing k s with
  | zero =>
    obtain rfl : k = 64 := by
      have := h.le
      omega
    have hx : s.x = 0 := h.x.eq_zero
    exact ⟨s, if_pos hx, hx, h⟩
  | succ fuel ih =>
    rw [loop]
    by_cases hx : s.x = 0
    · refine ⟨s, if_pos hx, hx, le_rfl, fun j _ => by simp [hx], fun j hj => h.add j ?_,
        fun j hj => h.sub j ?_, h.disjoint, h.total⟩
      · exact h.le.trans hj
      · exact h.le.trans hj
    · obtain ⟨s', k', hround, hinv, hlt⟩ := round_spec h hx
      obtain ⟨r, hr, hspec⟩ := ih hinv (by omega)
      refine ⟨r, ?_, hspec⟩
      rw [if_neg hx, hround]
      exact hr

end MultConstants

/-- `ComputeMultConstants64` ends with disjoint masks whose difference is the multiplier. -/
theorem computeMultConstants64_spec (m : BitVec 64) : ∃ add sub,
    computeMultConstants64 m = some (add, sub) ∧ add &&& sub = 0 ∧ add - sub = m := by
  have hinit : MultConstants.Inv m 0 ⟨m, 0, 0⟩ :=
    ⟨Nat.zero_le _, fun j hj => by omega, fun j _ => by simp, fun j _ => by simp,
      fun j hj => by simp at hj, by simp⟩
  obtain ⟨s, hloop, hx, hinv⟩ := MultConstants.loop_spec hinit (by omega : 64 ≤ 64 + 0)
  have htotal : s.add - s.sub = m := by
    have := hinv.total
    rwa [hx, add_zero] at this
  refine ⟨s.add, s.sub, ?_, BitVec.eq_of_getLsbD_eq fun j hj => ?_, htotal⟩
  · rw [computeMultConstants64, hloop]
    exact if_pos htotal.symm
  · rw [BitVec.getLsbD_and]
    cases hadd : s.add.getLsbD j with
    | false => exact (Bool.false_and _).trans BitVec.getLsbD_zero.symm
    | true => exact (Bool.true_and _).trans ((hinv.disjoint j hadd).trans BitVec.getLsbD_zero.symm)

section Logarithm

variable {x y : BitVec 32} {n : Nat}

/-- `y` has the bits that `x` has within `n` bits from there. -/
def Covers (n : Nat) (x y : BitVec 32) : Prop :=
  ∀ j, y.getLsbD j = true ↔ ∃ i, i < n ∧ x.getLsbD (j + i) = true

theorem Covers.double (h : Covers n x y) : Covers (n + n) x (y ||| y >>> n) := by
  intro j
  rw [BitVec.getLsbD_or, BitVec.getLsbD_ushiftRight, Bool.or_eq_true, h j, h (n + j)]
  constructor
  · rintro (⟨i, hi, hbit⟩ | ⟨i, hi, hbit⟩)
    · exact ⟨i, by omega, hbit⟩
    · exact ⟨n + i, by omega, by rwa [(by omega : j + (n + i) = n + j + i)]⟩
  · rintro ⟨i, hi, hbit⟩
    by_cases hin : i < n
    · exact .inl ⟨i, hin, hbit⟩
    · exact .inr ⟨i - n, by omega, by rwa [(by omega : n + j + (i - n) = j + i)]⟩

/-- The value of which `ldz` counts the ones. -/
def smear (x : BitVec 32) : BitVec 32 :=
  let x := x ||| x >>> 1
  let x := x ||| x >>> 2
  let x := x ||| x >>> 4
  let x := x ||| x >>> 8
  x ||| x >>> 16

theorem smear_covers (x : BitVec 32) : Covers 32 x (smear x) := by
  have hself : Covers 1 x x := by
    intro j
    constructor
    · exact fun h => ⟨0, one_pos, h⟩
    · rintro ⟨i, hi, hbit⟩
      rwa [Nat.lt_one_iff.mp hi] at hbit
  exact hself.double.double.double.double.double

/-- All bits below the highest one. -/
theorem smear_eq (x : BitVec 32) : smear x = BitVec.ofNat 32 (2 ^ x.toNat.size - 1) := by
  refine BitVec.eq_of_getLsbD_eq fun j hj => ?_
  rw [BitVec.getLsbD_ofNat, Nat.testBit_two_pow_sub_one, Bool.eq_iff_iff, smear_covers x j]
  simp only [hj, decide_true, Bool.true_and, decide_eq_true_iff, Nat.lt_size]
  constructor
  · rintro ⟨i, -, hbit⟩
    exact (Nat.pow_le_pow_right two_pos (Nat.le_add_right j i)).trans
      (Nat.ge_two_pow_of_testBit hbit)
  · intro hle
    obtain ⟨i, hi, hbit⟩ := Nat.exists_ge_and_testBit_of_ge_two_pow hle
    have hlt : i < 32 := BitVec.lt_of_getLsbD hbit
    exact ⟨i - j, by omega, by rwa [(by omega : j + (i - j) = i)]⟩

theorem ones_mask (hn : n ≤ 32) : ones (BitVec.ofNat 32 (2 ^ n - 1)) = BitVec.ofNat 32 n := by
  have hall : ∀ n : Fin 33, ones (BitVec.ofNat 32 (2 ^ n.val - 1)) = BitVec.ofNat 32 n := by decide
  exact hall ⟨n, by omega⟩

theorem expBase2_eq (hn : n ≤ 32) : expBase2 (BitVec.ofNat 32 n) = BitVec.ofNat 32 (2 ^ n) := by
  have hall : ∀ n : Fin 33, expBase2 (BitVec.ofNat 32 n) = BitVec.ofNat 32 (2 ^ n.val) := by decide
  exact hall ⟨n, by omega⟩

theorem size_le_32 (x : BitVec 32) : x.toNat.size ≤ 32 := Nat.size_le.mpr x.isLt

theorem log2Ceil_eq (x : BitVec 32) : log2Ceil x = BitVec.ofNat 32 (x - 1).toNat.size := by
  change 32 - (32 - ones (smear (x - 1))) = _
  rw [smear_eq, ones_mask (size_le_32 _), sub_sub_cancel]

/-- `l` is the logarithm of `d`, rounded up. -/
structure IsLog2Ceil (d l : Nat) : Prop where
  le_pow : d ≤ 2 ^ l
  pow_lt : 0 < l → 2 ^ (l - 1) < d

theorem isLog2Ceil_size {d : Nat} (hd : 0 < d) : IsLog2Ceil d (d - 1).size where
  le_pow := by
    have := Nat.lt_size_self (d - 1)
    omega
  pow_lt hl := by
    have := Nat.lt_size.mp (Nat.sub_one_lt hl.ne')
    omega

/-- The logarithm that the macro computes, with its power. -/
theorem log2Ceil_spec (hx : x ≠ 0) : ∃ l, l ≤ 32 ∧ log2Ceil x = BitVec.ofNat 32 l ∧
    IsLog2Ceil x.toNat l := by
  have hpos : 0 < x.toNat := Nat.pos_of_ne_zero fun h => hx (BitVec.eq_of_toNat_eq h)
  have hpred : (x - 1).toNat = x.toNat - 1 :=
    BitVec.toNat_sub_of_le (x := x) (y := 1) hpos
  refine ⟨(x - 1).toNat.size, size_le_32 _, log2Ceil_eq x, ?_⟩
  rw [hpred]
  exact isLog2Ceil_size hpos

end Logarithm

section UDiv

variable {d l n : Nat}

/-- The multiplier without its highest bit. -/
theorem udiv_multiplier (hd : 0 < d) (h : IsLog2Ceil d l) :
    2 ^ 32 * (2 ^ l - d) / d + 1 + 2 ^ 32 = 2 ^ 32 * 2 ^ l / d + 1 := by
  have hsplit : 2 ^ 32 * 2 ^ l = 2 ^ 32 * (2 ^ l - d) + 2 ^ 32 * d := by
    rw [← Nat.mul_add, Nat.sub_add_cancel h.le_pow]
  rw [hsplit, Nat.add_mul_div_right _ _ hd]
  omega

theorem udivMid_lt (hd : 0 < d) (h : IsLog2Ceil d l) : 2 ^ l - d < d := by
  cases l with
  | zero => omega
  | succ l =>
    have hlt : 2 ^ l < d := h.pow_lt (Nat.succ_pos l)
    rw [pow_succ]
    omega

theorem udiv_quotient_lt (hd : 0 < d) (hd32 : d < 2 ^ 32) (h : IsLog2Ceil d l) :
    2 ^ 32 * (2 ^ l - d) / d + 1 < 2 ^ 32 := by
  have hmid := udivMid_lt hd h
  have hlt : 2 ^ 32 * (2 ^ l - d) / d < 2 ^ 32 - 1 := by
    rw [Nat.div_lt_iff_lt_mul hd]
    omega
  omega

/-- `(((n - t1) >> sh1) + t1) >> sh2` -/
theorem udiv_by_multiplier (hd : 0 < d) (hd32 : d < 2 ^ 32) (hn : n < 2 ^ 32)
    (h : IsLog2Ceil d l) {t1 : Nat}
    (ht1 : t1 = (2 ^ 32 * (2 ^ l - d) / d + 1) * n / 2 ^ 32) :
    t1 ≤ n ∧ ((n - t1) / 2 ^ min l 1 + t1) / 2 ^ (l - 1) = n / d := by
  have hq := udiv_quotient_lt hd hd32 h
  have hle : t1 ≤ n := by
    rw [ht1]
    refine Nat.div_le_of_le_mul ?_
    exact Nat.mul_le_mul_right n hq.le
  refine ⟨hle, ?_⟩
  cases l with
  | zero =>
    have hone : d = 1 := by
      have := h.le_pow
      omega
    subst hone
    have hzero : t1 = 0 := by
      rw [ht1]
      omega
    simp [hzero]
  | succ l =>
    have hsum : n + t1 = n * (2 ^ 32 * 2 ^ (l + 1) / d + 1) / 2 ^ 32 := by
      rw [← udiv_multiplier hd h, Nat.mul_add _ _ (2 ^ 32), Nat.add_mul_div_right _ _ (by decide),
        ht1, Nat.mul_comm n, Nat.add_comm]
    have hhalf : (n - t1) / 2 ^ min (l + 1) 1 + t1 = (n + t1) / 2 := by
      rw [min_eq_right (by omega), pow_one]
      omega
    have hsmall : n * d < 2 ^ 32 * 2 ^ (l + 1) := by
      calc n * d ≤ n * 2 ^ (l + 1) := Nat.mul_le_mul_left n h.le_pow
        _ < 2 ^ 32 * 2 ^ (l + 1) := Nat.mul_lt_mul_of_pos_right hn (Nat.two_pow_pos _)
    rw [hhalf, hsum, Nat.add_sub_cancel, Nat.div_div_eq_div_mul, Nat.div_div_eq_div_mul,
      ← pow_succ', Reciprocal.mul_div_eq hd hsmall]

theorem computeUDivConstants32_spec {d : BitVec 32} (hd : d ≠ 0) : ∃ c l,
    computeUDivConstants32 d = some c ∧ IsLog2Ceil d.toNat l ∧
    (udivMid d).toNat = 2 ^ l - d.toNat ∧
    c.mprime.toNat = 2 ^ 32 * (2 ^ l - d.toNat) / d.toNat + 1 ∧
    c.sh1.toNat = min l 1 ∧ c.sh2.toNat = l - 1 := by
  obtain ⟨l, hl, hlog, hspec⟩ := log2Ceil_spec hd
  have hpos : 0 < d.toNat := Nat.pos_of_ne_zero fun h => hd (BitVec.eq_of_toNat_eq h)
  have hmid : (udivMid d).toNat = 2 ^ l - d.toNat := by
    have hlt := udivMid_lt hpos hspec
    have hle := hspec.le_pow
    have hd32 := d.isLt
    rw [udivMid, udivLog, hlog, expBase2_eq hl, BitVec.toNat_sub, BitVec.toNat_ofNat]
    omega
  have hshifts : ∀ l : Fin 33,
      (if (1#32).slt (BitVec.ofNat 32 l) then 1 else BitVec.ofNat 32 l).toNat = min l.val 1 ∧
      (if (BitVec.ofNat 32 l - 1).slt 0 then 0 else BitVec.ofNat 32 l - 1).toNat = l.val - 1 := by
    decide
  obtain ⟨hsh1, hsh2⟩ := hshifts ⟨l, by omega⟩
  refine ⟨_, l, if_neg hd, hspec, hmid, ?_, ?_, ?_⟩
  · have hquotient : ((1#64 <<< 32 * (udivMid d).setWidth 64) / d.setWidth 64).toNat =
        2 ^ 32 * (2 ^ l - d.toNat) / d.toNat := by
      have hone : (1#64 <<< 32).toNat = 2 ^ 32 := by decide
      have hd64 : d.toNat % 2 ^ 64 = d.toNat := Nat.mod_eq_of_lt (by omega)
      have hmid64 : (2 ^ l - d.toNat) % 2 ^ 64 = 2 ^ l - d.toNat := by
        rw [← hmid]
        exact Nat.mod_eq_of_lt (by omega)
      have hmul : 2 ^ 32 * (2 ^ l - d.toNat) % 2 ^ 64 = 2 ^ 32 * (2 ^ l - d.toNat) := by
        rw [← hmid]
        exact Nat.mod_eq_of_lt (by omega)
      rw [BitVec.toNat_udiv, BitVec.toNat_mul, BitVec.toNat_setWidth, BitVec.toNat_setWidth, hone,
        hmid, hd64, hmid64, hmul]
    have hlt := udiv_quotient_lt hpos d.isLt hspec
    rw [BitVec.toNat_setWidth, BitVec.toNat_add, hquotient]
    change (2 ^ 32 * (2 ^ l - d.toNat) / d.toNat + 1) % 2 ^ 64 % 2 ^ 32 = _
    omega
  · rw [udivLog, hlog]
    exact hsh1
  · rw [udivLog, hlog]
    exact hsh2

end UDiv

section SDiv

variable {d : BitVec 32} {l : Nat}

/-- The product with the multiplier, shifted twice, is the quotient rounded down. -/
def sdivMultiplier (d : BitVec 32) (l : Nat) : Nat := 2 ^ 32 * 2 ^ (l - 1) / d.toInt.natAbs + 1

theorem natAbs_toInt_le (d : BitVec 32) : d.toInt.natAbs ≤ 2 ^ 31 := by
  have hlow := BitVec.le_toInt d
  have hhigh := BitVec.toInt_lt (x := d)
  norm_num at hlow hhigh
  omega

theorem sdivAbs_toNat (d : BitVec 32) : (sdivAbs d).toNat = d.toInt.natAbs := by
  have hle := natAbs_toInt_le d
  have hext : (d.signExtend 64).toInt = d.toInt := BitVec.toInt_signExtend_of_le (by decide)
  have habs : (sdivAbs d) = BitVec.ofInt 64 d.toInt.natAbs := by
    unfold sdivAbs
    rw [BitVec.slt_eq_decide, hext]
    split
    case isTrue hpos =>
      rw [decide_eq_true_iff] at hpos
      change 0 < d.toInt at hpos
      rw [BitVec.signExtend, Int.natAbs_of_nonneg hpos.le]
    case isFalse hpos =>
      rw [decide_eq_true_iff] at hpos
      change ¬ 0 < d.toInt at hpos
      rw [BitVec.signExtend, ← BitVec.ofInt_neg, Int.ofNat_natAbs_of_nonpos (by omega)]
  rw [habs, BitVec.toNat_ofInt]
  omega

/-- The multiplier has 33 bits at most, and its highest bits are not 0. -/
theorem sdivMultiplier_bounds (h : IsLog2Ceil d.toInt.natAbs l) (hl : 0 < l)
    (hpos : 0 < d.toInt.natAbs) :
    2 ^ 31 < sdivMultiplier d l ∧ sdivMultiplier d l ≤ 2 ^ 32 := by
  have hpow : 2 ^ l = 2 * 2 ^ (l - 1) := by
    rw [← pow_succ', Nat.sub_add_cancel hl]
  have hle := h.le_pow
  have hlt := h.pow_lt hl
  unfold sdivMultiplier
  constructor
  · have hquot : 2 ^ 31 ≤ 2 ^ 32 * 2 ^ (l - 1) / d.toInt.natAbs := by
      rw [Nat.le_div_iff_mul_le hpos]
      omega
    omega
  · have hquot : 2 ^ 32 * 2 ^ (l - 1) / d.toInt.natAbs < 2 ^ 32 := by
      rw [Nat.div_lt_iff_lt_mul hpos]
      omega
    omega

theorem sdivLog_spec (hd : 2 ≤ d.toInt.natAbs) : ∃ l, 0 < l ∧ l ≤ 31 ∧
    sdivLog d = BitVec.ofNat 32 l ∧ IsLog2Ceil d.toInt.natAbs l := by
  have hle := natAbs_toInt_le d
  have hcut : ((sdivAbs d).setWidth 32).toNat = d.toInt.natAbs := by
    rw [BitVec.toNat_setWidth, sdivAbs_toNat]
    omega
  have hne : (sdivAbs d).setWidth 32 ≠ 0 := by
    intro h0
    rw [h0] at hcut
    exact absurd hcut (by change 0 ≠ _; omega)
  obtain ⟨l, hl32, hlog, hspec⟩ := log2Ceil_spec hne
  rw [hcut] at hspec
  have hl : 0 < l := by
    refine Nat.pos_of_ne_zero fun h0 => ?_
    have := hspec.le_pow
    rw [h0] at this
    omega
  have hl31 : l ≤ 31 := by
    have hlt := (hspec.pow_lt hl).trans_le hle
    have := (Nat.pow_lt_pow_iff_right (by decide : 1 < 2)).mp hlt
    omega
  refine ⟨l, hl, hl31, ?_, hspec⟩
  unfold sdivLog
  dsimp only
  rw [hlog]
  split
  case isTrue h31 =>
    -- the special case has the logarithm that the general one computes
    have habs : d.toInt.natAbs = 2 ^ 31 := by
      rw [← sdivAbs_toNat, h31]
      rfl
    have hge := hspec.le_pow
    rw [habs] at hge
    have := (Nat.pow_le_pow_iff_right (by decide : 1 < 2)).mp hge
    obtain rfl : l = 31 := by omega
    rfl
  case isFalse =>
    have hmax : ∀ l : Fin 33, 0 < l.val →
        (if 1#32 < BitVec.ofNat 32 l then BitVec.ofNat 32 l else 1) = BitVec.ofNat 32 l := by
      decide
    exact hmax ⟨l, by omega⟩ hl

theorem computeSDivConstants32_spec (hd : 2 ≤ d.toInt.natAbs) : ∃ c l,
    computeSDivConstants32 d = some c ∧ 0 < l ∧ l ≤ 31 ∧ IsLog2Ceil d.toInt.natAbs l ∧
    c.mprime.toInt = (sdivMultiplier d l : Int) - 2 ^ 32 ∧
    c.dsign.toInt = (if d.toInt < 0 then -1 else 0) ∧ c.shpost.toNat = l - 1 := by
  obtain ⟨l, hl, hl31, hlog, hspec⟩ := sdivLog_spec hd
  have hle := natAbs_toInt_le d
  have hne : sdivAbs d ≠ 0 := by
    intro h0
    have habs := sdivAbs_toNat d
    rw [h0] at habs
    exact absurd habs (by change 0 ≠ _; omega)
  have hpred : BitVec.ofNat 32 l - 1 = BitVec.ofNat 32 (l - 1) := by
    obtain ⟨k, rfl⟩ := Nat.exists_eq_succ_of_ne_zero hl.ne'
    rw [Nat.succ_eq_add_one, BitVec.ofNat_add, Nat.add_sub_cancel]
    exact add_sub_cancel_right _ _
  refine ⟨_, l, if_neg hne, hl, hl31, hspec, ?_, ?_, ?_⟩
  · obtain ⟨hlow, hhigh⟩ := sdivMultiplier_bounds hspec hl (by omega)
    have hm : (sdivM d).toNat = sdivMultiplier d l := by
      have hpow : 2 ^ (l - 1) ≤ 2 ^ 30 := Nat.pow_le_pow_right two_pos (by omega)
      have hmid : (expBase2 (sdivLog d - 1)).toNat = 2 ^ (l - 1) := by
        rw [hlog, hpred, expBase2_eq (by omega), BitVec.toNat_ofNat]
        exact Nat.mod_eq_of_lt (by omega)
      have hone : (1#64 <<< 32).toNat = 2 ^ 32 := by decide
      have hmid64 : 2 ^ (l - 1) % 2 ^ 64 = 2 ^ (l - 1) := Nat.mod_eq_of_lt (by omega)
      have hmul : 2 ^ 32 * 2 ^ (l - 1) % 2 ^ 64 = 2 ^ 32 * 2 ^ (l - 1) :=
        Nat.mod_eq_of_lt (by omega)
      rw [sdivM, BitVec.toNat_add, BitVec.toNat_udiv, BitVec.toNat_mul, BitVec.toNat_setWidth, hone,
        hmid, hmid64, hmul, sdivAbs_toNat]
      change (2 ^ 32 * 2 ^ (l - 1) / d.toInt.natAbs + 1) % 2 ^ 64 = _
      exact Nat.mod_eq_of_lt (hhigh.trans_lt (by norm_num))
    have hcut : (sdivM d - 1#64 <<< 32).toNat % 2 ^ 32 = sdivMultiplier d l % 2 ^ 32 := by
      have hone : (1#64 <<< 32).toNat = 2 ^ 32 := by decide
      rw [BitVec.toNat_sub, hm, hone]
      omega
    rw [BitVec.toInt_eq_toNat_cond, BitVec.toNat_setWidth, hcut]
    split <;> omega
  · have hlow := BitVec.le_toInt d
    have hhigh := BitVec.toInt_lt (x := d)
    norm_num at hlow hhigh
    rw [BitVec.toInt_sshiftRight, Int.shiftRight_eq_div_pow]
    split <;> omega
  · rw [hlog, hpred, BitVec.toNat_ofNat]
    omega

end SDiv

end Klee

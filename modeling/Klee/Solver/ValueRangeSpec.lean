import Klee.Solver.ValueRange
import Mathlib.Order.Bounds.Defs
import Mathlib.Data.Set.NAry

/-! The bounds that `ValueRange` computes for `x | y` and `x & y` are the least and the greatest
values over both intervals. -/
namespace Klee

open BitVec (AgreeFrom)

section Bounds

variable {a b c d x y : BitVec 64} {k : Nat}

/-! A mask of one bit. -/

theorem not_and_bit (hk : k < 64) :
    ~~~ a &&& c &&& 1#64 <<< k ≠ 0 ↔ a.getLsbD k = false ∧ c.getLsbD k = true := by
  refine (BitVec.and_bit_ne_zero hk _).trans ?_
  rw [BitVec.getLsbD_and, BitVec.getLsbD_not]
  simp [hk]

theorem and_not_bit (hk : k < 64) :
    a &&& ~~~ c &&& 1#64 <<< k ≠ 0 ↔ a.getLsbD k = true ∧ c.getLsbD k = false := by
  rw [BitVec.and_comm a, not_and_bit hk, and_comm]

theorem and_bit (hk : k < 64) :
    a &&& c &&& 1#64 <<< k ≠ 0 ↔ a.getLsbD k = true ∧ c.getLsbD k = true := by
  refine (BitVec.and_bit_ne_zero hk _).trans ?_
  rw [BitVec.getLsbD_and, Bool.and_eq_true]

theorem agreeFrom_zero (h : AgreeFrom 0 x y) : x = y :=
  BitVec.eq_of_getLsbD_eq fun j _ => h j (Nat.zero_le j)

/-- A bit that only the second pair has decides. -/
theorem or_lt_or (hx : AgreeFrom (k + 1) a x) (hy : AgreeFrom (k + 1) c y)
    (ha : a.getLsbD k = false) (hc : c.getLsbD k = false)
    (h : x.getLsbD k = true ∨ y.getLsbD k = true) : a ||| c < x ||| y := by
  refine BitVec.lt_of_bit k ?_ ?_ fun j hj => ?_
  · rw [BitVec.getLsbD_or, ha, hc]; rfl
  · rw [BitVec.getLsbD_or, Bool.or_eq_true]
    exact h
  · rw [BitVec.getLsbD_or, BitVec.getLsbD_or, hx j hj, hy j hj]

section RoundUp

/-- Rounding up stays below every value with the bit that is set. -/
theorem roundUp_le (hk : k < 64) (h : AgreeFrom (k + 1) a x) (hx : x.getLsbD k = true) :
    (a ||| 1#64 <<< k) &&& -(1#64 <<< k) ≤ x := by
  refine BitVec.le_of_bits fun j hj => ?_
  rw [BitVec.getLsbD_roundUp hk] at hj
  split at hj
  · cases hj
  · split at hj
    case isTrue heq => exact heq ▸ hx
    case isFalse => rw [← h j (by omega), hj]

theorem le_roundUp (hk : k < 64) (ha : a.getLsbD k = false) :
    a ≤ (a ||| 1#64 <<< k) &&& -(1#64 <<< k) := by
  refine BitVec.le_of_lt (BitVec.lt_of_bit k ha ?_ fun j hj => ?_)
  · simp [BitVec.getLsbD_roundUp hk]
  · rw [BitVec.getLsbD_roundUp hk, if_neg (by omega), if_neg (by omega)]

/-- With one lower bound rounded up, the other one is the least choice. -/
theorem roundUp_or_le (hk : k < 64) (hx : AgreeFrom (k + 1) a x) (hy : AgreeFrom k c y)
    (hle : c ≤ y) (hc : c.getLsbD k = true) :
    ((a ||| 1#64 <<< k) &&& -(1#64 <<< k)) ||| c ≤ x ||| y := by
  have hlow : ∀ j, j < k → ((a ||| 1#64 <<< k) &&& -(1#64 <<< k)).getLsbD j = false := by
    intro j hj
    rw [BitVec.getLsbD_roundUp hk, if_pos hj]
  refine BitVec.le_trans (hy.or_le_or hle hlow) (BitVec.le_of_bits fun j hj => ?_)
  rw [BitVec.getLsbD_or, BitVec.getLsbD_roundUp hk] at hj
  rw [BitVec.getLsbD_or]
  split at hj
  · rw [show y.getLsbD j = true from hj, Bool.or_true]
  · split at hj
    case isTrue heq => rw [heq, ← hy k le_rfl, hc, Bool.or_true]
    case isFalse => rwa [← hx j (by omega)]

end RoundUp

section MinOr

/-- Values that agree with the lower bounds above the masks still to come are no better. -/
theorem minORLoop_le (hk : k ≤ 64) (hax : a ≤ x) (hxb : x ≤ b) (hcy : c ≤ y) (hyd : y ≤ d)
    (hx : AgreeFrom k a x) (hy : AgreeFrom k c y) : minORLoop b d k a c ≤ x ||| y := by
  induction k generalizing x y with
  | zero =>
    rw [agreeFrom_zero hx, agreeFrom_zero hy]
    exact BitVec.le_refl _
  | succ k ih =>
    have hlt : k < 64 := hk
    -- where both agree at the bit as well, the rest of the loop decides
    have hrest (hxk : a.getLsbD k = x.getLsbD k) (hyk : c.getLsbD k = y.getLsbD k) :
        minORLoop b d k a c ≤ x ||| y :=
      ih hlt.le hax hxb hcy hyd (hx.of_succ hxk) (hy.of_succ hyk)
    have hstart : minORLoop b d k a c ≤ a ||| c :=
      ih hlt.le (BitVec.le_refl a) (BitVec.le_trans hax hxb) (BitVec.le_refl c)
        (BitVec.le_trans hcy hyd) (.refl k a) (.refl k c)
    rw [minORLoop]
    dsimp only
    simp only [not_and_bit hlt, and_not_bit hlt]
    split
    case isTrue h =>
      have hyk : c.getLsbD k = y.getLsbD k := by
        by_contra hne
        rw [(hy.bits_of_le hcy hne).1] at h
        cases h.2
      split
      case isTrue => exact roundUp_or_le hlt hx (hy.of_succ hyk) hcy h.2
      case isFalse htemp =>
        refine hrest ?_ hyk
        by_contra hne
        exact htemp (BitVec.le_trans (roundUp_le hlt hx (hx.bits_of_le hax hne).2) hxb)
    case isFalse hfirst =>
      split
      case isTrue h =>
        have hxk : a.getLsbD k = x.getLsbD k := by
          by_contra hne
          rw [(hx.bits_of_le hax hne).1] at h
          cases h.1
        split
        case isTrue =>
          rw [BitVec.or_comm a, BitVec.or_comm x]
          exact roundUp_or_le hlt hy (hx.of_succ hxk) hax h.1
        case isFalse htemp =>
          refine hrest hxk ?_
          by_contra hne
          exact htemp (BitVec.le_trans (roundUp_le hlt hy (hy.bits_of_le hcy hne).2) hyd)
      case isFalse hsecond =>
        by_cases hxk : a.getLsbD k = x.getLsbD k
        · by_cases hyk : c.getLsbD k = y.getLsbD k
          · exact hrest hxk hyk
          · obtain ⟨hc, hyk⟩ := hy.bits_of_le hcy hyk
            have ha : a.getLsbD k = false := eq_false_of_ne_true fun ha => hsecond ⟨ha, hc⟩
            exact BitVec.le_of_lt (Nat.lt_of_le_of_lt hstart (or_lt_or hx hy ha hc (.inr hyk)))
        · obtain ⟨ha, hxk⟩ := hx.bits_of_le hax hxk
          have hc : c.getLsbD k = false := eq_false_of_ne_true fun hc => hfirst ⟨ha, hc⟩
          exact BitVec.le_of_lt (Nat.lt_of_le_of_lt hstart (or_lt_or hx hy ha hc (.inl hxk)))

/-- The result of the loop is the value at a choice inside both intervals. -/
theorem minORLoop_attained (hk : k ≤ 64) (hab : a ≤ b) (hcd : c ≤ d) :
    ∃ x y, (a ≤ x ∧ x ≤ b) ∧ (c ≤ y ∧ y ≤ d) ∧ minORLoop b d k a c = x ||| y := by
  have hself : (a ≤ a ∧ a ≤ b) ∧ (c ≤ c ∧ c ≤ d) :=
    ⟨⟨BitVec.le_refl a, hab⟩, BitVec.le_refl c, hcd⟩
  induction k with
  | zero => exact ⟨a, c, hself.1, hself.2, rfl⟩
  | succ k ih =>
    have hlt : k < 64 := hk
    rw [minORLoop]
    dsimp only
    simp only [not_and_bit hlt, and_not_bit hlt]
    split
    case isTrue h =>
      split
      case isTrue htemp => exact ⟨_, c, ⟨le_roundUp hlt h.1, htemp⟩, hself.2, rfl⟩
      case isFalse => exact ih hlt.le
    case isFalse =>
      split
      case isTrue h =>
        split
        case isTrue htemp => exact ⟨a, _, hself.1, ⟨le_roundUp hlt h.2, htemp⟩, rfl⟩
        case isFalse => exact ih hlt.le
      case isFalse => exact ih hlt.le

end MinOr

section RoundDown

/-- Rounding down stays above every value with the bit that is clear. -/
theorem le_roundDown (hk : k < 64) (h : AgreeFrom (k + 1) x b) (hb : b.getLsbD k = true)
    (hx : x.getLsbD k = false) : x ≤ b - 1#64 <<< k ||| (1#64 <<< k - 1) := by
  rw [BitVec.sub_bit hk hb]
  refine BitVec.le_of_bits fun j hj => ?_
  refine (BitVec.getLsbD_roundDown hk b j).trans ?_
  split
  · rfl
  · split
    case isTrue heq => rw [heq, hx] at hj; cases hj
    case isFalse => rw [← h j (by omega), hj]

theorem roundDown_le (hk : k < 64) (hb : b.getLsbD k = true) :
    b - 1#64 <<< k ||| (1#64 <<< k - 1) ≤ b := by
  rw [BitVec.sub_bit hk hb]
  refine BitVec.le_of_lt (BitVec.lt_of_bit k ?_ hb fun j hj => ?_)
  · refine (BitVec.getLsbD_roundDown hk b k).trans ?_
    simp
  · refine (BitVec.getLsbD_roundDown hk b j).trans ?_
    rw [if_neg (by omega), if_neg (by omega)]

/-- With one upper bound rounded down, all bits below are there. -/
theorem or_le_roundDown (hk : k < 64) (hx : AgreeFrom (k + 1) x b) (hy : AgreeFrom (k + 1) y d)
    (hb : b.getLsbD k = true) (hd : d.getLsbD k = true) :
    x ||| y ≤ b - 1#64 <<< k ||| (1#64 <<< k - 1) ||| d := by
  rw [BitVec.sub_bit hk hb]
  refine BitVec.le_of_bits fun j hj => ?_
  have hround := BitVec.getLsbD_roundDown hk b j
  rw [BitVec.getLsbD_or, Bool.or_eq_true]
  rw [BitVec.getLsbD_or, Bool.or_eq_true] at hj
  by_cases hjk : j < k
  · exact .inl (hround.trans (if_pos hjk))
  · by_cases heq : j = k
    · exact .inr (heq ▸ hd)
    · rw [if_neg hjk, if_neg heq, ← hx j (by omega)] at hround
      rw [← hy j (by omega)]
      exact hj.imp_left hround.trans

end RoundDown

section MaxOr

/-- Values that agree with the upper bounds above the masks still to come are no better. -/
theorem le_maxORLoop (hk : k ≤ 64) (hax : a ≤ x) (hxb : x ≤ b) (hcy : c ≤ y) (hyd : y ≤ d)
    (hx : AgreeFrom k x b) (hy : AgreeFrom k y d) : x ||| y ≤ maxORLoop a c k b d := by
  induction k generalizing x y with
  | zero =>
    rw [agreeFrom_zero hx, agreeFrom_zero hy]
    exact BitVec.le_refl _
  | succ k ih =>
    have hlt : k < 64 := hk
    have hrest (hxk : x.getLsbD k = b.getLsbD k) (hyk : y.getLsbD k = d.getLsbD k) :
        x ||| y ≤ maxORLoop a c k b d :=
      ih hlt.le hax hxb hcy hyd (hx.of_succ hxk) (hy.of_succ hyk)
    have hstart : b ||| d ≤ maxORLoop a c k b d :=
      ih hlt.le (BitVec.le_trans hax hxb) (BitVec.le_refl b) (BitVec.le_trans hcy hyd)
        (BitVec.le_refl d) (.refl k b) (.refl k d)
    rw [maxORLoop]
    dsimp only
    simp only [and_bit hlt]
    split
    case isTrue h =>
      split
      case isTrue => exact or_le_roundDown hlt hx hy h.1 h.2
      case isFalse hfirst =>
        split
        case isTrue =>
          rw [BitVec.or_comm b, BitVec.or_comm x]
          exact or_le_roundDown hlt hy hx h.2 h.1
        case isFalse hsecond =>
          refine hrest ?_ ?_
          · by_contra hne
            have hxk := (hx.bits_of_le hxb hne).1
            exact hfirst (BitVec.le_trans hax (le_roundDown hlt hx h.1 hxk))
          · by_contra hne
            have hyk := (hy.bits_of_le hyd hne).1
            exact hsecond (BitVec.le_trans hcy (le_roundDown hlt hy h.2 hyk))
    case isFalse h =>
      by_cases hxk : x.getLsbD k = b.getLsbD k
      · by_cases hyk : y.getLsbD k = d.getLsbD k
        · exact hrest hxk hyk
        · obtain ⟨hyk, hd⟩ := hy.bits_of_le hyd hyk
          have hb : b.getLsbD k = false := eq_false_of_ne_true fun hb => h ⟨hb, hd⟩
          have hlow := or_lt_or hx hy (hxk.trans hb) hyk (.inr hd)
          exact BitVec.le_of_lt (Nat.lt_of_lt_of_le hlow hstart)
      · obtain ⟨hxk, hb⟩ := hx.bits_of_le hxb hxk
        have hd : d.getLsbD k = false := eq_false_of_ne_true fun hd => h ⟨hb, hd⟩
        have hyk : y.getLsbD k = false := by
          by_contra hne
          rw [(hy.bits_of_le hyd (by rwa [hd])).2] at hd
          cases hd
        exact BitVec.le_of_lt (Nat.lt_of_lt_of_le (or_lt_or hx hy hxk hyk (.inl hb)) hstart)

theorem maxORLoop_attained (hk : k ≤ 64) (hab : a ≤ b) (hcd : c ≤ d) :
    ∃ x y, (a ≤ x ∧ x ≤ b) ∧ (c ≤ y ∧ y ≤ d) ∧ maxORLoop a c k b d = x ||| y := by
  have hself : (a ≤ b ∧ b ≤ b) ∧ (c ≤ d ∧ d ≤ d) :=
    ⟨⟨hab, BitVec.le_refl b⟩, hcd, BitVec.le_refl d⟩
  induction k with
  | zero => exact ⟨b, d, hself.1, hself.2, rfl⟩
  | succ k ih =>
    have hlt : k < 64 := hk
    rw [maxORLoop]
    dsimp only
    simp only [and_bit hlt]
    split
    case isTrue h =>
      split
      case isTrue htemp => exact ⟨_, d, ⟨htemp, roundDown_le hlt h.1⟩, hself.2, rfl⟩
      case isFalse =>
        split
        case isTrue htemp => exact ⟨b, _, hself.1, ⟨htemp, roundDown_le hlt h.2⟩, rfl⟩
        case isFalse => exact ih hlt.le
    case isFalse => exact ih hlt.le

end MaxOr

/-! By De Morgan's laws the bounds for `&` are the complements of those for `|`. -/

section Complement

theorem getLsbD_not_of (hk : k < 64) (ha : a.getLsbD k = false) : (~~~ a).getLsbD k = true := by
  rw [BitVec.getLsbD_not, ha]
  simp [hk]

theorem not_le_roundDown (hk : k < 64) (ha : a.getLsbD k = false) :
    ~~~ b ≤ ~~~ a - 1#64 <<< k ||| (1#64 <<< k - 1) ↔
      (a ||| 1#64 <<< k) &&& -(1#64 <<< k) ≤ b := by
  rw [BitVec.sub_bit hk (getLsbD_not_of hk ha)]
  exact (iff_of_eq (congrArg (~~~ b ≤ ·) (BitVec.not_roundUp hk a).symm)).trans
    BitVec.not_le_not_iff

theorem not_roundDown (hk : k < 64) (ha : a.getLsbD k = false) :
    ~~~ (~~~ a - 1#64 <<< k ||| (1#64 <<< k - 1)) = (a ||| 1#64 <<< k) &&& -(1#64 <<< k) := by
  rw [BitVec.sub_bit hk (getLsbD_not_of hk ha)]
  exact (congrArg (~~~ ·) (BitVec.not_roundUp hk a).symm).trans BitVec.not_not

theorem minANDLoop_eq (hk : k ≤ 64) :
    minANDLoop b d k a c = ~~~ maxORLoop (~~~ b) (~~~ d) k (~~~ a) (~~~ c) := by
  induction k with
  | zero =>
    rw [minANDLoop, maxORLoop, BitVec.not_or, BitVec.not_not, BitVec.not_not]
  | succ k ih =>
    have hlt : k < 64 := hk
    rw [minANDLoop, maxORLoop]
    dsimp only
    by_cases h : ~~~ a &&& ~~~ c &&& 1#64 <<< k ≠ 0
    · have hbits := (and_bit hlt).mp h
      have ha : a.getLsbD k = false := by simpa [hlt] using hbits.1
      have hc : c.getLsbD k = false := by simpa [hlt] using hbits.2
      rw [if_pos h, if_pos h]
      simp only [not_le_roundDown hlt ha, not_le_roundDown hlt hc]
      split
      · rw [BitVec.not_or, not_roundDown hlt ha, BitVec.not_not]
      · split
        · rw [BitVec.not_or, not_roundDown hlt hc, BitVec.not_not]
        · exact ih hlt.le
    · rw [if_neg h, if_neg h]
      exact ih hlt.le

theorem maxANDLoop_eq (hk : k ≤ 64) :
    maxANDLoop a c k b d = ~~~ minORLoop (~~~ a) (~~~ c) k (~~~ b) (~~~ d) := by
  induction k with
  | zero =>
    rw [maxANDLoop, minORLoop, BitVec.not_or, BitVec.not_not, BitVec.not_not]
  | succ k ih =>
    have hlt : k < 64 := hk
    have hdown (x : BitVec 64) : x &&& ~~~ (1#64 <<< k) ||| (1#64 <<< k - 1) =
        ~~~ ((~~~ x ||| 1#64 <<< k) &&& -(1#64 <<< k)) := by
      refine Eq.symm ((BitVec.not_roundUp hlt (~~~ x)).trans ?_)
      rw [BitVec.not_not]
      rfl
    have hle (x y : BitVec 64) : y ≤ ~~~ x ↔ x ≤ ~~~ y := by
      rw [← BitVec.not_le_not_iff, BitVec.not_not]
    rw [maxANDLoop, minORLoop]
    dsimp only
    rw [BitVec.not_not, BitVec.not_not]
    simp only [hdown, hle]
    split
    · split
      · rw [BitVec.not_or, BitVec.not_not]
      · exact ih hlt.le
    · split
      · split
        · rw [BitVec.not_or, BitVec.not_not]
        · exact ih hlt.le
      · exact ih hlt.le

end Complement

end Bounds

namespace ValueRange

def values (r : ValueRange) : Set (BitVec 64) := {x | r.mMin ≤ x ∧ x ≤ r.mMax}

variable {r s : ValueRange}

theorem isEmpty_eq_false_iff : r.isEmpty = false ↔ r.mMin ≤ r.mMax := by
  rw [isEmpty, decide_eq_false_iff_not, BitVec.not_lt]

theorem isFixed_iff : r.isFixed = true ↔ r.mMin = r.mMax := beq_iff_eq

theorem values_fixed (h : r.mMin = r.mMax) : r.values = {r.mMin} := by
  ext x
  rw [values, Set.mem_ofPred_eq, ← h, Set.mem_singleton_iff]
  exact ⟨fun hx => BitVec.le_antisymm hx.2 hx.1, fun hx => hx ▸ ⟨BitVec.le_refl _, BitVec.le_refl _⟩⟩

theorem isLeast_minOR (hr : r.isEmpty = false) (hs : s.isEmpty = false) :
    IsLeast (Set.image2 (· ||| ·) r.values s.values) (minOR r.mMin r.mMax s.mMin s.mMax) := by
  rw [isEmpty_eq_false_iff] at hr hs
  constructor
  · obtain ⟨x, y, hx, hy, heq⟩ := minORLoop_attained le_rfl hr hs
    exact ⟨x, hx, y, hy, heq.symm⟩
  · rintro z ⟨x, hx, y, hy, rfl⟩
    exact minORLoop_le le_rfl hx.1 hx.2 hy.1 hy.2 (.of_width _ _) (.of_width _ _)

theorem isGreatest_maxOR (hr : r.isEmpty = false) (hs : s.isEmpty = false) :
    IsGreatest (Set.image2 (· ||| ·) r.values s.values) (maxOR r.mMin r.mMax s.mMin s.mMax) := by
  rw [isEmpty_eq_false_iff] at hr hs
  constructor
  · obtain ⟨x, y, hx, hy, heq⟩ := maxORLoop_attained le_rfl hr hs
    exact ⟨x, hx, y, hy, heq.symm⟩
  · rintro z ⟨x, hx, y, hy, rfl⟩
    exact le_maxORLoop le_rfl hx.1 hx.2 hy.1 hy.2 (.of_width _ _) (.of_width _ _)

def complement (r : ValueRange) : ValueRange := ⟨~~~ r.mMax, ~~~ r.mMin⟩

theorem mem_values_complement {x : BitVec 64} : ~~~ x ∈ r.complement.values ↔ x ∈ r.values := by
  rw [values, complement, Set.mem_ofPred_eq, BitVec.not_le_not_iff, BitVec.not_le_not_iff, and_comm]
  rfl

theorem isEmpty_complement : r.complement.isEmpty = r.isEmpty := by
  rw [Bool.eq_iff_iff, ← not_iff_not, Bool.not_eq_true, Bool.not_eq_true, isEmpty_eq_false_iff,
    isEmpty_eq_false_iff]
  exact BitVec.not_le_not_iff

theorem image2_and : Set.image2 (· &&& ·) r.values s.values =
    (~~~ ·) '' Set.image2 (· ||| ·) r.complement.values s.complement.values := by
  ext z
  constructor
  · rintro ⟨x, hx, y, hy, rfl⟩
    refine ⟨~~~ x ||| ~~~ y, ⟨_, mem_values_complement.mpr hx, _, mem_values_complement.mpr hy,
      rfl⟩, ?_⟩
    simp [BitVec.not_or]
  · rintro ⟨_, ⟨x, hx, y, hy, rfl⟩, rfl⟩
    refine ⟨~~~ x, mem_values_complement.mp ?_, ~~~ y, mem_values_complement.mp ?_, ?_⟩
    · rwa [BitVec.not_not]
    · rwa [BitVec.not_not]
    · simp [BitVec.not_or]

theorem isLeast_minAND (hr : r.isEmpty = false) (hs : s.isEmpty = false) :
    IsLeast (Set.image2 (· &&& ·) r.values s.values) (minAND r.mMin r.mMax s.mMin s.mMax) := by
  have hmax := isGreatest_maxOR (isEmpty_complement.trans hr) (isEmpty_complement.trans hs)
  have heq : minAND r.mMin r.mMax s.mMin s.mMax = _ := minANDLoop_eq le_rfl
  rw [image2_and, heq]
  refine ⟨⟨_, hmax.1, rfl⟩, ?_⟩
  rintro _ ⟨z, hz, rfl⟩
  exact BitVec.not_le_not_iff.mpr (hmax.2 hz)

theorem isGreatest_maxAND (hr : r.isEmpty = false) (hs : s.isEmpty = false) :
    IsGreatest (Set.image2 (· &&& ·) r.values s.values) (maxAND r.mMin r.mMax s.mMin s.mMax) := by
  have hmin := isLeast_minOR (isEmpty_complement.trans hr) (isEmpty_complement.trans hs)
  have heq : maxAND r.mMin r.mMax s.mMin s.mMax = _ := maxANDLoop_eq le_rfl
  rw [image2_and, heq]
  refine ⟨⟨_, hmin.1, rfl⟩, ?_⟩
  rintro _ ⟨z, hz, rfl⟩
  exact BitVec.not_le_not_iff.mpr (hmin.2 hz)

/-- `t` is the smallest range that holds all of `values`, and both its ends are among them. -/
def IsTightest (t : ValueRange) (values : Set (BitVec 64)) : Prop :=
  IsLeast values t.mMin ∧ IsGreatest values t.mMax

theorem isTightest_fixed (f : BitVec 64 → BitVec 64 → BitVec 64) (hr : r.isFixed = true)
    (hs : s.isFixed = true) :
    IsTightest (fixed (f r.mMin s.mMin)) (Set.image2 f r.values s.values) := by
  rw [isFixed_iff] at hr hs
  rw [values_fixed hr, values_fixed hs, Set.image2_singleton]
  exact ⟨⟨rfl, fun z hz => hz ▸ BitVec.le_refl _⟩, rfl, fun z hz => hz ▸ BitVec.le_refl _⟩

theorem binaryAnd_spec (hr : r.isEmpty = false) (hs : s.isEmpty = false) :
    ∃ t, r.binaryAnd s = some t ∧ t.IsTightest (Set.image2 (· &&& ·) r.values s.values) := by
  unfold binaryAnd
  rw [if_neg (by simp [hr, hs])]
  split
  case isTrue h => exact ⟨_, rfl, isTightest_fixed _ h.1 h.2⟩
  case isFalse => exact ⟨_, rfl, isLeast_minAND hr hs, isGreatest_maxAND hr hs⟩

theorem binaryOr_spec (hr : r.isEmpty = false) (hs : s.isEmpty = false) :
    ∃ t, r.binaryOr s = some t ∧ t.IsTightest (Set.image2 (· ||| ·) r.values s.values) := by
  unfold binaryOr
  rw [if_neg (by simp [hr, hs])]
  split
  case isTrue h => exact ⟨_, rfl, isTightest_fixed _ h.1 h.2⟩
  case isFalse => exact ⟨_, rfl, isLeast_minOR hr hs, isGreatest_maxOR hr hs⟩

/-- For all nonempty intervals the four bounds are exact, and `binaryAnd` and `binaryOr` are the
tightest intervals. -/
theorem bitwise_bounds_exact (r s : ValueRange) (hr : r.isEmpty = false) (hs : s.isEmpty = false) :
    IsLeast (Set.image2 (· ||| ·) r.values s.values) (minOR r.mMin r.mMax s.mMin s.mMax) ∧
    IsGreatest (Set.image2 (· ||| ·) r.values s.values) (maxOR r.mMin r.mMax s.mMin s.mMax) ∧
    IsLeast (Set.image2 (· &&& ·) r.values s.values) (minAND r.mMin r.mMax s.mMin s.mMax) ∧
    IsGreatest (Set.image2 (· &&& ·) r.values s.values) (maxAND r.mMin r.mMax s.mMin s.mMax) ∧
    (∃ t, r.binaryAnd s = some t ∧ t.IsTightest (Set.image2 (· &&& ·) r.values s.values)) ∧
    ∃ t, r.binaryOr s = some t ∧ t.IsTightest (Set.image2 (· ||| ·) r.values s.values) :=
  ⟨isLeast_minOR hr hs, isGreatest_maxOR hr hs, isLeast_minAND hr hs, isGreatest_maxAND hr hs,
    binaryAnd_spec hr hs, binaryOr_spec hr hs⟩

theorem bitwise_bounds_exact_bytes :
    IsLeast (Set.image2 (· ||| ·) (values ⟨5, 9⟩) (values ⟨2, 20⟩)) (minOR 5 9 2 20) :=
  (bitwise_bounds_exact ⟨5, 9⟩ ⟨2, 20⟩ (by decide) (by decide)).1

end ValueRange

end Klee

import Klee.Lib.BinarySearch
import Klee.Solver.TimingSolver

/-! `Solver::getRange`: the unsigned range of an expression under the constraints. A failed
assertion and a failed call are `none`. -/
namespace Klee

namespace ConstantExpr

/-- `ConstantExpr::create` asserts that the value fits. -/
def create (v w : Nat) : Option ConstantExpr :=
  if w ≤ 64 ∧ v % 2 ^ w ≠ v then none else some (alloc v w)

/-- `getZExtValue()` asserts at most 64 bits. -/
def getZExtValue (c : ConstantExpr) : Option Nat :=
  if c.width ≤ 64 then some c.value.toNat else none

theorem create_of_lt {v w : Nat} (h : v < 2 ^ w) : create v w = some (alloc v w) :=
  if_neg fun hne => hne.2 (Nat.mod_eq_of_lt h)

end ConstantExpr

def maxValueOfNBits (n : Nat) : Option Nat :=
  if n ≤ 64 then some (if n = 0 then 0 else (2 ^ 64 - 1) >>> (64 - n)) else none

theorem maxValueOfNBits_eq {n : Nat} (h : n ≤ 64) : maxValueOfNBits n = some (2 ^ n - 1) := by
  rw [maxValueOfNBits, if_pos h]
  split
  case isTrue h0 => rw [h0]; rfl
  case isFalse h0 =>
    have hpow : 2 ^ 64 = 2 ^ (64 - n) * 2 ^ n := by
      rw [← Nat.pow_add, Nat.sub_add_cancel h]
    have hdiv := Nat.mul_sub_div 0 (2 ^ (64 - n)) (2 ^ n)
      (Nat.mul_pos (Nat.two_pow_pos _) (Nat.two_pow_pos _))
    rw [Nat.shiftRight_eq_div_pow, hpow, hdiv, Nat.zero_div]

namespace TimingSolver

/-- `Solver::mayBeTrue`, over `Solver::mustBeFalse` -/
def mayBeTrueQuery (t : TimingSolver) (q : Query) : Option Bool :=
  (t.mustBeTrueQuery q.negateExpr).map (! ·)

/-- The three probes: no bit of `e` is set from `mid` on; `e` is at most `mid` for some values
of the arrays; `e` is at most `mid` for all of them. -/
def fitsBits (t : TimingSolver) (q : Query) (mid : Nat) : Option Bool := do
  let amount ← ConstantExpr.create mid q.expr.width
  let zero ← ConstantExpr.create 0 q.expr.width
  t.mustBeTrueQuery (q.withExpr
    (EqExpr.create (LShrExpr.create q.expr (.constant amount)) (.constant zero)))

def mayBeAtMost (t : TimingSolver) (q : Query) (mid : Nat) : Option Bool := do
  let bound ← ConstantExpr.create mid q.expr.width
  t.mayBeTrueQuery (q.withExpr (UleExpr.create q.expr (.constant bound)))

def mustBeAtMost (t : TimingSolver) (q : Query) (mid : Nat) : Option Bool := do
  let bound ← ConstantExpr.create mid q.expr.width
  t.mustBeTrueQuery (q.withExpr (UleExpr.create q.expr (.constant bound)))

def mayBeZero (t : TimingSolver) (q : Query) : Option Bool := do
  let zero ← ConstantExpr.create 0 q.expr.width
  t.mayBeTrueQuery (q.withExpr (EqExpr.create q.expr (.constant zero)))

def searchMin (t : TimingSolver) (q : Query) (bits : Nat) : Option Nat := do
  if ← t.mayBeZero q then pure 0
  else BinarySearch.search (t.mayBeAtMost q) 0 (← maxValueOfNBits bits)

/-- The bounds of an expression that is no constant and no Boolean. `bits` is the lower bound
of the first window after every round. -/
def searchRange (t : TimingSolver) (q : Query) : Option (Nat × Nat) := do
  let bits ← BinarySearch.search (t.fitsBits q) 0 q.expr.width
  let min ← t.searchMin q bits
  let max ← BinarySearch.search (t.mustBeAtMost q) min (← maxValueOfNBits bits)
  pure (min, max)

def boolRange (t : TimingSolver) (q : Query) : Option (Nat × Nat) := do
  match ← t.evaluateQuery q with
  | .true => pure (1, 1)
  | .false => pure (0, 0)
  | .unknown => pure (0, 1)

/-- The numbers `min` and `max` of `Solver::getRange`. -/
def bounds (t : TimingSolver) (q : Query) : Option (Nat × Nat) :=
  if q.expr.width = 1 then t.boolRange q
  else match q.expr with
    | .constant c => c.getZExtValue.map fun v => (v, v)
    | _ => t.searchRange q

def getRange (t : TimingSolver) (q : Query) : Option (ConstantExpr × ConstantExpr) := do
  let (min, max) ← t.bounds q
  pure (← ConstantExpr.create min q.expr.width, ← ConstantExpr.create max q.expr.width)

end TimingSolver

namespace Query

def values (q : Query) : Set Nat :=
  {v | ∃ σ, Satisfies σ q.constraints ∧ (q.expr.eval σ q.expr.width).toNat = v}

variable {q : Query} {v : Nat}

theorem lt_of_mem_values (hv : v ∈ q.values) : v < 2 ^ q.expr.width := by
  obtain ⟨σ, -, rfl⟩ := hv
  exact BitVec.isLt _

theorem values_nonempty (hsat : ∃ σ, Satisfies σ q.constraints) : q.values.Nonempty := by
  obtain ⟨σ, hσ⟩ := hsat
  exact ⟨_, σ, hσ, rfl⟩

/-- A property of all values, read at the assignments. -/
theorem forall_values {P : Nat → Prop} : (∀ v ∈ q.values, P v) ↔
    ∀ σ, Satisfies σ q.constraints → P (q.expr.eval σ q.expr.width).toNat :=
  ⟨fun h σ hσ => h _ ⟨σ, hσ, rfl⟩, by rintro h _ ⟨σ, hσ, rfl⟩; exact h σ hσ⟩

theorem exists_values {P : Nat → Prop} : (∃ v ∈ q.values, P v) ↔
    ∃ σ, Satisfies σ q.constraints ∧ P (q.expr.eval σ q.expr.width).toNat :=
  ⟨by rintro ⟨_, ⟨σ, hσ, rfl⟩, h⟩; exact ⟨σ, hσ, h⟩, fun ⟨σ, hσ, h⟩ => ⟨_, ⟨σ, hσ, rfl⟩, h⟩⟩

end Query

section Probes

variable {e : Expr} {s : Option Assignment} {σ : Assignment} {w m : Nat} {x : BitVec w}

theorem Denotes.alloc (hw : 0 < w) (v : Nat) :
    Denotes s (.constant (.alloc v w)) w (BitVec.ofNat w v) := Denotes.constant hw

/-- `0 == e >> m` -/
theorem Denotes.fitsBits (h : Denotes s e w x) (hm : m < w) :
    Denotes s (EqExpr.create (LShrExpr.create e (.constant (.alloc m w)))
      (.constant (.alloc 0 w))) 1 (BitVec.ofBool (decide (x.toNat < 2 ^ m))) := by
  have hshift := ArithKind.create_denotes .lshr h (.alloc h.width_pos m)
  refine (CmpKind.create_denotes .eq hshift (.alloc h.width_pos 0)).congr fun _ => ?_
  have hm' : (BitVec.ofNat w m).toNat = m := by
    rw [BitVec.toNat_ofNat, Nat.mod_eq_of_lt (hm.trans Nat.lt_two_pow_self)]
  congr 1
  rw [Bool.eq_iff_iff]
  simp only [CmpKind.denote, beq_iff_eq, decide_eq_true_iff, ← BitVec.toNat_inj]
  change (x >>> BitVec.ofNat w m).toNat = _ ↔ _
  rw [BitVec.ushiftRight_eq', hm', BitVec.toNat_ushiftRight, Nat.shiftRight_eq_div_pow]
  simp [Nat.div_eq_zero_iff]

/-- `e <= m` -/
theorem Denotes.atMost (h : Denotes s e w x) (hm : m < 2 ^ w) :
    Denotes s (UleExpr.create e (.constant (.alloc m w))) 1
      (BitVec.ofBool (decide (x.toNat ≤ m))) := by
  refine (CmpKind.create_denotes .ule h (.alloc h.width_pos m)).congr fun _ => ?_
  congr 1
  rw [Bool.eq_iff_iff]
  simp [CmpKind.denote, BitVec.ule, Nat.mod_eq_of_lt hm]

/-- `0 == e` -/
theorem Denotes.isZero (h : Denotes s e w x) :
    Denotes s (EqExpr.create e (.constant (.alloc 0 w))) 1
      (BitVec.ofBool (decide (x.toNat = 0))) := by
  refine (CmpKind.create_denotes .eq h (.alloc h.width_pos 0)).congr fun _ => ?_
  congr 1
  rw [Bool.eq_iff_iff]
  simp [CmpKind.denote, ← BitVec.toNat_inj]

end Probes

namespace TimingSolver

variable {t : TimingSolver} {q : Query} {e : Expr} {m : Nat}

/-- With satisfiable constraints `Solver::mayBeTrue` decides satisfiability. -/
theorem CorrectUnder.mayBeTrueQuery (ht : t.CorrectUnder q.constraints) (he : e.IsBool)
    (hsat : ∃ σ, Satisfies σ q.constraints) :
    ∃ b, t.mayBeTrueQuery (q.withExpr e) = some b ∧
      (b = true ↔ ∃ σ, Satisfies σ q.constraints ∧ e.Holds σ) := by
  obtain ⟨b, hb, hiff⟩ := ht.mustBeTrueQuery (isBool_createIsZero he) hsat
  refine ⟨!b, congrArg (Option.map (! ·)) hb, ?_⟩
  rw [Bool.not_eq_true', ← Bool.not_eq_true, hiff]
  simp [holds_createIsZero he]

section Range

variable (ht : t.CorrectUnder q.constraints) (hsat : ∃ σ, Satisfies σ q.constraints)
  (he : q.expr.WellSorted)
include ht hsat he

/-- A probe that must hold is decided on the values. -/
theorem mustBeTrue_of_denotes {P : Nat → Prop} [DecidablePred P]
    (hd : ∀ {s : Option Assignment} {x : BitVec q.expr.width}, Denotes s q.expr q.expr.width x →
      Denotes s e 1 (BitVec.ofBool (decide (P x.toNat)))) :
    ∃ b, t.mustBeTrueQuery (q.withExpr e) = some b ∧ (b = true ↔ ∀ v ∈ q.values, P v) := by
  have hbool : e.IsBool := (hd (.of_wellSorted_none he rfl)).isBool
  obtain ⟨b, hb, hiff⟩ := ht.mustBeTrueQuery hbool hsat
  refine ⟨b, hb, hiff.trans (Iff.trans ?_ Query.forall_values.symm)⟩
  refine forall_congr' fun σ => imp_congr_right fun _ => ?_
  rw [(hd (.of_wellSorted he rfl)).holds_iff, BitVec.ofBool_eq_one, decide_eq_true_iff]

/-- A probe that may hold is decided on the values. -/
theorem mayBeTrue_of_denotes {P : Nat → Prop} [DecidablePred P]
    (hd : ∀ {s : Option Assignment} {x : BitVec q.expr.width}, Denotes s q.expr q.expr.width x →
      Denotes s e 1 (BitVec.ofBool (decide (P x.toNat)))) :
    ∃ b, t.mayBeTrueQuery (q.withExpr e) = some b ∧ (b = true ↔ ∃ v ∈ q.values, P v) := by
  have hbool : e.IsBool := (hd (.of_wellSorted_none he rfl)).isBool
  obtain ⟨b, hb, hiff⟩ := ht.mayBeTrueQuery hbool hsat
  refine ⟨b, hb, hiff.trans (Iff.trans ?_ Query.exists_values.symm)⟩
  refine exists_congr fun σ => and_congr_right fun _ => ?_
  rw [(hd (.of_wellSorted he rfl)).holds_iff, BitVec.ofBool_eq_one, decide_eq_true_iff]

theorem fitsBits_spec (hm : m < q.expr.width) : ∃ b, t.fitsBits q m = some b ∧
    (b = true ↔ ∀ v ∈ q.values, v < 2 ^ m) := by
  unfold fitsBits
  rw [ConstantExpr.create_of_lt (hm.trans Nat.lt_two_pow_self),
    ConstantExpr.create_of_lt (Nat.two_pow_pos _)]
  exact mustBeTrue_of_denotes ht hsat he fun h => h.fitsBits hm

theorem mustBeAtMost_spec (hm : m < 2 ^ q.expr.width) : ∃ b, t.mustBeAtMost q m = some b ∧
    (b = true ↔ ∀ v ∈ q.values, v ≤ m) := by
  unfold mustBeAtMost
  rw [ConstantExpr.create_of_lt hm]
  exact mustBeTrue_of_denotes ht hsat he fun h => h.atMost hm

theorem mayBeAtMost_spec (hm : m < 2 ^ q.expr.width) : ∃ b, t.mayBeAtMost q m = some b ∧
    (b = true ↔ ∃ v ∈ q.values, v ≤ m) := by
  unfold mayBeAtMost
  rw [ConstantExpr.create_of_lt hm]
  exact mayBeTrue_of_denotes ht hsat he fun h => h.atMost hm

theorem mayBeZero_spec : ∃ b, t.mayBeZero q = some b ∧ (b = true ↔ 0 ∈ q.values) := by
  unfold mayBeZero
  rw [ConstantExpr.create_of_lt (Nat.two_pow_pos _)]
  obtain ⟨b, hb, hiff⟩ :=
    mayBeTrue_of_denotes ht hsat he (P := fun v => v = 0) fun h => h.isZero
  exact ⟨b, hb, hiff.trans (by simp)⟩

/-- The first search finds the number of significant bits. -/
theorem bits_isLeast : ∃ bits, BinarySearch.search (t.fitsBits q) 0 q.expr.width = some bits ∧
    bits ≤ q.expr.width ∧ ∀ v ∈ q.values, v < 2 ^ bits := by
  obtain ⟨bits, hbits, ⟨-, hfits⟩, hleast⟩ :=
    BinarySearch.search_isLeast (P := fun m => ∀ v ∈ q.values, v < 2 ^ m)
      (fun m _ hm => fitsBits_spec ht hsat he hm)
      (fun m n hmn h v hv => (h v hv).trans_le (Nat.pow_le_pow_right two_pos hmn))
      (Nat.zero_le _) fun v hv => Query.lt_of_mem_values hv
  exact ⟨bits, hbits, hleast ⟨Nat.zero_le _, fun v hv => Query.lt_of_mem_values hv⟩, hfits⟩

section Bits

variable {bits : Nat} (hbits : bits ≤ q.expr.width) (hfits : ∀ v ∈ q.values, v < 2 ^ bits)
include hbits hfits

/-- The second search, below the largest number of `bits` bits. -/
theorem searchMin_isLeast (hw : q.expr.width ≤ 64) :
    ∃ min, t.searchMin q bits = some min ∧ IsLeast q.values min := by
  have hlt : 2 ^ bits ≤ 2 ^ q.expr.width := Nat.pow_le_pow_right two_pos hbits
  obtain ⟨b, hb, hzero⟩ := mayBeZero_spec ht hsat he
  unfold searchMin
  rw [hb, maxValueOfNBits_eq (hbits.trans hw)]
  cases b with
  | true => exact ⟨0, rfl, hzero.mp rfl, fun _ _ => Nat.zero_le _⟩
  | false =>
    have hhi : ∃ v ∈ q.values, v ≤ 2 ^ bits - 1 := by
      obtain ⟨u, hu⟩ := Query.values_nonempty hsat
      exact ⟨u, hu, Nat.le_sub_one_of_lt (hfits u hu)⟩
    obtain ⟨min, hmin, hleast⟩ :=
      BinarySearch.search_isLeast (P := fun m => ∃ v ∈ q.values, v ≤ m)
        (fun m _ hm => mayBeAtMost_spec ht hsat he (by omega))
        (fun m n hmn ⟨v, hv, hvm⟩ => ⟨v, hv, hvm.trans hmn⟩) (Nat.zero_le _) hhi
    exact ⟨min, hmin, BinarySearch.isLeast_of_isLeast_le hleast fun _ _ => Nat.zero_le _⟩

/-- The third search, from the smallest value on. -/
theorem max_isGreatest {min : Nat} (hmin : min ∈ q.values) :
    ∃ max, BinarySearch.search (t.mustBeAtMost q) min (2 ^ bits - 1) = some max ∧
      IsGreatest q.values max := by
  have hlt : 2 ^ bits ≤ 2 ^ q.expr.width := Nat.pow_le_pow_right two_pos hbits
  have hhi : ∀ v ∈ q.values, v ≤ 2 ^ bits - 1 := fun v hv => Nat.le_sub_one_of_lt (hfits v hv)
  obtain ⟨max, hmax, hleast⟩ :=
    BinarySearch.search_isLeast (P := fun m => ∀ v ∈ q.values, v ≤ m)
      (fun m _ hm => mustBeAtMost_spec ht hsat he (by omega))
      (fun m n hmn h v hv => (h v hv).trans hmn) (hhi min hmin) hhi
  exact ⟨max, hmax, BinarySearch.isGreatest_of_isLeast_ge hleast hmin⟩

end Bits

theorem searchRange_spec (hw : q.expr.width ≤ 64) : ∃ min max,
    t.searchRange q = some (min, max) ∧ IsLeast q.values min ∧ IsGreatest q.values max := by
  obtain ⟨bits, hbits, hle, hfits⟩ := bits_isLeast ht hsat he
  obtain ⟨min, hmin, hleast⟩ := searchMin_isLeast ht hsat he hle hfits hw
  obtain ⟨max, hmax, hgreatest⟩ := max_isGreatest ht hsat he hle hfits hleast.1
  refine ⟨min, max, ?_, hleast, hgreatest⟩
  simp [searchRange, hbits, hmin, maxValueOfNBits_eq (hle.trans hw), hmax]

omit ht hsat he in
theorem toNat_eval_of_bool (hw : q.expr.width = 1) (σ : Assignment) :
    (q.expr.eval σ q.expr.width).toNat = if q.expr.Holds σ then 1 else 0 := by
  rw [hw]
  split
  case isTrue h => rw [show q.expr.eval σ 1 = 1#1 from h]; rfl
  case isFalse h => rw [not_not.mp fun h0 => h ((BitVec.ne_zero_iff_eq_one _).mp h0)]; rfl

/-- A Boolean has the range of its validity. -/
theorem boolRange_spec (hw : q.expr.width = 1) : ∃ min max,
    t.boolRange q = some (min, max) ∧ IsLeast q.values min ∧ IsGreatest q.values max := by
  have hmem {σ : Assignment} (hσ : Satisfies σ q.constraints) :
      (if q.expr.Holds σ then 1 else 0) ∈ q.values := ⟨σ, hσ, toNat_eval_of_bool hw σ⟩
  obtain ⟨v, hv, hverdict⟩ := ht.evaluateQuery ⟨he, hw⟩
  have hv : t.evaluateQuery q = some v := hv
  obtain ⟨τ, hτ⟩ := hsat
  unfold boolRange
  rw [hv]
  cases v with
  | true =>
    have hone : ∀ v ∈ q.values, v = 1 := Query.forall_values.mpr fun σ hσ => by
      rw [toNat_eval_of_bool hw, if_pos (hverdict σ hσ)]
    have h1 := hmem hτ
    rw [if_pos (hverdict τ hτ)] at h1
    exact ⟨1, 1, rfl, ⟨h1, fun v hv => (hone v hv).ge⟩, h1, fun v hv => (hone v hv).le⟩
  | false =>
    have hzero : ∀ v ∈ q.values, v = 0 := Query.forall_values.mpr fun σ hσ => by
      rw [toNat_eval_of_bool hw, if_neg (hverdict σ hσ)]
    have h0 := hmem hτ
    rw [if_neg (hverdict τ hτ)] at h0
    exact ⟨0, 0, rfl, ⟨h0, fun _ _ => Nat.zero_le _⟩, h0, fun v hv => (hzero v hv).le⟩
  | unknown =>
    obtain ⟨⟨σ, hσ, ht⟩, τ, hτ, hf⟩ := hverdict
    have h1 := hmem hσ
    have h0 := hmem hτ
    rw [if_pos ht] at h1
    rw [if_neg hf] at h0
    refine ⟨0, 1, rfl, ⟨h0, fun _ _ => Nat.zero_le _⟩, h1, fun v hv => ?_⟩
    have := Query.lt_of_mem_values hv
    rw [hw] at this
    omega

omit ht he in
/-- A constant has one value. -/
theorem values_constant {c : ConstantExpr} (hc : q.expr = .constant c) :
    q.values = {c.value.toNat} := by
  obtain ⟨cs, e⟩ := q
  obtain rfl : e = .constant c := hc
  obtain ⟨τ, hτ⟩ := hsat
  ext v
  have heval (σ : Assignment) : (Expr.constant c).eval σ c.width = c.value := by
    rw [Expr.eval, BitVec.setWidth_eq]
  constructor
  · rintro ⟨σ, -, rfl⟩
    exact congrArg BitVec.toNat (heval σ)
  · rintro rfl
    exact ⟨τ, hτ, congrArg BitVec.toNat (heval τ)⟩

theorem bounds_spec (hw : q.expr.width ≤ 64) : ∃ min max,
    t.bounds q = some (min, max) ∧ IsLeast q.values min ∧ IsGreatest q.values max := by
  unfold bounds
  split
  case isTrue h1 => exact boolRange_spec ht hsat he h1
  case isFalse h1 =>
    split
    · rename_i c hc
      have hcw : c.width ≤ 64 := by rwa [hc] at hw
      rw [values_constant hsat hc, ConstantExpr.getZExtValue, if_pos hcw]
      exact ⟨_, _, rfl, isLeast_singleton, isGreatest_singleton⟩
    · exact searchRange_spec ht hsat he hw

/-- `getRange` terminates without a failed assertion and returns the smallest and the largest
unsigned value of the expression under the constraints. -/
theorem getRange_exact (hw : q.expr.width ≤ 64) :
    ∃ min max : BitVec q.expr.width, t.getRange q = some (⟨_, min⟩, ⟨_, max⟩) ∧
      IsLeast q.values min.toNat ∧ IsGreatest q.values max.toNat := by
  obtain ⟨min, max, hbounds, hleast, hgreatest⟩ := bounds_spec ht hsat he hw
  have hmin := Query.lt_of_mem_values hleast.1
  have hmax := Query.lt_of_mem_values hgreatest.1
  refine ⟨BitVec.ofNat _ min, BitVec.ofNat _ max, ?_, ?_, ?_⟩
  · simp [getRange, hbounds, ConstantExpr.create_of_lt hmin, ConstantExpr.create_of_lt hmax,
      ConstantExpr.alloc]
  · rwa [BitVec.toNat_ofNat, Nat.mod_eq_of_lt hmin]
  · rwa [BitVec.toNat_ofNat, Nat.mod_eq_of_lt hmax]

end Range

/-- `x[0]` without constraints. -/
def firstByte : Query := ⟨[], .read twoBytes .null (.constant ⟨32, 0⟩)⟩

theorem getRange_exact_firstByte : ∃ min max : BitVec firstByte.expr.width,
    ideal.getRange firstByte = some (⟨_, min⟩, ⟨_, max⟩) ∧
      IsLeast firstByte.values min.toNat ∧ IsGreatest firstByte.values max.toNat :=
  getRange_exact (correct_ideal.under (by simp [firstByte])) ⟨fun _ _ => 0, by simp [firstByte]⟩
    (by simp [firstByte, Expr.WellSorted, UpdateNode.WellSorted, Expr.width])
    (by simp [firstByte, Expr.width, Array.getRange])

end TimingSolver

end Klee

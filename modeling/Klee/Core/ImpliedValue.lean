import Klee.Expr.FindReads
import Klee.Expr.Truth
import Klee.Expr.ReadSpec

/-! `ImpliedValue::getImpliedValues`: what the reads inside an expression must be for it to have a
value. -/
namespace Klee.ImpliedValue

/-- What can be seen of a run: each call, with the value that it is given, and each entry of
`results`. -/
inductive Event where
  | call (value : Option ConstantExpr)
  | implied (re : ReadExpr) (value : Option ConstantExpr)
deriving DecidableEq

/-- The events of a run in their order; a run that is not finished ends with an assertion or where
a null reference is followed. -/
structure Run where
  events : List Event
  finished : Bool
deriving DecidableEq

namespace Run

def done : Run := ⟨[], true⟩

def abort : Run := ⟨[], false⟩

def andThen (a b : Run) : Run :=
  if a.finished then ⟨a.events ++ b.events, b.finished⟩ else a

/-- `assert` -/
def check (p : Prop) [Decidable p] : Run := if p then done else abort

/-- `results.push_back` -/
def push (re : ReadExpr) (value : Option ConstantExpr) : Run := ⟨[.implied re value], true⟩

def called (value : Option ConstantExpr) (body : Run) : Run :=
  ⟨.call value :: body.events, body.finished⟩

/-- What follows the reference `value`. -/
def deref (value : Option ConstantExpr) (body : ConstantExpr → Run) : Run := value.elim abort body

end Run

open Run

/-- `cast<EqExpr>` fails on an `Ne`. `TrueCE != FalseCE` compares the objects; `SelectExpr::create`
keeps no equal arms, so that their values tell the objects apart. -/
def getImpliedValues : Expr → Option ConstantExpr → Run
  | .constant c, value => called value (check (value = some c))
  | .notOptimized _, value => called value done
  | .read root head index, value => called value (push ⟨⟨root, head⟩, index⟩ value)
  | .select cond (.constant trueCE) (.constant falseCE), value => called value <|
    if trueCE ≠ falseCE then deref value fun v =>
      if v = trueCE then getImpliedValues cond (some (.alloc 1 1))
      else (check (v = falseCE)).andThen (getImpliedValues cond (some (.alloc 0 1)))
    else done
  | .select _ _ _, value => called value done
  | .concat left right, value => called value <| deref value fun v =>
    (getImpliedValues left (some (v.extract right.width left.width))).andThen
      (getImpliedValues right (some (v.extract 0 right.width)))
  | .extract _ _ _, value => called value done
  | .cast _ src _, value => called value <| deref value fun v =>
    getImpliedValues src (some (v.extract 0 src.width))
  | .not _, value => called value done
  | .arith .add (.constant c) right, value => called value <| deref value fun v =>
    getImpliedValues right (some (v.sub c))
  | .arith .sub (.constant c) right, value => called value <| deref value fun v =>
    getImpliedValues right (some (c.sub v))
  | .arith .and left right, value => called value <|
    if left.width = 1 then deref value fun v =>
      if v.isTrue then (getImpliedValues left value).andThen (getImpliedValues right value)
      else done
    else done
  | .arith .or left right, value => called value <| deref value fun v =>
    if v.isZero then (getImpliedValues left none).andThen (getImpliedValues right none) else done
  | .arith .xor (.constant c) right, value => called value <| deref value fun v =>
    getImpliedValues right (some (v.xor c))
  | .arith _ _ _, value => called value done
  | .cmp .ne _ _, value => called value abort
  | .cmp .eq (.constant c) right, value => called value <| deref value fun v =>
    if v.isTrue then getImpliedValues right (some c)
    else if c.width = 1 then getImpliedValues right (some c.not)
    else done
  | .cmp .eq _ _, value => called value (deref value fun _ => done)
  | .cmp _ _ _, value => called value done

/-- The assertions hold on the way through the operators that are inverted. -/
def AssertsHold : Expr → ConstantExpr → Prop
  | .constant c, v => v = c
  | .select cond (.constant trueCE) (.constant falseCE), v =>
    trueCE = falseCE ∨ (v = trueCE ∧ AssertsHold cond (.alloc 1 1)) ∨
      (v ≠ trueCE ∧ v = falseCE ∧ AssertsHold cond (.alloc 0 1))
  | .concat left right, v =>
    AssertsHold left (v.extract right.width left.width) ∧ AssertsHold right (v.extract 0 right.width)
  | .cast _ src _, v => AssertsHold src (v.extract 0 src.width)
  | .arith .add (.constant c) right, v => AssertsHold right (v.sub c)
  | .arith .sub (.constant c) right, v => AssertsHold right (c.sub v)
  | .arith .and left right, v =>
    left.width = 1 → v.isTrue = true → AssertsHold left v ∧ AssertsHold right v
  | .arith .xor (.constant c) right, v => AssertsHold right (v.xor c)
  | .cmp .ne _ _, _ => False
  | .cmp .eq (.constant c) right, v =>
    (v.isTrue = true → AssertsHold right c) ∧
      (v.isTrue = false → c.width = 1 → AssertsHold right c.not)
  | _, _ => True

/-- Some `Or` that is reached has to be zero for the expression to have the value. -/
def ZeroOr : Expr → ConstantExpr → Prop
  | .select cond (.constant trueCE) (.constant falseCE), v =>
    trueCE ≠ falseCE ∧ ((v = trueCE ∧ ZeroOr cond (.alloc 1 1)) ∨
      (v ≠ trueCE ∧ v = falseCE ∧ ZeroOr cond (.alloc 0 1)))
  | .concat left right, v =>
    ZeroOr left (v.extract right.width left.width) ∨
      (AssertsHold left (v.extract right.width left.width) ∧
        ZeroOr right (v.extract 0 right.width))
  | .cast _ src _, v => ZeroOr src (v.extract 0 src.width)
  | .arith .add (.constant c) right, v => ZeroOr right (v.sub c)
  | .arith .sub (.constant c) right, v => ZeroOr right (c.sub v)
  | .arith .and left right, v =>
    left.width = 1 ∧ v.isTrue = true ∧ (ZeroOr left v ∨ (AssertsHold left v ∧ ZeroOr right v))
  | .arith .or _ _, v => v.isZero = true
  | .arith .xor (.constant c) right, v => ZeroOr right (v.xor c)
  | .cmp .eq (.constant c) right, v =>
    (v.isTrue = true ∧ ZeroOr right c) ∨ (v.isTrue = false ∧ c.width = 1 ∧ ZeroOr right c.not)
  | _, _ => False

end Klee.ImpliedValue

/-! What `getImpliedValues` infers is implied, and when it is called without a value. -/
namespace Klee.ImpliedValue

variable {σ : Assignment} {e left right src cond : Expr} {v c : ConstantExpr}

/-- The expression has the value `v` under `σ`. -/
def HasValue (σ : Assignment) (e : Expr) (v : ConstantExpr) : Prop := e.eval σ v.width = v.value

section Inverses

/-! What an operand must be for the expression to have a value. -/

theorem hasValue_concat (hv : v.width = (Expr.concat left right).width)
    (h : HasValue σ (.concat left right) v) :
    HasValue σ left (v.extract right.width left.width) ∧
      HasValue σ right (v.extract 0 right.width) := by
  obtain ⟨w, x⟩ := v
  obtain rfl : w = left.width + right.width := hv
  rw [HasValue, Expr.eval, BitVec.setWidth_eq] at h
  dsimp only at h
  subst h
  unfold HasValue ConstantExpr.extract
  dsimp only
  rw [BitVec.setWidth_sshiftRight _ (Nat.add_comm _ _).le,
    BitVec.setWidth_sshiftRight _ (by omega)]
  constructor
  · rw [BitVec.extractLsb'_append_eq_ite, dif_neg (lt_irrefl _), Nat.sub_self,
      BitVec.extractLsb'_eq_self]
  · rw [BitVec.extractLsb'_append_eq_of_add_le (by omega), BitVec.extractLsb'_eq_self]

theorem hasValue_cast {k : CastKind} {w : Nat} (he : (Expr.cast k src w).WellSorted)
    (hv : v.width = (Expr.cast k src w).width) (h : HasValue σ (.cast k src w) v) :
    HasValue σ src (v.extract 0 src.width) := by
  obtain ⟨-, hw⟩ := he
  obtain ⟨_, x⟩ := v
  obtain rfl : _ = w := hv
  rw [HasValue, Expr.eval] at h
  dsimp only at h
  subst h
  unfold HasValue ConstantExpr.extract
  dsimp only
  rw [BitVec.sshiftRight_zero]
  cases k with
  | zext =>
    change _ = ((src.eval σ src.width).setWidth _).setWidth _
    rw [BitVec.setWidth_setWidth_of_le _ hw, BitVec.setWidth_eq]
  | sext =>
    change _ = ((src.eval σ src.width).signExtend _).setWidth _
    apply BitVec.eq_of_getLsbD_eq
    intro i hi
    rw [BitVec.getLsbD_setWidth, BitVec.getLsbD_signExtend]
    simp [hi, hi.trans_le hw]

theorem hasValue_add (hc : v.width = c.width) (h : HasValue σ (.add (.constant c) right) v) :
    HasValue σ right (v.sub c) := by
  obtain ⟨w, x⟩ := v
  obtain ⟨_, y⟩ := c
  obtain rfl : w = _ := hc
  rw [HasValue, Expr.eval, Expr.eval] at h
  dsimp only at h
  subst h
  change right.eval σ w = (y.setWidth w + right.eval σ w) - y.setWidth w
  exact (add_sub_cancel_left _ _).symm

theorem hasValue_sub (hc : v.width = c.width) (h : HasValue σ (.sub (.constant c) right) v) :
    HasValue σ right (c.sub v) := by
  obtain ⟨w, x⟩ := v
  obtain ⟨_, y⟩ := c
  obtain rfl : w = _ := hc
  rw [HasValue, Expr.eval, Expr.eval] at h
  dsimp only at h
  subst h
  change right.eval σ w = y - (y.setWidth w - right.eval σ w).setWidth w
  rw [BitVec.setWidth_eq, BitVec.setWidth_eq]
  exact (sub_sub_cancel _ _).symm

theorem hasValue_xor (hc : v.width = c.width) (h : HasValue σ (.xor (.constant c) right) v) :
    HasValue σ right (v.xor c) := by
  obtain ⟨w, x⟩ := v
  obtain ⟨_, y⟩ := c
  obtain rfl : w = _ := hc
  rw [HasValue, Expr.eval, Expr.eval] at h
  dsimp only at h
  subst h
  change right.eval σ w = (y.setWidth w ^^^ right.eval σ w) ^^^ y.setWidth w
  rw [BitVec.xor_comm, ← BitVec.xor_assoc, BitVec.xor_self, BitVec.zero_xor]

theorem hasValue_and (hv : v.width = 1) (htrue : v.isTrue = true)
    (h : HasValue σ (.and left right) v) : HasValue σ left v ∧ HasValue σ right v := by
  obtain ⟨w, x⟩ := v
  obtain rfl : w = 1 := hv
  have hx : x = 1#1 := by simpa [ConstantExpr.isTrue, BitVec.ne_zero_iff_eq_one] using htrue
  subst hx
  rw [HasValue, Expr.eval] at h
  exact (BitVec.and_eq_one_iff _ _).mp h

theorem hasValue_eq {w : Nat} {x : BitVec w} {y : BitVec 1}
    (h : HasValue σ (.eq (.constant ⟨w, x⟩) right) ⟨1, y⟩) :
    if y = 1#1 then right.eval σ w = x else right.eval σ w ≠ x := by
  rw [HasValue, Expr.eval, BitVec.setWidth_eq, Expr.eval] at h
  change BitVec.ofBool (x.setWidth w == right.eval σ w) = y at h
  rw [BitVec.setWidth_eq] at h
  subst h
  by_cases heq : x = right.eval σ w
  · rw [heq]
    simp
  · rw [beq_eq_false_iff_ne.mpr heq]
    exact fun h => heq h.symm

theorem eq_not_of_ne {x y : BitVec 1} (h : y ≠ x) : y = ~~~x := by
  rcases BitVec.eq_zero_or_eq_one x with rfl | rfl
  · exact (BitVec.eq_zero_or_eq_one y).resolve_left h
  · exact (BitVec.eq_zero_or_eq_one y).resolve_right h

theorem hasValue_select {t f : ConstantExpr} (hne : t ≠ f) (hv : v.width = t.width)
    (hf : f.width = t.width) (h : HasValue σ (.select cond (.constant t) (.constant f)) v) :
    (v = t ∧ HasValue σ cond (.alloc 1 1)) ∨ (v = f ∧ v ≠ t ∧ HasValue σ cond (.alloc 0 1)) := by
  obtain ⟨w, x⟩ := v
  obtain ⟨_, xt⟩ := t
  obtain ⟨_, xf⟩ := f
  obtain rfl : w = _ := hv
  obtain rfl : _ = w := hf
  rw [HasValue, Expr.eval] at h
  simp only [Expr.eval, BitVec.setWidth_eq] at h
  split at h
  case isTrue hcond =>
    subst h
    exact .inl ⟨rfl, hcond⟩
  case isFalse hcond =>
    subst h
    refine .inr ⟨rfl, fun heq => hne heq.symm, ?_⟩
    exact (BitVec.eq_zero_or_eq_one _).resolve_right hcond

end Inverses

attribute [local simp] getImpliedValues

section Calls

/-- The call for `e` and `v` makes one for its operand `e'` and `v'`. -/
structure Passes (e : Expr) (v : ConstantExpr) (e' : Expr) (v' : ConstantExpr) : Prop where
  smaller : sizeOf e' < sizeOf e
  wellSorted : e'.WellSorted
  width_eq : v'.width = e'.width
  value : ∀ σ, HasValue σ e v → HasValue σ e' v'

inductive Outcome (e : Expr) (v : ConstantExpr) : Run → Prop
  | stops (r : Run) (hevents : r.events = []) (hor : ¬ ZeroOr e v)
    (hasserts : r.finished = true ↔ AssertsHold e v) : Outcome e v (.called (some v) r)
  | read (re : ReadExpr) (he : e = re.full) (hor : ¬ ZeroOr e v) (hasserts : AssertsHold e v) :
    Outcome e v (.called (some v) (.push re (some v)))
  | one {e' : Expr} {v' : ConstantExpr} (h : Passes e v e' v')
    (hor : ZeroOr e v ↔ ZeroOr e' v') (hasserts : AssertsHold e v ↔ AssertsHold e' v') :
    Outcome e v (.called (some v) (getImpliedValues e' (some v')))
  | two {e₁ e₂ : Expr} {v₁ v₂ : ConstantExpr} (h₁ : Passes e v e₁ v₁) (h₂ : Passes e v e₂ v₂)
    (hor : ZeroOr e v ↔ ZeroOr e₁ v₁ ∨ (AssertsHold e₁ v₁ ∧ ZeroOr e₂ v₂))
    (hasserts : AssertsHold e v ↔ AssertsHold e₁ v₁ ∧ AssertsHold e₂ v₂) :
    Outcome e v (.called (some v)
      ((getImpliedValues e₁ (some v₁)).andThen (getImpliedValues e₂ (some v₂))))
  | zero (left right : Expr) (hor : ZeroOr e v) :
    Outcome e v (.called (some v) ((getImpliedValues left none).andThen
      (getImpliedValues right none)))

theorem outcome_done (hor : ¬ ZeroOr e v) (hasserts : AssertsHold e v) :
    Outcome e v (.called (some v) .done) :=
  .stops .done rfl hor (iff_of_true rfl hasserts)

theorem outcome_constant :
    Outcome (.constant c) v (getImpliedValues (.constant c) (some v)) := by
  rw [getImpliedValues, Run.check]
  have hasserts : AssertsHold (.constant c) v ↔ v = c := Iff.rfl
  by_cases hc : some v = some c
  · rw [if_pos hc]
    exact outcome_done (fun h => h) (hasserts.mpr (Option.some.inj hc))
  · rw [if_neg hc]
    exact .stops .abort rfl (fun h => h)
      (iff_of_false Bool.false_ne_true fun h => hc (congrArg some (hasserts.mp h)))

theorem outcome_select_constants {a b : ConstantExpr} (hcond : cond.WellSorted)
    (hcw : cond.width = 1) (hw : b.width = a.width) (hv : v.width = a.width) :
    Outcome (.select cond (.constant a) (.constant b)) v
      (getImpliedValues (.select cond (.constant a) (.constant b)) (some v)) := by
  rw [getImpliedValues]
  have hor : ZeroOr (.select cond (.constant a) (.constant b)) v ↔ a ≠ b ∧
      ((v = a ∧ ZeroOr cond (.alloc 1 1)) ∨ (v ≠ a ∧ v = b ∧ ZeroOr cond (.alloc 0 1))) := Iff.rfl
  have hasserts : AssertsHold (.select cond (.constant a) (.constant b)) v ↔ a = b ∨
      (v = a ∧ AssertsHold cond (.alloc 1 1)) ∨ (v ≠ a ∧ v = b ∧ AssertsHold cond (.alloc 0 1)) :=
    Iff.rfl
  by_cases hne : a = b
  case pos =>
    rw [if_neg (not_not_intro hne)]
    exact outcome_done (fun h => (hor.mp h).1 hne) (hasserts.mpr (.inl hne))
  rw [if_pos hne, Run.deref, Option.elim_some]
  have hsel {σ : Assignment} (h : HasValue σ (.select cond (.constant a) (.constant b)) v) :=
    hasValue_select hne hv hw h
  by_cases ha : v = a
  case pos =>
    rw [if_pos ha]
    refine .one ⟨by simp; omega, hcond, hcw.symm, fun σ h => ?_⟩ ?_ ?_
    · exact (hsel h).elim And.right fun h => absurd ha h.2.1
    · exact hor.trans (by simp [eq_false hne, eq_true ha])
    · exact hasserts.trans (by simp [eq_false hne, eq_true ha])
  rw [if_neg ha]
  by_cases hb : v = b
  · rw [Run.check, if_pos hb]
    refine .one ⟨by simp; omega, hcond, hcw.symm, fun σ h => ?_⟩ ?_ ?_
    · exact (hsel h).elim (fun h => absurd h.1 ha) fun h => h.2.2
    · exact hor.trans (by simp [eq_false hne, eq_false ha, eq_true hb])
    · exact hasserts.trans (by simp [eq_false hne, eq_false ha, eq_true hb])
  · rw [Run.check, if_neg hb]
    exact .stops _ rfl (by simp [hor, ha, hb]) (iff_of_false Bool.false_ne_true
      (by simp [hasserts, hne, ha, hb]))

theorem outcome_select {t f : Expr} (he : (Expr.select cond t f).WellSorted)
    (hv : v.width = (Expr.select cond t f).width) :
    Outcome (.select cond t f) v (getImpliedValues (.select cond t f) (some v)) := by
  cases t <;> cases f
  case constant.constant a b => exact outcome_select_constants he.1.1 he.1.2 he.2.2.2 hv
  all_goals exact outcome_done (fun h => h) trivial

theorem outcome_eq_constant {w : Nat} {x : BitVec w} {y : BitVec 1} (hr : right.WellSorted)
    (hw : right.width = w) :
    Outcome (.eq (.constant ⟨w, x⟩) right) ⟨1, y⟩
      (getImpliedValues (.eq (.constant ⟨w, x⟩) right) (some ⟨1, y⟩)) := by
  rw [getImpliedValues, Run.deref, Option.elim_some]
  have hor : ZeroOr (.eq (.constant ⟨w, x⟩) right) ⟨1, y⟩ ↔
      (ConstantExpr.isTrue ⟨1, y⟩ = true ∧ ZeroOr right ⟨w, x⟩) ∨
        (ConstantExpr.isTrue ⟨1, y⟩ = false ∧ w = 1 ∧
          ZeroOr right (ConstantExpr.not ⟨w, x⟩)) := Iff.rfl
  have hasserts : AssertsHold (.eq (.constant ⟨w, x⟩) right) ⟨1, y⟩ ↔
      (ConstantExpr.isTrue ⟨1, y⟩ = true → AssertsHold right ⟨w, x⟩) ∧
        (ConstantExpr.isTrue ⟨1, y⟩ = false → w = 1 →
          AssertsHold right (ConstantExpr.not ⟨w, x⟩)) := Iff.rfl
  rcases BitVec.eq_zero_or_eq_one y with rfl | rfl
  case inr =>
    have htrue : ConstantExpr.isTrue ⟨1, 1#1⟩ = true := rfl
    exact .one ⟨by simp, hr, hw.symm, fun σ h => hasValue_eq h⟩ (hor.trans (by simp [htrue]))
      (hasserts.trans (by simp [htrue]))
  have hfalse : ConstantExpr.isTrue ⟨1, 0#1⟩ = false := rfl
  by_cases h1 : w = 1
  · subst h1
    exact .one ⟨by simp, hr, hw.symm, fun σ h => eq_not_of_ne (hasValue_eq h)⟩
      (hor.trans (by simp [hfalse])) (hasserts.trans (by simp [hfalse]))
  · rw [hfalse, if_neg Bool.false_ne_true, if_neg h1]
    exact outcome_done (by simp [hor, hfalse, h1]) (by simp [hasserts, hfalse, h1])

theorem outcome_cmp {k : CmpKind} (he : (Expr.cmp k left right).WellSorted)
    (hv : v.width = (Expr.cmp k left right).width) :
    Outcome (.cmp k left right) v (getImpliedValues (.cmp k left right) (some v)) := by
  cases k
  case ne => exact .stops .abort rfl (fun h => h) (iff_of_false Bool.false_ne_true id)
  case eq =>
    cases left
    case constant c =>
      obtain ⟨_, y⟩ := v
      obtain rfl : _ = 1 := hv
      exact outcome_eq_constant he.2.1 he.2.2
    all_goals exact outcome_done (fun h => h) trivial
  all_goals exact outcome_done (fun h => h) trivial

theorem outcome_and (hl : left.WellSorted) (hr : right.WellSorted)
    (hw : right.width = left.width) (hv : v.width = left.width) :
    Outcome (.and left right) v (getImpliedValues (.and left right) (some v)) := by
  rw [getImpliedValues]
  have hor : ZeroOr (.and left right) v ↔ left.width = 1 ∧ v.isTrue = true ∧
    (ZeroOr left v ∨ (AssertsHold left v ∧ ZeroOr right v)) := Iff.rfl
  have hasserts : AssertsHold (.and left right) v ↔ (left.width = 1 → v.isTrue = true →
    AssertsHold left v ∧ AssertsHold right v) := Iff.rfl
  by_cases h1 : left.width = 1
  case neg =>
    rw [if_neg h1]
    exact outcome_done (fun h => h1 (hor.mp h).1) (hasserts.mpr fun h => absurd h h1)
  rw [if_pos h1, Run.deref, Option.elim_some]
  by_cases htrue : v.isTrue = true
  case neg =>
    rw [if_neg htrue]
    exact outcome_done (fun h => htrue (hor.mp h).2.1) (hasserts.mpr fun _ h => absurd h htrue)
  rw [if_pos htrue]
  have hand {σ : Assignment} (h : HasValue σ (.and left right) v) :=
    hasValue_and (hv.trans h1) htrue h
  refine .two ⟨by simp; omega, hl, hv, fun σ h => (hand h).1⟩
    ⟨by simp, hr, hv.trans hw.symm, fun σ h => (hand h).2⟩ ?_ ?_
  · exact hor.trans ((and_iff_right h1).trans (and_iff_right htrue))
  · exact hasserts.trans ((imp_iff_right h1).trans (imp_iff_right htrue))

theorem outcome_or :
    Outcome (.or left right) v (getImpliedValues (.or left right) (some v)) := by
  rw [getImpliedValues, Run.deref, Option.elim_some]
  by_cases hzero : v.isZero = true
  · rw [if_pos hzero]
    exact .zero left right hzero
  · rw [if_neg hzero]
    exact outcome_done hzero trivial

theorem outcome_arith {k : ArithKind} (he : (Expr.arith k left right).WellSorted)
    (hv : v.width = (Expr.arith k left right).width) :
    Outcome (.arith k left right) v (getImpliedValues (.arith k left right) (some v)) := by
  obtain ⟨hl, hr, hw⟩ := he
  cases k
  case and => exact outcome_and hl hr hw hv
  case or => exact outcome_or
  case add =>
    cases left
    case constant c =>
      exact .one ⟨by simp, hr, hv.trans hw.symm, fun σ h => hasValue_add hv h⟩ Iff.rfl Iff.rfl
    all_goals exact outcome_done (fun h => h) trivial
  case sub =>
    cases left
    case constant c =>
      exact .one ⟨by simp, hr, hw.symm, fun σ h => hasValue_sub hv h⟩ Iff.rfl Iff.rfl
    all_goals exact outcome_done (fun h => h) trivial
  case xor =>
    cases left
    case constant c =>
      exact .one ⟨by simp, hr, hv.trans hw.symm, fun σ h => hasValue_xor hv h⟩ Iff.rfl Iff.rfl
    all_goals exact outcome_done (fun h => h) trivial
  all_goals exact outcome_done (fun h => h) trivial

theorem outcome_getImpliedValues (he : e.WellSorted) (hv : v.width = e.width) :
    Outcome e v (getImpliedValues e (some v)) := by
  cases e with
  | constant c => exact outcome_constant
  | notOptimized e => exact outcome_done (fun h => h) trivial
  | read root head index => exact .read ⟨⟨root, head⟩, index⟩ rfl (fun h => h) trivial
  | select cond t f => exact outcome_select he hv
  | concat left right =>
    obtain ⟨hl, hr⟩ := he
    exact .two ⟨by simp; omega, hl, rfl, fun σ h => (hasValue_concat hv h).1⟩
      ⟨by simp, hr, rfl, fun σ h => (hasValue_concat hv h).2⟩ Iff.rfl Iff.rfl
  | extract e off w => exact outcome_done (fun h => h) trivial
  | cast k src w =>
    exact .one ⟨by simp; omega, he.1, rfl, fun σ h => hasValue_cast he hv h⟩ Iff.rfl Iff.rfl
  | not e => exact outcome_done (fun h => h) trivial
  | cmp k left right => exact outcome_cmp he hv
  | arith k left right => exact outcome_arith he hv

end Calls

section Sound

/-- The event is a call with a value, or a read that has its value wherever `P` holds. -/
def Event.Good (P : Assignment → Prop) : Event → Prop
  | .call value => value ≠ none
  | .implied re value => ∃ x : BitVec 8, value = some ⟨8, x⟩ ∧ ∀ σ, P σ → re.full.eval σ 8 = x

def Run.Good (P : Assignment → Prop) (r : Run) : Prop := ∀ event ∈ r.events, event.Good P

variable {P : Assignment → Prop} {a b : Run}

theorem finished_andThen : (a.andThen b).finished = (a.finished && b.finished) := by
  unfold Run.andThen
  cases h : a.finished
  · exact h
  · rfl

theorem events_andThen (h : a.finished = true) : (a.andThen b).events = a.events ++ b.events :=
  congrArg Run.events (if_pos h)

theorem mem_events_andThen_left {event : Event} (h : event ∈ a.events) :
    event ∈ (a.andThen b).events := by
  unfold Run.andThen
  split
  · exact List.mem_append_left _ h
  · exact h

theorem call_mem_getImpliedValues : Event.call none ∈ (getImpliedValues e none).events := by
  unfold getImpliedValues
  split <;> exact List.mem_cons_self

/-- A call stops at an assertion that does not hold, and nowhere else before an `Or` that has to
be zero, where it goes on without a value. -/
theorem reaches_getImpliedValues (he : e.WellSorted) (hv : v.width = e.width) :
    (¬ ZeroOr e v → ((getImpliedValues e (some v)).finished = true ↔ AssertsHold e v)) ∧
      (ZeroOr e v → Event.call none ∈ (getImpliedValues e (some v)).events) := by
  induction hn : sizeOf e using Nat.strong_induction_on generalizing e v with
  | h n ih =>
    subst hn
    have passes {e' v'} (h : Passes e v e' v') := ih _ h.smaller h.wellSorted h.width_eq rfl
    have outcome := outcome_getImpliedValues he hv
    generalize getImpliedValues e (some v) = r at outcome ⊢
    cases outcome with
    | stops r hevents hor hasserts => exact ⟨fun _ => hasserts, fun h => absurd h hor⟩
    | read re he hor hasserts => exact ⟨fun _ => iff_of_true rfl hasserts, fun h => absurd h hor⟩
    | one h hor hasserts =>
      rw [hor, hasserts]
      exact ⟨(passes h).1, fun h' => List.mem_cons_of_mem _ ((passes h).2 h')⟩
    | @two e₁ e₂ v₁ v₂ h₁ h₂ hor hasserts =>
      obtain ⟨finished₁, call₁⟩ := passes h₁
      obtain ⟨finished₂, call₂⟩ := passes h₂
      rw [hor, hasserts]
      by_cases hz₁ : ZeroOr e₁ v₁
      · exact ⟨fun h => absurd (.inl hz₁) h,
          fun _ => List.mem_cons_of_mem _ (mem_events_andThen_left (call₁ hz₁))⟩
      have hfirst := finished₁ hz₁
      refine ⟨fun h => ?_, fun h => List.mem_cons_of_mem _ ?_⟩
      · change (Run.andThen _ _).finished = true ↔ _
        rw [finished_andThen, Bool.and_eq_true, hfirst]
        exact and_congr_right fun ha => finished₂ fun hz₂ => h (.inr ⟨ha, hz₂⟩)
      · obtain ⟨ha, hz₂⟩ := h.resolve_left hz₁
        rw [events_andThen (hfirst.mpr ha)]
        exact List.mem_append_right _ (call₂ hz₂)
    | zero left right hor =>
      exact ⟨absurd hor, fun _ =>
        List.mem_cons_of_mem _ (mem_events_andThen_left call_mem_getImpliedValues)⟩

theorem Run.Good.called (h : a.Good P) (v : ConstantExpr) : (Run.called (some v) a).Good P := by
  intro event hevent
  rcases List.mem_cons.mp hevent with rfl | hevent
  · exact Option.some_ne_none v
  · exact h event hevent

theorem Run.Good.andThen (ha : a.Good P) (hb : a.finished = true → b.Good P) :
    (a.andThen b).Good P := by
  unfold Run.andThen
  split
  case isTrue h => exact fun event he => (List.mem_append.mp he).elim (ha event) (hb h event)
  case isFalse => exact ha

/-- What is inferred where an expression has a value is implied, unless an `Or` that is reached
has to be zero. -/
theorem good_getImpliedValues (he : e.WellSorted) (hv : v.width = e.width) (hor : ¬ ZeroOr e v)
    (hP : ∀ σ, P σ → HasValue σ e v) : (getImpliedValues e (some v)).Good P := by
  induction hn : sizeOf e using Nat.strong_induction_on generalizing e v with
  | h n ih =>
    subst hn
    have passes {e' v'} (h : Passes e v e' v') (hor : ¬ ZeroOr e' v') :=
      ih _ h.smaller h.wellSorted h.width_eq hor (fun σ hσ => h.value σ (hP σ hσ)) rfl
    have outcome := outcome_getImpliedValues he hv
    generalize getImpliedValues e (some v) = r at outcome ⊢
    cases outcome with
    | stops r hevents =>
      refine Run.Good.called (fun event h => ?_) v
      rw [hevents] at h
      exact absurd h List.not_mem_nil
    | read re he =>
      refine Run.Good.called (fun event h => ?_) v
      obtain rfl := List.mem_singleton.mp h
      obtain ⟨_, x⟩ := v
      subst he
      obtain rfl : _ = 8 := hv
      exact ⟨x, rfl, hP⟩
    | one h hor' => exact (passes h fun hz => hor (hor'.mpr hz)).called v
    | two h₁ h₂ hor' =>
      have hz₁ := fun hz => hor (hor'.mpr (.inl hz))
      have finished₁ := (reaches_getImpliedValues h₁.wellSorted h₁.width_eq).1 hz₁
      refine ((passes h₁ hz₁).andThen fun hfinished => ?_).called v
      exact passes h₂ fun hz => hor (hor'.mpr (.inr ⟨finished₁.mp hfinished, hz⟩))
    | zero left right hz => exact absurd hz hor

/-- The pairs are implied and each call has a value, exactly if no `Or` that is reached has to be
zero. -/
theorem getImpliedValues_good_iff (he : e.WellSorted) (hv : v.width = e.width) :
    (getImpliedValues e (some v)).Good (HasValue · e v) ↔ ¬ ZeroOr e v :=
  ⟨fun hgood hz => hgood _ ((reaches_getImpliedValues he hv).2 hz) rfl,
    fun hor => good_getImpliedValues he hv hor fun _ h => h⟩

end Sound

section Instances

def byteOf (i : Nat) : Expr :=
  .read (.symbolic 0 "x" 2) .null (.constant (.alloc i 32))

/-- `x[0] = 1 ∨ x[1] = 2` -/
def eitherByte : Expr :=
  .or (.eq (.constant (.alloc 1 8)) (byteOf 0)) (.eq (.constant (.alloc 2 8)) (byteOf 1))

/-- Neither disjunct is given the value false: the first `Eq` follows a null reference. -/
theorem eitherByte_not_good :
    ¬ (getImpliedValues eitherByte (some (.alloc 0 1))).Good (HasValue · eitherByte (.alloc 0 1)) :=
  fun hgood => hgood (.call none) (by decide) rfl

/-- `x[0] = 1 ∧ x[1] = 2` -/
def bothBytes : Expr :=
  .and (.eq (.constant (.alloc 1 8)) (byteOf 0)) (.eq (.constant (.alloc 2 8)) (byteOf 1))

theorem wellSorted_bothBytes : bothBytes.WellSorted := by
  simp [bothBytes, byteOf, Expr.WellSorted, UpdateNode.WellSorted, Expr.width,
    ConstantExpr.alloc, Array.getRange]

theorem bothBytes_good :
    (getImpliedValues bothBytes (some (.alloc 1 1))).Good (HasValue · bothBytes (.alloc 1 1)) :=
  (getImpliedValues_good_iff wellSorted_bothBytes rfl).mpr
    (by simp [bothBytes, byteOf, ZeroOr, AssertsHold, ConstantExpr.isTrue, ConstantExpr.alloc])

end Instances

end Klee.ImpliedValue

import Klee.Expr.CompareSpec
import Klee.Solver.CachingSolver

/-! The canonical expression of a query. With the order of `Expr::compare` an expression and its
negation have the same one. -/
namespace Klee

open ConstantExpr (alloc)

namespace Expr

/-- Neither a constant nor an expression that `EqExpr::create` negates without a new node on
top. -/
def Plain (e : Expr) : Prop :=
  (∀ c, e ≠ .constant c) ∧ (∀ l r, e ≠ .or l r) ∧ ∀ x, e ≠ .eq (.constant (alloc 0 1)) x

/-- No negation of a constant, of a negation or of a disjunction, and no disjunction with a
constant: `EqExpr::create` and `OrExpr::create` rewrite them. -/
def AsCreated : Expr → Prop
  | .or l r => (l.isConstant = false ∧ l.AsCreated) ∧ r.isConstant = false ∧ r.AsCreated
  | .eq (.constant c) x => c = alloc 0 1 → x.Plain
  | _ => True

theorem isFalse_iff {c : ConstantExpr} : c.isFalse = true ↔ c = alloc 0 1 := by
  obtain ⟨w, v⟩ := c
  constructor
  · intro h
    obtain ⟨hw, hv⟩ := Bool.and_eq_true_iff.mp h
    obtain rfl : w = 1 := by simpa using hw
    rw [show v = 0 by simpa using hv]
    rfl
  · intro h
    rw [h]
    rfl

theorem createIsZero_constant (c : ConstantExpr) :
    (Expr.constant c).createIsZero = .constant (c.eq (alloc 0 c.width)) := rfl

/-- The negation of an expression that is no constant. -/
theorem createIsZero_eq {e : Expr} (he : e.isConstant = false) (hw : e.width = 1) :
    e.createIsZero = eqExprCreatePartialR (alloc 0 1) e := by
  rw [← hw]
  cases e with
  | constant c => cases he
  | _ => rfl

theorem eqExprCreate_false {e : Expr} (he : e.isConstant = false) :
    eqExprCreate (.constant (alloc 0 1)) e = .eq (.constant (alloc 0 1)) e := by
  refine if_neg fun h => ?_
  rw [← h] at he
  cases he

theorem createIsZero_plain {e : Expr} (he : e.Plain) (hw : e.width = 1) :
    e.createIsZero = .eq (.constant (alloc 0 1)) e := by
  have hconst : e.isConstant = false := (isConstant_eq_false_iff e).mpr he.1
  rw [createIsZero_eq hconst hw, ← eqExprCreate_false hconst]
  rw [eqExprCreatePartialR_eq]
  rw [if_pos (by rfl), if_neg (by decide)]
  split
  · rename_i c right
    by_cases hc : c.isFalse = true
    · rw [isFalse_iff.mp hc] at he
      exact absurd rfl (he.2.2 right)
    · rw [if_neg hc]
  · rename_i l r
    exact absurd rfl (he.2.1 l r)
  · rfl

theorem createIsZero_negation {x : Expr} :
    (Expr.eq (.constant (alloc 0 1)) x).createIsZero = x := by
  rw [createIsZero_eq rfl rfl]
  rw [eqExprCreatePartialR_eq]
  rw [if_pos (by rfl), if_neg (by decide)]
  exact if_pos rfl

theorem and_create {l r : Expr} (hl : l.isConstant = false) (hr : r.isConstant = false) :
    AndExpr.create l r = .and l r := by
  cases l with
  | constant c => cases hl
  | _ => cases r with
    | constant d => cases hr
    | _ => rfl

/-- A disjunction is negated by negating its parts. -/
theorem createIsZero_or {l r : Expr} (hwl : l.width = 1) :
    (Expr.or l r).createIsZero = AndExpr.create l.createIsZero r.createIsZero := by
  rw [createIsZero_eq (e := Expr.or l r) rfl hwl, eqExprCreatePartialR_eq, if_pos (by rfl),
    if_neg (by decide)]

theorem Plain.isConstant {e : Expr} (h : e.Plain) : e.isConstant = false :=
  (isConstant_eq_false_iff e).mpr h.1

/-- An expression that is no constant is a disjunction, a negation or plain. -/
theorem plain_cases (e : Expr) (he : e.isConstant = false) :
    (∃ l r, e = .or l r) ∨ (∃ x, e = .eq (.constant (alloc 0 1)) x) ∨ e.Plain := by
  by_cases hor : ∃ l r, e = .or l r
  · exact .inl hor
  by_cases hneg : ∃ x, e = .eq (.constant (alloc 0 1)) x
  · exact .inr (.inl hneg)
  · refine .inr (.inr ⟨(isConstant_eq_false_iff e).mp he, fun l r h => ?_, fun x h => ?_⟩)
    · exact hor ⟨l, r, h⟩
    · exact hneg ⟨x, h⟩

inductive Negates : Expr → Expr → Prop
  | negation {x : Expr} (hx : x.Plain) (hw : x.width = 1) :
      Negates (.eq (.constant (alloc 0 1)) x) x
  | or {l r l' r' : Expr} : Negates (.or l r) (.and l' r')
  | plain {e : Expr} (he : e.Plain) : Negates e (.eq (.constant (alloc 0 1)) e)

theorem Negates.isConstant {e e' : Expr} (h : Negates e e') : e'.isConstant = false := by
  cases h with
  | negation hx => exact hx.isConstant
  | or => rfl
  | plain => rfl

theorem negates_createIsZero (e : Expr) (he : e.IsBool) (hc : e.isConstant = false)
    (hcreated : e.AsCreated) : Negates e e.createIsZero := by
  obtain ⟨l, r, heq⟩ | ⟨x, heq⟩ | hplain := plain_cases e hc
  · subst heq
    obtain ⟨⟨hl, hlc⟩, hr, hrc⟩ := hcreated
    obtain ⟨⟨hlw, hrw, hwidth⟩, hw⟩ := he
    have hneg := negates_createIsZero l ⟨hlw, hw⟩ hl hlc
    have hneg' := negates_createIsZero r ⟨hrw, hwidth.trans hw⟩ hr hrc
    have hor : (Expr.or l r).createIsZero = .and l.createIsZero r.createIsZero :=
      (createIsZero_or (show l.width = 1 from hw)).trans (and_create hneg.isConstant hneg'.isConstant)
    rw [hor]
    exact .or
  · subst heq
    rw [createIsZero_negation]
    exact .negation (hcreated rfl) he.1.2.2
  · rw [createIsZero_plain hplain he.2]
    exact .plain hplain

end Expr

section Canonical

open CachingSolver

/-- Negating a Boolean constant twice gives it back, negating it once does not. -/
theorem not_not_constant {c : ConstantExpr} (hw : c.width = 1) :
    (c.eq (alloc 0 c.width)).eq (alloc 0 1) = c ∧ c ≠ c.eq (alloc 0 c.width) := by
  obtain ⟨w, v⟩ := c
  obtain rfl : w = 1 := hw
  revert v
  decide

theorem canonicalizeQuery_eq (less : Expr → Expr → Bool) (e : Expr) :
    (canonicalizeQuery less e).1 = if less e e.createIsZero then e else e.createIsZero := by
  unfold canonicalizeQuery
  dsimp only
  split_ifs <;> rfl

variable [APIntHash]

/-- `e.compare(e') < 0` -/
def exprLess (e e' : Expr) : Bool := e.compare e' == .lt

theorem exprLess_swap {e e' : Expr} (h : e.compare e' ≠ .eq) :
    exprLess e' e = !exprLess e e' := by
  unfold exprLess
  rw [e.compare_swap e']
  cases hcmp : e.compare e' with
  | eq => exact absurd hcmp h
  | _ => rfl

/-- A plain expression and its negation differ in a kid where their kinds are equal. -/
theorem Expr.Plain.compare_ne {e : Expr} (he : e.Plain) :
    e.compare (.eq (.constant (alloc 0 1)) e) ≠ .eq := by
  intro h
  rw [Expr.compare.eq_def, Ordering.then_eq_eq, Ordering.then_eq_eq] at h
  obtain ⟨hkind, -, hparts⟩ := h
  have hctor := Expr.ctorIdx_eq hkind
  cases e with
  | cmp k l r =>
    obtain rfl : k = .eq := CmpKind.getKind_inj (Nat.compare_eq_eq.mp hkind)
    have hleft := (Ordering.then_eq_eq.mp hparts).1
    rw [Expr.compare.eq_def, Ordering.then_eq_eq, Ordering.then_eq_eq] at hleft
    obtain ⟨hkind, -, hparts⟩ := hleft
    have hctor := Expr.ctorIdx_eq hkind
    cases l with
    | constant c => exact he.2.2 r (by rw [compareConstants_eq hparts])
    | _ => cases hctor
  | _ => cases hctor

/-- Where negating twice gives the expression back, the smaller one is canonical for both. -/
theorem canonicalizeQuery_involutive {e : Expr} (h : e.createIsZero.createIsZero = e)
    (hne : e.compare e.createIsZero ≠ .eq) :
    (canonicalizeQuery exprLess e.createIsZero).1 = (canonicalizeQuery exprLess e).1 := by
  rw [canonicalizeQuery_eq, canonicalizeQuery_eq, h, exprLess_swap hne]
  cases exprLess e e.createIsZero <;> rfl

/-- An expression and its negation have the same canonical expression. -/
theorem canonicalizeQuery_createIsZero {e : Expr} (he : e.IsBool) (hcreated : e.AsCreated) :
    (canonicalizeQuery exprLess e.createIsZero).1 = (canonicalizeQuery exprLess e).1 := by
  cases hc : e.isConstant with
  | true =>
    obtain ⟨c, rfl⟩ := (Expr.isConstant_iff e).mp hc
    have hnot := not_not_constant (c := c) he.2
    refine canonicalizeQuery_involutive (congrArg Expr.constant hnot.1) fun h => hnot.2 ?_
    rw [Expr.createIsZero_constant, Expr.compare.eq_def, Ordering.then_eq_eq,
      Ordering.then_eq_eq] at h
    exact compareConstants_eq h.2.2
  | false =>
    have hneg := Expr.negates_createIsZero e he hc hcreated
    generalize hq : e.createIsZero = e' at hneg
    cases hneg with
    | negation hx hw =>
      rw [← hq]
      refine canonicalizeQuery_involutive ?_ ?_
      · rw [hq, Expr.createIsZero_plain hx hw]
      · rw [hq]
        exact fun h => hx.compare_ne (by rw [Expr.compare_swap, h]; rfl)
    | @or l r l' r' =>
      -- the kinds decide: `And`, `Or`, `Eq`
      have hand : (Expr.and l' r').Plain := ⟨nofun, nofun, nofun⟩
      have hbool : (Expr.or l r).createIsZero.IsBool := TimingSolver.isBool_createIsZero he
      rw [hq] at hbool
      rw [canonicalizeQuery_eq, canonicalizeQuery_eq, hq, Expr.createIsZero_plain hand hbool.2]
      have hor : exprLess (.or l r) (.and l' r') = false := rfl
      have heq : exprLess (.and l' r') (.eq (.constant (alloc 0 1)) (.and l' r')) = true := rfl
      rw [if_pos heq, hor]
      rfl
    | plain hplain =>
      rw [← hq]
      refine canonicalizeQuery_involutive ?_ ?_
      · rw [hq, Expr.createIsZero_negation]
      · rw [hq]
        exact hplain.compare_ne

end Canonical

end Klee

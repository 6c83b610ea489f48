import Klee.Solver.Solver
import Klee.Expr.ConstraintsSound

/-! `Solver` and `TimingSolver`: the queries that the executor makes. The cost of a query and
its timeout are left out; a query that times out fails. -/
namespace Klee

structure TimingSolver extends SolverImpl where
  computeValue : Query → Option ConstantExpr
  simplifyExprs : Bool

namespace TimingSolver

section Solver

/-- `Solver::evaluate` -/
def evaluateQuery (t : TimingSolver) (q : Query) : Option Validity :=
  match q.expr with
  | .constant c => some (if c.isTrue then .true else .false)
  | _ => t.computeValidity q

def mustBeTrueQuery (t : TimingSolver) (q : Query) : Option Bool :=
  match q.expr with
  | .constant c => some c.isTrue
  | _ => t.computeTruth q

def getValueQuery (t : TimingSolver) (q : Query) : Option ConstantExpr :=
  match q.expr with
  | .constant c => some c
  | _ => t.computeValue q

end Solver

def simplify (t : TimingSolver) (cs : List Expr) (e : Expr) : Expr :=
  if t.simplifyExprs then ConstraintManager.simplifyExpr cs e else e

def evaluate (t : TimingSolver) (cs : List Expr) (e : Expr) : Option Validity :=
  match e with
  | .constant c => some (if c.isTrue then .true else .false)
  | e => t.evaluateQuery ⟨cs, t.simplify cs e⟩

def mustBeTrue (t : TimingSolver) (cs : List Expr) (e : Expr) : Option Bool :=
  match e with
  | .constant c => some c.isTrue
  | e => t.mustBeTrueQuery ⟨cs, t.simplify cs e⟩

def mustBeFalse (t : TimingSolver) (cs : List Expr) (e : Expr) : Option Bool :=
  t.mustBeTrue cs e.createIsZero

def mayBeTrue (t : TimingSolver) (cs : List Expr) (e : Expr) : Option Bool :=
  (t.mustBeFalse cs e).map (! ·)

def mayBeFalse (t : TimingSolver) (cs : List Expr) (e : Expr) : Option Bool :=
  (t.mustBeTrue cs e).map (! ·)

def getValue (t : TimingSolver) (cs : List Expr) (e : Expr) : Option ConstantExpr :=
  match e with
  | .constant c => some c
  | e => t.getValueQuery ⟨cs, t.simplify cs e⟩

def ValueCorrect (t : TimingSolver) (q : Query) : Prop :=
  ∃ c, t.computeValue q = some c ∧ c.width = q.expr.width ∧
    ((∃ σ, Satisfies σ q.constraints) →
      ∃ σ, Satisfies σ q.constraints ∧ q.expr.eval σ c.width = c.value)

/-- A value query may time out; a value that it gives is one that the expression can have. -/
def ValueSound (t : TimingSolver) (cs : List Expr) : Prop :=
  ∀ e : Expr, e.WellSorted → ∀ c ∈ t.computeValue ⟨cs, e⟩, c.width = e.width ∧
    ((∃ σ, Satisfies σ cs) → ∃ σ, Satisfies σ cs ∧ e.eval σ c.width = c.value)

structure Correct (t : TimingSolver) : Prop where
  truth : ∀ q : Query, q.WellTyped → t.TruthCorrect q
  validity : ∀ q : Query, q.WellTyped → t.ValidityCorrect q
  value : ∀ q : Query, (∀ c ∈ q.constraints, c.IsBool) → q.expr.WellSorted → t.ValueCorrect q

/-- Right answers to the queries under the constraints `cs`. -/
structure CorrectUnder (t : TimingSolver) (cs : List Expr) : Prop where
  truth : ∀ e : Expr, e.IsBool → t.TruthCorrect ⟨cs, e⟩
  validity : ∀ e : Expr, e.IsBool → t.ValidityCorrect ⟨cs, e⟩

theorem Correct.under {t : TimingSolver} {cs : List Expr} (ht : t.Correct)
    (hcs : ∀ c ∈ cs, c.IsBool) : t.CorrectUnder cs where
  truth e he := ht.truth ⟨cs, e⟩ ⟨hcs, he⟩
  validity e he := ht.validity ⟨cs, e⟩ ⟨hcs, he⟩

end TimingSolver

def Validity.Says (cs : List Expr) (e : Expr) : Validity → Prop
  | .true => ∀ σ, Satisfies σ cs → e.Holds σ
  | .false => ∀ σ, Satisfies σ cs → ¬ e.Holds σ
  | .unknown => (∃ σ, Satisfies σ cs ∧ e.Holds σ) ∧ ∃ σ, Satisfies σ cs ∧ ¬ e.Holds σ

namespace TimingSolver

variable {t : TimingSolver} {cs : List Expr} {e : Expr} {σ : Assignment}

section Simplify

theorem simplify_denotes_none (hcs : ∀ c ∈ cs, c.IsBool) {w : Nat} {x : BitVec w}
    (h : Denotes none e w x) : Denotes none (t.simplify cs e) w x := by
  unfold simplify
  split
  · refine ConstraintManager.simplifyExpr_denotes (fun c hc => ?_) h
    exact ((hcs c hc).denotes_none).congr fun hs => by cases hs
  · exact h

theorem simplify_denotes (hcs : ∀ c ∈ cs, c.IsBool) (hσ : Satisfies σ cs) {w : Nat} {x : BitVec w}
    (h : Denotes (some σ) e w x) : Denotes (some σ) (t.simplify cs e) w x := by
  unfold simplify
  split
  · refine ConstraintManager.simplifyExpr_denotes (fun c hc => ?_) h
    exact ((hcs c hc).denotes σ).congr fun _ => hσ c hc
  · exact h

theorem isBool_simplify (hcs : ∀ c ∈ cs, c.IsBool) (he : e.IsBool) : (t.simplify cs e).IsBool :=
  he.of_denotes fun h => simplify_denotes_none hcs h

theorem holds_simplify (hcs : ∀ c ∈ cs, c.IsBool) (he : e.IsBool) (hσ : Satisfies σ cs) :
    (t.simplify cs e).Holds σ ↔ e.Holds σ :=
  (simplify_denotes hcs hσ (he.denotes σ)).holds_iff

end Simplify

section Answers

theorem constant_says {c : ConstantExpr} (hc : (Expr.constant c).IsBool) :
    (if c.isTrue then Validity.true else Validity.false).Says cs (.constant c) := by
  split
  case isTrue h => exact fun σ _ => (Expr.holds_constant_iff hc).mpr h
  case isFalse h => exact fun σ _ => fun hσ => h ((Expr.holds_constant_iff hc).mp hσ)

theorem CorrectUnder.evaluateQuery (ht : t.CorrectUnder cs) (he : e.IsBool) :
    ∃ v, t.evaluateQuery ⟨cs, e⟩ = some v ∧ v.Says cs e := by
  unfold TimingSolver.evaluateQuery
  split
  · rename_i c hc
    obtain rfl : e = .constant c := hc
    exact ⟨_, rfl, constant_says he⟩
  · have hv := ht.validity e he
    unfold SolverImpl.ValidityCorrect at hv
    split at hv
    · exact hv.elim
    · rename_i heq
      exact ⟨_, heq, hv⟩
    · rename_i heq
      exact ⟨_, heq, hv.2⟩
    · rename_i heq
      exact ⟨_, heq, Query.not_refuted_iff.mp hv.2, Query.not_valid_iff.mp hv.1⟩

theorem Says.congr {e' : Expr} {v : Validity} (h : v.Says cs e')
    (hiff : ∀ σ, Satisfies σ cs → (e'.Holds σ ↔ e.Holds σ)) : v.Says cs e := by
  cases v with
  | true => exact fun σ hσ => (hiff σ hσ).mp (h σ hσ)
  | false => exact fun σ hσ hh => h σ hσ ((hiff σ hσ).mpr hh)
  | unknown =>
    obtain ⟨⟨σ, hσ, ht⟩, τ, hτ, hf⟩ := h
    exact ⟨⟨σ, hσ, (hiff σ hσ).mp ht⟩, τ, hτ, fun hh => hf ((hiff τ hτ).mpr hh)⟩

theorem Correct.evaluate (ht : t.Correct) (hcs : ∀ c ∈ cs, c.IsBool) (he : e.IsBool) :
    ∃ v, t.evaluate cs e = some v ∧ v.Says cs e := by
  unfold TimingSolver.evaluate
  split
  · exact ⟨_, rfl, constant_says he⟩
  · obtain ⟨v, hv, hverdict⟩ :=
      (ht.under hcs).evaluateQuery (isBool_simplify (t := t) hcs he)
    exact ⟨v, hv, Says.congr hverdict fun σ hσ => holds_simplify hcs he hσ⟩

theorem isTrue_iff_holds {c : ConstantExpr} (hc : (Expr.constant c).IsBool)
    (hsat : ∃ σ, Satisfies σ cs) :
    c.isTrue = true ↔ ∀ σ, Satisfies σ cs → (Expr.constant c).Holds σ := by
  obtain ⟨τ, hτ⟩ := hsat
  constructor
  · exact fun h σ _ => (Expr.holds_constant_iff hc).mpr h
  · exact fun h => (Expr.holds_constant_iff hc).mp (h τ hτ)

/-- With satisfiable constraints `Solver::mustBeTrue` decides implication. -/
theorem CorrectUnder.mustBeTrueQuery (ht : t.CorrectUnder cs) (he : e.IsBool)
    (hsat : ∃ σ, Satisfies σ cs) :
    ∃ b, t.mustBeTrueQuery ⟨cs, e⟩ = some b ∧
      (b = true ↔ ∀ σ, Satisfies σ cs → e.Holds σ) := by
  unfold TimingSolver.mustBeTrueQuery
  split
  · rename_i c hc
    obtain rfl : e = .constant c := hc
    exact ⟨_, rfl, isTrue_iff_holds he hsat⟩
  · exact ht.truth e he

/-- With satisfiable constraints `mustBeTrue` decides implication. -/
theorem Correct.mustBeTrue (ht : t.Correct) (hcs : ∀ c ∈ cs, c.IsBool) (he : e.IsBool)
    (hsat : ∃ σ, Satisfies σ cs) :
    ∃ b, t.mustBeTrue cs e = some b ∧ (b = true ↔ ∀ σ, Satisfies σ cs → e.Holds σ) := by
  unfold TimingSolver.mustBeTrue
  split
  · exact ⟨_, rfl, isTrue_iff_holds he hsat⟩
  · have hs := isBool_simplify (t := t) hcs he
    obtain ⟨b, hb, hiff⟩ := (ht.under hcs).mustBeTrueQuery hs hsat
    refine ⟨b, hb, hiff.trans (forall_congr' fun σ => imp_congr_right fun hσ => ?_)⟩
    exact holds_simplify hcs he hσ

theorem holds_createIsZero (he : e.IsBool) : e.createIsZero.Holds σ ↔ ¬ e.Holds σ := by
  rw [(Expr.createIsZero_denotes (he.denotes σ)).holds_iff, Expr.Holds, BitVec.ofBool_eq_one,
    beq_iff_eq]
  generalize e.eval σ 1 = x
  revert x
  decide

theorem isBool_createIsZero (he : e.IsBool) : e.createIsZero.IsBool :=
  (Expr.createIsZero_denotes he.denotes_none).isBool

theorem Correct.mustBeFalse (ht : t.Correct) (hcs : ∀ c ∈ cs, c.IsBool) (he : e.IsBool)
    (hsat : ∃ σ, Satisfies σ cs) :
    ∃ b, t.mustBeFalse cs e = some b ∧ (b = true ↔ ∀ σ, Satisfies σ cs → ¬ e.Holds σ) := by
  obtain ⟨b, hb, hiff⟩ := ht.mustBeTrue hcs (isBool_createIsZero he) hsat
  refine ⟨b, hb, hiff.trans (forall_congr' fun σ => imp_congr_right fun _ => ?_)⟩
  exact holds_createIsZero he

theorem Correct.mayBeTrue (ht : t.Correct) (hcs : ∀ c ∈ cs, c.IsBool) (he : e.IsBool)
    (hsat : ∃ σ, Satisfies σ cs) :
    ∃ b, t.mayBeTrue cs e = some b ∧ (b = true ↔ ∃ σ, Satisfies σ cs ∧ e.Holds σ) := by
  obtain ⟨b, hb, hiff⟩ := ht.mustBeFalse hcs he hsat
  refine ⟨!b, by rw [TimingSolver.mayBeTrue, hb, Option.map_some], ?_⟩
  rw [Bool.not_eq_true', ← Bool.not_eq_true, hiff]
  simp only [not_forall, not_not, exists_prop]

theorem Correct.valueSound (ht : t.Correct) (hcs : ∀ c ∈ cs, c.IsBool) : t.ValueSound cs := by
  intro e he c hc
  obtain ⟨c', hc', hw, hfeasible⟩ := ht.value ⟨cs, e⟩ hcs he
  obtain rfl : c' = c := Option.some.inj (hc'.symm.trans hc)
  exact ⟨hw, hfeasible⟩

/-- With satisfiable constraints a value is feasible. -/
theorem ValueSound.getValue (ht : t.ValueSound cs) (hcs : ∀ c ∈ cs, c.IsBool) (he : e.WellSorted)
    (hsat : ∃ σ, Satisfies σ cs) {c : ConstantExpr} (hc : t.getValue cs e = some c) :
    c.width = e.width ∧ ∃ σ, Satisfies σ cs ∧ e.eval σ c.width = c.value := by
  obtain ⟨τ, hτ⟩ := hsat
  unfold TimingSolver.getValue at hc
  split at hc
  · obtain rfl := Option.some.inj hc
    exact ⟨rfl, τ, hτ, by simp [Expr.eval]⟩
  · have hself := Denotes.of_wellSorted_none he rfl
    have hs := simplify_denotes_none (t := t) hcs hself
    have heval {σ : Assignment} (hσ : Satisfies σ cs) {w : Nat} (hw : e.width = w) :
        (t.simplify cs e).eval σ w = e.eval σ w :=
      (simplify_denotes hcs hσ (Denotes.of_wellSorted he hw)).eval
    unfold TimingSolver.getValueQuery at hc
    split at hc
    · rename_i c' hc'
      have hc' : t.simplify cs e = .constant c' := hc'
      obtain rfl := Option.some.inj hc
      rw [hc'] at hs heval
      have hw : c'.width = e.width := hs.width_eq
      refine ⟨hw, τ, hτ, ?_⟩
      rw [← heval hτ hw.symm]
      simp [Expr.eval]
    · obtain ⟨hw, hfeasible⟩ := ht _ hs.wellSorted c hc
      have hw : c.width = e.width := hw.trans hs.width_eq
      obtain ⟨σ, hσ, hval⟩ := hfeasible ⟨τ, hτ⟩
      refine ⟨hw, σ, hσ, ?_⟩
      rw [← heval hσ hw.symm]
      exact hval

theorem Correct.exists_getValue (ht : t.Correct) (hcs : ∀ c ∈ cs, c.IsBool) (he : e.WellSorted) :
    ∃ c, t.getValue cs e = some c := by
  unfold TimingSolver.getValue
  split
  · exact ⟨_, rfl⟩
  · have hs := simplify_denotes_none (t := t) hcs (Denotes.of_wellSorted_none he rfl)
    unfold TimingSolver.getValueQuery
    split
    · exact ⟨_, rfl⟩
    · obtain ⟨c, hc, -⟩ := ht.value ⟨cs, t.simplify cs e⟩ hcs hs.wellSorted
      exact ⟨c, hc⟩

theorem Correct.getValue (ht : t.Correct) (hcs : ∀ c ∈ cs, c.IsBool) (he : e.WellSorted)
    (hsat : ∃ σ, Satisfies σ cs) :
    ∃ c, t.getValue cs e = some c ∧ c.width = e.width ∧
      ∃ σ, Satisfies σ cs ∧ e.eval σ c.width = c.value := by
  obtain ⟨c, hc⟩ := ht.exists_getValue hcs he
  exact ⟨c, hc, (ht.valueSound hcs).getValue hcs he hsat hc⟩

end Answers

section Ideal

open Classical

noncomputable def ideal : TimingSolver where
  toSolverImpl := .ideal
  computeValue q := some ⟨q.expr.width,
    if h : ∃ σ, Satisfies σ q.constraints then q.expr.eval h.choose q.expr.width else 0⟩
  simplifyExprs := true

theorem correct_ideal : ideal.Correct where
  truth q _ := SolverImpl.truthCorrect_ideal q
  validity q _ := SolverImpl.validityCorrect_ideal q
  value q _ _ := by
    refine ⟨_, rfl, rfl, fun h => ⟨h.choose, h.choose_spec, ?_⟩⟩
    dsimp only
    rw [dif_pos h]

end Ideal

end TimingSolver

end Klee

import Klee.Solver.SolverChain

/-! `StagedSolverImpl`: what the answers of an incomplete solver and of a correct one below it
amount to. -/
namespace Klee

open Hoare

section Correct

variable {σ : Type} {I : SolverState σ → Prop}

/-- The layer answers every query with satisfiable constraints right, in all states with `I`. -/
structure SolverLayer.Correct (s : SolverLayer σ) (I : SolverState σ → Prop) : Prop where
  truth : ∀ q : Query, q.WellTyped → (∃ τ, Satisfies τ q.constraints) → ∀ w, I w →
    ∃ b w', s.computeTruth q w = .ok (⟨true, some b⟩, w') ∧ I w' ∧ (b = true ↔ q.Valid)
  validity : ∀ q : Query, q.WellTyped → (∃ τ, Satisfies τ q.constraints) → ∀ w, I w →
    ∃ v w', s.computeValidity q w = .ok (⟨true, some v⟩, w') ∧ I w' ∧ v.IsOf q

end Correct

namespace IncompleteSolver

variable {s : IncompleteSolver} {q : Query}

/-- The answer is justified; `None` always is. -/
def Justified (q : Query) (pv : PartialValidity) : Prop := pv = .none ∨ pv.Bounds q

def Sound (s : IncompleteSolver) : Prop :=
  ∀ q : Query, q.WellTyped → (∃ τ, Satisfies τ q.constraints) → Justified q (s.computeTruth q)

/-- `MayBeTrue` is no answer to the question for the truth of a valid query. -/
def AnswersTruth (s : IncompleteSolver) : Prop :=
  ∀ q : Query, q.WellTyped → (∃ τ, Satisfies τ q.constraints) →
    s.computeTruth q = .mayBeTrue → ¬ q.Valid

theorem AnswersTruth.not_valid (ht : s.AnswersTruth) (hs : s.Sound) (hq : q.WellTyped)
    (hsat : ∃ τ, Satisfies τ q.constraints) (hnone : s.computeTruth q ≠ .none)
    (htrue : s.computeTruth q ≠ .mustBeTrue) : ¬ q.Valid := by
  have hbounds := (hs q hq hsat).resolve_left hnone
  cases hpv : s.computeTruth q with
  | mustBeTrue => exact absurd hpv htrue
  | mustBeFalse =>
    rw [hpv] at hbounds
    exact Query.not_valid_of_refuted hsat hbounds
  | mayBeTrue => exact ht q hq hsat hpv
  | mayBeFalse =>
    rw [hpv] at hbounds
    exact hbounds
  | trueOrFalse =>
    rw [hpv] at hbounds
    exact hbounds.1
  | none => exact absurd hpv hnone

theorem Sound.valid (hs : s.Sound) (hq : q.WellTyped) (hsat : ∃ τ, Satisfies τ q.constraints)
    (h : s.computeTruth q = .mustBeTrue) : q.Valid := by
  have hbounds := hs q hq hsat
  rw [h] at hbounds
  exact hbounds.resolve_left nofun

/-- The answers for a query and its negation are put together right. -/
theorem computeValidity_justified (hs : s.Sound) (ht : s.AnswersTruth) (hq : q.WellTyped)
    (hsat : ∃ τ, Satisfies τ q.constraints) : Justified q (s.computeValidity q) := by
  have hqn := Query.wellTyped_negateExpr hq
  unfold computeValidity
  by_cases htrue : s.computeTruth q = .mustBeTrue
  · rw [if_pos htrue]
    exact .inr (hs.valid hq hsat htrue)
  rw [if_neg htrue]
  dsimp only
  by_cases hfalse : s.computeTruth q.negateExpr = .mustBeTrue
  · rw [if_pos hfalse]
    exact .inr ((Query.valid_negateExpr hq).mp (hs.valid hqn hsat hfalse))
  rw [if_neg hfalse]
  have hvalid (h : s.computeTruth q ≠ .none) : ¬ q.Valid := ht.not_valid hs hq hsat h htrue
  have hrefuted (h : s.computeTruth q.negateExpr ≠ .none) : ¬ q.Refuted := fun hr =>
    ht.not_valid hs hqn hsat h hfalse ((Query.valid_negateExpr hq).mpr hr)
  by_cases hnone : s.computeTruth q = .none <;>
    by_cases hnone' : s.computeTruth q.negateExpr = .none
  · rw [hnone, hnone']
    exact .inl rfl
  · simp only [hnone, bne_self_eq_false, Bool.false_and, Bool.false_eq_true, if_false,
      bne_iff_ne.mpr hnone', if_true]
    exact .inr (hrefuted hnone')
  · simp only [hnone', bne_self_eq_false, Bool.and_false, Bool.false_eq_true, if_false,
      bne_iff_ne.mpr hnone, if_true]
    exact .inr (hvalid hnone)
  · simp only [bne_iff_ne.mpr hnone, bne_iff_ne.mpr hnone', Bool.and_true, if_true]
    exact .inr ⟨hvalid hnone, hrefuted hnone'⟩

end IncompleteSolver

namespace StagedSolverImpl

variable {σ : Type} {I : SolverState σ → Prop} {primary : IncompleteSolver}
variable {secondary : SolverLayer σ} {q : Query} {w : SolverState σ}

/-- `computeValidity` with the answer of any `computeValidity` of the primary solver, which may
override that of `IncompleteSolver`. -/
def validityFrom (secondary : SolverLayer σ) (query : Query) :
    PartialValidity → SolverM σ (Reply Validity)
  | .mustBeTrue => pure ⟨true, some .true⟩
  | .mustBeFalse => pure ⟨true, some .false⟩
  | .trueOrFalse => pure ⟨true, some .unknown⟩
  | .mayBeTrue => do
    let r ← secondary.computeTruth query
    validityOf .true r
  | .mayBeFalse => do
    let r ← secondary.computeTruth query.negateExpr
    validityOf .false r
  | .none => secondary.computeValidity query

theorem computeValidity_eq :
    computeValidity primary secondary q = validityFrom secondary q (primary.computeValidity q) := by
  unfold computeValidity
  cases primary.computeValidity q <;> rfl

/-- A truth query to the secondary solver decides what the primary one has left open. -/
theorem validityFrom_correct (hs : secondary.Correct I) (hq : q.WellTyped)
    (hsat : ∃ τ, Satisfies τ q.constraints) {pv : PartialValidity}
    (hpv : IncompleteSolver.Justified q pv) (hw : I w) :
    ∃ v w', validityFrom secondary q pv w = .ok (⟨true, some v⟩, w') ∧ I w' ∧ v.IsOf q := by
  cases hpv with
  | inl hnone =>
    rw [hnone]
    exact hs.validity q hq hsat w hw
  | inr hbounds => cases pv with
    | mustBeTrue => exact ⟨.true, w, rfl, hw, hbounds⟩
    | mustBeFalse => exact ⟨.false, w, rfl, hw, Query.not_valid_of_refuted hsat hbounds, hbounds⟩
    | trueOrFalse => exact ⟨.unknown, w, rfl, hw, hbounds⟩
    | none => exact hbounds.elim
    | mayBeTrue =>
      obtain ⟨b, w', hrun, hw', hb⟩ := hs.truth q hq hsat w hw
      have hanswer : validityFrom secondary q .mayBeTrue w =
          .ok (⟨true, some (if b then .true else .unknown)⟩, w') := run_bind_of_ok hrun
      refine ⟨_, w', hanswer, hw', ?_⟩
      cases b with
      | true => exact hb.mp rfl
      | false => exact ⟨fun hv => Bool.false_ne_true (hb.mpr hv), hbounds⟩
    | mayBeFalse =>
      obtain ⟨b, w', hrun, hw', hb⟩ :=
        hs.truth q.negateExpr (Query.wellTyped_negateExpr hq) hsat w hw
      rw [Query.valid_negateExpr hq] at hb
      have hanswer : validityFrom secondary q .mayBeFalse w =
          .ok (⟨true, some (if b then .false else .unknown)⟩, w') := run_bind_of_ok hrun
      refine ⟨_, w', hanswer, hw', ?_⟩
      cases b with
      | true => exact ⟨hbounds, hb.mp rfl⟩
      | false => exact ⟨hbounds, fun hr => Bool.false_ne_true (hb.mpr hr)⟩

theorem computeTruth_correct (hp : primary.Sound) (ht : primary.AnswersTruth)
    (hs : secondary.Correct I) (hq : q.WellTyped) (hsat : ∃ τ, Satisfies τ q.constraints)
    (hw : I w) : ∃ b w', computeTruth primary secondary q w = .ok (⟨true, some b⟩, w') ∧ I w' ∧
      (b = true ↔ q.Valid) := by
  by_cases hnone : primary.computeTruth q = .none
  · have hstep : computeTruth primary secondary q = secondary.computeTruth q := by
      unfold computeTruth
      rw [hnone]
    rw [hstep]
    exact hs.truth q hq hsat w hw
  have hstep : computeTruth primary secondary q w =
      .ok (⟨true, some (primary.computeTruth q == .mustBeTrue)⟩, w) := by
    unfold computeTruth
    cases hpv : primary.computeTruth q with
    | none => exact absurd hpv hnone
    | _ => rfl
  refine ⟨_, w, hstep, hw, ?_⟩
  rw [beq_iff_eq]
  constructor
  · exact hp.valid hq hsat
  · exact fun hv => by_contra fun htrue => ht.not_valid hp hq hsat hnone htrue hv

/-- Over a justified primary solver that never answers `MayBeTrue` for the truth of a valid
query, and a correct secondary one, the staged solver is correct. -/
theorem staged_correct (hp : primary.Sound) (ht : primary.AnswersTruth)
    (hs : secondary.Correct I) :
    (layer primary secondary).Correct I ∧
    (∀ q : Query, q.WellTyped → (∃ τ, Satisfies τ q.constraints) →
      IncompleteSolver.Justified q (primary.computeValidity q)) ∧
    ∀ q : Query, q.WellTyped → (∃ τ, Satisfies τ q.constraints) → ∀ pv,
      IncompleteSolver.Justified q pv → ∀ w, I w →
        ∃ v w', validityFrom secondary q pv w = .ok (⟨true, some v⟩, w') ∧ I w' ∧ v.IsOf q := by
  refine ⟨⟨fun q hq hsat w hw => ?_, fun q hq hsat w hw => ?_⟩, fun q hq hsat => ?_,
    fun q hq hsat pv hpv w hw => validityFrom_correct hs hq hsat hpv hw⟩
  · exact computeTruth_correct hp ht hs hq hsat hw
  · have hpv := IncompleteSolver.computeValidity_justified hp ht hq hsat
    have hrun := validityFrom_correct hs hq hsat hpv hw
    rwa [← computeValidity_eq] at hrun
  · exact IncompleteSolver.computeValidity_justified hp ht hq hsat

section SelfComparison

/-- `x[0] <= x[0]` -/
def belowItself : Query :=
  ⟨[], .cmp .ule (.read twoBytes .null (.constant ⟨32, 0#32⟩))
    (.read twoBytes .null (.constant ⟨32, 0#32⟩))⟩

theorem valid_belowItself : belowItself.Valid := by
  intro τ _
  have hrefl {n : Nat} (x : BitVec n) : x.ule x = true := by simp [BitVec.ule]
  exact congrArg BitVec.ofBool (hrefl _)

theorem wellTyped_belowItself : belowItself.WellTyped := by
  refine ⟨fun _ h => (nomatch h), ?_⟩
  simp [belowItself, Expr.IsBool, Expr.WellSorted, UpdateNode.WellSorted, Expr.width]

def knows (pv : PartialValidity) : IncompleteSolver where
  computeTruth q := if q = belowItself then pv else .none
  computeValue _ := none
  computeInitialValues _ _ _ := .error (none, none)

theorem sound_knows (pv : PartialValidity) (hpv : pv.Bounds belowItself) : (knows pv).Sound := by
  intro q _ _
  change IncompleteSolver.Justified q (if q = belowItself then pv else .none)
  by_cases hq : q = belowItself
  · rw [if_pos hq, hq]
    exact .inr hpv
  · rw [if_neg hq]
    exact .inl rfl

noncomputable def idealLayer : SolverLayer Unit where
  computeTruth q := pure (CoreSolver.reply (SolverImpl.ideal.computeTruth q))
  computeValidity q := pure (CoreSolver.reply (SolverImpl.ideal.computeValidity q))
  computeValue _ := pure ⟨false, none⟩
  computeInitialValues _ _ _ := pure ⟨false, none, none⟩

theorem correct_idealLayer : idealLayer.Correct fun _ => True where
  truth q _ _ w _ := by
    obtain ⟨b, hb, hvalid⟩ := SolverImpl.truthCorrect_ideal q
    refine ⟨b, w, ?_, trivial, hvalid⟩
    change (pure (CoreSolver.reply (SolverImpl.ideal.computeTruth q)) : SolverM Unit _) w = _
    rw [hb]
    rfl
  validity q _ _ w _ := by
    have hv := SolverImpl.validityCorrect_ideal q
    unfold SolverImpl.ValidityCorrect at hv
    refine ⟨_, w, rfl, trivial, ?_⟩
    split at hv
    · exact hv.elim
    all_goals
      rename_i hanswer
      obtain hanswer := Option.some.inj hanswer
      rw [hanswer]
      exact hv

theorem staged_correct_belowItself :
    (layer (knows .mustBeTrue) idealLayer).Correct fun _ => True := by
  have hanswers : (knows .mustBeTrue).AnswersTruth := by
    intro q _ _ h
    change (if q = belowItself then PartialValidity.mustBeTrue else .none) = _ at h
    split at h <;> cases h
  have hknows : (knows .mustBeTrue).Sound := sound_knows .mustBeTrue valid_belowItself
  exact (staged_correct hknows hanswers correct_idealLayer).1

/-- `MayBeTrue` is justified for a valid query, and the staged solver takes it for `false`. -/
theorem not_staged_correct : ¬ ∀ (primary : IncompleteSolver) (secondary : SolverLayer Unit),
    primary.Sound → secondary.Correct (fun _ => True) →
      (layer primary secondary).Correct fun _ => True := by
  intro hall
  have hsat : ∃ τ, Satisfies τ belowItself.constraints := ⟨fun _ _ => 0, satisfies_nil _⟩
  have hbounds : ¬ belowItself.Refuted := by
    obtain ⟨τ, hτ⟩ := hsat
    exact fun hr => hr τ hτ (valid_belowItself τ hτ)
  have hknows : (knows .mayBeTrue).Sound := sound_knows .mayBeTrue hbounds
  obtain ⟨b, w', hrun, -, hb⟩ := (hall _ _ hknows correct_idealLayer).truth belowItself
    wellTyped_belowItself hsat (.initial ()) trivial
  have hfalse : computeTruth (knows .mayBeTrue) idealLayer belowItself (.initial ()) =
      .ok (⟨true, some false⟩, .initial ()) := rfl
  cases hfalse.symm.trans hrun
  exact Bool.false_ne_true (hb.mpr valid_belowItself)

end SelfComparison

end StagedSolverImpl

end Klee

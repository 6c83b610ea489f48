import Klee.Solver.CexCachingSound

/-! When `CexCachingSolver::computeTruth` answers. With `-cex-cache-exp` it fails for a query
whose negation is known to be valid. -/
namespace Klee.CexCachingSolver

open Hoare

section Answers

variable [LinearOrder Expr] {σ : Type} {o : Options} {c : CoreSolver σ} {w : SolverState σ}
variable {q : Query}

variable (o c w q)

/-- The switch is on, and the cache or the negated query itself says that nothing satisfies the
query together with its constraints. -/
def KnownRefuted : Prop :=
  o.cexCacheExperimental = true ∧ (lookupAssignment o w.cex q.negateExpr).2 = some none

/-- `computeTruth` asks the solver below. -/
def Asks : Prop := ¬ KnownRefuted o w q ∧ (lookupAssignment o w.cex q).2 = none

def coreAnswer : Option (Option Values) :=
  (c.computeInitialValues q (findSymbolicObjects (lookupAssignment o w.cex q).1) w.core).1

def CoreAnswers : Prop := Asks o w q → coreAnswer o c w q ≠ none

def TruthSucceeds : Prop :=
  ∃ b w', computeTruth o c.layer q w = .ok (⟨true, some b⟩, w') ∧ (b = true ↔ q.Valid)

/-- With `-debug-cex-cache-check-binding`, the key evaluates to true under the assignment that
the solver gives. -/
def BindingChecks : Prop :=
  o.debugCexCacheCheckBinding = true → Asks o w q → ∀ values,
    coreAnswer o c w q = some (some values) →
      (ArrayAssignment.ofObjects (findSymbolicObjects (lookupAssignment o w.cex q).1) values
        false).satisfies (lookupAssignment o w.cex q).1 = true

variable {o c w q}

theorem computeTruth_refuted (h : KnownRefuted o w q) :
    computeTruth o c.layer q w = .ok (⟨false, none⟩, w) := by
  unfold computeTruth
  refine (run_bind_of_ok rfl).trans ?_
  refine congrFun (if_pos ?_) w
  rw [h.1, h.2]
  rfl

theorem computeTruth_of_not (h : ¬ KnownRefuted o w q) :
    computeTruth o c.layer q w = (do
      match ← getAssignment o c.layer q with
      | none => pure ⟨false, none⟩
      | some a => pure ⟨true, some a.isNone⟩ : SolverM σ (Reply Bool)) w := by
  unfold computeTruth
  refine (run_bind_of_ok rfl).trans ?_
  refine congrFun (if_neg fun hknown => ?_) w
  obtain ⟨hexp, hlookup⟩ := Bool.and_eq_true_iff.mp hknown
  refine h ⟨hexp, ?_⟩
  split at hlookup
  · assumption
  · cases hlookup

theorem computeTruth_eq (h : ¬ KnownRefuted o w q) {r : Option (Option ArrayAssignment)}
    {w' : SolverState σ} (hget : getAssignment o c.layer q w = .ok (r, w')) :
    computeTruth o c.layer q w = .ok (⟨r.isSome, r.map Option.isNone⟩, w') := by
  rw [computeTruth_of_not h]
  refine (run_bind_of_ok hget).trans ?_
  cases r <;> rfl

theorem getAssignment_found {r : Option ArrayAssignment}
    (h : (lookupAssignment o w.cex q).2 = some r) :
    getAssignment o c.layer q w = .ok (some r, w) := by
  unfold getAssignment
  refine (run_bind_of_ok rfl).trans ?_
  cases hlookup : lookupAssignment o w.cex q with
  | mk key found =>
    rw [hlookup] at h
    obtain rfl : found = some r := h
    rfl

def askedState (o : Options) (c : CoreSolver σ) (w : SolverState σ) (q : Query) : SolverState σ :=
  CoreSolver.asked
    (c.computeInitialValues q (findSymbolicObjects (lookupAssignment o w.cex q).1)) w

theorem getAssignment_asked (h : (lookupAssignment o w.cex q).2 = none) :
    getAssignment o c.layer q w =
      storeAnswer o (lookupAssignment o w.cex q).1
        (findSymbolicObjects (lookupAssignment o w.cex q).1)
        (CoreSolver.initialValues [] (coreAnswer o c w q)) (askedState o c w q) := by
  unfold getAssignment coreAnswer askedState
  refine (run_bind_of_ok rfl).trans ?_
  cases hlookup : lookupAssignment o w.cex q with
  | mk key found =>
    rw [hlookup] at h
    obtain rfl : found = none := h
    rfl

section Store

variable {key : KeyType} {objects : List Array} {values : Values}

/-- The check of the binding, and then the new entry. -/
theorem storeAnswer_solution :
    storeAnswer o key objects (CoreSolver.initialValues [] (some (some values))) w =
      (do
        assertThat (!o.debugCexCacheCheckBinding ||
          (shared (.ofObjects objects values false) w).satisfies key)
          "Generated assignment doesn't match query"
        modify (remember key (some (shared (.ofObjects objects values false) w)))
        pure (some (some (shared (.ofObjects objects values false) w))) :
          SolverM σ (Option (Option ArrayAssignment)))
        (memoize (.ofObjects objects values false) w) := rfl

theorem storeAnswer_checked (hshared : shared (.ofObjects objects values false) w =
      ArrayAssignment.ofObjects objects values false)
    (h : o.debugCexCacheCheckBinding = true →
      (ArrayAssignment.ofObjects objects values false).satisfies key = true) :
    ∃ w', storeAnswer o key objects (CoreSolver.initialValues [] (some (some values))) w =
      .ok (some (some (.ofObjects objects values false)), w') := by
  rw [storeAnswer_solution, hshared]
  have hcheck : (!o.debugCexCacheCheckBinding ||
      (ArrayAssignment.ofObjects objects values false).satisfies key) = true := by
    cases hdebug : o.debugCexCacheCheckBinding with
    | false => rfl
    | true => exact h hdebug
  rw [hcheck]
  exact ⟨_, rfl⟩

theorem storeAnswer_unchecked (hshared : shared (.ofObjects objects values false) w =
      ArrayAssignment.ofObjects objects values false)
    (hdebug : o.debugCexCacheCheckBinding = true)
    (h : (ArrayAssignment.ofObjects objects values false).satisfies key = false) :
    storeAnswer o key objects (CoreSolver.initialValues [] (some (some values))) w =
      .error (.assertion "Generated assignment doesn't match query") := by
  rw [storeAnswer_solution, hshared, hdebug, h]
  rfl

end Store

theorem shared_askedState (hcex : CacheRight w.cex) (objects : List Array) (values : Values) :
    shared (.ofObjects objects values false) (askedState o c w q) =
      ArrayAssignment.ofObjects objects values false :=
  insertAssignment_fst rfl fun a ha => (hcex.table a ha).notFree

/-- What the call needs is enough. -/
theorem truthSucceeds_of (hc : c.Sound) (hcex : CacheRight w.cex) (hq : q.WellTyped)
    (hknown : ¬ KnownRefuted o w q) (hbinding : BindingChecks o c w q)
    (hanswers : CoreAnswers o c w q) : TruthSucceeds o c w q := by
  have hget : ∃ a w', getAssignment o c.layer q w = .ok (some a, w') := by
    cases hlookup : (lookupAssignment o w.cex q).2 with
    | some a => exact ⟨a, w, getAssignment_found hlookup⟩
    | none =>
      rw [getAssignment_asked hlookup]
      cases hr : coreAnswer o c w q with
      | none => exact absurd hr (hanswers ⟨hknown, hlookup⟩)
      | some found => cases found with
        | none => exact ⟨none, _, rfl⟩
        | some values =>
          obtain ⟨w', hw'⟩ := storeAnswer_checked (shared_askedState hcex _ values)
            fun hdebug => hbinding hdebug ⟨hknown, hlookup⟩ values hr
          exact ⟨_, w', hw'⟩
  obtain ⟨a, w', hget⟩ := hget
  have hrun := computeTruth_eq hknown hget
  -- a successful answer is right
  have hright := wp_ok (wp_computeTruth (E := fun _ => True) hc hcex hq fun _ => trivial) hrun
  obtain ⟨b, hb, hvalid⟩ := hright.2 rfl
  obtain rfl := Option.some.inj hb
  exact ⟨a.isNone, w', hrun, hvalid⟩

/-- The call succeeds with the truth whenever the solver below answers, exactly when the cache
does not refute the query first and the check of the binding passes. -/
theorem truthSucceeds_iff (hc : c.Sound) (hcex : CacheRight w.cex) (hq : q.WellTyped) :
    (CoreAnswers o c w q → TruthSucceeds o c w q) ↔
      ¬ KnownRefuted o w q ∧ BindingChecks o c w q := by
  constructor
  · intro h
    have hknown : ¬ KnownRefuted o w q := by
      intro hknown
      obtain ⟨b, w', hrun, -⟩ := h fun hasks => absurd hknown hasks.1
      cases (computeTruth_refuted hknown).symm.trans hrun
    refine ⟨hknown, fun hdebug hasks values hvalues => ?_⟩
    cases hsat : (ArrayAssignment.ofObjects (findSymbolicObjects (lookupAssignment o w.cex q).1)
        values false).satisfies (lookupAssignment o w.cex q).1 with
    | true => rfl
    | false =>
      obtain ⟨b, w', hrun, -⟩ := h fun _ => by rw [hvalues]; exact nofun
      have hget := getAssignment_asked (o := o) (c := c) hasks.2
      rw [hvalues, storeAnswer_unchecked (shared_askedState hcex _ values) hdebug hsat] at hget
      rw [computeTruth_of_not hknown, run_bind_of_error hget] at hrun
      cases hrun
  · rintro ⟨hknown, hbinding⟩ hanswers
    exact truthSucceeds_of hc hcex hq hknown hbinding hanswers

/-- The states that requests to a new `CexCachingSolver` lead to. -/
def Reached (o : Options) (c : CoreSolver σ) (core : σ) (w : SolverState σ) : Prop :=
  ∃ requests answers, (∀ request ∈ requests, request.WellTyped) ∧
    (layer o c.layer).run requests (.initial core) = .ok (answers, w)

theorem Reached.right {core : σ} (h : Reached o c core w) (hc : c.Sound) : CacheRight w.cex := by
  obtain ⟨requests, answers, hrequests, hrun⟩ := h
  exact (wp_ok (run_right hc cacheRight_empty hrequests) hrun).1

end Answers

section Refuted

/-- `x[0] == 5` and `x[0] == 6` -/
def bothBytes : Expr := .and (byteIs 5 0) (byteIs 6 0)

theorem isBool_bothBytes : bothBytes.IsBool :=
  ⟨⟨(isBool_byteIs 5 0).1, (isBool_byteIs 6 0).1, rfl⟩, rfl⟩

def bothQuery : Query := ⟨[], bothBytes⟩

theorem wellTyped_bothQuery : bothQuery.WellTyped :=
  ⟨fun _ h => (nomatch h), isBool_bothBytes⟩

theorem not_holds_bothBytes (τ : Assignment) : ¬ bothBytes.Holds τ := by
  intro h
  obtain ⟨h5, h6⟩ := Expr.holds_and_iff.mp h
  have hbyte := CachingSolver.holds_byteIs.mp h5
  rw [← CachingSolver.holds_byteIs.mp h6] at hbyte
  exact absurd hbyte (by decide)

/-- A solver that knows that nothing satisfies `bothBytes`. -/
def bothCore : CoreSolver Unit where
  computeTruth _ s := (none, s)
  computeValidity _ s := (none, s)
  computeValue _ s := (none, s)
  computeInitialValues q _ s := (if q = bothQuery.negateExpr then some none else none, s)

theorem sound_bothCore : bothCore.Sound := by
  intro q objects s r _ h
  have hr : (if q = bothQuery.negateExpr then some none else none) = some r := h
  split at hr
  case isTrue hin =>
    obtain rfl := Option.some.inj hr
    refine ⟨fun _ τ hτ => hτ.2 ?_, fun values hvalues => (nomatch hvalues)⟩
    rw [hin]
    exact (TimingSolver.holds_createIsZero isBool_bothBytes).mpr (not_holds_bothBytes τ)
  case isFalse => cases hr

/-- Every switch is at its default, but `-cex-cache-exp` is on. -/
def experimental : Options := ⟨false, false, false, true⟩

noncomputable def refutedState : SolverState Unit :=
  letI := someOrder
  remember [bothBytes] none (askedState experimental bothCore (.initial ()) bothQuery.negateExpr)

theorem reached_refutedState :
    @Reached someOrder Unit experimental bothCore () refutedState := by
  let _ := someOrder
  refine ⟨[.truth bothQuery.negateExpr], [.truth bothQuery.negateExpr ⟨true, some true⟩], ?_, ?_⟩
  · intro request hrequest
    rw [List.mem_singleton.mp hrequest]
    exact Query.wellTyped_negateExpr wellTyped_bothQuery
  · rfl

theorem knownRefuted_both : @KnownRefuted someOrder Unit experimental refutedState bothQuery := by
  let _ := someOrder
  refine ⟨rfl, ?_⟩
  have hlookup : refutedState.cex.cache.lookup [bothBytes] = some none := if_pos rfl
  change searchForAssignment experimental refutedState.cex [bothBytes] = some none
  unfold searchForAssignment
  rw [hlookup]

end Refuted

end Klee.CexCachingSolver

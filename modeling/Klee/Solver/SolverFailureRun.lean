import Klee.Solver.SolverFailure

/-! Runs of a chain of solvers above a core solver that may fail on any query. -/
namespace Klee

open Hoare

variable {σ : Type}

inductive SolverLayer.Reached (s : SolverLayer σ) : SolverState σ → Prop
  | new (core : σ) : Reached s (.initial core)
  | answer {w w' : SolverState σ} {a : Answer} (request : Request) (h : Reached s w)
      (hrun : s.answer request w = .ok (a, w')) : Reached s w'

def Answer.success : Answer → Bool
  | .truth _ r => r.success
  | .validity _ r => r.success
  | .value _ r => r.success
  | .initialValues _ _ r => r.success

section Propagates

variable [LinearOrder Expr] (less : Expr → Expr → Bool)

/-- In every run: the caches hold only what comes from successful calls, no layer reads a
parameter that the layer below has left unset, and an operation in which a core query has failed
reports failure. -/
structure SolverLayer.PropagatesFailures (s : SolverLayer σ) : Prop where
  clean : ∀ w, s.Reached w → Clean less w
  set : ∀ w, s.Reached w → ∀ request, s.answer request w ≠ .error .unset
  failure : ∀ w, s.Reached w → ∀ request a w', s.answer request w = .ok (a, w') →
    w.failures < w'.failures → a.success = false

variable {less} {s : SolverLayer σ} {w : SolverState σ}

theorem clean_initial (core : σ) : Clean less (.initial core) where
  entries set r h := (MapOfSets.not_has_empty set r h).elim
  table a ha := by cases ha
  branch entry h := by cases h

theorem SolverLayer.Honest.answer (hs : s.Honest less) (request : Request) :
    Reports less (s.answer request) Answer.success fun _ => True := by
  cases request with
  | truth q => exact (hs.truth q).map (fun _ h => h) fun _ _ _ => trivial
  | validity q => exact (hs.validity q).map (fun _ h => h) fun _ _ _ => trivial
  | value q => exact (hs.value q).map (fun _ h => h) fun _ _ _ => trivial
  | initialValues q objects =>
    exact (hs.initialValues q objects []).map (fun _ h => h) fun _ _ _ => trivial

theorem SolverLayer.Honest.clean (hs : s.Honest less) (h : s.Reached w) : Clean less w := by
  induction h with
  | new core => exact clean_initial core
  | answer request _ hrun ih => exact (wp_ok (hs.answer request _ ih) hrun).clean

theorem SolverLayer.Honest.propagatesFailures (hs : s.Honest less) :
    s.PropagatesFailures less where
  clean w h := hs.clean h
  set w h request herror := by
    have hwp := hs.answer request w (hs.clean h)
    rw [wp, herror] at hwp
    exact hwp rfl
  failure w h request a w' hrun hlt := by
    have houtcome := wp_ok (hs.answer request w (hs.clean h)) hrun
    apply Bool.eq_false_of_not_eq_true
    intro hsuccess
    have hsame := (houtcome.of_success hsuccess).1
    omega

end Propagates

section Failing

/-- `createDummySolver`: a core solver that fails on every query. -/
def dummySolver : CoreSolver Unit where
  computeTruth _ s := (none, s)
  computeValidity _ s := (none, s)
  computeValue _ s := (none, s)
  computeInitialValues _ _ s := (none, s)

/-- `7 == x[0] * x[1]` -/
def productIsSeven : Expr :=
  .eq (.constant ⟨8, 7⟩) (.mul (.read twoBytes .null (.constant ⟨32, 0⟩))
    (.read twoBytes .null (.constant ⟨32, 1⟩)))

def productQuery : Query := ⟨[productIsSeven], .constant (.alloc 0 1)⟩

def Fails (s : SolverLayer Unit) : Prop := ∃ w',
  s.computeInitialValues productQuery [twoBytes] [] (.initial ()) = .ok (⟨false, none, none⟩, w')

def ReadsUnset (s : SolverLayer Unit) : Prop :=
  s.computeInitialValues productQuery [twoBytes] [] (.initial ()) = .error .unset

variable {s oracle : SolverLayer Unit} {less : Expr → Expr → Bool} {fastCex : IncompleteSolver}

theorem fails_dummySolver : Fails dummySolver.layer := ⟨_, rfl⟩

theorem Fails.logging (h : Fails s) : Fails (QueryLoggingSolver.layer s) := by
  obtain ⟨w', hrun⟩ := h
  exact ⟨_, run_bind_of_ok hrun⟩

/-- The slip: `hasSolution` is looked at before the success of the call. -/
theorem Fails.assignmentValidating (h : Fails s) :
    ReadsUnset (AssignmentValidatingSolver.layer s) := by
  obtain ⟨w', hrun⟩ := h
  exact run_bind_of_ok hrun

theorem ReadsUnset.logging (h : ReadsUnset s) : ReadsUnset (QueryLoggingSolver.layer s) :=
  run_bind_of_error h

theorem ReadsUnset.staged (h : ReadsUnset s)
    (hfast : fastCex.computeInitialValues productQuery [twoBytes] [] = .error (none, none)) :
    ReadsUnset (StagedSolverImpl.layer fastCex s) := by
  simp only [ReadsUnset, StagedSolverImpl.layer, StagedSolverImpl.computeInitialValues, hfast]
  exact run_bind_of_error h

theorem ReadsUnset.observed (h : ReadsUnset s) (record : Answer → SolverState Unit → SolverState Unit) :
    ReadsUnset (s.observed record) := run_bind_of_error h

theorem ReadsUnset.caching (h : ReadsUnset s) : ReadsUnset (CachingSolver.layer less s) := h

theorem ReadsUnset.validating (h : ReadsUnset s) : ReadsUnset (ValidatingSolver.layer s oracle) :=
  run_bind_of_error h

theorem lookupAssignment_new [LinearOrder Expr] (o : CexCachingSolver.Options) :
    CexCachingSolver.lookupAssignment o ⟨.empty, []⟩ productQuery = ([productIsSeven], none) := by
  have hkey : CexCachingSolver.keyOf productQuery.constraints = [productIsSeven] := rfl
  have hsearch : CexCachingSolver.searchForAssignment o ⟨.empty, []⟩ [productIsSeven] = none := by
    obtain ⟨check, tryAll, superSet, experimental⟩ := o
    cases tryAll <;> cases superSet <;> rfl
  have hneg : productQuery.expr.createIsZero = .constant ⟨1, 1⟩ := rfl
  simp only [CexCachingSolver.lookupAssignment, hneg, hkey, hsearch]
  rfl

theorem ReadsUnset.cexCaching [LinearOrder Expr] (h : ReadsUnset s)
    (o : CexCachingSolver.Options) : ReadsUnset (CexCachingSolver.layer o s) := by
  have hget : CexCachingSolver.getAssignment o s productQuery (.initial ()) = .error .unset := by
    have hlookup : CexCachingSolver.lookupAssignment o (SolverState.initial ()).cex productQuery =
        ([productIsSeven], none) := lookupAssignment_new o
    have hobjects : findSymbolicObjects [productIsSeven] = [twoBytes] := by decide
    unfold CexCachingSolver.getAssignment
    have hbegin : (get : SolverM Unit (SolverState Unit)) (.initial ()) =
        .ok (.initial (), .initial ()) := rfl
    rw [run_bind_of_ok hbegin, hlookup]
    apply run_bind_of_error
    rw [hobjects]
    exact h
  exact run_bind_of_error hget

theorem mergeFactors_singleton (f : IndependentElementSet) : mergeFactors [f] = [f] := by
  simp [mergeFactors, mergeRound, absorb]

theorem findReads_productIsSeven : findReads productIsSeven true =
    [⟨⟨twoBytes, .null⟩, .constant ⟨32, 1⟩⟩, ⟨⟨twoBytes, .null⟩, .constant ⟨32, 0⟩⟩] := by
  simp [findReads, findReadsLoop, Expr.isConstant, visitExpr, nextExprs, nextUpdates, asRead,
    Expr.kids, UpdateNode.exprs, productIsSeven]

theorem ReadsUnset.independent (h : ReadsUnset s) : ReadsUnset (IndependentSolver.layer s) := by
  have hfactors : getAllIndependentConstraintsSets productQuery =
      some [IndependentElementSet.ofExpr productIsSeven] :=
    congrArg some (mergeFactors_singleton _)
  have harrays : (IndependentElementSet.ofExpr productIsSeven).arrays = [twoBytes] := by
    rw [IndependentElementSet.ofExpr, findReads_productIsSeven]
    decide
  have hexprs := IndependentElementSet.exprs_ofExpr (e := productIsSeven)
  have hloop : IndependentSolver.layerFactors s [IndependentElementSet.ofExpr productIsSeven]
      (fun _ => none) (.initial ()) = .error .unset := by
    have hassert : assertThat (!(List.isEmpty [productIsSeven])) "No null/empty factors"
        (SolverState.initial ()) = .ok ((), .initial ()) := rfl
    rw [IndependentSolver.layerFactors, hexprs, run_bind_of_ok hassert]
    simp only [harrays, List.isEmpty_cons, Bool.false_eq_true, if_false]
    exact run_bind_of_error h
  simp only [ReadsUnset, IndependentSolver.layer, IndependentSolver.layerInitialValues, hfactors]
  exact run_bind_of_error hloop

/-- A layer that is added above the read of an unset parameter does not hide it. -/
theorem ReadsUnset.addIf (h : ReadsUnset s) {option : Bool}
    {layer : SolverLayer Unit → SolverLayer Unit}
    (hlayer : option = true → ReadsUnset s → ReadsUnset (layer s)) :
    ReadsUnset (s.addIf option layer) := by
  cases option with
  | false => exact h
  | true => exact hlayer rfl h

theorem Fails.addIf (h : Fails s) {option : Bool} {layer : SolverLayer Unit → SolverLayer Unit}
    (hlayer : Fails s → Fails (layer s)) : Fails (s.addIf option layer) := by
  cases option with
  | false => exact h
  | true => exact hlayer h

/-- With the layer that validates assignments, a failed query makes any chain read an unset
parameter, if the incomplete solver leaves the query to the layers below. -/
theorem readsUnset_constructSolverChain [LinearOrder Expr] {o : ChainOptions}
    (ho : o.useAssignmentValidatingSolver = true)
    (hfast : o.useFastCexSolver = true →
      fastCex.computeInitialValues productQuery [twoBytes] [] = .error (none, none)) :
    ReadsUnset (constructSolverChain less fastCex o dummySolver dummySolver) := by
  unfold constructSolverChain
  rw [ho]
  refine ReadsUnset.addIf ?_ fun _ h => h.validating
  refine ReadsUnset.addIf ?_ fun _ h => h.logging
  refine ReadsUnset.addIf ?_ fun _ h => h.logging
  refine ReadsUnset.addIf ?_ fun _ h => h.validating
  refine ReadsUnset.addIf ?_ fun _ h => h.independent
  refine ReadsUnset.addIf ?_ fun _ h => (h.observed recordBranch).caching
  refine ReadsUnset.addIf ?_ fun _ h => (h.observed recordCex).cexCaching o.cex
  refine ReadsUnset.addIf ?_ fun hoption h => h.staged (hfast hoption)
  apply Fails.assignmentValidating
  refine Fails.addIf ?_ fun h => h.logging
  refine Fails.addIf ?_ fun h => h.logging
  exact fails_dummySolver

theorem ReadsUnset.not_propagatesFailures [LinearOrder Expr] (h : ReadsUnset s) :
    ¬ s.PropagatesFailures less := by
  intro hs
  refine hs.set _ (.new ()) (.initialValues productQuery [twoBytes]) ?_
  exact run_map_of_error h

end Failing

section Chain

variable [LinearOrder Expr]

/-- The chains that propagate the failures of every core solver are those without the layer that
validates assignments, which looks at `hasSolution` also after a failed call. The incomplete
solver has no answer for one query, for which the others can be asked. -/
theorem propagatesFailures_iff (less : Expr → Expr → Bool) (fastCex : IncompleteSolver)
    (o : ChainOptions)
    (hfast : o.useFastCexSolver = true →
      fastCex.computeInitialValues productQuery [twoBytes] [] = .error (none, none)) :
    (∀ (σ : Type) (coreSolver oracleSolver : CoreSolver σ),
      (constructSolverChain less fastCex o coreSolver oracleSolver).PropagatesFailures less) ↔
        o.useAssignmentValidatingSolver = false := by
  constructor
  · intro h
    apply Bool.eq_false_of_not_eq_true
    intro ho
    exact (readsUnset_constructSolverChain ho hfast).not_propagatesFailures
      (h Unit dummySolver dummySolver)
  · intro ho σ coreSolver oracleSolver
    exact (honest_constructSolverChain ho coreSolver oracleSolver).propagatesFailures

end Chain

section Instance

def fullOptions : ChainOptions :=
  ⟨true, true, false, true, true, true, true, true, true, true, true, ⟨true, true, true, true⟩⟩

def validatingOptions : ChainOptions :=
  ⟨false, false, true, false, false, false, false, false, false, false, false,
    ⟨false, false, false, false⟩⟩

def noAnswers : IncompleteSolver where
  computeTruth _ := .none
  computeValue _ := none
  computeInitialValues _ _ _ := .error (none, none)

theorem propagatesFailures_full :
    letI := CexCachingSolver.someOrder
    (∀ (σ : Type) (coreSolver oracleSolver : CoreSolver σ),
      (constructSolverChain (fun _ _ => true) noAnswers fullOptions coreSolver
        oracleSolver).PropagatesFailures fun _ _ => true) ↔
          fullOptions.useAssignmentValidatingSolver = false := by
  let _ := CexCachingSolver.someOrder
  exact propagatesFailures_iff _ noAnswers fullOptions fun _ => rfl

/-- `-debug-assignment-validating-solver` above the solver that always fails: the request for
initial values reads `hasSolution`, which nobody has set. -/
theorem not_propagatesFailures_validating :
    letI := CexCachingSolver.someOrder
    ¬ (constructSolverChain (fun _ _ => true) noAnswers validatingOptions dummySolver
      dummySolver).PropagatesFailures fun _ _ => true := by
  let _ := CexCachingSolver.someOrder
  have h : ReadsUnset (constructSolverChain (fun _ _ => true) noAnswers validatingOptions
      dummySolver dummySolver) := fails_dummySolver.assignmentValidating
  exact h.not_propagatesFailures

end Instance

end Klee

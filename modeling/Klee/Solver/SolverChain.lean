import Klee.Solver.CexCachingSolver
import Klee.Solver.IndependentSolver

/-! The layers that `constructSolverChain` puts above a core solver. -/
namespace Klee

variable {σ α : Type}

namespace QueryLoggingSolver

/-- What is printed of a reply: the output parameter of a successful call. -/
def printed (r : Reply α) : SolverM σ (Option α) :=
  if r.success then some <$> readOutput r.result else pure none

def printedValues (r : InitialValues) : SolverM σ (Option (Option Values)) :=
  if r.success then do
    let hasSolution ← readOutput r.hasSolution
    if hasSolution then (fun values => some (some values)) <$> readOutput r.values
    else pure (some none)
  else pure none

def write (entry : LogEntry) (w : SolverState σ) : SolverState σ := { w with log := entry :: w.log }

def layer (s : SolverLayer σ) : SolverLayer σ where
  computeTruth query := do
    let r ← s.computeTruth query
    let isValid ← printed r
    modify (write (.truth query isValid))
    pure r
  computeValidity query := do
    let r ← s.computeValidity query
    let result ← printed r
    modify (write (.validity query result))
    pure r
  computeValue query := do
    let r ← s.computeValue query
    let result ← printed r
    modify (write (.value query result))
    pure r
  computeInitialValues query objects values := do
    let r ← s.computeInitialValues query objects values
    let found ← printedValues r
    modify (write (.initialValues query objects found))
    pure r

end QueryLoggingSolver

namespace AssignmentValidatingSolver

def checkConstraint (assignment : ArrayAssignment) (constraint : Expr) : SolverM σ PUnit :=
  match assignment.evaluate constraint with
  | .constant CE =>
    if CE.isFalse then throw (.assertion "Constraint evaluated to false when using assignment")
    else pure ⟨⟩
  | _ => throw (.assertion "Constraint did not evalaute to a constant:")

def checkQuery (assignment : ArrayAssignment) (query : Expr) : SolverM σ PUnit :=
  match assignment.evaluate query with
  | .constant CE =>
    if CE.isTrue then
      throw (.assertion "Query Expression evaluated to true when using assignment")
    else pure ⟨⟩
  | _ => throw (.assertion "Query expression did not evalaute to a constant:")

/-- What is done with the reply. Its success is only looked at to return it. -/
def validate (query : Query) (objects : List Array) (r : InitialValues) :
    SolverM σ InitialValues := do
  let hasSolution ← readOutput r.hasSolution
  if hasSolution then
    let values ← readOutput r.values
    let assignment := ArrayAssignment.ofObjects objects values true
    query.constraints.forM (checkConstraint assignment)
    checkQuery assignment query.expr
    pure r
  else pure r

def layer (s : SolverLayer σ) : SolverLayer σ where
  computeTruth := s.computeTruth
  computeValidity := s.computeValidity
  computeValue := s.computeValue
  computeInitialValues query objects values := do
    let r ← s.computeInitialValues query objects values
    validate query objects r

end AssignmentValidatingSolver

/-- A solver that answers some queries. On a failed call for initial values it may have set
`hasSolution` and pushed values. -/
structure IncompleteSolver where
  computeTruth : Query → PartialValidity
  computeValue : Query → Option Expr
  computeInitialValues : Query → List Array → Values →
    Except (Option Bool × Option Values) (Option Values)

namespace IncompleteSolver

def computeValidity (s : IncompleteSolver) (query : Query) : PartialValidity :=
  let trueResult := s.computeTruth query
  if trueResult = .mustBeTrue then .mustBeTrue
  else
    let falseResult := s.computeTruth query.negateExpr
    if falseResult = .mustBeTrue then .mustBeFalse
    else
      let trueCorrect := trueResult != .none
      let falseCorrect := falseResult != .none
      if trueCorrect && falseCorrect then .trueOrFalse
      else if trueCorrect then .mayBeFalse
      else if falseCorrect then .mayBeTrue
      else .none

end IncompleteSolver

namespace StagedSolverImpl

variable (primary : IncompleteSolver) (secondary : SolverLayer σ)

def computeTruth (query : Query) : SolverM σ (Reply Bool) :=
  match primary.computeTruth query with
  | .none => secondary.computeTruth query
  | trueResult => pure ⟨true, some (trueResult == .mustBeTrue)⟩

def validityOf (v : Validity) (r : Reply Bool) : SolverM σ (Reply Validity) := do
  if r.success then
    let tmp ← readOutput r.result
    pure ⟨true, some (if tmp then v else .unknown)⟩
  else pure ⟨false, none⟩

def computeValidity (query : Query) : SolverM σ (Reply Validity) :=
  match primary.computeValidity query with
  | .mustBeTrue => pure ⟨true, some .true⟩
  | .mustBeFalse => pure ⟨true, some .false⟩
  | .trueOrFalse => pure ⟨true, some .unknown⟩
  | .mayBeTrue => do
    let r ← secondary.computeTruth query
    validityOf .true r
  | .mayBeFalse => do
    let r ← secondary.computeTruth query.negateExpr
    validityOf .false r
  | .none => secondary.computeValidity query

def computeValue (query : Query) : SolverM σ (Reply Expr) :=
  match primary.computeValue query with
  | some result => pure ⟨true, some result⟩
  | none => secondary.computeValue query

def computeInitialValues (query : Query) (objects : List Array) (values : Values) :
    SolverM σ InitialValues :=
  match primary.computeInitialValues query objects values with
  | .ok none => pure ⟨true, none, some false⟩
  | .ok (some found) => pure ⟨true, some found, some true⟩
  | .error (hasSolution, pushed) => do
    let r ← secondary.computeInitialValues query objects (pushed.getD values)
    pure ⟨r.success, r.values <|> pushed, r.hasSolution <|> hasSolution⟩

def layer : SolverLayer σ where
  computeTruth := computeTruth primary secondary
  computeValidity := computeValidity primary secondary
  computeValue := computeValue primary secondary
  computeInitialValues := computeInitialValues primary secondary

end StagedSolverImpl

namespace CachingSolver

variable (less : Expr → Expr → Bool) (s : SolverLayer σ)

def onCache (x : CacheM α) : SolverM σ α := do
  let w ← get
  match x w.branch with
  | .ok (a, cache) =>
    set { w with branch := cache }
    pure a
  | .error f => throw (.caching f)

/-- The validity from a truth query, which is stored: `yes` if the query is true. -/
def storeTruth (query : Query) (yes : Validity) (r : Reply Bool) : SolverM σ (Reply Validity) := do
  if r.success then
    let tmp ← readOutput r.result
    let result := if tmp then yes else .unknown
    onCache (cacheInsert less query (ofValidity result))
    pure ⟨true, some result⟩
  else pure ⟨false, none⟩

def storeValidity (query : Query) (r : Reply Validity) : SolverM σ (Reply Validity) := do
  if r.success then
    let result ← readOutput r.result
    onCache (cacheInsert less query (ofValidity result))
    pure r
  else pure r

def layerValidity (query : Query) : SolverM σ (Reply Validity) := do
  match ← onCache (cacheLookup less query) with
  | some .mustBeTrue => pure ⟨true, some .true⟩
  | some .mustBeFalse => pure ⟨true, some .false⟩
  | some .trueOrFalse => pure ⟨true, some .unknown⟩
  | some .mayBeTrue =>
    let r ← s.computeTruth query
    storeTruth less query .true r
  | some .mayBeFalse =>
    let r ← s.computeTruth query.negateExpr
    storeTruth less query .false r
  | some .none => throw (.caching .unreachable)
  | none =>
    let r ← s.computeValidity query
    storeValidity less query r

def storeIsValid (query : Query) (cached : Option PartialValidity) (r : Reply Bool) :
    SolverM σ (Reply Bool) := do
  if r.success then
    let isValid ← readOutput r.result
    let result ← onCache (truthResult cached isValid)
    onCache (cacheInsert less query result)
    pure r
  else pure r

def layerTruth (query : Query) : SolverM σ (Reply Bool) := do
  let cached ← onCache (cacheLookup less query)
  if cached ≠ none ∧ cached ≠ some .mayBeTrue then
    pure ⟨true, some (cached == some .mustBeTrue)⟩
  else
    let r ← s.computeTruth query
    storeIsValid less query cached r

def layer : SolverLayer σ where
  computeTruth := layerTruth less s
  computeValidity := layerValidity less s
  computeValue := s.computeValue
  computeInitialValues := s.computeInitialValues

end CachingSolver

namespace IndependentSolver

variable (s : SolverLayer σ)

/-- The bytes of the factor go to `retMap`. -/
def stitchAll (factor : IndependentElementSet) (retMap : RetMap) (tempValues : Values) :
    SolverM σ RetMap := do
  assertThat (tempValues.length == factor.arrays.length)
    "Should be equal number arrays and answers"
  match (factor.arrays.zip tempValues).foldlM (stitch factor) retMap with
  | some retMap => pure retMap
  | none => throw (.assertion "we're talking about the same array here")

/-- The loop over the factors: a reply that ends it, or the values of all factors. -/
def layerFactors : List IndependentElementSet → RetMap → SolverM σ (Except InitialValues RetMap)
  | [], retMap => pure (.ok retMap)
  | factor :: factors, retMap => do
    assertThat (!factor.exprs.isEmpty) "No null/empty factors"
    if factor.arrays.isEmpty then layerFactors factors retMap
    else
      let r ← s.computeInitialValues ⟨factor.exprs, .constant (.alloc 0 1)⟩ factor.arrays []
      if r.success then
        let hasSolution ← readOutput r.hasSolution
        if hasSolution then
          let tempValues ← readOutput r.values
          let retMap ← stitchAll factor retMap tempValues
          layerFactors factors retMap
        else pure (.error ⟨true, some [], some false⟩)
      else pure (.error ⟨false, some [], r.hasSolution <|> some true⟩)

def pointSatisfies (assign : ArrayAssignment) : List Expr → SolverM σ Bool
  | [] => pure true
  | constraint :: constraints =>
    match assign.evaluate constraint with
    | .constant evaluated =>
      if evaluated.isFalse then pure false else pointSatisfies assign constraints
    | _ => throw (.assertion "assignment evaluation did not result in constant")

/-- The bindings of `retMap` come after those of the objects. -/
def createdAssignment (objects : List Array) (values : Values) (arrays : List Array)
    (retMap : RetMap) : ArrayAssignment :=
  ⟨true, (arrays.filterMap fun array => (retMap array).map (array, ·)).foldl
    (fun bindings p => ArrayAssignment.bind p bindings)
    (ArrayAssignment.ofObjects objects values true).bindings⟩

def assertCreatedPointEvaluatesToTrue (assign : ArrayAssignment) (query : Query) :
    SolverM σ Bool := do
  let satisfied ← pointSatisfies assign query.constraints
  if satisfied then
    match assign.evaluate query.expr.createIsZero with
    | .constant q => pure q.isTrue
    | _ => throw (.assertion "assignment evaluation did not result in constant")
  else pure false

def layerInitialValues (query : Query) (objects : List Array) (values : Values) :
    SolverM σ InitialValues := do
  match getAllIndependentConstraintsSets query with
  | none => throw (.assertion "the expr should always be false and therefore not included in factors")
  | some factors =>
    match ← layerFactors s factors fun _ => none with
    | .error r => pure r
    | .ok retMap =>
      let values := values ++
        objects.map fun array => (retMap array).getD (List.replicate array.size 0)
      let satisfied ← assertCreatedPointEvaluatesToTrue
        (createdAssignment objects values (factors.flatMap (·.arrays)) retMap) query
      assertThat satisfied "should satisfy the equation"
      pure ⟨true, some values, some true⟩

def layer : SolverLayer σ where
  computeTruth query := s.computeTruth ⟨getIndependentConstraints query, query.expr⟩
  computeValidity query := s.computeValidity ⟨getIndependentConstraints query, query.expr⟩
  computeValue query := s.computeValue ⟨getIndependentConstraints query, query.expr⟩
  computeInitialValues := layerInitialValues s

end IndependentSolver

namespace ValidatingSolver

variable (s oracle : SolverLayer σ)

def compare [DecidableEq α] (message : String) (r : Reply α) (ask : SolverM σ (Reply α)) :
    SolverM σ (Reply α) := do
  if r.success then
    let answer ← ask
    if answer.success then
      let result ← readOutput r.result
      let answer ← readOutput answer.result
      assertThat (result == answer) message
      pure r
    else pure ⟨false, r.result⟩
  else pure r

def checkTruth (message : String) (expected : Bool) (query : Query) : SolverM σ Bool := do
  let answer ← oracle.computeTruth query
  if answer.success then
    let answer ← readOutput answer.result
    assertThat (answer == expected) message
    pure true
  else pure false

def checkValue (query : Query) (r : Reply Expr) : SolverM σ (Reply Expr) := do
  if r.success then
    let result ← readOutput r.result
    let ok ← checkTruth oracle "invalid solver result (computeValue)" false
      (query.withExpr (NeExpr.create query.expr result))
    pure ⟨ok, r.result⟩
  else pure r

def bindings (objects : List Array) (values : Values) : List Expr :=
  (objects.zip values).flatMap fun p => (List.range p.1.size).map fun j =>
    EqExpr.create (ReadExpr.create ⟨p.1, .null⟩ (.constant (.alloc j p.1.getDomain)))
      (.constant ⟨p.1.getRange, p.2.getD j 0⟩)

def checkInitialValues (query : Query) (objects : List Array) (r : InitialValues) :
    SolverM σ InitialValues := do
  if r.success then
    let hasSolution ← readOutput r.hasSolution
    if hasSolution then
      let values ← readOutput r.values
      let constraints := query.constraints.foldl (fun constraints c => AndExpr.create constraints c)
        query.expr.createIsZero
      let ok ← checkTruth oracle "invalid solver result (computeInitialValues)" true
        ⟨bindings objects values, constraints⟩
      pure { r with success := ok }
    else
      let ok ← checkTruth oracle "invalid solver result (computeInitialValues)" true query
      pure { r with success := ok }
  else pure r

def layer : SolverLayer σ where
  computeTruth query := do
    let r ← s.computeTruth query
    compare "invalid solver result (computeTruth)" r (oracle.computeTruth query)
  computeValidity query := do
    let r ← s.computeValidity query
    compare "invalid solver result (computeValidity)" r (oracle.computeValidity query)
  computeValue query := do
    let r ← s.computeValue query
    checkValue oracle query r
  computeInitialValues query objects values := do
    let r ← s.computeInitialValues query objects values
    checkInitialValues oracle query objects r

end ValidatingSolver

/-- `-use-query-log`, `-debug-assignment-validating-solver`, `-use-fast-cex-solver`,
`-use-cex-cache`, `-use-branch-cache`, `-use-independent-solver`, `-debug-validate-solver` and
`-debug-crosscheck-core-solver` -/
structure ChainOptions where
  solverKQuery : Bool
  solverSmtlib : Bool
  useAssignmentValidatingSolver : Bool
  useFastCexSolver : Bool
  useCexCache : Bool
  useBranchCache : Bool
  useIndependentSolver : Bool
  debugValidateSolver : Bool
  allKQuery : Bool
  allSmtlib : Bool
  debugCrossCheckCoreSolverWith : Bool
  cex : CexCachingSolver.Options

section Chain

-- The order of expressions, which depends on hashes and addresses, and the incomplete solver.
variable [LinearOrder Expr] (less : Expr → Expr → Bool) (fastCex : IncompleteSolver)

def SolverLayer.addIf (s : SolverLayer σ) (option : Bool) (layer : SolverLayer σ → SolverLayer σ) :
    SolverLayer σ := if option then layer s else s

/-- The layers in their order. The replies below the two caches are written to the histories. -/
def constructSolverChain (o : ChainOptions) (coreSolver oracleSolver : CoreSolver σ) :
    SolverLayer σ :=
  coreSolver.layer
    |>.addIf o.solverKQuery QueryLoggingSolver.layer
    |>.addIf o.solverSmtlib QueryLoggingSolver.layer
    |>.addIf o.useAssignmentValidatingSolver AssignmentValidatingSolver.layer
    |>.addIf o.useFastCexSolver (StagedSolverImpl.layer fastCex)
    |>.addIf o.useCexCache (fun s => CexCachingSolver.layer o.cex (s.observed recordCex))
    |>.addIf o.useBranchCache (fun s => CachingSolver.layer less (s.observed recordBranch))
    |>.addIf o.useIndependentSolver IndependentSolver.layer
    |>.addIf o.debugValidateSolver (fun s => ValidatingSolver.layer s coreSolver.layer)
    |>.addIf o.allKQuery QueryLoggingSolver.layer
    |>.addIf o.allSmtlib QueryLoggingSolver.layer
    |>.addIf o.debugCrossCheckCoreSolverWith
      (fun s => ValidatingSolver.layer s oracleSolver.layer)

end Chain

end Klee

import Klee.Solver.CachingSolver
import Klee.Support.MapOfSets
import Klee.Expr.ExprEvaluator

/-! Stacks of solvers. A layer calls the one below it through output parameters; a call that
fails may leave them unset. -/
namespace Klee

open Hoare

inductive SolverFault where
  /-- An output parameter is read that the layer below has left unset. -/
  | unset
  /-- A failed assertion, `abort` or `klee_error`. -/
  | assertion (message : String)
  | caching (fault : CachingSolver.CachingFault)
deriving DecidableEq, Repr

structure Reply (α : Type) where
  success : Bool
  result : Option α
deriving DecidableEq, Repr

abbrev Values := List (List (BitVec 8))

/-- The return value and the output parameters of `computeInitialValues`. -/
structure InitialValues where
  success : Bool
  values : Option Values
  hasSolution : Option Bool
deriving DecidableEq, Repr

inductive Answer where
  | truth (query : Query) (reply : Reply Bool)
  | validity (query : Query) (reply : Reply Validity)
  | value (query : Query) (reply : Reply Expr)
  | initialValues (query : Query) (objects : List Array) (reply : InitialValues)

/-- The members of `CexCachingSolver`. An entry is null for an unsatisfiable set. -/
structure CexCache where
  cache : MapOfSets Expr (Option ArrayAssignment)
  assignmentsTable : List ArrayAssignment

/-- What a logging layer writes about a query; a failed one has no answer. -/
inductive LogEntry where
  | truth (query : Query) (isValid : Option Bool)
  | validity (query : Query) (result : Option Validity)
  | value (query : Query) (result : Option Expr)
  | initialValues (query : Query) (objects : List Array) (values : Option (Option Values))

/-- The state of the core solver and of the layers that have one, and the query logs. The last
three fields are histories: the number of failed core queries, and what the layers below the two
caches have answered. -/
structure SolverState (σ : Type) where
  core : σ
  cex : CexCache
  branch : CachingSolver.Cache
  log : List LogEntry
  failures : Nat
  cexAnswers : List Answer
  branchAnswers : List Answer

def SolverState.initial {σ : Type} (core : σ) : SolverState σ where
  core := core
  cex := ⟨.empty, []⟩
  branch := []
  log := []
  failures := 0
  cexAnswers := []
  branchAnswers := []

abbrev SolverM (σ : Type) := StateT (SolverState σ) (Except SolverFault)

/-- The operations of a `SolverImpl`. `computeInitialValues` gets the vector of values as it is
before the call. -/
structure SolverLayer (σ : Type) where
  computeTruth : Query → SolverM σ (Reply Bool)
  computeValidity : Query → SolverM σ (Reply Validity)
  computeValue : Query → SolverM σ (Reply Expr)
  computeInitialValues : Query → List Array → Values → SolverM σ InitialValues

/-- The solver at the bottom, which may fail on any query and then sets nothing. -/
structure CoreSolver (σ : Type) where
  computeTruth : Query → σ → Option Bool × σ
  computeValidity : Query → σ → Option Validity × σ
  computeValue : Query → σ → Option Expr × σ
  computeInitialValues : Query → List Array → σ → Option (Option Values) × σ

variable {σ α : Type}

def readOutput : Option α → SolverM σ α
  | some a => pure a
  | none => throw .unset

/-- `assert(b && message)` -/
def assertThat (b : Bool) (message : String) : SolverM σ Unit :=
  if b then pure () else throw (.assertion message)

section Rules

@[simp] theorem readOutput_some_bind {β : Type} {a : α} {f : α → SolverM σ β} :
    (readOutput (some a) >>= f) = f a := rfl

variable {Q : α → SolverState σ → Prop} {E : SolverFault → Prop} {w : SolverState σ}

@[simp] theorem wp_readOutput_some {a : α} : wp (readOutput (some a)) Q E w ↔ Q a w := Iff.rfl

@[simp] theorem wp_readOutput_none : wp (readOutput none) Q E w ↔ E .unset := Iff.rfl

theorem wp_assertThat {b : Bool} {message : String} {R : Unit → SolverState σ → Prop}
    (hE : E (.assertion message)) (hR : b = true → R () w) :
    wp (assertThat b message) R E w := by
  cases b with
  | true => exact hR rfl
  | false => exact hE

end Rules

namespace CoreSolver

def ask (query : σ → Option α × σ) : SolverM σ (Option α) := do
  let w ← get
  let r := query w.core
  set { w with core := r.2, failures := if r.1.isSome then w.failures else w.failures + 1 }
  pure r.1

def asked (query : σ → Option α × σ) (w : SolverState σ) : SolverState σ :=
  { w with
    core := (query w.core).2
    failures := if (query w.core).1.isSome then w.failures else w.failures + 1 }

@[simp] theorem wp_ask {query : σ → Option α × σ} {Q : Option α → SolverState σ → Prop}
    {E : SolverFault → Prop} {w : SolverState σ} :
    wp (ask query) Q E w ↔ Q (query w.core).1 (asked query w) := Iff.rfl

def reply (r : Option α) : Reply α := ⟨r.isSome, r⟩

def initialValues (values : Values) : Option (Option Values) → InitialValues
  | none => ⟨false, none, none⟩
  | some none => ⟨true, none, some false⟩
  | some (some found) => ⟨true, some (values ++ found), some true⟩

def layer (c : CoreSolver σ) : SolverLayer σ where
  computeTruth query := do
    let r ← ask (c.computeTruth query)
    pure (reply r)
  computeValidity query := do
    let r ← ask (c.computeValidity query)
    pure (reply r)
  computeValue query := do
    let r ← ask (c.computeValue query)
    pure (reply r)
  computeInitialValues query objects values := do
    let r ← ask (c.computeInitialValues query objects)
    pure (initialValues values r)

end CoreSolver

def SolverLayer.observed (s : SolverLayer σ) (record : Answer → SolverState σ → SolverState σ) :
    SolverLayer σ where
  computeTruth query := do
    let r ← s.computeTruth query
    modify (record (.truth query r))
    pure r
  computeValidity query := do
    let r ← s.computeValidity query
    modify (record (.validity query r))
    pure r
  computeValue query := do
    let r ← s.computeValue query
    modify (record (.value query r))
    pure r
  computeInitialValues query objects values := do
    let r ← s.computeInitialValues query objects values
    modify (record (.initialValues query objects r))
    pure r

section Requests

inductive Request where
  | truth (query : Query)
  | validity (query : Query)
  | value (query : Query)
  | initialValues (query : Query) (objects : List Array)

def SolverLayer.answer (s : SolverLayer σ) : Request → SolverM σ Answer
  | .truth query => .truth query <$> s.computeTruth query
  | .validity query => .validity query <$> s.computeValidity query
  | .value query => .value query <$> s.computeValue query
  | .initialValues query objects =>
    .initialValues query objects <$> s.computeInitialValues query objects []

def SolverLayer.run (s : SolverLayer σ) : List Request → SolverM σ (List Answer)
  | [] => pure []
  | request :: requests => do
    let answer ← s.answer request
    let answers ← s.run requests
    pure (answer :: answers)

end Requests

def recordCex (a : Answer) (w : SolverState σ) : SolverState σ :=
  { w with cexAnswers := a :: w.cexAnswers }

def recordBranch (a : Answer) (w : SolverState σ) : SolverState σ :=
  { w with branchAnswers := a :: w.branchAnswers }

end Klee

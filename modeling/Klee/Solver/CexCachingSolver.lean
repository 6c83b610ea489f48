import Klee.Solver.SolverStack
import Klee.Expr.SymbolicObjects
import Mathlib.Data.List.Sort

/-! `CexCachingSolver`: a cache of counterexamples. An entry for a set of constraints is an
assignment that satisfies them, or null if there is none; it also answers queries for subsets
and supersets of them. -/
namespace Klee

open Hoare

def Expr.isTrue : Expr → Bool
  | .constant c => c.isTrue
  | _ => false

namespace ArrayAssignment

/-- `bindings.insert`: the map is sorted by the addresses of the arrays, and keeps the binding
that it has. -/
def bind (p : Array × List (BitVec 8)) :
    List (Array × List (BitVec 8)) → List (Array × List (BitVec 8))
  | [] => [p]
  | q :: bindings =>
    if p.1 = q.1 then q :: bindings
    else if p.1.id < q.1.id then p :: q :: bindings
    else q :: bind p bindings

/-- `Assignment(objects, values, allowFreeValues)` -/
def ofObjects (objects : List Array) (values : Values) (allowFreeValues : Bool) :
    ArrayAssignment :=
  ⟨allowFreeValues, (objects.zip values).foldl (fun bindings p => bind p bindings) []⟩

def satisfies (a : ArrayAssignment) (es : List Expr) : Bool := es.all fun e => (a.evaluate e).isTrue

def bindingsLess : List (Array × List (BitVec 8)) → List (Array × List (BitVec 8)) → Bool
  | _, [] => false
  | [], _ :: _ => true
  | p :: l, q :: m =>
    if p.1.id ≠ q.1.id then p.1.id < q.1.id
    else if p.2 ≠ q.2 then p.2 < q.2
    else bindingsLess l m

def toAssignment (a : ArrayAssignment) : Assignment := fun array i =>
  match a.bindings.lookup array with
  | some bytes => bytes.getD i 0
  | none => 0

end ArrayAssignment

namespace CexCachingSolver

/-- `-debug-cex-cache-check-binding`, `-cex-cache-try-all`, `-cex-cache-superset` and
`-cex-cache-exp` -/
structure Options where
  debugCexCacheCheckBinding : Bool
  cexCacheTryAll : Bool
  cexCacheSuperSet : Bool
  cexCacheExperimental : Bool

abbrev KeyType := List Expr

-- The order of `Expr::compare`, which depends on hashes and addresses.
variable [LinearOrder Expr]

/-- `std::set::insert` -/
def insertKey (key : KeyType) (e : Expr) : KeyType :=
  if e ∈ key then key else key.orderedInsert (· ≤ ·) e

def keyOf (es : List Expr) : KeyType := es.foldl insertKey []

/-- `assignmentsTable.insert`, with the element that the table has then. -/
def insertAssignment (binding : ArrayAssignment) :
    List ArrayAssignment → ArrayAssignment × List ArrayAssignment
  | [] => (binding, [binding])
  | a :: table =>
    if binding.bindings = a.bindings then (a, a :: table)
    else if ArrayAssignment.bindingsLess binding.bindings a.bindings then
      (binding, binding :: a :: table)
    else
      let r := insertAssignment binding table
      (r.1, a :: r.2)

def nullOrSatisfying (key : KeyType) : Option ArrayAssignment → Bool
  | none => true
  | some a => a.satisfies key

section Lookup

variable (o : Options) (c : CexCache)

/-- The outer `none` is an unsuccessful lookup. -/
def searchForAssignment (key : KeyType) : Option (Option ArrayAssignment) :=
  match c.cache.lookup key with
  | some result => some result
  | none =>
    let superset :=
      if o.cexCacheSuperSet then c.cache.findSuperset Option.isSome key else none
    if o.cexCacheTryAll then
      match superset <|> c.cache.findSubset Option.isNone key with
      | some result => some result
      | none => (c.assignmentsTable.find? (·.satisfies key)).map some
    else superset <|> c.cache.findSubset (nullOrSatisfying key) key

def lookupAssignment (query : Query) : KeyType × Option (Option ArrayAssignment) :=
  let key := keyOf query.constraints
  match query.expr.createIsZero with
  | .constant CE => if CE.isFalse then (key, some none) else (key, searchForAssignment o c key)
  | neg => (insertKey key neg, searchForAssignment o c (insertKey key neg))

end Lookup

variable {σ : Type}

/-- `cache.insert(key, binding)` -/
def remember (key : KeyType) (binding : Option ArrayAssignment) (w : SolverState σ) :
    SolverState σ :=
  { w with cex := { w.cex with cache := w.cex.cache.insert binding key } }

def shared (binding : ArrayAssignment) (w : SolverState σ) : ArrayAssignment :=
  (insertAssignment binding w.cex.assignmentsTable).1

def memoize (binding : ArrayAssignment) (w : SolverState σ) : SolverState σ :=
  { w with
    cex := { w.cex with
      assignmentsTable := (insertAssignment binding w.cex.assignmentsTable).2 } }

variable (o : Options) (s : SolverLayer σ)

/-- `getAssignment` after the call of the solver. -/
def storeAnswer (key : KeyType) (objects : List Array) (r : InitialValues) :
    SolverM σ (Option (Option ArrayAssignment)) := do
  if r.success then
    let hasSolution ← readOutput r.hasSolution
    if hasSolution then
      let values ← readOutput r.values
      let w ← get
      let binding := shared (ArrayAssignment.ofObjects objects values false) w
      set (memoize (ArrayAssignment.ofObjects objects values false) w)
      assertThat (!o.debugCexCacheCheckBinding || binding.satisfies key)
        "Generated assignment doesn't match query"
      modify (remember key (some binding))
      pure (some (some binding))
    else
      modify (remember key none)
      pure (some none)
  else pure none

/-- The outer `none` is a failed call. -/
def getAssignment (query : Query) : SolverM σ (Option (Option ArrayAssignment)) := do
  let w ← get
  match lookupAssignment o w.cex query with
  | (_, some result) => pure (some result)
  | (key, none) =>
    let r ← s.computeInitialValues query (findSymbolicObjects key) []
    storeAnswer o key (findSymbolicObjects key) r

/-- The second half of `computeValidity`: `v` if there is no assignment. -/
def validityOf (v : Validity) : Option (Option ArrayAssignment) → Reply Validity
  | none => ⟨false, none⟩
  | some none => ⟨true, some v⟩
  | some (some _) => ⟨true, some .unknown⟩

def computeValidity (query : Query) : SolverM σ (Reply Validity) := do
  match ← getAssignment o s query.withFalse with
  | none => pure ⟨false, none⟩
  | some none => throw (.assertion "computeValidity() must have assignment")
  | some (some a) =>
    match a.evaluate query.expr with
    | .constant q =>
      if q.isTrue then validityOf .true <$> getAssignment o s query
      else validityOf .false <$> getAssignment o s query.negateExpr
    | _ => throw (.assertion "assignment evaluation did not result in constant")

def computeTruth (query : Query) : SolverM σ (Reply Bool) := do
  let w ← get
  if o.cexCacheExperimental && ((lookupAssignment o w.cex query.negateExpr).2 matches some none) then
    pure ⟨false, none⟩
  else
    match ← getAssignment o s query with
    | none => pure ⟨false, none⟩
    | some a => pure ⟨true, some a.isNone⟩

def computeValue (query : Query) : SolverM σ (Reply Expr) := do
  match ← getAssignment o s query.withFalse with
  | none => pure ⟨false, none⟩
  | some none => throw (.assertion "computeValue() must have assignment")
  | some (some a) =>
    match a.evaluate query.expr with
    | .constant c => pure ⟨true, some (.constant c)⟩
    | _ => throw (.assertion "assignment evaluation did not result in constant")

def valueOf (a : ArrayAssignment) (os : Array) : List (BitVec 8) :=
  (a.bindings.lookup os).getD (List.replicate os.size 0)

def computeInitialValues (query : Query) (objects : List Array) : SolverM σ InitialValues := do
  match ← getAssignment o s query with
  | none => pure ⟨false, none, none⟩
  | some none => pure ⟨true, none, some false⟩
  | some (some a) => pure ⟨true, some (objects.map (valueOf a)), some true⟩

def layer : SolverLayer σ where
  computeTruth := computeTruth o s
  computeValidity := computeValidity o s
  computeValue := computeValue o s
  computeInitialValues query objects _ := computeInitialValues o s query objects

end CexCachingSolver

end Klee

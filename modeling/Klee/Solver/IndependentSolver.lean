import Klee.Solver.IndependentElementSet
import Klee.Solver.Solver

/-! `IndependentSolver`: only the constraints that share bytes with the query matter to it,
and the factors of a query are solved one by one. -/
namespace Klee

open IndependentElementSet

section Factors

/-- The inner loop of `getAllIndependentConstraintsSets`: what intersects `current` is merged
into it, the rest is kept. The flag tells whether a merge changed the elements. -/
def absorb (current : IndependentElementSet) :
    List IndependentElementSet → IndependentElementSet × List IndependentElementSet × Bool
  | [] => (current, [], false)
  | compare :: factors =>
    if current.intersects compare then
      let merged := current.add compare
      let r := absorb merged.1 factors
      (r.1, r.2.1, merged.2 || r.2.2)
    else
      let r := absorb current factors
      (r.1, compare :: r.2.1, r.2.2)

/-- A round that reports a change has merged something. -/
theorem length_absorb (current : IndependentElementSet) (factors : List IndependentElementSet) :
    (absorb current factors).2.1.length ≤ factors.length ∧
      ((absorb current factors).2.2 = true →
        (absorb current factors).2.1.length < factors.length) := by
  induction factors generalizing current with
  | nil => exact ⟨le_rfl, fun h => by cases h⟩
  | cons compare factors ih =>
    unfold absorb
    split
    · obtain ⟨hle, -⟩ := ih (current.add compare).1
      exact ⟨Nat.le_succ_of_le hle, fun _ => Nat.lt_succ_of_le hle⟩
    · obtain ⟨hle, hlt⟩ := ih current
      exact ⟨Nat.succ_le_succ hle, fun h => Nat.succ_lt_succ (hlt h)⟩

/-- One round of the outer loop: every factor in turn absorbs what intersects it. -/
def mergeRound : List IndependentElementSet → List IndependentElementSet × Bool
  | [] => ([], false)
  | current :: factors =>
    let r := absorb current factors
    let done := mergeRound r.2.1
    (r.1 :: done.1, r.2.2 || done.2)
termination_by factors => factors.length
decreasing_by exact Nat.lt_succ_of_le (length_absorb current factors).1

theorem length_mergeRound (factors : List IndependentElementSet) :
    (mergeRound factors).1.length ≤ factors.length ∧
      ((mergeRound factors).2 = true → (mergeRound factors).1.length < factors.length) := by
  induction factors using mergeRound.induct with
  | case1 => exact ⟨by simp [mergeRound], by simp [mergeRound]⟩
  | case2 current factors r ih =>
    obtain ⟨hle, hlt⟩ := length_absorb current factors
    have hrest : (mergeRound (absorb current factors).2.1).1.length ≤
        (absorb current factors).2.1.length ∧ ((mergeRound (absorb current factors).2.1).2 = true →
        (mergeRound (absorb current factors).2.1).1.length <
          (absorb current factors).2.1.length) := ih
    obtain ⟨hle', hlt'⟩ := hrest
    rw [mergeRound]
    simp only [List.length_cons, Bool.or_eq_true]
    refine ⟨by omega, fun h => ?_⟩
    rcases h with h | h
    · have := hlt h
      omega
    · have := hlt' h
      omega

def mergeFactors (factors : List IndependentElementSet) : List IndependentElementSet :=
  if (mergeRound factors).2 = true then mergeFactors (mergeRound factors).1
  else (mergeRound factors).1
termination_by factors.length
decreasing_by exact (length_mergeRound factors).2 ‹_›

/-- `getAllIndependentConstraintsSets`; a constant query must be false. -/
def getAllIndependentConstraintsSets (query : Query) : Option (List IndependentElementSet) :=
  let constraints := query.constraints.map ofExpr
  match query.expr with
  | .constant c => if c.isFalse then some (mergeFactors constraints) else none
  | e => some (mergeFactors (ofExpr e.createIsZero :: constraints))

end Factors

section Closure

/-- The inner loop of `getIndependentConstraints`: the closure, the constraints that are
required, those left for the next round, and whether the closure grew. -/
def closeRound (eltsClosure : IndependentElementSet) :
    List Expr → IndependentElementSet × List Expr × List Expr × Bool
  | [] => (eltsClosure, [], [], false)
  | c :: worklist =>
    if (ofExpr c).intersects eltsClosure then
      let grown := eltsClosure.add (ofExpr c)
      let r := closeRound grown.1 worklist
      (r.1, c :: r.2.1, r.2.2.1, grown.2 || r.2.2.2)
    else
      let r := closeRound eltsClosure worklist
      (r.1, r.2.1, c :: r.2.2.1, r.2.2.2)

theorem length_closeRound (eltsClosure : IndependentElementSet) (worklist : List Expr) :
    (closeRound eltsClosure worklist).2.2.1.length ≤ worklist.length ∧
      ((closeRound eltsClosure worklist).2.2.2 = true →
        (closeRound eltsClosure worklist).2.2.1.length < worklist.length) := by
  induction worklist generalizing eltsClosure with
  | nil => exact ⟨le_rfl, fun h => by cases h⟩
  | cons c worklist ih =>
    unfold closeRound
    split
    · obtain ⟨hle, -⟩ := ih (eltsClosure.add (ofExpr c)).1
      exact ⟨Nat.le_succ_of_le hle, fun _ => Nat.lt_succ_of_le hle⟩
    · obtain ⟨hle, hlt⟩ := ih eltsClosure
      exact ⟨Nat.succ_le_succ hle, fun h => Nat.succ_lt_succ (hlt h)⟩

def closeLoop (eltsClosure : IndependentElementSet) (worklist result : List Expr) : List Expr :=
  let r := closeRound eltsClosure worklist
  if r.2.2.2 = true then closeLoop r.1 r.2.2.1 (result ++ r.2.1) else result ++ r.2.1
termination_by worklist.length
decreasing_by exact (length_closeRound eltsClosure worklist).2 ‹_›

/-- `getIndependentConstraints`: the constraints that the query needs. The set of an
expression in the worklist is computed where it is used. -/
def getIndependentConstraints (query : Query) : List Expr :=
  closeLoop (ofExpr query.expr) query.constraints []

end Closure

namespace IndependentSolver

def computeTruth (solver : SolverImpl) (query : Query) : Option Bool :=
  solver.computeTruth ⟨getIndependentConstraints query, query.expr⟩

def computeValidity (solver : SolverImpl) (query : Query) : Option Validity :=
  solver.computeValidity ⟨getIndependentConstraints query, query.expr⟩

/-- `retMap`: the bytes found so far. -/
abbrev RetMap := Array → Option (List (BitVec 8))

/-- The bytes at the indices are taken from the new answer. An index past the end is the
`none`. -/
def overlay (new : List (BitVec 8)) : List Nat → List (BitVec 8) → Option (List (BitVec 8))
  | [], bytes => some bytes
  | i :: indices, bytes =>
    if i < bytes.length then overlay new indices (bytes.set i (new.getD i 0)) else none

/-- The bytes of one array of the factor: all of them if the array is new, else those at the
indices of the factor. The assertion on the sizes is the `none`. -/
def stitch (factor : IndependentElementSet) (retMap : RetMap) (r : Array × List (BitVec 8)) :
    Option RetMap :=
  match retMap r.1 with
  | none => some (Function.update retMap r.1 (some r.2))
  | some bytes =>
    if bytes.length = r.2.length then
      let indices := (factor.elements.filter fun p => decide (p.1 = r.1)).map (·.2)
      (overlay r.2 indices bytes).map fun bytes => Function.update retMap r.1 (some bytes)
    else none

/-- The loop over the factors. The outer `none` is a failure of the solver or of an
assertion, the inner one a factor without a solution. -/
def solveFactors (solver : SolverImpl) :
    List IndependentElementSet → RetMap → Option (Option RetMap)
  | [], retMap => some (some retMap)
  | factor :: factors, retMap =>
    if factor.exprs = [] then none
    else if factor.arrays = [] then solveFactors solver factors retMap
    else
      match solver.computeInitialValues ⟨factor.exprs, .constant (.alloc 0 1)⟩ factor.arrays with
      | none => none
      | some none => some none
      | some (some tempValues) =>
        if tempValues.length = factor.arrays.length then
          match (factor.arrays.zip tempValues).foldlM (stitch factor) retMap with
          | none => none
          | some retMap => solveFactors solver factors retMap
        else none

/-- `computeInitialValues`, with the final `retMap`, which only the last assertion uses. -/
def computeInitialValues (solver : SolverImpl) (query : Query) (objects : List Array) :
    Option (Option (List (List (BitVec 8)) × RetMap)) :=
  match getAllIndependentConstraintsSets query with
  | none => none
  | some factors =>
    match solveFactors solver factors (fun _ => none) with
    | none => none
    | some none => some none
    | some (some retMap) =>
      some (some (objects.map fun a => (retMap a).getD (List.replicate a.size 0), retMap))

/-- The point that the last assertion evaluates: the bytes of `objects`, then those of
`retMap`; other arrays are free. -/
def createdPoint (objects : List Array) (values : List (List (BitVec 8))) (retMap : RetMap)
    (free : Assignment) : Assignment := fun a i =>
  match (objects.zip values).lookup a with
  | some bytes => bytes.getD i 0
  | none =>
    match retMap a with
    | some bytes => bytes.getD i 0
    | none => free a i

end IndependentSolver

end Klee

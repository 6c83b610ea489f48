import Mathlib
import Klee.Core.IterativeDeepening
import Klee.Core.PTreeHeap
import Klee.Support.DiscretePDF

/-! The searchers that `constructUserSearcher` builds without merging, with what they read and write
of the executor. A failed assertion, an index out of bounds and an access to a state that was
deleted are `none`. -/
namespace Klee

inductive WeightType where
  | depth
  | queryCost
  | instCount
  | cpInstCount
  | minDistToUncovered
  | coveringNew
deriving DecidableEq, Repr

inductive CoreSearchType where
  | dfs
  | bfs
  | randomState
  | randomPath
  | nursCovNew
  | nursMD2U
  | nursDepth
  | nursICnt
  | nursCPICnt
  | nursQC
  | sgs1
  | sgs2
  | sgs4
  | sgs8
  | ml
deriving DecidableEq, Repr

/-- `subpath_ty` -/
abbrev Subpath := List (Nat × Nat)

/-- What a call of a searcher reads of the states, the clock and the generator of random numbers. -/
structure SearchInputs where
  takenBranches : StateId → Subpath
  /-- `getWeight`, as an exact number. -/
  getWeight : WeightType → StateId → ℚ≥0
  /-- What the model makes of the features of a state. -/
  predict : StateId → ℚ
  /-- An index that is chosen by the rewards. -/
  sample : List ℚ → Nat
  sample_lt : ∀ {rewards}, rewards ≠ [] → sample rewards < rewards.length
  getInt32 : Nat → BitVec 32
  wallTime : Point
  instructions : BitVec 64

structure SearchEnv extends SearchInputs where
  states : Finset StateId
  /-- The states that are not deleted. -/
  allocated : Finset StateId
  processTree : PTreeHeap
  featureExtract : Bool

structure SearchData where
  subpathCounts : Nat → Subpath → BitVec 64
  /-- `predicted_reward`, where `predicted` is set. -/
  predictedReward : StateId → Option ℚ
  featureStates : Finset StateId
  /-- The indices of the rows in `features`. -/
  features : StateId → List Nat

namespace SearchEnv

variable (env : SearchEnv)

def access (es : StateId) : Option Unit := guard (es ∈ env.allocated)

def getDoubleL : ℚ := (env.getInt32 0).toNat * (1 / 2 ^ 32)

/-- `getSubpath`: the last branches, at most `2 ^ index`. -/
def getSubpath (es : StateId) (index : Nat) : Option Subpath := do
  env.access es
  let takenBranches := env.takenBranches es
  let length := min (2 ^ index) takenBranches.length
  return takenBranches.drop (takenBranches.length - length)

def incSubpath (data : SearchData) (subpath : Subpath) (index : Nat) : SearchData :=
  let counts := data.subpathCounts index
  let counts := Function.update counts subpath (counts subpath + 1)
  { data with subpathCounts := Function.update data.subpathCounts index counts }

end SearchEnv

inductive CoreSearcher where
  | dfs (states : List StateId)
  | bfs (states : List StateId)
  | random (states : List StateId)
  | weightedRandom (type : WeightType) (states : DiscretePDF StateId ℚ)
  | randomPath
  | subpathGuided (states : List StateId) (index : Nat)
  | ml (states : List StateId) (sampling : Bool)

def getNewSearcher (sampling : Bool) : CoreSearchType → CoreSearcher
  | .dfs => .dfs []
  | .bfs => .bfs []
  | .randomState => .random []
  | .randomPath => .randomPath
  | .nursCovNew => .weightedRandom .coveringNew .new
  | .nursMD2U => .weightedRandom .minDistToUncovered .new
  | .nursDepth => .weightedRandom .depth .new
  | .nursICnt => .weightedRandom .instCount .new
  | .nursCPICnt => .weightedRandom .cpInstCount .new
  | .nursQC => .weightedRandom .queryCost .new
  | .sgs1 => .subpathGuided [] 0
  | .sgs2 => .subpathGuided [] 1
  | .sgs4 => .subpathGuided [] 2
  | .sgs8 => .subpathGuided [] 3
  | .ml => .ml [] sampling

namespace CoreSearcher

variable (env : SearchEnv)

section Update

def eraseState (states : List StateId) (es : StateId) : Option (List StateId) :=
  if es ∈ states then some (states.erase es) else none

/-- An iteration of the loop of `DFSSearcher::update`. -/
def popBack (states : List StateId) (es : StateId) : Option (List StateId) := do
  if es = (← states.getLast?) then some states.dropLast else eraseState states es

/-- An iteration of the loop of `BFSSearcher::update`. -/
def popFront (states : List StateId) (es : StateId) : Option (List StateId) := do
  if es = (← states.head?) then some states.tail else eraseState states es

def moveToBack (current : Option StateId) (addedStates removedStates states : List StateId) :
    Option (List StateId) :=
  match current with
  | none => some states
  | some current =>
    if addedStates ≠ [] ∧ current ∉ removedStates then
      (eraseState states current).map (· ++ [current])
    else some states

/-- An iteration of a loop that keeps the states it has removed, and skips them. -/
def removeOnce {σ : Type*} (remove : σ → StateId → Option σ) (p : σ × List StateId)
    (es : StateId) : Option (σ × List StateId) :=
  if es ∈ p.2 then some p else (remove p.1 es).map fun states => (states, es :: p.2)

/-- `states->update(current, getWeight(current))`, but for `Depth`. -/
def updateWeight (type : WeightType) (current : Option StateId) (removedStates : List StateId)
    (states : DiscretePDF StateId ℚ) : Option (DiscretePDF StateId ℚ) :=
  match current with
  | none => some states
  | some current => do
    if type ≠ .depth ∧ current ∉ removedStates then
      env.access current
      states.update current (env.getWeight type current)
    else some states

def insertWeighted (type : WeightType) (states : DiscretePDF StateId ℚ) (es : StateId) :
    Option (DiscretePDF StateId ℚ) := do
  env.access es
  states.insert es (env.getWeight type es)

def update (current : Option StateId) (addedStates removedStates : List StateId) :
    CoreSearcher → Option CoreSearcher
  | .dfs states => (removedStates.foldlM popBack (states ++ addedStates)).map .dfs
  | .bfs states => do
    let states ← moveToBack current addedStates removedStates states
    (removedStates.foldlM popFront (states ++ addedStates)).map .bfs
  | .random states => (removedStates.foldlM eraseState (states ++ addedStates)).map .random
  | .weightedRandom type states => do
    let states ← updateWeight env type current removedStates states
    let states ← addedStates.foldlM (insertWeighted env type) states
    let (states, _) ← removedStates.foldlM (removeOnce DiscretePDF.remove) (states, [])
    return .weightedRandom type states
  | .randomPath => some .randomPath
  | .subpathGuided states index => do
    let (states, _) ← removedStates.foldlM (removeOnce eraseState) (states ++ addedStates, [])
    return .subpathGuided states index
  | .ml states sampling => do
    let (states, _) ← removedStates.foldlM (removeOnce eraseState) (states ++ addedStates, [])
    return .ml states sampling

def empty : CoreSearcher → Bool
  | .dfs states | .bfs states | .random states | .subpathGuided states _ | .ml states _ =>
    states.isEmpty
  | .weightedRandom _ states => states.empty
  | .randomPath => env.states = ∅

end Update

section Select

/-- The loop of `SubpathGuidedSearcher::selectState`: `minCount` and `selectSet`. -/
def leastTaken (data : SearchData) (index : Nat) :
    BitVec 64 × List StateId → List StateId → Option (BitVec 64 × List StateId)
  | p, [] => some p
  | (minCount, selectSet), es :: states => do
    let curr := data.subpathCounts index (← env.getSubpath es index)
    let (minCount, selectSet) := if curr < minCount then (curr, []) else (minCount, selectSet)
    leastTaken data index
      (minCount, if curr = minCount then selectSet ++ [es] else selectSet) states

def predictRewards (data : SearchData) (states : List StateId) : SearchData :=
  { data with predictedReward := fun es =>
      if es ∈ states ∧ data.predictedReward es = none then some (env.predict es)
      else data.predictedReward es }

def greatestReward (data : SearchData) :
    Option (StateId × ℚ) → List StateId → Option (Option (StateId × ℚ))
  | best, [] => some best
  | best, es :: states => do
    let reward ← data.predictedReward es
    match best with
    | none => greatestReward data (some (es, reward)) states
    | some (_, currentMax) =>
      greatestReward data (if currentMax < reward then some (es, reward) else best) states

/-- `selection->predicted_reward = 0.0; selection->predicted = false` -/
def forget (data : SearchData) (es : StateId) : SearchData :=
  { data with predictedReward := Function.update data.predictedReward es none }

def selectState (data : SearchData) : CoreSearcher → Option (StateId × SearchData)
  | .dfs states => states.getLast?.map fun es => (es, data)
  | .bfs states => states.head?.map fun es => (es, data)
  | .random states => states[(env.getInt32 0).toNat % states.length]?.map fun es => (es, data)
  | .weightedRandom _ states => (states.choose env.getDoubleL).map fun es => (es, data)
  | .randomPath =>
    (env.processTree.selectState env.getInt32 env.processTree.next).map fun es => (es, data)
  | .subpathGuided states index => do
    let (_, selectSet) ← leastTaken env data index (BitVec.allOnes 64, []) states
    let selection ← selectSet[(env.getInt32 0).toNat % selectSet.length]?
    if env.featureExtract then return (selection, data)
    else return (selection, SearchEnv.incSubpath data (← env.getSubpath selection index) index)
  | .ml states sampling => do
    states.forM env.access
    let data := predictRewards env data states
    if sampling then
      let rewards ← states.mapM data.predictedReward
      let selection ← states[env.sample rewards]?
      return (selection, forget data selection)
    else
      let (selection, _) ← ← greatestReward data none states
      return (selection, forget data selection)

end Select

end CoreSearcher

inductive SearcherChain where
  | core (searcher : CoreSearcher)
  | interleaved (searchers : List CoreSearcher) (index : Nat)
  | getFeatures (baseSearcher : SearcherChain) (featureIndex : Nat)
  | branching (baseSearcher : SearcherChain) (lastState : Option StateId)
  | batching (baseSearcher : SearcherChain) (timeBudget : Span) (instructionBudget : BitVec 32)
    (lastState : Option StateId) (lastStartTime : Point) (lastStartInstructions : BitVec 32)

namespace SearcherChain

variable (env : SearchEnv)

section Update

def update (current : Option StateId) (addedStates removedStates : List StateId) :
    SearcherChain → Option SearcherChain
  | .core searcher => (searcher.update env current addedStates removedStates).map .core
  | .interleaved searchers index => do
    let searchers ← searchers.mapM (·.update env current addedStates removedStates)
    return .interleaved searchers index
  | .getFeatures b featureIndex => do
    return .getFeatures (← update current addedStates removedStates b) featureIndex
  | .branching b lastState => do
    let lastState := if (∃ es ∈ lastState, es ∈ removedStates) then none else lastState
    let lastState := if current.isSome ∧ addedStates ≠ [] then none else lastState
    return .branching (← update current addedStates removedStates b) lastState
  | .batching b timeBudget instructionBudget lastState lastStartTime lastStartInstructions => do
    let lastState := if (∃ es ∈ lastState, es ∈ removedStates) then none else lastState
    return .batching (← update current addedStates removedStates b) timeBudget instructionBudget
      lastState lastStartTime lastStartInstructions

def empty : SearcherChain → Option Bool
  | .core searcher => searcher.empty env
  | .interleaved searchers _ => searchers.head?.map (·.empty env)
  | .getFeatures b _ | .branching b _ | .batching b .. => empty b

end Update

section Select

/-- `addFeatures`: a row for the state. -/
def addRow (data : SearchData) (es : StateId) (featureIndex : Nat) : SearchData :=
  { data with features := Function.update data.features es (data.features es ++ [featureIndex]) }

/-- `BatchingSearcher` has no `addFeatures` of its own. -/
def addFeatures (data : SearchData) (es : StateId) : SearcherChain → SearcherChain × SearchData
  | .getFeatures b featureIndex => (.getFeatures b (featureIndex + 1), addRow data es featureIndex)
  | .branching b lastState =>
    let (b, data) := addFeatures data es b
    (.branching b lastState, data)
  | s => (s, data)

/-- The states of `featureStates` get new features, and are to be predicted again. -/
def refreshFeatures (data : SearchData) : Option SearchData := do
  guard (data.featureStates ⊆ env.allocated)
  return { data with
    predictedReward := fun es => if es ∈ data.featureStates then none else data.predictedReward es
    featureStates := ∅ }

def countSubpaths (es : StateId) (data : SearchData) : Option SearchData :=
  [0, 1, 2, 3].foldlM (fun data index => do
    return SearchEnv.incSubpath data (← env.getSubpath es index) index) data

/-- The time budget grows to what the last state took, where that was a tenth more. -/
def increaseBudget (scale : Span → Span) (timeBudget delta : Span) : Span :=
  if (scale timeBudget).slt delta then delta else timeBudget

variable (scale : Span → Span)

/-- `scale` is the multiplication with 1.1. -/
def selectState (data : SearchData) :
    SearcherChain → Option (StateId × SearcherChain × SearchData)
  | .core searcher => do
    let (es, data) ← searcher.selectState env data
    return (es, .core searcher, data)
  | .interleaved searchers index => do
    let searcher ← searchers[index - 1]?
    let (es, data) ← searcher.selectState env data
    return (es, .interleaved searchers (if index - 1 = 0 then searchers.length else index - 1), data)
  | .getFeatures b featureIndex => do
    let data ← refreshFeatures env data
    let (es, b, data) ← selectState data b
    let data := addRow data es featureIndex
    let data ← countSubpaths env es data
    return (es, .getFeatures b (featureIndex + 1), data)
  | .branching b lastState =>
    match lastState with
    | some es => some (es, .branching b lastState, data)
    | none => do
      let (es, b, data) ← selectState data b
      env.access es
      return (es, .branching b (some es), data)
  | .batching b timeBudget instructionBudget lastState lastStartTime lastStartInstructions =>
    let delta := env.wallTime - lastStartTime
    let ran := env.instructions - lastStartInstructions.setWidth 64
    if lastState = none ∨ ((0 : Span).slt timeBudget ∧ timeBudget.slt delta) ∨
        (0 < instructionBudget ∧ instructionBudget.setWidth 64 < ran) then do
      let timeBudget :=
        if lastState.isSome then increaseBudget scale timeBudget delta else timeBudget
      let (es, b, data) ← selectState data b
      return (es, .batching b timeBudget instructionBudget (some es) env.wallTime
        (env.instructions.setWidth 32), data)
    else do
      return (← lastState, .batching b timeBudget instructionBudget lastState lastStartTime
        lastStartInstructions, data)

end Select

end SearcherChain

/-- What `constructUserSearcher` returns. -/
inductive UserSearcher where
  | chain (searcher : SearcherChain)
  | iterativeDeepening (searcher : IterativeDeepeningTimeSearcher StateId SearcherChain)

/-- The options of `constructUserSearcher`. -/
structure SearchOptions where
  coreSearch : List CoreSearchType
  featureExtract : Bool
  useBranchingSearch : Bool
  useBatchingSearch : Bool
  batchTime : Span
  batchInstructions : BitVec 32
  useIterativeDeepeningTimeSearch : Bool
  sampling : Bool
  coreSearch_ne_nil : coreSearch ≠ []

/-- The subpath-guided searchers and the learned one are kept until a branch. -/
def CoreSearchType.branches : CoreSearchType → Bool
  | .sgs1 | .sgs2 | .sgs4 | .sgs8 | .ml => true
  | _ => false

def SearchOptions.coreSearcher (opts : SearchOptions) : SearcherChain :=
  if 1 < opts.coreSearch.length then
    .interleaved (opts.coreSearch.map (getNewSearcher opts.sampling)) 1
  else .core (getNewSearcher opts.sampling (opts.coreSearch.head opts.coreSearch_ne_nil))

def SearchOptions.baseSearcher (opts : SearchOptions) : SearcherChain :=
  let searcher := opts.coreSearcher
  let searcher := if opts.featureExtract then .getFeatures searcher 0 else searcher
  let searcher :=
    if opts.useBranchingSearch ∨ (opts.coreSearch.head opts.coreSearch_ne_nil).branches then
      .branching searcher none
    else searcher
  if opts.useBatchingSearch then
    .batching searcher opts.batchTime opts.batchInstructions none 0 0
  else searcher

/-- `constructUserSearcher`, without `--use-merge`. -/
def constructUserSearcher (opts : SearchOptions) : UserSearcher :=
  if opts.useIterativeDeepeningTimeSearch then
    .iterativeDeepening (.ofBase opts.baseSearcher)
  else .chain opts.baseSearcher

namespace UserSearcher

variable (env : SearchEnv)

section Update

def pause (s : IterativeDeepeningTimeSearcher StateId SearcherChain) (current : Option StateId)
    (removedStates : List StateId) (elapsed : Span) :
    Option (IterativeDeepeningTimeSearcher StateId SearcherChain) :=
  match current with
  | none => some s
  | some current =>
    if current ∉ removedStates ∧ s.time.slt elapsed then do
      let b ← s.baseSearcher.update env none [] [current]
      return { s with baseSearcher := b, pausedStates := insert current s.pausedStates }
    else some s

def refill (s : IterativeDeepeningTimeSearcher StateId SearcherChain) :
    Option (IterativeDeepeningTimeSearcher StateId SearcherChain) := do
  if ← s.baseSearcher.empty env then
    let b ← s.baseSearcher.update env none (s.pausedStates.sort (· ≤ ·)) []
    return { s with baseSearcher := b, time := s.time * 2, pausedStates := ∅ }
  else return s

def update (current : Option StateId) (addedStates removedStates : List StateId) :
    UserSearcher → Option UserSearcher
  | .chain searcher => (searcher.update env current addedStates removedStates).map .chain
  | .iterativeDeepening s => do
    let elapsed := env.wallTime - s.startTime
    let (pausedStates, alt) :=
      removedStates.foldl IterativeDeepeningTimeSearcher.erasePaused (s.pausedStates, removedStates)
    let b ← s.baseSearcher.update env current addedStates alt
    let s ← pause env { s with baseSearcher := b, pausedStates } current removedStates elapsed
    return .iterativeDeepening (← refill env s)

end Update

def selectState (scale : Span → Span) (data : SearchData) :
    UserSearcher → Option (StateId × UserSearcher × SearchData)
  | .chain searcher => do
    let (es, searcher, data) ← searcher.selectState env scale data
    return (es, .chain searcher, data)
  | .iterativeDeepening s => do
    let (es, b, data) ← s.baseSearcher.selectState env scale data
    return (es, .iterativeDeepening { s with baseSearcher := b, startTime := env.wallTime }, data)

/-- `IterativeDeepeningTimeSearcher` has no `addFeatures` of its own. -/
def addFeatures (data : SearchData) (es : StateId) : UserSearcher → UserSearcher × SearchData
  | .chain searcher =>
    let (searcher, data) := searcher.addFeatures data es
    (.chain searcher, data)
  | s => (s, data)

end UserSearcher

end Klee

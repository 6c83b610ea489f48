import Klee.Core.Executor

/-! `Executor::fork` and `Executor::branch`. -/
namespace Klee

inductive PathFile where
  | path
  | symPath
deriving DecidableEq, Repr

namespace PathFile

variable {M : Type}

/-- `pathWriter` and `symPathWriter` -/
def writer (ex : Executor M) : PathFile → Option TreeStreamWriter
  | path => ex.pathWriter
  | symPath => ex.symPathWriter

def setWriter (ex : Executor M) (w : Option TreeStreamWriter) : PathFile → Executor M
  | path => { ex with pathWriter := w }
  | symPath => { ex with symPathWriter := w }

/-- `pathOS` and `symPathOS` -/
def stream (s : ExecutionState M) : PathFile → BitVec 32
  | path => s.pathOS
  | symPath => s.symPathOS

def setStream (s : ExecutionState M) (id : BitVec 32) : PathFile → ExecutionState M
  | path => { s with pathOS := id }
  | symPath => { s with symPathOS := id }

end PathFile

namespace Executor

variable {M : Type} (o : ExecutorOptions)

/-- `'1'` and `'0'` -/
def sideByte (side : Bool) : UInt8 := if side then 49 else 48

/-- The index of a side in `takenBranches`. -/
def sideIndex (side : Bool) : Nat := if side then 1 else 0

def ofSide (side : Bool) : Validity := if side then .true else .false

section Fork

/-- The value that replaces the condition at an instruction over a static limit. -/
def concretizeCondition (current : StateId) (condition : Expr) : ExecutorM M Expr := do
  let isSeeding := ((← get).seedMap current).isSome
  if ¬ isSeeding ∧ ¬ condition.isConstant ∧ o.maxStaticPct then
    let s ← readState current
    let value ← orThrow .solverFailure (o.solver.getValue s.constraints condition)
    addConstraint o current (EqExpr.create (.constant value) condition)
    pure (.constant value)
  else pure condition

def skipsFork (ex : Executor M) (s : ExecutionState M) : Bool :=
  o.maxMemoryInhibit && o.atMemoryLimit || s.forkDisabled || o.inhibitForking ||
    o.maxForks.any (· ≤ ex.forks)

def follow (current : StateId) (condition : Expr) (side : Bool) : ExecutorM M Validity := do
  addConstraint o current (if side then condition else condition.createIsZero)
  pure (ofSide side)

def replayBranch (current : StateId) (condition : Expr) (path : List Bool) (res : Validity) :
    ExecutorM M Validity := do
  let ex ← get
  match path[ex.replayPosition]? with
  | none => throw .replay
  | some side =>
    set { ex with replayPosition := ex.replayPosition + 1 }
    match res with
    | .true => if side then pure .true else throw .replay
    | .false => if side then throw .replay else pure .false
    | .unknown => follow o current condition side

def fixUnseeded (current : StateId) (condition : Expr) (isInternal : Bool) (res : Validity) :
    ExecutorM M Validity :=
  match o.replayPath, isInternal with
  | some path, false => replayBranch o current condition path res
  | _, _ =>
    if res = .unknown then
      if o.replayKTest then throw .replay
      else do
        let s ← readState current
        if skipsFork o (← get) s then
          let side ← getBool
          follow o current condition side
        else pure res
    else pure res

/-- Whether some seed takes the true and the false side; the loop ends with both. -/
def seedSides (cs : List Expr) (condition : Expr) : List SeedInfo → Bool → Bool →
    ExecutorM M (Bool × Bool)
  | [], trueSeed, falseSeed => pure (trueSeed, falseSeed)
  | seed :: rest, trueSeed, falseSeed => do
    let side ← seedTakes o cs condition seed
    let trueSeed := trueSeed || side
    let falseSeed := falseSeed || !side
    if trueSeed && falseSeed then pure (trueSeed, falseSeed)
    else seedSides cs condition rest trueSeed falseSeed

def fixSeeded (current : StateId) (condition : Expr) (seeds : List SeedInfo) (res : Validity) :
    ExecutorM M Validity := do
  let s ← readState current
  if (s.forkDisabled || o.onlyReplaySeeds) && res = .unknown then
    let (trueSeed, falseSeed) ← seedSides o s.constraints condition seeds false false
    if trueSeed && falseSeed then pure res
    else if trueSeed || falseSeed then follow o current condition trueSeed
    else throw .noSeed
  else pure res

/-- `pathOS << "1"` and `pathOS << "0"`, if the file is written. -/
def writePath (file : PathFile) (state : StateId) (side : Bool) : ExecutorM M Unit := do
  let ex ← get
  match file.writer ex with
  | none => pure ()
  | some w =>
    let s ← readState state
    set (file.setWriter ex (some (w.write (file.stream s) [sideByte side])))

def takeSide (current : StateId) (isInternal side : Bool) : ExecutorM M Unit := do
  if isInternal then pure () else writePath .path current side
  let s ← readState current
  pushTaken current s.prevPC (sideIndex side)
  insertFeatureState o current

def partitionSeeds (cs : List Expr) (condition : Expr) : List SeedInfo →
    ExecutorM M (List SeedInfo × List SeedInfo)
  | [] => pure ([], [])
  | seed :: rest => do
    let side ← seedTakes o cs condition seed
    let (trueSeeds, falseSeeds) ← partitionSeeds cs condition rest
    pure (if side then (seed :: trueSeeds, falseSeeds) else (trueSeeds, seed :: falseSeeds))

/-- An entry of `seedMap`, which is erased when it is empty. -/
def seedEntry (seeds : List SeedInfo) : Option (List SeedInfo) :=
  if seeds = [] then none else some seeds

/-- The seeds are distributed; without a seed on its side the old state hands over its
coverage. -/
def splitSeeds (trueState falseState : StateId) (condition : Expr) : ExecutorM M Unit := do
  match (← get).seedMap trueState with
  | none => pure ()
  | some seeds =>
    let s ← readState trueState
    let (trueSeeds, falseSeeds) ← partitionSeeds o s.constraints condition seeds
    modify fun ex => { ex with
      seedMap := Function.update (Function.update ex.seedMap trueState (seedEntry trueSeeds))
        falseState (seedEntry falseSeeds) }
    if trueSeeds = [] then
      let f ← readState falseState
      modifyState trueState fun s =>
        { s with coveredNew := f.coveredNew, coveredLines := f.coveredLines }
      modifyState falseState fun f =>
        { f with coveredNew := s.coveredNew, coveredLines := s.coveredLines }
    else pure ()

def splitPath (file : PathFile) (trueState falseState : StateId) (isInternal : Bool) :
    ExecutorM M Unit := do
  let ex ← get
  match file.writer ex with
  | none => pure ()
  | some w =>
    let s ← readState trueState
    let (w, id) := w.openFrom (file.stream s)
    set (file.setWriter ex (some w))
    modifyState falseState fun f => file.setStream f id
    if isInternal then pure ()
    else do
      writePath file trueState true
      writePath file falseState false

def splitState (current : StateId) (condition : Expr) (isInternal : Bool) :
    ExecutorM M (Option StateId × Option StateId) := do
  modify fun ex => { ex with forks := ex.forks + 1 }
  let falseState ← branchState current
  modify fun ex => { ex with addedStates := ex.addedStates ++ [falseState] }
  splitSeeds o current falseState condition
  attach current falseState current
  let s ← readState current
  pushTaken falseState s.prevPC (sideIndex false)
  pushTaken current s.prevPC (sideIndex true)
  insertFeatureState o falseState
  insertFeatureState o current
  splitPath .path current falseState isInternal
  splitPath .symPath current falseState isInternal
  addConstraint o current condition
  addConstraint o falseState condition.createIsZero
  let s ← readState current
  if o.maxDepth ≠ 0 ∧ o.maxDepth ≤ s.depth then
    terminateStateEarly o current
    terminateStateEarly o falseState
    pure (none, none)
  else pure (some current, some falseState)

/-- The last part of `fork`, from the validity on. -/
def finishFork (current : StateId) (condition : Expr) (isInternal : Bool) (res : Validity) :
    ExecutorM M (Option StateId × Option StateId) :=
  match res with
  | .true => do
    takeSide o current isInternal true
    pure (some current, none)
  | .false => do
    takeSide o current isInternal false
    pure (none, some current)
  | .unknown => splitState o current condition isInternal

def fork (current : StateId) (condition : Expr) (isInternal : Bool) :
    ExecutorM M (Option StateId × Option StateId) := do
  let condition ← concretizeCondition o current condition
  let s ← readState current
  match o.solver.evaluate s.constraints condition with
  | none =>
    modifyState current fun s => { s with pc := s.prevPC }
    terminateStateEarly o current
    pure (none, none)
  | some res =>
    let res ← match (← get).seedMap current with
      | none => fixUnseeded o current condition isInternal res
      | some seeds => fixSeeded o current condition seeds res
    finishFork o current condition isInternal res

end Fork

section Branch

/-- The loop of `branch` that copies states, with `n` rounds to go. -/
def branchCopies (inst : Nat) : Nat → List StateId → ExecutorM M (List StateId)
  | 0, result => pure result
  | n + 1, result => do
    let k ← getInt32
    let es ← orThrow .noState result[k.toNat % result.length]?
    let ns ← branchState es
    modify fun ex => { ex with addedStates := ex.addedStates ++ [ns] }
    attach es ns es
    pushTaken ns inst result.length
    insertFeatureState o ns
    branchCopies inst n (result ++ [ns])

/-- The states of a branch on `n` conditions. -/
def branchStates (state : StateId) (n : Nat) : ExecutorM M (List (Option StateId)) := do
  if o.maxForks.any (· ≤ (← get).forks) then
    let next := (← getInt32).toNat % n
    pure ((List.range n).map fun i => if i = next then some state else none)
  else
    modify fun ex => { ex with forks := ex.forks + (n - 1) }
    let s ← readState state
    pushTaken state s.prevPC 0
    insertFeatureState o state
    let result ← branchCopies o s.prevPC (n - 1) [state]
    pure (result.map some)

def firstTaken (cs : List Expr) (seed : SeedInfo) : List Expr → ExecutorM M Nat
  | [] => pure 0
  | condition :: rest => do
    if ← seedTakes o cs condition seed then pure 0
    else
      let i ← firstTaken cs seed rest
      pure (i + 1)

/-- Give a seed to the state whose condition it meets, or to a random one. -/
def giveSeed (cs : List Expr) (conditions : List Expr) (result : List (Option StateId))
    (seed : SeedInfo) : ExecutorM M Unit := do
  let i ← firstTaken o cs seed conditions
  let i ← if i = conditions.length then do
      let k ← getInt32
      pure (k.toNat % conditions.length)
    else pure i
  match result[i]? with
  | some (some st) => modify fun ex => { ex with
      seedMap := Function.update ex.seedMap st (some ((ex.seedMap st).getD [] ++ [seed])) }
  | _ => pure ()

def killUnseeded (st : Option StateId) : ExecutorM M (Option StateId) := do
  match st with
  | none => pure none
  | some st =>
    if ((← get).seedMap st).isNone then
      terminateState o st .discarded
      pure none
    else pure (some st)

def branchSeeds (state : StateId) (conditions : List Expr) (result : List (Option StateId)) :
    ExecutorM M (List (Option StateId)) := do
  match (← get).seedMap state with
  | none => pure result
  | some seeds =>
    modify fun ex => { ex with seedMap := Function.update ex.seedMap state none }
    let s ← readState state
    seeds.forM (giveSeed o s.constraints conditions result)
    if o.onlyReplaySeeds then result.mapM (killUnseeded o) else pure result

def branch (state : StateId) (conditions : List Expr) : ExecutorM M (List (Option StateId)) := do
  if conditions = [] then throw .noCondition
  else
    let result ← branchStates o state conditions.length
    let result ← branchSeeds o state conditions result
    (result.zip conditions).forM fun (st, condition) =>
      match st with
      | some st => addConstraint o st condition
      | none => pure ()
    pure result

end Branch

end Executor

end Klee

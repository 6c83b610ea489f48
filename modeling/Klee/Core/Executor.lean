import Klee.Core.PTree
import Klee.Expr.ExprEvaluator
import Klee.Expr.FindReads
import Klee.Lib.Hoare
import Klee.Solver.TimingSolver
import Klee.Support.TreeStream

/-! The executor as far as `fork`, `branch` and the termination of states use it. Everything
that a state copies and that they never look into (its stack, its memory, ..) is the
parameter `M`. -/
namespace Klee

/-- `SeedInfo`; `fork` reads only its assignment. -/
structure SeedInfo where
  assignment : ArrayAssignment

structure ExecutionState (M : Type) where
  id : BitVec 32
  /-- `pc->info->id` -/
  pc : Nat
  /-- `prevPC->info->id` -/
  prevPC : Nat
  memory : M
  constraints : List Expr
  depth : Nat
  /-- The identifiers of the streams. -/
  pathOS : BitVec 32
  symPathOS : BitVec 32
  coveredNew : Bool
  coveredLines : List (Nat × Nat)
  forkDisabled : Bool
  takenBranches : List (Nat × Nat)

inductive TerminateReason where
  /-- `terminateStateEarly` -/
  | early
  /-- `terminateStateOnError` with `Ptr` -/
  | ptr
  /-- `terminateStateOnError` with `ReadOnly` -/
  | readOnly
  /-- `terminateStateOnExecError` -/
  | exec
  /-- `terminateStateOnError` with `User` -/
  | user
  /-- `terminateState` alone -/
  | discarded
deriving DecidableEq, Repr

inductive ExecutorFault where
  /-- "attempt to add invalid constraint" -/
  | invalidConstraint
  /-- The assertion of `addConstraintInternal`. -/
  | unsatisfiable
  /-- "FIXME: Unhandled solver failure" -/
  | solverFailure
  /-- "seed patching failed", or no byte of the seed to patch -/
  | seedPatching
  /-- Neither a true nor a false seed. -/
  | noSeed
  /-- The assertions of the replay modes. -/
  | replay
  /-- No conditions to branch on. -/
  | noCondition
  /-- A state that is not allocated or has no node in the process tree. -/
  | noState
deriving DecidableEq, Repr

structure ExecutorOptions where
  solver : TimingSolver
  /-- `-rewrite-equalities` -/
  rewriteEqualities : Bool
  /-- `-max-forks`, `none` for its default `~0u` -/
  maxForks : Option Nat
  /-- `-max-depth` -/
  maxDepth : Nat
  onlyReplaySeeds : Bool
  featureExtract : Bool
  maxMemoryInhibit : Bool
  atMemoryLimit : Bool
  inhibitForking : Bool
  /-- A bound of `-max-static-*-pct` is exceeded at the current instruction. -/
  maxStaticPct : Bool
  replayPath : Option (List Bool)
  replayKTest : Bool

/-- The members of the executor that change. `heap` holds the allocated states by their
address, and `explored` what the interpreter handler is told about terminated states. -/
structure Executor (M : Type) where
  heap : StateId → Option (ExecutionState M)
  /-- The address that the next `new` returns. -/
  nextState : StateId
  /-- `ExecutionState::nextID` -/
  nextID : BitVec 32
  states : List StateId
  addedStates : List StateId
  removedStates : List StateId
  seedMap : StateId → Option (List SeedInfo)
  processTree : PTree
  featureStates : List StateId
  /-- `stats::forks` -/
  forks : Nat
  pathWriter : Option TreeStreamWriter
  symPathWriter : Option TreeStreamWriter
  replayPosition : Nat
  /-- The numbers that `getInt32` returns from now on. -/
  theRNG : Nat → BitVec 32
  explored : List (StateId × ExecutionState M × TerminateReason)

abbrev ExecutorM (M : Type) := StateT (Executor M) (Except ExecutorFault)

namespace Executor

variable {M : Type}

/-- The executor when `run` starts: one state, at the address 0, and the two path files. -/
def initial (s : ExecutionState M) (pathWriter symPathWriter : Option TreeStreamWriter) :
    Executor M where
  heap := Function.update (fun _ => none) 0 (some s)
  nextState := 1
  nextID := s.id + 1
  states := [0]
  addedStates := []
  removedStates := []
  seedMap _ := none
  processTree := .leaf 0
  featureStates := []
  forks := 0
  pathWriter := pathWriter
  symPathWriter := symPathWriter
  replayPosition := 0
  theRNG _ := 0
  explored := []

section State

def readState (state : StateId) : ExecutorM M (ExecutionState M) := do
  match (← get).heap state with
  | some s => pure s
  | none => throw .noState

def modifyState (state : StateId) (f : ExecutionState M → ExecutionState M) :
    ExecutorM M Unit := do
  let s ← readState state
  modify fun ex => { ex with heap := Function.update ex.heap state (some (f s)) }

def orThrow {α : Type} (f : ExecutorFault) : Option α → ExecutorM M α
  | some a => pure a
  | none => throw f

def getInt32 : ExecutorM M (BitVec 32) := do
  let ex ← get
  set { ex with theRNG := fun n => ex.theRNG (n + 1) }
  pure (ex.theRNG 0)

def getBool : ExecutorM M Bool := do
  let n ← getInt32
  let bits := n ^^^ n >>> 16
  let bits := bits ^^^ bits >>> 8
  let bits := bits ^^^ bits >>> 4
  let bits := bits ^^^ bits >>> 2
  let bits := bits ^^^ bits >>> 1
  pure (bits.getLsbD 0)

def insertFeatureState (o : ExecutorOptions) (state : StateId) : ExecutorM M Unit :=
  if o.featureExtract then modify fun ex =>
    { ex with featureStates := ex.featureStates.insert state }
  else pure ()

/-- `takenBranches.push_back` -/
def pushTaken (state : StateId) (inst index : Nat) : ExecutorM M Unit :=
  modifyState state fun s => { s with takenBranches := s.takenBranches ++ [(inst, index)] }

end State

section Copy

/-- `ExecutionState::branch`: the copy is returned. Weights are left out. -/
def branchState (state : StateId) : ExecutorM M StateId := do
  modifyState state fun s => { s with depth := s.depth + 1 }
  let s ← readState state
  let ex ← get
  let copy := { s with id := ex.nextID, coveredNew := false, coveredLines := [] }
  set { ex with
    heap := Function.update ex.heap ex.nextState (some copy)
    nextState := ex.nextState + 1
    nextID := ex.nextID + 1 }
  pure ex.nextState

/-- `processTree->attach` -/
def attach (node left right : StateId) : ExecutorM M Unit := do
  let ex ← get
  match ex.processTree.attach node left right with
  | some t => set { ex with processTree := t }
  | none => throw .noState

/-- `processTree->remove` -/
def removeNode (state : StateId) : ExecutorM M Unit := do
  let ex ← get
  match ex.processTree.remove state with
  | some t => set { ex with processTree := t }
  | none => throw .noState

end Copy

section Terminate

variable (o : ExecutorOptions)

/-- `terminateState`, with the reason that its caller gave. -/
def terminateState (state : StateId) (reason : TerminateReason) : ExecutorM M Unit := do
  let s ← readState state
  modify fun ex => { ex with
    explored := ex.explored ++ [(state, s, reason)]
    featureStates := if o.featureExtract then ex.featureStates.erase state
      else ex.featureStates }
  let ex ← get
  if state ∈ ex.addedStates then
    -- never reached searcher, just delete immediately
    set { ex with
      seedMap := Function.update ex.seedMap state none
      addedStates := ex.addedStates.erase state }
    removeNode state
    modify fun ex => { ex with heap := Function.update ex.heap state none }
  else
    modifyState state fun s => { s with pc := s.prevPC }
    modify fun ex => { ex with removedStates := ex.removedStates ++ [state] }

def terminateStateEarly (state : StateId) : ExecutorM M Unit := terminateState o state .early

def terminateStateOnError (state : StateId) (reason : TerminateReason) : ExecutorM M Unit :=
  terminateState o state reason

def terminateStateOnExecError (state : StateId) : ExecutorM M Unit :=
  terminateStateOnError o state .exec

end Terminate

section Seeds

variable (o : ExecutorOptions)

def addConstraintTo (cs : List Expr) (e : Expr) : ExecutorM M (List Expr) :=
  orThrow .unsatisfiable (ConstraintManager.addConstraint o.rewriteEqualities cs e)

/-- The byte of `array` at `index` in the seed. -/
def seedByte (seed : SeedInfo) (array : Array) (index : Nat) : Option (BitVec 8) := do
  let bytes ← seed.assignment.bindings.lookup array
  bytes[index]?

/-- `bindings[array][index] = byte` -/
def setSeedByte (seed : SeedInfo) (array : Array) (index : Nat) (byte : BitVec 8) : SeedInfo :=
  ⟨{ seed.assignment with bindings := seed.assignment.bindings.map fun b =>
    if b.1 = array then (b.1, b.2.set index byte) else b }⟩

/-- One byte of the loops of `patchSeed`, with the constraints of `tmp`. -/
def patchByte (array : Array) (index : Nat) (seed : SeedInfo) (tmp : List Expr) :
    ExecutorM M (SeedInfo × List Expr) := do
  let read := ReadExpr.create ⟨array, .null⟩ (.constant (.alloc index 32))
  let byte ← orThrow .seedPatching (seedByte seed array index)
  let isSeed := EqExpr.create read (.constant ⟨8, byte⟩)
  if ← orThrow .solverFailure (o.solver.mustBeFalse tmp isSeed) then
    let value ← orThrow .solverFailure (o.solver.getValue tmp read)
    let byte := value.value.setWidth 8
    let tmp ← addConstraintTo o tmp (EqExpr.create read (.constant ⟨8, byte⟩))
    pure (setSeedByte seed array index byte, tmp)
  else
    let tmp ← addConstraintTo o tmp isSeed
    pure (seed, tmp)

/-- The reads of the condition at constant indices, in the order of a set of pairs. -/
def directReads (condition : Expr) : List (Array × Nat) :=
  let reads := (findReads condition false).filterMap fun re =>
    match re.index with
    | .constant c => some (re.updates.root, c.value.toNat)
    | _ => none
  reads.dedup.mergeSort fun p q => p.1.id < q.1.id || p.1.id == q.1.id && p.2 ≤ q.2

/-- `SeedInfo::patchSeed` in a state with the constraints `cs`. The state `tmp` takes an
identifier of its own. -/
def patchSeed (cs : List Expr) (condition : Expr) (seed : SeedInfo) : ExecutorM M SeedInfo := do
  modify fun ex => { ex with nextID := ex.nextID + 1 }
  let tmp ← addConstraintTo o cs condition
  let (seed, tmp) ← (directReads condition).foldlM (fun (seed, tmp) (array, index) =>
    if (seed.assignment.bindings.lookup array).isSome then patchByte o array index seed tmp
    else pure (seed, tmp)) (seed, tmp)
  if ← orThrow .solverFailure (o.solver.mayBeTrue cs (seed.assignment.evaluate condition)) then
    pure seed
  else
    let (seed, _) ← seed.assignment.bindings.foldlM (fun (seed, tmp) (array, _) =>
      (List.range array.size).foldlM (fun (seed, tmp) index =>
        patchByte o array index seed tmp) (seed, tmp)) (seed, tmp)
    if ← orThrow .solverFailure (o.solver.mayBeTrue cs (seed.assignment.evaluate condition)) then
      pure seed
    else throw .seedPatching

/-- The seed in `addConstraint`: patched if the condition violates it. -/
def checkSeed (cs : List Expr) (condition : Expr) (seed : SeedInfo) : ExecutorM M SeedInfo := do
  if ← orThrow .solverFailure (o.solver.mustBeFalse cs (seed.assignment.evaluate condition)) then
    patchSeed o cs condition seed
  else pure seed

/-- `Executor::addConstraint`. Implied value concretization is never enabled. -/
def addConstraint (state : StateId) (condition : Expr) : ExecutorM M Unit :=
  match condition with
  | .constant c => if c.isTrue then pure () else throw .invalidConstraint
  | condition => do
    let s ← readState state
    match (← get).seedMap state with
    | some seeds =>
      let seeds ← seeds.mapM (checkSeed o s.constraints condition)
      modify fun ex => { ex with seedMap := Function.update ex.seedMap state (some seeds) }
    | none => pure ()
    let cs ← addConstraintTo o s.constraints condition
    modifyState state fun s => { s with constraints := cs }

/-- The value of a condition under a seed, as far as the seed and the constraints fix it. -/
def seedTakes (cs : List Expr) (condition : Expr) (seed : SeedInfo) : ExecutorM M Bool := do
  let res ← orThrow .solverFailure (o.solver.getValue cs (seed.assignment.evaluate condition))
  pure res.isTrue

end Seeds

end Executor

end Klee

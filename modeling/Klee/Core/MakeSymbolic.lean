import Klee.Core.Fork
import Klee.Core.Resolve

/-! `handleMakeSymbolic`: every object that a pointer can be the base of gets a symbolic array, in
a state of its own. -/
namespace Klee

/-- What `klee_make_symbolic` uses of the memory of a state. -/
structure SymbolicMemory where
  objects : MemoryMap
  arrayNames : Finset String
  symbolics : List (MemoryObject × Array)

/-- `objects.replace` for any object -/
def MemoryMap.bindObject (objects : MemoryMap) (mo : MemoryObject) (os : ObjectState) : MemoryMap :=
  objects.filter (fun p => p.1.address < mo.address) ++ (mo, os) ::
    objects.filter fun p => mo.address < p.1.address

namespace Executor

/-- The switches that `executeMakeSymbolic` reads, and what it asks others for. -/
structure MakeSymbolicContext where
  /-- `optimizer.optimizeExpr` -/
  optimizeExpr : Expr → Bool → Expr
  /-- The identity of the array that `CreateArray` has for a name and a size. -/
  arrayId : String → Nat → Nat
  /-- What `getNextInput` returns for the seed at a position of the seeds of a state. -/
  getNextInput : StateId → Nat → MemoryObject → Option (List (BitVec 8))
  allowSeedExtension : Bool
  zeroSeedExtension : Bool
  allowSeedTruncation : Bool
  /-- The objects of `replayKTest`. -/
  replayObjects : List (List (BitVec 8))

variable (c : MakeSymbolicContext) (o : ExecutorOptions)

section Names

def nameCandidate (name : String) (id : Nat) : String :=
  if id = 0 then name else name ++ "_" ++ toString id

/-- The first name that the state does not have yet. One more is tried than there are names. -/
def uniqueName (names : Finset String) (name : String) : String :=
  nameCandidate name <| ((List.range (names.card + 1)).find? fun id =>
    nameCandidate name id ∉ names).getD 0

def createArray (uniqueName : String) (mo : MemoryObject) : Array where
  id := c.arrayId uniqueName mo.size
  name := uniqueName
  size := mo.size % 2 ^ 32
  constantValues := []
  size_lt := Nat.mod_lt _ (by decide)
  size_eq := .inl rfl

end Names

section Seeds

/-- `si.assignment.bindings[array]` -/
def bindSeed (array : Array) (values : List (BitVec 8)) (seed : SeedInfo) : SeedInfo :=
  ⟨{ seed.assignment with
    bindings := (array, values) :: seed.assignment.bindings.filter fun b => b.1 ≠ array }⟩

/-- The values of an array in a seed, with the next input of that. There are none if the seed
ends or has the wrong size, and the options do not allow that. -/
def seedValues (mo : MemoryObject) (array : Array) (seed : SeedInfo) :
    Option (List (BitVec 8)) → Option SeedInfo
  | none =>
    if c.zeroSeedExtension then some (bindSeed array (List.replicate mo.size 0) seed)
    else if c.allowSeedExtension then some seed
    else none
  | some bytes =>
    if bytes.length ≠ mo.size ∧
        (¬ (c.allowSeedExtension ∨ c.zeroSeedExtension) ∧ bytes.length < mo.size ∨
          ¬ c.allowSeedTruncation ∧ mo.size < bytes.length) then none
    else
      let old := (seed.assignment.bindings.lookup array).getD []
      let zeros := if c.zeroSeedExtension then List.replicate (mo.size - bytes.length) 0 else []
      some (bindSeed array (bytes.take (min bytes.length mo.size) ++ old ++ zeros) seed)

/-- The loop over the seeds of a state from the position `i` on; it is left when a seed has no
values. -/
def bindSeeds (state : StateId) (mo : MemoryObject) (array : Array) (i : Nat) :
    List SeedInfo → List SeedInfo × Bool
  | [] => ([], true)
  | seed :: rest =>
    match seedValues c mo array seed (c.getNextInput state i mo) with
    | none => (seed :: rest, false)
    | some seed =>
      let (rest, complete) := bindSeeds state mo array (i + 1) rest
      (seed :: rest, complete)

end Seeds

section MakeSymbolic

def replayed (mo : MemoryObject) (bytes : List (BitVec 8)) : ObjectState :=
  { ObjectState.ofMemoryObject (mo.size % 2 ^ 32) (Nat.mod_lt _ (by decide)) with
    concreteStore := fun i => if i < mo.size then bytes.getD i 0 else 0 }

def withSymbolic (m : SymbolicMemory) (mo : MemoryObject) (name : String) : SymbolicMemory where
  objects := m.objects.bindObject mo (ObjectState.ofArray (mo.size % 2 ^ 32)
    (Nat.mod_lt _ (by decide)) (createArray c (uniqueName m.arrayNames name) mo))
  arrayNames := insert (uniqueName m.arrayNames name) m.arrayNames
  symbolics := m.symbolics ++ [(mo, createArray c (uniqueName m.arrayNames name) mo)]

def bindReplayed (mo : MemoryObject) (os : ObjectState) (state : StateId) :
    ExecutorM SymbolicMemory Unit :=
  modifyState state fun s => { s with
    memory := { s.memory with objects := s.memory.objects.bindObject mo os } }

def executeMakeSymbolic (state : StateId) (mo : MemoryObject) (name : String) :
    ExecutorM SymbolicMemory Unit := do
  if o.replayKTest then
    bindReplayed mo (replayed mo []) state
    let ex ← get
    match c.replayObjects[ex.replayPosition]? with
    | none => terminateStateOnError o state .user
    | some bytes => do
      set { ex with replayPosition := ex.replayPosition + 1 }
      if bytes.length ≠ mo.size then terminateStateOnError o state .user
      else bindReplayed mo (replayed mo bytes) state
  else do
    let s ← readState state
    modifyState state fun s => { s with memory := withSymbolic c s.memory mo name }
    let array := createArray c (uniqueName s.memory.arrayNames name) mo
    match (← get).seedMap state with
    | none => pure ()
    | some seeds => do
      let (seeds, complete) := bindSeeds c state mo array 0 seeds
      modify fun ex => { ex with seedMap := Function.update ex.seedMap state (some seeds) }
      if complete then pure () else terminateStateOnError o state .user

end MakeSymbolic

section Resolution

/-- The forks on the objects of the resolution, with the state that is left. -/
def forkExact (p : Expr) : List ObjectPair → StateId →
    ExecutorM SymbolicMemory (List (ObjectPair × StateId) × Option StateId)
  | [], unbound => pure ([], some unbound)
  | op :: rl, unbound => do
    let branches ← fork o unbound (EqExpr.create p op.1.getBaseExpr) true
    let found := branches.1.toList.map fun st => (op, st)
    match branches.2 with
    | none => pure (found, none)
    | some unbound => do
      let (results, unbound) ← forkExact p rl unbound
      pure (found ++ results, unbound)

def resolveExact (state : StateId) (p : Expr) :
    ExecutorM SymbolicMemory (List (ObjectPair × StateId)) := do
  let p := c.optimizeExpr p true
  let s ← readState state
  let (_, rl) := MemoryMap.resolve o.solver s.constraints p 0 (fun _ => false) s.memory.objects
  let (results, unbound) ← forkExact o p rl state
  match unbound with
  | some unbound => do
    terminateStateOnError o unbound .ptr
    pure results
  | none => pure results

end Resolution

section Handler

variable (size : Expr) (name : String)

def makeEntry (mo : MemoryObject) (s : StateId) : ExecutorM SymbolicMemory Unit := do
  let st ← readState s
  let isSize := EqExpr.create (ZExtExpr.create size 64) mo.getSizeExpr
  let res ← orThrow .solverFailure (o.solver.mustBeTrue st.constraints isSize)
  if res then executeMakeSymbolic c o s mo name else terminateStateOnError o s .user

/-- The loop over the resolution list. At a read-only object the handler returns. -/
def makeEntries : List (ObjectPair × StateId) → ExecutorM SymbolicMemory Unit
  | [] => pure ()
  | ((mo, old), s) :: rest =>
    if old.readOnly then terminateStateOnError o s .user
    else do
      makeEntry c o size name mo s
      makeEntries rest

def handleMakeSymbolic (state : StateId) (pointer : Expr) : ExecutorM SymbolicMemory Unit := do
  let rl ← resolveExact c o state pointer
  makeEntries c o size name rl

end Handler

end Executor

end Klee

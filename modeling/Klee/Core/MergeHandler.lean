import Klee.Core.PTree
import Klee.Lib.Hoare

/-! `klee_open_merge` and `klee_close_merge`: the merge handlers, the merging searcher over a
base searcher, and what the executor does to the merge stacks of its states. -/
namespace Klee.Merging

abbrev HandlerId := Nat

/-- A `MergeHandler`. Its means and counts are left out: they decide only which states
`getPrioritizeState` takes. -/
structure MergeHandler where
  openStates : List StateId
  /-- Ordered by the close points. -/
  reachedCloseMerge : List (Nat × List StateId)
  refCount : Nat

/-- `MergingSearcher`; `base` are the states that the base searcher holds. -/
structure MergingSearcher where
  pausedStates : List StateId
  inCloseMerge : Finset StateId
  mergeGroups : List HandlerId
  base : List StateId

/-- The states of the executor. A stack has its last element on top; `nextState` and
`nextHandler` have not been allocated yet. -/
structure MergeExecutor where
  states : List StateId
  addedStates : List StateId
  removedStates : List StateId
  openMergeStack : StateId → List HandlerId
  nextState : StateId
  nextHandler : HandlerId

structure MergeState where
  executor : MergeExecutor
  searcher : MergingSearcher
  handlers : HandlerId → Option MergeHandler

inductive MergeFault where
  /-- The assertion of `removeOpenState`. -/
  | notOpen
  /-- The assertion of `pauseState`. -/
  | paused
  /-- The assertion of `continueState`. -/
  | notPaused
  /-- "All MergeHandlers should be registered in mergeGroups" -/
  | notRegistered
  /-- "State cannot run into close_merge while being closed" -/
  | inCloseMerge
  /-- "base searcher is empty" -/
  | emptyBase
  /-- "invalid state removed" of the base searcher -/
  | invalidRemoved
  | noHandler
  /-- No fault of the code: an operation that the instruction cannot do. -/
  | notRunning
deriving DecidableEq, Repr

abbrev MergeM := StateT MergeState (Except MergeFault)

/-- `std::swap(*it, back()); pop_back()` -/
def swapPop {α : Type} [DecidableEq α] (l : List α) (x : α) : List α :=
  match l.getLast? with
  | none => []
  | some y => (l.set (l.idxOf x) y).dropLast

section Searcher

def modifySearcher (f : MergingSearcher → MergingSearcher) : MergeM Unit :=
  modify fun s => { s with searcher := f s.searcher }

def pauseState (es : StateId) : MergeM Unit := do
  let s ← get
  if es ∈ s.searcher.pausedStates then throw .paused
  else if es ∈ s.searcher.base then
    modifySearcher fun q => { q with
      pausedStates := q.pausedStates ++ [es]
      base := q.base.erase es }
  else throw .invalidRemoved

def continueState (es : StateId) : MergeM Unit := do
  let s ← get
  if es ∈ s.searcher.pausedStates then
    modifySearcher fun q => { q with
      pausedStates := q.pausedStates.erase es
      base := q.base ++ [es] }
  else throw .notPaused

def insertClosing (es : StateId) : MergeM Unit :=
  modifySearcher fun q => { q with inCloseMerge := insert es q.inCloseMerge }

def eraseClosing (es : StateId) : MergeM Unit :=
  modifySearcher fun q => { q with inCloseMerge := q.inCloseMerge.erase es }

def removeFromBase (es : StateId) : MergeM Unit := do
  let s ← get
  if es ∈ s.searcher.base then modifySearcher fun q => { q with base := q.base.erase es }
  else throw .invalidRemoved

def update (current : StateId) (addedStates removedStates : List StateId) : MergeM Unit := do
  let s ← get
  if current ∈ s.searcher.pausedStates then pure ()
  else do
    modifySearcher fun q => { q with base := q.base ++ addedStates }
    removedStates.forM removeFromBase

end Searcher

section Handler

def readHandler (h : HandlerId) : MergeM MergeHandler := do
  let s ← get
  match s.handlers h with
  | some m => pure m
  | none => throw .noHandler

def setHandler (h : HandlerId) (m : Option MergeHandler) : MergeM Unit :=
  modify fun s => { s with handlers := Function.update s.handlers h m }

def modifyHandler (h : HandlerId) (f : MergeHandler → MergeHandler) : MergeM Unit := do
  let m ← readHandler h
  setHandler h (some (f m))

def addOpenState (h : HandlerId) (es : StateId) : MergeM Unit :=
  modifyHandler h fun m => { m with openStates := m.openStates ++ [es] }

def removeOpenState (h : HandlerId) (es : StateId) : MergeM Unit := do
  let m ← readHandler h
  if es ∈ m.openStates then
    setHandler h (some { m with openStates := swapPop m.openStates es })
  else throw .notOpen

/-- The states that a handler has paused, in the order of the two loops over them. -/
def MergeHandler.closedStates (m : MergeHandler) : List StateId :=
  m.reachedCloseMerge.flatMap (·.2)

/-- One round of the loops of `releaseStates`. -/
def releaseState (es : StateId) : MergeM Unit := do
  continueState es
  eraseClosing es

def releaseStates (h : HandlerId) : MergeM Unit := do
  let m ← readHandler h
  m.closedStates.forM releaseState
  modifyHandler h fun m => { m with reachedCloseMerge := [] }

/-- `~MergeHandler` -/
def deleteHandler (h : HandlerId) : MergeM Unit := do
  let s ← get
  if h ∈ s.searcher.mergeGroups then do
    modifySearcher fun q => { q with mergeGroups := swapPop q.mergeGroups h }
    releaseStates h
    setHandler h none
  else throw .notRegistered

def incRef (h : HandlerId) : MergeM Unit :=
  modifyHandler h fun m => { m with refCount := m.refCount + 1 }

/-- A `ref` to the handler goes away. -/
def decRef (h : HandlerId) : MergeM Unit := do
  let m ← readHandler h
  setHandler h (some { m with refCount := m.refCount - 1 })
  if m.refCount - 1 = 0 then deleteHandler h else pure ()

/-- `reachedCloseMerge[mp].push_back(es)` -/
def pushClosed (mp : Nat) (es : StateId) : List (Nat × List StateId) → List (Nat × List StateId)
  | [] => [(mp, [es])]
  | (k, cpv) :: groups =>
    if mp = k then (k, cpv ++ [es]) :: groups
    else if mp < k then (mp, [es]) :: (k, cpv) :: groups
    else (k, cpv) :: pushClosed mp es groups

end Handler

section States

def modifyExecutor (f : MergeExecutor → MergeExecutor) : MergeM Unit :=
  modify fun s => { s with executor := f s.executor }

def setStack (es : StateId) (stack : List HandlerId) : MergeM Unit :=
  modifyExecutor fun x => { x with openMergeStack := Function.update x.openMergeStack es stack }

/-- `~ExecutionState`: its body, and then the references of the stack. -/
def deleteState (es : StateId) : MergeM Unit := do
  let s ← get
  let stack := s.executor.openMergeStack es
  stack.forM (removeOpenState · es)
  setStack es []
  stack.forM decRef

def terminateState (es : StateId) : MergeM Unit := do
  let s ← get
  if es ∈ s.executor.addedStates then do
    modifyExecutor fun x => { x with addedStates := x.addedStates.erase es }
    deleteState es
  else modifyExecutor fun x => { x with removedStates := x.removedStates ++ [es] }

/-- `branch()` and the addition of the copy, as `fork` and `branch` of the executor do it. -/
def fork (es : StateId) : MergeM Unit := do
  let s ← get
  let stack := s.executor.openMergeStack es
  let copy := s.executor.nextState
  modifyExecutor fun x => { x with
    nextState := copy + 1
    openMergeStack := Function.update x.openMergeStack copy stack }
  stack.forM incRef
  stack.forM (addOpenState · copy)
  modifyExecutor fun x => { x with addedStates := x.addedStates ++ [copy] }

def handleOpenMerge (state : StateId) : MergeM Unit := do
  let s ← get
  let h := s.executor.nextHandler
  modifyExecutor fun x => { x with nextHandler := h + 1 }
  modifySearcher fun q => { q with mergeGroups := q.mergeGroups ++ [h] }
  setHandler h (some ⟨[], [], 0⟩)
  addOpenState h state
  incRef h
  setStack state (s.executor.openMergeStack state ++ [h])

def waitClosed (h : HandlerId) (es : StateId) (mp : Nat) : MergeM Unit := do
  modifyHandler h fun m => { m with reachedCloseMerge := pushClosed mp es m.reachedCloseMerge }
  pauseState es

/-- `merges` tells for which states `merge(*es)` succeeds. -/
def addClosedState (h : HandlerId) (es : StateId) (mp : Nat) (merges : StateId → Bool) :
    MergeM Unit := do
  removeOpenState h es
  let m ← readHandler h
  match (m.reachedCloseMerge.lookup mp).bind (·.find? merges) with
  | some _ => do
    terminateState es
    eraseClosing es
  | none => waitClosed h es mp

/-- `handleCloseMerge`; without a preceding open there is only a warning. -/
def handleCloseMerge (state : StateId) (mp : Nat) (merges : StateId → Bool) : MergeM Unit := do
  let s ← get
  match (s.executor.openMergeStack state).getLast? with
  | none => pure ()
  | some h =>
    if state ∈ s.searcher.inCloseMerge then throw .inCloseMerge
    else do
      insertClosing state
      addClosedState h state mp merges
      setStack state (s.executor.openMergeStack state).dropLast
      decRef h

/-- The removal of a terminated state by `updateStates`. -/
def removeState (es : StateId) : MergeM Unit := do
  let s ← get
  if es ∈ s.executor.states then do
    modifyExecutor fun x => { x with states := x.states.erase es }
    deleteState es
  else pure ()

def updateStates (current : StateId) : MergeM Unit := do
  let s ← get
  update current s.executor.addedStates s.executor.removedStates
  modifyExecutor fun x => { x with states := x.states ++ x.addedStates, addedStates := [] }
  s.executor.removedStates.forM removeState
  modifyExecutor fun x => { x with removedStates := [] }

end States

section Step

/-- What the states of an instruction do besides merging: they split, or are terminated. -/
inductive StateOp where
  | fork (es : StateId)
  | terminate (es : StateId)

inductive Instruction where
  | openMerge
  | closeMerge (mp : Nat) (merges : StateId → Bool)
  | other (ops : List StateOp)

/-- An instruction runs for the current state and the states that it has added; it terminates
the current state once at most. -/
def StateOp.exec (current : StateId) : StateOp → MergeM Unit
  | fork es => do
    let s ← get
    if es = current ∨ es ∈ s.executor.addedStates then Merging.fork es else throw .notRunning
  | terminate es => do
    let s ← get
    if es = current ∧ es ∉ s.executor.removedStates ∨ es ∈ s.executor.addedStates then
      terminateState es
    else throw .notRunning

def Instruction.exec (current : StateId) : Instruction → MergeM Unit
  | openMerge => handleOpenMerge current
  | closeMerge mp merges => handleCloseMerge current mp merges
  | other ops => ops.forM (·.exec current)

/-- The searcher over which the merging searcher selects. `select` is that of the base searcher,
`near` compares the distance of a state with the mean of a handler. -/
structure Config where
  useIncompleteMerge : Bool
  near : HandlerId → StateId → Bool
  select : List StateId → StateId

variable (c : Config)

def getPrioritizeState (s : MergeState) (h : HandlerId) (m : MergeHandler) : Option StateId :=
  m.openStates.find? fun es => decide (es ∉ s.searcher.inCloseMerge) && c.near h es

/-- The loop of `selectState` over the handlers. -/
def selectMerging : List HandlerId → MergeM (Option StateId)
  | [] => pure none
  | h :: hs => do
    let m ← readHandler h
    if m.reachedCloseMerge = [] then selectMerging hs
    else do
      let s ← get
      match getPrioritizeState c s h m with
      | some es => pure (some es)
      | none => do
        releaseStates h
        selectMerging hs

def selectBase : MergeM StateId := do
  let s ← get
  pure (c.select s.searcher.base)

def selectState : MergeM StateId := do
  let s ← get
  if s.searcher.base = [] then throw .emptyBase
  else if c.useIncompleteMerge then do
    match ← selectMerging c s.searcher.mergeGroups with
    | some es => pure es
    | none => selectBase c
  else selectBase c

/-- One round of the loop of `run`. -/
def step (i : Instruction) : MergeM Unit := do
  let current ← selectState c
  i.exec current
  updateStates current

end Step

def initial : MergeState where
  executor := ⟨[0], [], [], fun _ => [], 1, 0⟩
  searcher := ⟨[], ∅, [], [0]⟩
  handlers := fun _ => none

/-- The states reached by rounds of the loop, each with any choices of the searchers and any
successes of the merges. -/
inductive Run : MergeState → Prop
  | initial : Run initial
  | step {s s' : MergeState} {c : Config} {i : Instruction} (h : Run s)
      (hselect : ∀ l, l ≠ [] → c.select l ∈ l) (hi : Merging.step c i s = .ok ((), s')) : Run s'

end Klee.Merging

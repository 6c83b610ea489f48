import Klee.Core.MemoryMap
import Klee.Solver.TimingSolver

/-! `callExternalFunction` with the memory of the process around it. -/
namespace Klee

abbrev NativeMemory := BitVec 64 → BitVec 8

/-- `memcpy` to an address of the process. -/
def NativeMemory.copyTo (native : NativeMemory) (address : BitVec 64) (src : Nat → BitVec 8)
    (n : Nat) : NativeMemory :=
  fun x => if (x - address).toNat < n then src (x - address).toNat else native x

def NativeMemory.bytes (native : NativeMemory) (address : BitVec 64) (i : Nat) : BitVec 8 :=
  native (address + BitVec.ofNat 64 i)

namespace MemoryMap

/-- One round of the loop of `copyOutConcretes`. -/
def copyOutConcrete (native : NativeMemory) (p : ObjectPair) : NativeMemory :=
  if p.1.isUserSpecified ∨ p.2.readOnly then native
  else native.copyTo p.1.address p.2.concreteStore p.1.size

def copyOutConcretes (objects : MemoryMap) (native : NativeMemory) : NativeMemory :=
  objects.foldl copyOutConcrete native

/-- `memcpy` to the concrete store -/
def copyToStore (os : ObjectState) (src : Nat → BitVec 8) (n : Nat) : ObjectState :=
  { os with concreteStore := fun i => if i < n then src i else os.concreteStore i }

def copyInConcrete (objects : MemoryMap) (p : ObjectPair) (src : Nat → BitVec 8) :
    Bool × MemoryMap :=
  if ∀ i < p.1.size, src i = p.2.concreteStore i then (true, objects)
  else if p.2.readOnly then (false, objects)
  else (true, objects.replace p.1 (copyToStore p.2 src p.1.size))

/-- The loop of `copyInConcretes` over the objects that are left. -/
def copyInFrom (native : NativeMemory) : List ObjectPair → MemoryMap → Bool × MemoryMap
  | [], objects => (true, objects)
  | p :: ps, objects =>
    if p.1.isUserSpecified then copyInFrom native ps objects
    else
      match copyInConcrete objects p (native.bytes p.1.address) with
      | (true, objects) => copyInFrom native ps objects
      | (false, objects) => (false, objects)

def copyInConcretes (objects : MemoryMap) (native : NativeMemory) : Bool × MemoryMap :=
  copyInFrom native objects objects

end MemoryMap

namespace ObjectState

variable (solver : TimingSolver) (constraints : List Expr)

/-- One round of the loop of `flushToConcreteStore`; on a timeout the byte stays as it is. -/
def flushByteToConcreteStore (i : Nat) : ObjectM Unit := do
  let os := (← get).object
  if os.isByteKnownSymbolic i then do
    let e ← read8 i
    match solver.getValue constraints e with
    | none => pure ()
    | some ce => modifyObject fun os =>
        { os with concreteStore := Function.update os.concreteStore i (ce.value.setWidth 8) }
  else pure ()

def flushToConcreteStore : ObjectM Unit := do
  let os := (← get).object
  (List.range os.size).forM (flushByteToConcreteStore solver constraints)

end ObjectState

inductive ExternalCallPolicy where
  | none
  | concrete
  | all
deriving DecidableEq, Repr

/-- The functions that may be called under `-external-calls=none`. -/
def okExternals : List String := ["printf", "fprintf", "puts", "getpid"]

inductive ExternalFault where
  /-- An assertion of `ObjectState`. -/
  | object (f : Fault)
  /-- "invalid type" -/
  | invalidType
  /-- "FIXME: Unhandled solver failure" -/
  | solverFailure
  /-- "Could not resolve memory object for errno" -/
  | errno

/-- The `TerminateReason`s of an external call. -/
inductive ExternalReason where
  | user
  | exec
  | external
deriving DecidableEq, Repr

inductive ExternalOutcome where
  | continues
  | terminated (reason : ExternalReason) (message : String)
deriving DecidableEq, Repr

/-- What the call leaves in the memory of the process, and the last `errno`. -/
structure NativeResult where
  native : NativeMemory
  errno : BitVec 32

/-- A call of a function that has no handler. `executeCall` is that of the dispatcher: from the
arguments, `errno` and the memory of the process; `none` when it does not succeed. -/
structure ExternalCall where
  function : String
  externalCalls : ExternalCallPolicy
  solver : TimingSolver
  optimizeExpr : Expr → Bool → Expr
  errnoAddr : BitVec 64
  isLittleEndian : Bool
  executeCall : List ConstantExpr → BitVec 32 → NativeMemory → Option NativeResult

structure ExternalContext where
  objects : MemoryMap
  native : NativeMemory
  constArrId : Nat

abbrev ExternalM := StateT ExternalContext (Except ExternalFault)

namespace ExternalCall

/-- An operation on an object in place, also where the object is `const`. The second component
of the result is the object after it. -/
def onObject {α : Type} (p : ObjectPair) (x : ObjectM α) : ExternalM (α × ObjectState) := do
  let st ← get
  match x ⟨p.2, st.constArrId⟩ with
  | .error f => throw (.object f)
  | .ok (a, y) =>
    set { st with objects := st.objects.replace p.1 y.object, constArrId := y.constArrId }
    pure (a, y.object)

variable (c : ExternalCall) (constraints : List Expr)

def toUnique (e : Expr) : Expr :=
  match e with
  | .constant ce => .constant ce
  | e =>
    let optimized := c.optimizeExpr e true
    match c.solver.getValue constraints optimized with
    | none => e
    | some value =>
      let cond := c.optimizeExpr (EqExpr.create optimized (.constant value)) false
      if c.solver.mustBeTrue constraints cond = some true then .constant value else e

/-- The widths that `toMemory` writes. -/
def toMemory (ce : ConstantExpr) : ExternalM Unit :=
  if ce.width ∈ [1, 8, 16, 32, 64, 80] then pure () else throw .invalidType

def flushArgument (ce : ConstantExpr) : ExternalM Unit := do
  let st ← get
  match if ce.width = 64 then st.objects.resolveOne (ce.value.setWidth 64) else none with
  | some p => do
    let _ ← onObject p (ObjectState.flushToConcreteStore c.solver constraints)
    pure ()
  | none => pure ()

/-- One round of the loop over the arguments; nothing for a symbolic argument that ends the
state. -/
def evalArgument (e : Expr) : ExternalM (Option ConstantExpr) :=
  if c.externalCalls = .all then
    match c.solver.getValue constraints (c.optimizeExpr e true) with
    | none => throw .solverFailure
    | some ce => do
      toMemory ce
      flushArgument c constraints ce
      pure (some ce)
  else
    match toUnique c constraints e with
    | .constant ce => do
      toMemory ce
      pure (some ce)
    | _ => pure none

def evalArguments : List Expr → ExternalM (Option (List ConstantExpr))
  | [] => pure (some [])
  | e :: es => do
    match ← evalArgument c constraints e with
    | none => pure none
    | some ce =>
      let ces ← evalArguments es
      pure (ces.map (ce :: ·))

/-- The bytes of an `int`. -/
def errnoBytes (error : BitVec 32) (i : Nat) : BitVec 8 :=
  error.extractLsb' (8 * ObjectState.byteIndex c.isLittleEndian 4 i) 8

/-- The call itself, and the memory that it leaves. The object of `errno` is user-specified:
`copyInConcretes` has not replaced it. -/
def callNative (args : List ConstantExpr) (result : ObjectPair) (errno : BitVec 32) :
    ExternalM ExternalOutcome := do
  let st ← get
  match c.executeCall args errno st.native with
  | none => pure (.terminated .external ("failed external call: " ++ c.function))
  | some r =>
    -- a failure of `copyInConcretes` gives a warning
    let objects := (st.objects.copyInConcretes r.native).2
    set { st with
      objects := (objects.copyInConcrete result (c.errnoBytes r.errno)).2
      native := r.native }
    pure .continues

def callWithErrno (args : List ConstantExpr) : ExternalM ExternalOutcome := do
  modify fun st => { st with native := st.objects.copyOutConcretes st.native }
  match (← get).objects.resolveOne c.errnoAddr with
  | none => throw .errno
  | some p =>
    let (errValueExpr, os) ← onObject p (ObjectState.readAt c.isLittleEndian 0 32)
    match errValueExpr with
    | .constant errnoValue => callNative c args (p.1, os) (errnoValue.value.setWidth 32)
    | _ => pure (.terminated .exec ("external call with errno value symbolic: " ++ c.function))

def callExternalFunction (arguments : List Expr) : ExternalM ExternalOutcome :=
  if c.externalCalls = .none ∧ c.function ∉ okExternals then
    pure (.terminated .user "external calls disallowed")
  else do
    match ← evalArguments c constraints arguments with
    | none => pure (.terminated .exec ("external call with symbolic argument: " ++ c.function))
    | some args => callWithErrno c args

end ExternalCall

end Klee

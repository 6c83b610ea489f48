import Klee.Core.Fork
import Klee.Expr.Compare
import Klee.Lib.SortedMap

/-! `executeInstruction` at a `switch`, with the internal switch type, and the transfer of a state
to a basic block. -/
namespace Klee

/-- The address of an `llvm::BasicBlock`. -/
abbrev BasicBlock := BitVec 64

structure SwitchInst where
  cases : List (ConstantExpr × BasicBlock)
  defaultDest : BasicBlock

/-- The successor for a value: that of the first case with it, or the default one. -/
def SwitchInst.findCaseValue (si : SwitchInst) (value : ConstantExpr) : BasicBlock :=
  ((si.cases.find? fun c => decide (c.1 = value)).map (·.2)).getD si.defaultDest

namespace Executor

/-- `incomingBBIndex` of a state; the rest of its stack and memory is left out. -/
abbrev IncomingBBIndex := Nat

structure BlockContext where
  /-- The first instruction of a block, by `basicBlockEntry[dst]`: for a block that is not in the
  map this is the first one of the function. -/
  basicBlockEntry : BasicBlock → Nat
  /-- The index of the block that is left, if the first instruction of `dst` is a `PHI`. -/
  basicBlockIndex : BasicBlock → Option Nat
  /-- `optimizer.optimizeExpr` -/
  optimizeExpr : Expr → Bool → Expr

variable (c : BlockContext) (o : ExecutorOptions)

def atBlock (dst : BasicBlock) (s : ExecutionState IncomingBBIndex) :
    ExecutionState IncomingBBIndex :=
  { s with
    pc := c.basicBlockEntry dst
    memory := (c.basicBlockIndex dst).getD s.memory }

def transferToBasicBlock (dst : BasicBlock) (state : StateId) : ExecutorM IncomingBBIndex Unit :=
  modifyState state (atBlock c dst)

def toUnique (cs : List Expr) (e : Expr) : Expr :=
  match e with
  | .constant ce => .constant ce
  | e =>
    let optimized := c.optimizeExpr e true
    match o.solver.getValue cs optimized with
    | none => e
    | some value =>
      let cond := c.optimizeExpr (EqExpr.create optimized (.constant value)) false
      if o.solver.mustBeTrue cs cond = some true then .constant value else e

def transferAll (targets : List BasicBlock) (branches : List (Option StateId)) :
    ExecutorM IncomingBBIndex Unit :=
  (targets.zip branches).forM fun (bb, es) =>
    match es with
    | some es => transferToBasicBlock c bb es
    | none => pure ()

section Switch

variable [APIntHash] (cs : List Expr) (cond : Expr) (si : SwitchInst)

/-- The order of the keys of `expressionOrder`. -/
def compareCaseValues (a b : ConstantExpr) : Ordering := (Expr.constant a).compare (.constant b)

def expressionOrder : List (ConstantExpr × BasicBlock) :=
  SortedMap.ofList compareCaseValues si.cases

structure SwitchGroups where
  bbOrder : List BasicBlock
  branchTargets : BasicBlock → Option Expr
  defaultValue : Expr

def SwitchGroups.initial : SwitchGroups where
  bbOrder := []
  branchTargets _ := none
  defaultValue := .constant (.alloc 1 1)

def SwitchGroups.join (g : SwitchGroups) (bb : BasicBlock) (condition : Expr) : SwitchGroups where
  bbOrder := if (g.branchTargets bb).isSome then g.bbOrder else g.bbOrder ++ [bb]
  branchTargets := Function.update g.branchTargets bb
    (some (OrExpr.create condition ((g.branchTargets bb).getD (.constant (.alloc 0 1)))))
  defaultValue := g.defaultValue

def addCase (g : SwitchGroups) (p : ConstantExpr × BasicBlock) : Option SwitchGroups :=
  let isValue := EqExpr.create cond (.constant p.1)
  -- a case with the block of the default case is part of that
  if p.2 = si.defaultDest then some g
  else
    let g := { g with defaultValue := AndExpr.create g.defaultValue isValue.createIsZero }
    let isValue := c.optimizeExpr isValue false
    (o.solver.mayBeTrue cs isValue).map fun result => if result then g.join p.2 isValue else g

def addDefault (g : SwitchGroups) : Option SwitchGroups :=
  let defaultValue := c.optimizeExpr g.defaultValue false
  (o.solver.mayBeTrue cs defaultValue).map fun result =>
    if result then
      match g.branchTargets si.defaultDest with
      | some _ => g
      | none => { g with
          bbOrder := g.bbOrder ++ [si.defaultDest]
          branchTargets := Function.update g.branchTargets si.defaultDest (some defaultValue) }
    else g

def switchGroups : Option SwitchGroups := do
  let g ← (expressionOrder si).foldlM (addCase c o cs cond si) .initial
  addDefault c o cs si g

/-- `branchTargets[bb]` -/
def SwitchGroups.condition (g : SwitchGroups) (bb : BasicBlock) : Expr :=
  (g.branchTargets bb).getD (.constant (.alloc 0 1))

def SwitchGroups.conditions (g : SwitchGroups) : List Expr := g.bbOrder.map g.condition

def executeSwitch (state : StateId) : ExecutorM IncomingBBIndex Unit := do
  let s ← readState state
  match toUnique c o s.constraints cond with
  | .constant ce => transferToBasicBlock c (si.findCaseValue ce) state
  | cond => do
    let g ← orThrow .solverFailure (switchGroups c o s.constraints cond si)
    let branches ← branch o state g.conditions
    transferAll c g.bbOrder branches

end Switch

end Executor

end Klee

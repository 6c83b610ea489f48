import Klee.Module.PHINode

/-! `PhiCleanerPass`, and the execution of phi nodes one after another. Of a block the model has
the phi nodes and the moves that the pass puts before the terminator. -/
namespace Klee.PhiCleaner

inductive Operand (Val : Type*) where
  | reg (r : Nat)
  | const (v : Val)

/-- The phi nodes with their results, and the moves with target and source. -/
structure Block (Val : Type*) where
  phis : List (Nat × PHINode (Operand Val))
  moves : List (Nat × Nat)

/-- The blocks are those below `size`, the results those below `registers`. -/
structure Function (Val : Type*) where
  block : Nat → Block Val
  size : Nat
  registers : Nat

variable {Val : Type*}

namespace Function

def setPhis (f : Function Val) (b : Nat) (phis : List (Nat × PHINode (Operand Val))) :
    Function Val :=
  { f with block := Function.update f.block b { f.block b with phis := phis } }

def addMove (f : Function Val) (b src : Nat) : Function Val where
  block := Function.update f.block b
    { f.block b with moves := (f.block b).moves ++ [(f.registers, src)] }
  size := f.size
  registers := f.registers + 1

end Function

section Pass

/-- The entries in the order of those of the first phi node, if they are not. -/
def reorder (reference pi : PHINode (Operand Val)) : Option (PHINode (Operand Val)) :=
  if pi.incoming.map (·.1) = reference.incoming.map (·.1) then some pi
  else (reference.incoming.mapM fun entry => pi.getIncomingValueForBlock entry.1).map
    fun values => ⟨(reference.incoming.map (·.1)).zip values⟩

/-- The loop over the incoming values: one that is an earlier phi node is moved to a new register
at the end of the incoming block. -/
def saveValues (phis : List Nat) :
    List (Nat × Operand Val) → Function Val → List (Nat × Operand Val) × Function Val
  | [], f => ([], f)
  | (block, .reg r) :: incoming, f =>
    if r ∈ phis then
      let tmp := f.registers
      let (incoming, f) := saveValues phis incoming (f.addMove block r)
      ((block, .reg tmp) :: incoming, f)
    else
      let (incoming, f) := saveValues phis incoming f
      ((block, .reg r) :: incoming, f)
  | (block, .const v) :: incoming, f =>
    let (incoming, f) := saveValues phis incoming f
    ((block, .const v) :: incoming, f)

/-- The loop over the phi nodes after the first, `phis` being those before. The assertion on the
number of entries is `none` where it fails. -/
def cleanPhis (reference : PHINode (Operand Val)) :
    List Nat → List (Nat × PHINode (Operand Val)) → Function Val →
      Option (List (Nat × PHINode (Operand Val)) × Function Val)
  | _, [], f => some ([], f)
  | phis, (r, pi) :: rest, f =>
    if pi.incoming.length = reference.incoming.length then
      (reorder reference pi).bind fun pi =>
        let (incoming, f) := saveValues phis pi.incoming f
        (cleanPhis reference (r :: phis) rest f).map fun (rest, f) => ((r, ⟨incoming⟩) :: rest, f)
    else none

def cleanBlock (f : Function Val) (b : Nat) : Option (Function Val) :=
  match (f.block b).phis with
  | [] => some f
  | (r, reference) :: rest =>
    (cleanPhis reference [r] rest f).map fun (rest, f) => f.setPhis b ((r, reference) :: rest)

def runOnFunction (f : Function Val) : Option (Function Val) :=
  (List.range f.size).foldlM cleanBlock f

end Pass

section Execution

def Operand.eval (env : Nat → Val) : Operand Val → Val
  | reg r => env r
  | const v => v

def runMoves (moves : List (Nat × Nat)) (env : Nat → Val) : Nat → Val :=
  moves.foldl (fun env move => Function.update env move.1 (env move.2)) env

def runPhis (incomingBBIndex : Nat) (phis : List (Nat × PHINode (Operand Val)))
    (env : Nat → Val) : Option (Nat → Val) :=
  phis.foldlM (fun env phi => (phi.2.getIncomingValue incomingBBIndex).map fun value =>
    Function.update env phi.1 (value.eval env)) env

def transferToBasicBlock (phis : List (Nat × PHINode (Operand Val))) (src : Nat)
    (env : Nat → Val) : Option (Nat → Val) :=
  match phis with
  | [] => some env
  | first :: _ => (first.2.getBasicBlockIndex src).bind fun incomingBBIndex =>
    runPhis incomingBBIndex phis env

end Execution

end Klee.PhiCleaner

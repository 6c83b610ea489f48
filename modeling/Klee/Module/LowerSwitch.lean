import Klee.Module.PHINode

/-! `LowerSwitchPass`: switches become chains of comparisons. Of a block the model has the phi
nodes and the terminator. -/
namespace Klee.LowerSwitch

/-- The conditional branch is on a comparison in the same block; branches of the program are
among the `other` terminators. -/
inductive Terminator (Op α : Type*) where
  | br (dest : Nat)
  | condBr (value : Op) (caseValue : α) (ifTrue ifFalse : Nat)
  | switch (condition : Op) (defaultDest : Nat) (cases : List (α × Nat))
  | other (successors : List Nat)

structure Block (Op α V : Type*) where
  phis : List (PHINode V)
  terminator : Terminator Op α

/-- The blocks are those below `size`. -/
structure Function (Op α V : Type*) where
  block : Nat → Block Op α V
  size : Nat

variable {Op α V : Type*}

namespace Terminator

def successors : Terminator Op α → List Nat
  | br dest => [dest]
  | condBr _ _ ifTrue ifFalse => [ifTrue, ifFalse]
  | switch _ defaultDest cases => defaultDest :: cases.map (·.2)
  | other successors => successors

def isSwitch : Terminator Op α → Bool
  | switch .. => true
  | _ => false

end Terminator

namespace Function

def addBlock (f : Function Op α V) (terminator : Terminator Op α) : Function Op α V :=
  ⟨Function.update f.block f.size ⟨[], terminator⟩, f.size + 1⟩

def setTerminator (f : Function Op α V) (l : Nat) (terminator : Terminator Op α) :
    Function Op α V :=
  { f with block := Function.update f.block l { f.block l with terminator := terminator } }

def setPhis (f : Function Op α V) (l : Nat) (phis : List (PHINode V)) : Function Op α V :=
  { f with block := Function.update f.block l { f.block l with phis := phis } }

variable {f : Function Op α V} {terminator : Terminator Op α} {l b : Nat}

@[simp] theorem addBlock_self : (f.addBlock terminator).block f.size = ⟨[], terminator⟩ :=
  Function.update_self ..

theorem addBlock_of_ne (h : l ≠ f.size) : (f.addBlock terminator).block l = f.block l :=
  Function.update_of_ne h ..

@[simp] theorem setPhis_terminator (phis : List (PHINode V)) :
    ((f.setPhis b phis).block l).terminator = (f.block l).terminator := by
  simp only [setPhis, Function.update_apply]
  split_ifs with h
  · rw [h]
  · rfl

@[simp] theorem setPhis_self (phis : List (PHINode V)) :
    ((f.setPhis b phis).block b).phis = phis := by
  simp only [setPhis, Function.update_self]

theorem setPhis_of_ne (h : l ≠ b) (phis : List (PHINode V)) :
    (f.setPhis b phis).block l = f.block l :=
  Function.update_of_ne h ..

@[simp] theorem setTerminator_phis :
    ((f.setTerminator b terminator).block l).phis = (f.block l).phis := by
  simp only [setTerminator, Function.update_apply]
  split_ifs with h
  · rw [h]
  · rfl

@[simp] theorem setTerminator_self :
    ((f.setTerminator b terminator).block b).terminator = terminator := by
  simp only [setTerminator, Function.update_self]

theorem setTerminator_of_ne (h : l ≠ b) :
    (f.setTerminator b terminator).block l = f.block l :=
  Function.update_of_ne h ..

end Function

/-- The first entry of `origBlock` comes from `newBlock` now. The assertion that there is one is
`none` where it fails. -/
def rewriteEntry (origBlock newBlock : Nat) (pn : PHINode V) : Option (PHINode V) :=
  (pn.getBasicBlockIndex origBlock).map fun blockIndex => pn.setIncomingBlock blockIndex newBlock

def rewriteEntries (f : Function Op α V) (dest origBlock newBlock : Nat) :
    Option (Function Op α V) :=
  ((f.block dest).phis.mapM (rewriteEntry origBlock newBlock)).map (f.setPhis dest)

/-- The loop over the cases, each with its new block in front of `curHead`. -/
def switchConvert (value : Op) (origBlock : Nat) :
    List (α × Nat) → Nat → Function Op α V → Option (Function Op α V)
  | [], curHead, f => some (f.setTerminator origBlock (.br curHead))
  | (caseValue, dest) :: cases, curHead, f =>
    let newBlock := f.size
    (rewriteEntries (f.addBlock (.condBr value caseValue dest curHead)) dest origBlock
      newBlock).bind fun f => switchConvert value origBlock cases newBlock f

def processSwitchInst (f : Function Op α V) (origBlock : Nat) : Option (Function Op α V) :=
  match (f.block origBlock).terminator with
  | .switch switchValue defaultBlock cases =>
    let newDefault := f.size
    (rewriteEntries (f.addBlock (.br defaultBlock)) defaultBlock origBlock newDefault).bind
      fun f => switchConvert switchValue origBlock cases.reverse newDefault f
  | _ => some f

def runOnFunction (f : Function Op α V) : Option (Function Op α V) :=
  (List.range f.size).foldlM processSwitchInst f

section Control

variable [DecidableEq α]

def select (defaultDest : Nat) (cases : List (α × Nat)) (value : α) : Nat :=
  ((cases.find? (·.1 = value)).map (·.2)).getD defaultDest

def next (env : Op → α) : Terminator Op α → Option Nat
  | .br dest => some dest
  | .condBr value caseValue ifTrue ifFalse =>
    some (if env value = caseValue then ifTrue else ifFalse)
  | .switch condition defaultDest cases => some (select defaultDest cases (env condition))
  | .other _ => none

/-- The edge by which control gets from a block to one below `bound`, that is, to one of the
program's own blocks. -/
def leave (f : Function Op α V) (env : Op → α) (bound : Nat) : Nat → Nat → Option (Nat × Nat)
  | 0, _ => none
  | fuel + 1, l => (next env (f.block l).terminator).bind fun dest =>
    if dest < bound then some (l, dest) else leave f env bound fuel dest

end Control

end Klee.LowerSwitch

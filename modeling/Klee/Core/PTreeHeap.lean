import Klee.Core.PTree

/-! The nodes of the process tree, with the links between them and the links between leaves and
states. A failed assertion, a null pointer that is followed and a node that is used after it was
deleted are `none`. -/
namespace Klee

/-- `PTreeNode *`. Nodes are told apart by the order in which they were built. -/
abbrev PTreeRef := Nat

structure PTreeNode where
  parent : Option PTreeRef
  left : Option PTreeRef
  right : Option PTreeRef
  state : Option StateId

/-- The nodes that have not been deleted, with the root and the `ptreeNode` of each state. -/
structure PTreeHeap where
  nodes : PTreeRef → Option PTreeNode
  root : PTreeRef
  next : PTreeRef
  ptreeNode : StateId → Option PTreeRef

namespace PTreeHeap

def set (h : PTreeHeap) (n : PTreeRef) (c : PTreeNode) : PTreeHeap :=
  { h with nodes := Function.update h.nodes n (some c) }

def delete (h : PTreeHeap) (n : PTreeRef) : PTreeHeap :=
  { h with nodes := Function.update h.nodes n none }

def setPtreeNode (h : PTreeHeap) (s : StateId) (n : Option PTreeRef) : PTreeHeap :=
  { h with ptreeNode := Function.update h.ptreeNode s n }

/-- The constructor of `PTreeNode`; the node is `h.next`. -/
def build (h : PTreeHeap) (parent : Option PTreeRef) (state : StateId) : PTreeHeap :=
  setPtreeNode { (h.set h.next ⟨parent, none, none, some state⟩) with next := h.next + 1 } state
    (some h.next)

/-- The constructor of `PTree`. -/
def new (initialState : StateId) : PTreeHeap :=
  build ⟨fun _ => none, 0, 0, fun _ => none⟩ none initialState

def attach (h : PTreeHeap) (node : PTreeRef) (leftState rightState : StateId) :
    Option PTreeHeap := do
  let c ← h.nodes node
  guard (c.left = none ∧ c.right = none)
  let h := h.set node { c with state := none }
  let left := h.next
  let h := h.build (some node) leftState
  let c ← h.nodes node
  let h := h.set node { c with left := some left }
  let right := h.next
  let h := h.build (some node) rightState
  let c ← h.nodes node
  return h.set node { c with right := some right }

/-- The loop of `remove`, at a node without children. There are no more ancestors than nodes. -/
def removeFrom : Nat → PTreeHeap → PTreeRef → Option PTreeHeap
  | 0, _, _ => none
  | fuel + 1, h, n => do
    let c ← h.nodes n
    match c.parent with
    | none => some h
    | some p => do
      let pc ← h.nodes p
      if pc.left = some n then
        let h := (h.set p { pc with left := none }).delete n
        if pc.right = none then removeFrom fuel h p else some h
      else if pc.right = some n then
        let h := (h.set p { pc with right := none }).delete n
        if pc.left = none then removeFrom fuel h p else some h
      else none

def remove (h : PTreeHeap) (n : PTreeRef) : Option PTreeHeap := do
  let c ← h.nodes n
  guard (c.left = none ∧ c.right = none)
  removeFrom h.next h n

/-- What `theRNG` has given, and what is left of it in `flips`. -/
structure Flips where
  drawn : Nat
  flips : BitVec 32
  bits : Nat

/-- The next bit, where `getInt32` gives the numbers that are drawn. -/
def Flips.flip (getInt32 : Nat → BitVec 32) (f : Flips) : Bool × Flips :=
  let f := if f.bits = 0 then ⟨f.drawn + 1, getInt32 f.drawn, 32⟩ else f
  let bits := f.bits - 1
  (f.flips.getLsbD bits, { f with bits })

/-- The loop of `RandomPathSearcher::selectState`. -/
def selectFrom (h : PTreeHeap) (getInt32 : Nat → BitVec 32) :
    Nat → Flips → Option PTreeRef → Option StateId
  | 0, _, _ => none
  | _, _, none => none
  | fuel + 1, f, some n => do
    let c ← h.nodes n
    match c.state with
    | some s => some s
    | none =>
      if c.left = none then selectFrom h getInt32 fuel f c.right
      else if c.right = none then selectFrom h getInt32 fuel f c.left
      else
        let (b, f) := f.flip getInt32
        selectFrom h getInt32 fuel f (if b then c.left else c.right)

def selectState (h : PTreeHeap) (getInt32 : Nat → BitVec 32) (fuel : Nat) : Option StateId :=
  h.selectFrom getInt32 fuel ⟨0, 0, 0⟩ (some h.root)

/-- A fork of a state, whose node goes to it and to its copy, or the end of a state. -/
inductive Op where
  | fork (s copy : StateId) (copyOnLeft : Bool)
  | terminate (s : StateId)

def step (h : PTreeHeap) : Op → Option PTreeHeap
  | .fork s copy copyOnLeft => do
    -- `branch` copies the link too.
    let h := h.setPtreeNode copy (h.ptreeNode s)
    let n ← h.ptreeNode s
    if copyOnLeft then h.attach n copy s else h.attach n s copy
  | .terminate s => do
    let n ← h.ptreeNode s
    let h ← h.remove n
    return h.setPtreeNode s none

def run (h : PTreeHeap) (ops : List Op) : Option PTreeHeap := ops.foldlM step h

/-- The live states, where forks and terminations are of live states and copies are new. -/
def Op.live (live : Finset StateId) : Op → Option (Finset StateId)
  | .fork s copy _ => if s ∈ live ∧ copy ∉ live then some (insert copy live) else none
  | .terminate s => if s ∈ live then some (live.erase s) else none

end PTreeHeap

end Klee

import Klee.Support.ImmutableTree
import Mathlib.Logic.Function.Basic

/-! `ImmutableTree` on nodes that are shared and counted: what the operations do to the heap. -/
namespace Klee.ImmutableTree

/-- `Node *`. Nodes are told apart by the order in which they were built. -/
abbrev Pointer := Nat

/-- `&terminator`, a static object. -/
def terminator : Pointer := 0

structure Cell (V : Type) where
  left : Pointer
  right : Pointer
  value : V
  height : Nat
  references : Nat

structure Heap (V : Type) where
  cells : Pointer → Option (Cell V)
  next : Pointer

abbrev HeapM (V : Type) := StateT (Heap V) Option

variable {K V : Type}

section Nodes

/-- Before `main`, there is the terminator alone; its own children and the program refer to it. -/
def Heap.initial [Inhabited V] : Heap V where
  cells := Function.update (fun _ => none) terminator
    (some ⟨terminator, terminator, default, 0, 3⟩)
  next := terminator + 1

def Heap.set (h : Heap V) (n : Pointer) (c : Option (Cell V)) : Heap V :=
  { h with cells := Function.update h.cells n c }

/-- `c` in memory of its own. -/
def Heap.allocate (h : Heap V) (c : Cell V) : Heap V where
  cells := Function.update h.cells h.next (some c)
  next := h.next + 1

def read (n : Pointer) : HeapM V (Cell V) := fun h => (h.cells n).map fun c => (c, h)

def write (n : Pointer) (c : Option (Cell V)) : HeapM V Unit := fun h => some ((), h.set n c)

def incref (n : Pointer) : HeapM V Pointer := do
  let c ← read n
  write n (some { c with references := c.references + 1 })
  return n

/-- The last reference takes the node with it. The memory is given back before the children are
released, so that a use of it in between would fail too. -/
def decrefFrom : Nat → Pointer → HeapM V Unit
  | 0, _ => failure
  | fuel + 1, n => do
    let c ← read n
    if c.references - 1 = 0 then
      write n none
      decrefFrom fuel c.left
      decrefFrom fuel c.right
    else write n (some { c with references := c.references - 1 })

def decref (n : Pointer) : HeapM V Unit := decrefFrom (n + 1) n

def newNode (left right : Pointer) (value : V) : HeapM V Pointer := do
  let l ← read left
  let r ← read right
  fun h => some (h.next, h.allocate ⟨left, right, value, max l.height r.height + 1, 1⟩)

def balanceCells (left : Pointer) (value : V) (right : Pointer) : HeapM V Pointer := do
  let l ← read left
  let r ← read right
  if l.height > r.height + 2 then
    let ll ← read l.left
    let lr ← read l.right
    if ll.height ≥ lr.height then
      let nlr ← newNode (← incref l.right) right value
      let res ← newNode (← incref l.left) nlr l.value
      decref left
      return res
    else
      let nll ← newNode (← incref l.left) (← incref lr.left) l.value
      let nlr ← newNode (← incref lr.right) right value
      let res ← newNode nll nlr lr.value
      decref left
      return res
  else if r.height > l.height + 2 then
    let rl ← read r.left
    let rr ← read r.right
    if rr.height ≥ rl.height then
      let nrl ← newNode left (← incref r.left) value
      let res ← newNode nrl (← incref r.right) r.value
      decref right
      return res
    else
      let nrl ← newNode left (← incref rl.left) value
      let nrr ← newNode (← incref rl.right) (← incref r.right) r.value
      let res ← newNode nrl nrr rl.value
      decref right
      return res
  else newNode left right value

end Nodes

section Operations

/-! Each has fuel for the depth of the tree. -/

def popMinCells : Nat → Pointer → HeapM V (V × Pointer)
  | 0, _ => failure
  | fuel + 1, n => do
    let c ← read n
    if c.left = terminator then return (c.value, ← incref c.right)
    else
      let (valueOut, left) ← popMinCells fuel c.left
      return (valueOut, ← balanceCells left c.value (← incref c.right))

def popMaxCells : Nat → Pointer → HeapM V (V × Pointer)
  | 0, _ => failure
  | fuel + 1, n => do
    let c ← read n
    if c.right = terminator then return (c.value, ← incref c.left)
    else
      let left ← incref c.left
      let (valueOut, right) ← popMaxCells fuel c.right
      return (valueOut, ← balanceCells left c.value right)

variable (lt : K → K → Prop) [DecidableRel lt] (key : V → K)

def insertCells (v : V) : Nat → Pointer → HeapM V Pointer
  | 0, _ => failure
  | fuel + 1, n => do
    if n = terminator then newNode (← incref terminator) (← incref terminator) v
    else
      let c ← read n
      if lt (key v) (key c.value) then
        balanceCells (← insertCells v fuel c.left) c.value (← incref c.right)
      else if lt (key c.value) (key v) then
        balanceCells (← incref c.left) c.value (← insertCells v fuel c.right)
      else incref n

def replaceCells (v : V) : Nat → Pointer → HeapM V Pointer
  | 0, _ => failure
  | fuel + 1, n => do
    if n = terminator then newNode (← incref terminator) (← incref terminator) v
    else
      let c ← read n
      if lt (key v) (key c.value) then
        balanceCells (← replaceCells v fuel c.left) c.value (← incref c.right)
      else if lt (key c.value) (key v) then
        balanceCells (← incref c.left) c.value (← replaceCells v fuel c.right)
      else newNode (← incref c.left) (← incref c.right) v

def removeCells (k : K) : Nat → Pointer → HeapM V Pointer
  | 0, _ => failure
  | fuel + 1, n => do
    if n = terminator then incref n
    else
      let c ← read n
      if lt k (key c.value) then
        balanceCells (← removeCells k fuel c.left) c.value (← incref c.right)
      else if lt (key c.value) k then
        balanceCells (← incref c.left) c.value (← removeCells k fuel c.right)
      else if c.left = terminator then incref c.right
      else if c.right = terminator then incref c.left
      else
        let (min, nr) ← popMinCells fuel c.right
        balanceCells (← incref c.left) min nr

def lookupCells (k : K) : Nat → Pointer → HeapM V (Option V)
  | 0, _ => failure
  | fuel + 1, n => do
    if n = terminator then return none
    else
      let c ← read n
      if lt k (key c.value) then lookupCells k fuel c.left
      else if lt (key c.value) k then lookupCells k fuel c.right
      else return some c.value

def lookupPreviousCells (k : K) (result : Option V) : Nat → Pointer → HeapM V (Option V)
  | 0, _ => failure
  | fuel + 1, n => do
    if n = terminator then return result
    else
      let c ← read n
      if lt k (key c.value) then lookupPreviousCells k result fuel c.left
      else if lt (key c.value) k then lookupPreviousCells k (some c.value) fuel c.right
      else return some c.value

end Operations

section Versions

inductive Op (K V : Type) where
  | insert (i : Nat) (v : V)
  | replace (i : Nat) (v : V)
  | remove (i : Nat) (k : K)
  | popMin (i : Nat)
  | popMax (i : Nat)
  | copy (i : Nat)
  | destroy (i : Nat)

/-- The trees that a program holds, and the values it was handed by `popMin` and `popMax`. -/
structure State (V : Type) where
  heap : Heap V
  versions : List Pointer
  popped : List V

def State.initial [Inhabited V] : Option (State V) :=
  (incref terminator Heap.initial).map fun r => ⟨r.2, [r.1], []⟩

/-- The tree that `x` builds is a new version. -/
def State.grow (s : State V) (x : HeapM V Pointer) : Option (State V) :=
  (x s.heap).map fun r => { s with heap := r.2, versions := s.versions ++ [r.1] }

def State.pop (s : State V) (x : HeapM V (V × Pointer)) : Option (State V) :=
  (x s.heap).map fun r =>
    { heap := r.2, versions := s.versions ++ [r.1.2], popped := s.popped ++ [r.1.1] }

/-- `f` on the version `i`, where there is one. -/
def State.onVersion (s : State V) (i : Nat) (f : Pointer → Option (State V)) : Option (State V) :=
  (s.versions[i]?).elim (some s) f

variable (lt : K → K → Prop) [DecidableRel lt] (key : V → K)

def State.step (s : State V) : Op K V → Option (State V)
  | .insert i v => s.onVersion i fun n => s.grow (insertCells lt key v (n + 1) n)
  | .replace i v => s.onVersion i fun n => s.grow (replaceCells lt key v (n + 1) n)
  | .remove i k => s.onVersion i fun n => s.grow (removeCells lt key k (n + 1) n)
  | .popMin i => s.onVersion i fun n => s.pop (popMinCells (n + 1) n)
  | .popMax i => s.onVersion i fun n => s.pop (popMaxCells (n + 1) n)
  | .copy i => s.onVersion i fun n => s.grow (incref n)
  | .destroy i => s.onVersion i fun n => (decref n s.heap).map fun r =>
      { s with heap := r.2, versions := s.versions.eraseIdx i }

def State.run (s : State V) (ops : List (Op K V)) : Option (State V) :=
  ops.foldlM (State.step lt key) s

end Versions

end Klee.ImmutableTree

import Klee.Support.ImmutableTreeHeap

/-! `ImmutableTree::iterator`: the ancestors of an element, on a stack of fixed size. -/
namespace Klee.ImmutableTree

structure FixedStack where
  max : Nat
  elts : List Pointer
  deriving DecidableEq

namespace FixedStack

def pushBack (s : FixedStack) (n : Pointer) : Option FixedStack :=
  if s.elts.length < s.max then some { s with elts := n :: s.elts } else none

end FixedStack

structure Iterator where
  root : Pointer
  stack : FixedStack
  deriving DecidableEq

variable {K V : Type} (h : Heap V)

section Moves

/-- A node and its descendants on one side, as far as there are any. Children are built before
their parents, so `n + 1` steps are enough. -/
def pushAll (side : Cell V → Pointer) : Nat → Pointer → FixedStack → Option FixedStack
  | 0, _, _ => none
  | fuel + 1, n, stack =>
    if n = terminator then some stack
    else do
      let c ← h.cells n
      pushAll side fuel (side c) (← stack.pushBack n)

/-- Up from the node `prev`, which has been popped, to the first ancestor with it on one side. -/
def climb (side : Cell V → Pointer) : Pointer → List Pointer → Option (List Pointer)
  | _, [] => some []
  | prev, n :: elts => do
    let c ← h.cells n
    if prev = side c then return n :: elts else climb side n elts

/-- Up if the node has no child `into`, else into it and from there as far as possible. -/
def move (into back : Cell V → Pointer) (n : Pointer) (elts : List Pointer) (it : Iterator) :
    Option Iterator := do
  let c ← h.cells n
  if into c = terminator then
    return { it with stack := { it.stack with elts := ← climb h back n elts } }
  else
    let stack ← it.stack.pushBack (into c)
    let m ← h.cells (into c)
    return { it with stack := ← pushAll h back (into c + 1) (back m) stack }

namespace Iterator

def make (root : Pointer) (atBeginning : Bool) : Option Iterator := do
  let c ← h.cells root
  let stack : FixedStack := ⟨c.height, []⟩
  if atBeginning then return ⟨root, ← pushAll h Cell.left (root + 1) root stack⟩
  else return ⟨root, stack⟩

def deref (it : Iterator) : Option V :=
  it.stack.elts.head?.bind fun n => (h.cells n).map Cell.value

/-- `operator--` -/
def prev (it : Iterator) : Option Iterator :=
  match it.stack.elts with
  | [] => (pushAll h Cell.right (it.root + 1) it.root it.stack).map fun stack =>
      { it with stack := stack }
  | n :: elts => move h Cell.left Cell.right n elts it

/-- `operator++`, with none where its assertion fails. -/
def next (it : Iterator) : Option Iterator :=
  match it.stack.elts with
  | [] => none
  | n :: elts => move h Cell.right Cell.left n elts it

end Iterator

end Moves

section Searches

def atBegin (node : Pointer) : Option Iterator := Iterator.make h node true

def atEnd (node : Pointer) : Option Iterator := Iterator.make h node false

variable (lt : K → K → Prop) [DecidableRel lt] (key : V → K)

/-- The loop of `lower_bound`, and whether it has found the key. -/
def lowerBoundFrom (k : K) : Nat → Pointer → FixedStack → Option (Bool × FixedStack)
  | 0, _, _ => none
  | fuel + 1, root, stack =>
    if root = terminator then some (false, stack)
    else do
      let c ← h.cells root
      let stack ← stack.pushBack root
      if lt k (key c.value) then lowerBoundFrom k fuel c.left stack
      else if lt (key c.value) k then lowerBoundFrom k fuel c.right stack
      else return (true, stack)

def lowerBound (node : Pointer) (k : K) : Option Iterator := do
  let it ← Iterator.make h node false
  let (found, stack) ← lowerBoundFrom h lt key k (node + 1) node it.stack
  let it := { it with stack := stack }
  if found then return it
  else
    match stack.elts.head? with
    | none => return it
    | some last =>
      let c ← h.cells last
      if lt (key c.value) k then it.next h else return it

def find (node : Pointer) (k : K) : Option Iterator := do
  let last ← Iterator.make h node false
  let it ← lowerBound h lt key node k
  if it.stack = last.stack then return last
  else
    let v ← it.deref h
    if lt k (key v) then return last else return it

def upperBound (node : Pointer) (k : K) : Option Iterator := do
  let last ← Iterator.make h node false
  let it ← lowerBound h lt key node k
  if it.stack ≠ last.stack then
    let v ← it.deref h
    if ¬ lt k (key v) then it.next h else return it
  else return it

end Searches

end Klee.ImmutableTree

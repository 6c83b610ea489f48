import Mathlib.Data.BitVec
import Mathlib.Tactic

/-! Copy-on-write address spaces. A configuration holds the allocated `ObjectState`s and
every live `AddressSpace`; what an `ObjectState` contains is a parameter here. -/
namespace Klee

/-- The part of an `ObjectState` that `AddressSpace` looks at, and its contents. -/
structure ObjectCell (α : Type) where
  copyOnWriteOwner : BitVec 32
  readOnly : Bool
  contents : α

/-- `objects` maps a `MemoryObject` to the address of its `ObjectState`. -/
structure AddressSpace where
  cowKey : BitVec 32
  objects : Nat → Option Nat

namespace AddressSpace

variable {α : Type}

/-- `AddressSpace()` -/
def empty : AddressSpace := ⟨1, fun _ => none⟩

/-- The copy constructor increments the key of the original, and the copy takes it over.
The first component is the original. -/
def copy (b : AddressSpace) : AddressSpace × AddressSpace :=
  let b := { b with cowKey := b.cowKey + 1 }
  (b, ⟨b.cowKey, b.objects⟩)

def findObject (s : AddressSpace) (mo : Nat) : Option Nat := s.objects mo

/-- `objects.replace` -/
def replace (s : AddressSpace) (mo os : Nat) : AddressSpace :=
  { s with objects := Function.update s.objects mo (some os) }

def unbindObject (s : AddressSpace) (mo : Nat) : AddressSpace :=
  { s with objects := Function.update s.objects mo none }

def bindObject (heap : List (ObjectCell α)) (s : AddressSpace) (mo os : Nat) :
    Option (List (ObjectCell α) × AddressSpace) := do
  let cell ← heap[os]?
  guard (cell.copyOnWriteOwner = 0)
  some (heap.set os { cell with copyOnWriteOwner := s.cowKey }, s.replace mo os)

/-- The object itself when the space owns it, else a copy that the space owns. -/
def getWriteable (heap : List (ObjectCell α)) (s : AddressSpace) (mo os : Nat) :
    Option (List (ObjectCell α) × AddressSpace × Nat) := do
  let cell ← heap[os]?
  guard (cell.readOnly = false)
  if s.cowKey = cell.copyOnWriteOwner then some (heap, s, os)
  else some (heap ++ [⟨s.cowKey, false, cell.contents⟩], s.replace mo heap.length, heap.length)

end AddressSpace

structure Configuration (α : Type) where
  heap : List (ObjectCell α)
  spaces : List AddressSpace

namespace Configuration

variable {α : Type}

def init : Configuration α := ⟨[], [.empty]⟩

inductive Op (α : Type) where
  | fork (i : Nat)
  | alloc (contents : α)
  | setReadOnly (os : Nat) (ro : Bool)
  | bindObject (i mo os : Nat)
  | unbindObject (i mo : Nat)
  | write (i mo : Nat) (f : α → α)

/-- One operation; `none` when an assertion fails or there is nothing to operate on. A write
goes to the object that `getWriteable` returns. -/
def step (c : Configuration α) : Op α → Option (Configuration α)
  | .fork i => do
    let s ← c.spaces[i]?
    some ⟨c.heap, c.spaces.set i s.copy.1 ++ [s.copy.2]⟩
  | .alloc contents => some ⟨c.heap ++ [⟨0, false, contents⟩], c.spaces⟩
  | .setReadOnly os ro => do
    let cell ← c.heap[os]?
    some ⟨c.heap.set os { cell with readOnly := ro }, c.spaces⟩
  | .bindObject i mo os => do
    let s ← c.spaces[i]?
    let (heap, s) ← s.bindObject c.heap mo os
    some ⟨heap, c.spaces.set i s⟩
  | .unbindObject i mo => do
    let s ← c.spaces[i]?
    some ⟨c.heap, c.spaces.set i (s.unbindObject mo)⟩
  | .write i mo f => do
    let s ← c.spaces[i]?
    let os ← s.findObject mo
    let (heap, s, os) ← s.getWriteable c.heap mo os
    let cell ← heap[os]?
    some ⟨heap.set os { cell with contents := f cell.contents }, c.spaces.set i s⟩

/-- The contents that space `i` sees for `mo`. -/
def read (c : Configuration α) (i mo : Nat) : Option α := do
  let s ← c.spaces[i]?
  let os ← s.findObject mo
  let cell ← c.heap[os]?
  some cell.contents

/-- The configurations reached from `c` by steps that meet `P`. -/
inductive Steps (P : Configuration α → Op α → Prop) (c : Configuration α) :
    Configuration α → Prop
  | refl : Steps P c c
  | step {c' c'' : Configuration α} {op : Op α} (h : Steps P c c') (hP : P c' op)
      (hop : c'.step op = some c'') : Steps P c c''

end Configuration

end Klee

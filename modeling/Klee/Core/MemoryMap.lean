import Klee.Core.ObjectState

/-! The objects of a state, in the order of their addresses. A state is seen alone here; what
`getWriteable` shares and copies is in `AddressSpace`. -/
namespace Klee

structure MemoryObject where
  address : BitVec 64
  size : Nat
  isUserSpecified : Bool
deriving DecidableEq

/-- The address is between the start and the end of the object, or is that of an object of no
bytes. -/
def MemoryObject.Contains (mo : MemoryObject) (address : BitVec 64) : Prop :=
  (mo.size = 0 ∧ address = mo.address) ∨ (address - mo.address).toNat < mo.size

instance (mo : MemoryObject) (address : BitVec 64) : Decidable (mo.Contains address) :=
  inferInstanceAs (Decidable (_ ∨ _))

abbrev ObjectPair := MemoryObject × ObjectState

/-- `objects` -/
abbrev MemoryMap := List ObjectPair

namespace MemoryMap

/-- The order of `MemoryObjectLT`. -/
def Sorted (objects : MemoryMap) : Prop := objects.Pairwise fun p q => p.1.address < q.1.address

/-- `lookup_previous`: the last object that does not begin after the address. -/
def lookupPrevious (objects : MemoryMap) (address : BitVec 64) : Option ObjectPair :=
  objects.reverse.find? fun p => p.1.address ≤ address

/-- `resolveOne` for a constant address -/
def resolveOne (objects : MemoryMap) (address : BitVec 64) : Option ObjectPair :=
  match objects.lookupPrevious address with
  | some p => if p.1.Contains address then some p else none
  | none => none

/-- `objects.replace` for an object of the map -/
def replace (objects : MemoryMap) (mo : MemoryObject) (os : ObjectState) : MemoryMap :=
  objects.map fun p => if p.1.address = mo.address then (mo, os) else p

variable {objects : MemoryMap} {address : BitVec 64} {p q : ObjectPair}

theorem mem_of_resolveOne (h : objects.resolveOne address = some p) :
    p ∈ objects ∧ p.1.Contains address := by
  unfold resolveOne at h
  cases hp : objects.lookupPrevious address with
  | none =>
    rw [hp] at h
    cases h
  | some q =>
    rw [hp] at h
    dsimp only at h
    split at h
    · obtain rfl := Option.some.inj h
      exact ⟨List.mem_reverse.mp (List.mem_of_find?_eq_some hp), ‹_›⟩
    · cases h

theorem Sorted.nodup (h : objects.Sorted) : (objects.map (·.1.address)).Nodup := by
  refine List.pairwise_map.mpr (h.imp fun hlt => ?_)
  exact BitVec.ne_of_lt hlt

/-- An address names one object. -/
theorem Sorted.eq_of_address (h : objects.Sorted) (hp : p ∈ objects) (hq : q ∈ objects)
    (heq : p.1.address = q.1.address) : p = q := List.inj_on_of_nodup_map h.nodup hp hq heq

end MemoryMap

end Klee

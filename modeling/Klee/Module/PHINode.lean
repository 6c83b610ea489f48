import Mathlib.Tactic

/-! Phi nodes: one incoming value for each edge into their block. Basic blocks are known by
numbers. -/
namespace Klee

structure PHINode (V : Type*) where
  incoming : List (Nat × V)

namespace PHINode

variable {V : Type*} {pn : PHINode V} {l b : Nat}

/-- `none` for -1 -/
def getBasicBlockIndex (pn : PHINode V) (block : Nat) : Option Nat :=
  pn.incoming.findIdx? (·.1 == block)

def setIncomingBlock (pn : PHINode V) (i : Nat) (block : Nat) : PHINode V :=
  ⟨pn.incoming.modify i fun entry => (block, entry.2)⟩

def setIncomingValue (pn : PHINode V) (i : Nat) (value : V) : PHINode V :=
  ⟨pn.incoming.modify i fun entry => (entry.1, value)⟩

def getIncomingValue (pn : PHINode V) (i : Nat) : Option V := pn.incoming[i]?.map (·.2)

def getIncomingValueForBlock (pn : PHINode V) (block : Nat) : Option V :=
  (pn.getBasicBlockIndex block).bind pn.getIncomingValue

def entries (pn : PHINode V) (block : Nat) : Nat := (pn.incoming.map (·.1)).count block

def Consistent (pn : PHINode V) : Prop :=
  ∀ e ∈ pn.incoming, ∀ e' ∈ pn.incoming, e.1 = e'.1 → e.2 = e'.2

theorem getIncomingValueForBlock_cons (e : Nat × V) (incoming : List (Nat × V)) (l : Nat) :
    getIncomingValueForBlock ⟨e :: incoming⟩ l =
      if e.1 = l then some e.2 else getIncomingValueForBlock ⟨incoming⟩ l := by
  unfold getIncomingValueForBlock getBasicBlockIndex
  rw [List.findIdx?_cons]
  by_cases hl : e.1 = l
  · rw [if_pos hl, if_pos (beq_iff_eq.mpr hl)]
    rfl
  · rw [if_neg hl, if_neg fun h => hl (beq_iff_eq.mp h), Option.bind_map]
    rfl

/-- The value for a block is that of some entry of it, and there is one if there is an entry. -/
theorem getIncomingValueForBlock_eq_some {v : V} (h : pn.getIncomingValueForBlock l = some v) :
    (l, v) ∈ pn.incoming := by
  obtain ⟨incoming⟩ := pn
  induction incoming with
  | nil => cases h
  | cons e incoming ih =>
    rw [getIncomingValueForBlock_cons] at h
    split_ifs at h with hl
    · rw [← hl, ← Option.some.inj h]
      exact List.mem_cons_self
    · exact List.mem_cons_of_mem e (ih h)

theorem exists_getIncomingValueForBlock (h : 0 < pn.entries l) :
    ∃ v, pn.getIncomingValueForBlock l = some v := by
  obtain ⟨incoming⟩ := pn
  induction incoming with
  | nil => exact absurd h (lt_irrefl 0)
  | cons e incoming ih =>
    rw [getIncomingValueForBlock_cons]
    split_ifs with hl
    · exact ⟨e.2, rfl⟩
    · refine ih ?_
      rwa [entries, List.map_cons, List.count_cons_of_ne hl] at h

theorem Consistent.eq_some (h : pn.Consistent) {v : V} (hmem : (l, v) ∈ pn.incoming) :
    pn.getIncomingValueForBlock l = some v := by
  have hpos : 0 < pn.entries l :=
    List.count_pos_iff.mpr (List.mem_map.mpr ⟨(l, v), hmem, rfl⟩)
  obtain ⟨v', hv'⟩ := exists_getIncomingValueForBlock hpos
  exact hv'.trans (congrArg some (h _ (getIncomingValueForBlock_eq_some hv') _ hmem rfl))

end PHINode

end Klee

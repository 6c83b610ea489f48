import Klee.Support.MapOfSets
import Mathlib.Data.Finset.Sort

/-! `MapOfSets::subsets`, `supersets` and the iterator. -/
namespace Klee.MapOfSets

variable {K V : Type} [LinearOrder K]

section Collect

def isEndOfSet : MapOfSets K V → Bool
  | node value _ => value.isSome

def children : MapOfSets K V → Children K V
  | node _ children => children

def entry : MapOfSets K V → Finset K → List (Finset K × V)
  | node value _, accum => (value.map fun x => (accum, x)).toList

def Children.find : Children K V → K → Option (MapOfSets K V)
  | .nil, _ => none
  | .cons key child rest, elt => if elt = key then some child else rest.find elt

/-- The loop of `findSubsets` over the elements of the set. -/
def findSubsetsFrom : List K → Children K V → Finset K → List (Finset K × V)
  | [], _, _ => []
  | elt :: it, children, accum =>
    (match children.find elt with
      | none => []
      | some kid => kid.entry (Insert.insert elt accum) ++
          findSubsetsFrom it kid.children (Insert.insert elt accum)) ++
      findSubsetsFrom it children accum

def findSubsets (n : MapOfSets K V) (accum : Finset K) (set : List K) : List (Finset K × V) :=
  n.entry accum ++ findSubsetsFrom set n.children accum

mutual

def findSupersets : MapOfSets K V → Finset K → List K → List (Finset K × V)
  | node value children, accum, [] =>
    (node value children).entry accum ++ children.findSupersets accum []
  | node _ children, accum, elt :: next => children.findSupersets accum (elt :: next)

def Children.findSupersets : Children K V → Finset K → List K → List (Finset K × V)
  | .nil, _, _ => []
  | .cons key child rest, accum, [] =>
    child.findSupersets (Insert.insert key accum) [] ++ rest.findSupersets accum []
  | .cons key child rest, accum, elt :: next =>
    if elt = key then
      child.findSupersets (Insert.insert key accum) next ++ rest.findSupersets accum (elt :: next)
    else if key < elt then
      child.findSupersets (Insert.insert key accum) (elt :: next) ++
        rest.findSupersets accum (elt :: next)
    else []

end

def subsets (m : MapOfSets K V) (set : List K) : List (Finset K × V) := m.findSubsets ∅ set

def supersets (m : MapOfSets K V) (set : List K) : List (Finset K × V) := m.findSupersets ∅ set

end Collect

section Iterator

/-- The positions in the maps of children, the last one on top: each is what is left of its map. -/
abbrev Stack (K V : Type) := List (Children K V)

structure Iterator (K V : Type) where
  onEntry : Bool
  stack : Stack K V

mutual

/-- The first loop of `step`: down the first children to the end of a set, if there is one. -/
def descend : MapOfSets K V → Stack K V → Bool × Stack K V
  | node _ children, stack => children.descend stack

def Children.descend : Children K V → Stack K V → Bool × Stack K V
  | .nil, stack => (false, stack)
  | .cons key child rest, stack =>
    if child.isEndOfSet then (true, .cons key child rest :: stack)
    else child.descend (.cons key child rest :: stack)

end

mutual

/-- The inner loop of the second one, with none where its assertion fails. -/
def descendToEnd : MapOfSets K V → Stack K V → Option (Stack K V)
  | node (some _) _, stack => some stack
  | node none children, stack => children.descendToEnd stack

def Children.descendToEnd : Children K V → Stack K V → Option (Stack K V)
  | .nil, _ => none
  | .cons key child rest, stack => child.descendToEnd (.cons key child rest :: stack)

end

/-- The second loop of `step`. An end is never advanced. -/
def advance : Stack K V → Option (Iterator K V)
  | [] => some ⟨false, []⟩
  | .nil :: _ => none
  | .cons _ _ .nil :: stack => advance stack
  | .cons _ _ (.cons key child rest) :: stack =>
    (child.descendToEnd (.cons key child rest :: stack)).map fun stack => ⟨true, stack⟩

def nodeAt (root : MapOfSets K V) : Stack K V → Option (MapOfSets K V)
  | [] => some root
  | .nil :: _ => none
  | .cons _ child _ :: _ => some child

def Iterator.step (root : MapOfSets K V) (it : Iterator K V) : Option (Iterator K V) :=
  if it.onEntry then
    (root.nodeAt it.stack).bind fun n =>
      match n.descend it.stack with
      | (true, stack) => some ⟨true, stack⟩
      | (false, stack) => advance stack
  else advance it.stack

/-- `end()` -/
def last : Iterator K V := ⟨false, []⟩

/-- `begin()` -/
def first (root : MapOfSets K V) : Option (Iterator K V) :=
  if root.isEndOfSet then some ⟨true, []⟩ else Iterator.step root ⟨true, []⟩

def keys : Stack K V → Finset K
  | [] => ∅
  | .nil :: stack => keys stack
  | .cons key _ _ :: stack => Insert.insert key (keys stack)

/-- `operator*`, with none where the assertion fails or there is no value. -/
def Iterator.deref (root : MapOfSets K V) (it : Iterator K V) : Option (Finset K × V) :=
  if it.onEntry = true ∨ it.stack ≠ [] then
    (root.nodeAt it.stack).bind fun n => (n.entry (keys it.stack)).head?
  else none

end Iterator

end Klee.MapOfSets

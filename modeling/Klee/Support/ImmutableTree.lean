/-! The height-balanced trees of `ImmutableTree`. Nodes are never written after they are built. -/
namespace Klee.ImmutableTree

inductive Node (V : Type) where
  | terminator
  | node (left right : Node V) (value : V) (height : Nat)

namespace Node

variable {K V : Type}

def height : Node V → Nat
  | terminator => 0
  | node _ _ _ height => height

def isTerminator : Node V → Bool
  | terminator => true
  | node .. => false

def mk (left right : Node V) (value : V) : Node V :=
  node left right value (max left.height right.height + 1)

/-- No child that is deeper than another node is the terminator, so the rows for it are not
reached. -/
def balance (left : Node V) (value : V) (right : Node V) : Node V :=
  if left.height > right.height + 2 then
    match left with
    | terminator => mk left right value
    | node ll lr leftValue _ =>
      if ll.height ≥ lr.height then mk ll (mk lr right value) leftValue
      else
        match lr with
        | terminator => mk left right value
        | node lrl lrr lrValue _ => mk (mk ll lrl leftValue) (mk lrr right value) lrValue
  else if right.height > left.height + 2 then
    match right with
    | terminator => mk left right value
    | node rl rr rightValue _ =>
      if rr.height ≥ rl.height then mk (mk left rl value) rr rightValue
      else
        match rl with
        | terminator => mk left right value
        | node rll rlr rlValue _ => mk (mk left rll value) (mk rlr rr rightValue) rlValue
  else mk left right value

def size : Node V → Nat
  | terminator => 0
  | node left right _ _ => left.size + 1 + right.size

section Pop

variable [Inhabited V]

/-- `valueOut` and the rest; the terminator's value is the default one. -/
def popMin : Node V → V × Node V
  | terminator => (default, terminator)
  | node left right value _ =>
    if left.isTerminator then (value, right)
    else (left.popMin.1, balance left.popMin.2 value right)

def popMax : Node V → V × Node V
  | terminator => (default, terminator)
  | node left right value _ =>
    if right.isTerminator then (value, left)
    else (right.popMax.1, balance left value right.popMax.2)

end Pop

variable (lt : K → K → Prop) [DecidableRel lt] (key : V → K)

section Update

def insert (v : V) : Node V → Node V
  | terminator => mk terminator terminator v
  | node left right value height =>
    if lt (key v) (key value) then balance (left.insert v) value right
    else if lt (key value) (key v) then balance left value (right.insert v)
    else node left right value height

def replace (v : V) : Node V → Node V
  | terminator => mk terminator terminator v
  | node left right value _ =>
    if lt (key v) (key value) then balance (left.replace v) value right
    else if lt (key value) (key v) then balance left value (right.replace v)
    else mk left right v

def remove [Inhabited V] (k : K) : Node V → Node V
  | terminator => terminator
  | node left right value _ =>
    if lt k (key value) then balance (left.remove k) value right
    else if lt (key value) k then balance left value (right.remove k)
    else if left.isTerminator then right
    else if right.isTerminator then left
    else balance left right.popMin.1 right.popMin.2

end Update

section Lookup

def lookup (k : K) : Node V → Option V
  | terminator => none
  | node left right value _ =>
    if lt k (key value) then left.lookup k
    else if lt (key value) k then right.lookup k
    else some value

/-- The loop of `lookup_previous`, with the last node found so far. -/
def lookupPreviousFrom (k : K) (result : Option V) : Node V → Option V
  | terminator => result
  | node left right value _ =>
    if lt k (key value) then left.lookupPreviousFrom k result
    else if lt (key value) k then right.lookupPreviousFrom k (some value)
    else some value

def lookupPrevious (k : K) (n : Node V) : Option V := n.lookupPreviousFrom lt key k none

end Lookup

end Node

end Klee.ImmutableTree

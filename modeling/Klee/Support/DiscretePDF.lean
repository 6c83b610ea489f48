import Mathlib.Algebra.Order.Field.Basic
import Mathlib.Logic.Function.Basic

/-! `DiscretePDF`: items chosen at random by their weights, in a red-black tree whose nodes hold the
sums of the weights below them. A failed assertion, a null pointer that is followed and a node that
is used after it was deleted are `none`. -/
namespace Klee

/-- `Node *`. Nodes are told apart by the order in which they were built. -/
abbrev DiscretePDF.Pointer := Nat

/-- `class Node`; `mark` is set on a red node. -/
structure DiscretePDF.Node (K W : Type) where
  parent : Option DiscretePDF.Pointer
  left : Option DiscretePDF.Pointer
  right : Option DiscretePDF.Pointer
  key : K
  weight : W
  sumWeights : W
  mark : Bool

structure DiscretePDF (K W : Type) where
  nodes : DiscretePDF.Pointer → Option (DiscretePDF.Node K W)
  root : Option DiscretePDF.Pointer
  next : DiscretePDF.Pointer

namespace DiscretePDF

variable {K W : Type}

def new : DiscretePDF K W := ⟨fun _ => none, none, 0⟩

def empty (s : DiscretePDF K W) : Bool := s.root.isNone

def modify (s : DiscretePDF K W) (n : Pointer) (f : Node K W → Node K W) :
    Option (DiscretePDF K W) :=
  (s.nodes n).map fun c => { s with nodes := Function.update s.nodes n (some (f c)) }

section Colors

def markRed (s : DiscretePDF K W) (n : Pointer) : Option (DiscretePDF K W) :=
  s.modify n fun c => { c with mark := true }

def markBlack (s : DiscretePDF K W) (n : Pointer) : Option (DiscretePDF K W) :=
  s.modify n fun c => { c with mark := false }

def isBlack (s : DiscretePDF K W) (n : Pointer) : Option Bool := (s.nodes n).map fun c => !c.mark

def childIsBlack (s : DiscretePDF K W) (child : Option Pointer) : Option Bool :=
  child.elim (some true) s.isBlack

def markChildBlack (s : DiscretePDF K W) (child : Option Pointer) : Option (DiscretePDF K W) :=
  child.elim (some s) s.markBlack

end Colors

section Sums

variable [Zero W] [Add W]

def childSum (s : DiscretePDF K W) (child : Option Pointer) : Option W :=
  child.elim (some 0) fun c => (s.nodes c).map (·.sumWeights)

def setSum (s : DiscretePDF K W) (n : Pointer) : Option (DiscretePDF K W) := do
  let c ← s.nodes n
  let l ← s.childSum c.left
  let r ← s.childSum c.right
  s.modify n fun c => { c with sumWeights := c.weight + l + r }

def propagateSumsUpFrom : Nat → DiscretePDF K W → Option Pointer → Option (DiscretePDF K W)
  | _, s, none => some s
  | 0, _, some _ => none
  | fuel + 1, s, some n => do
    let s ← s.setSum n
    let c ← s.nodes n
    propagateSumsUpFrom fuel s c.parent

def propagateSumsUp (s : DiscretePDF K W) (n : Option Pointer) : Option (DiscretePDF K W) :=
  propagateSumsUpFrom s.next s n

end Sums

section Balance

variable [Zero W] [Add W]

def setChildParent (s : DiscretePDF K W) (child : Option Pointer) (p : Option Pointer) :
    Option (DiscretePDF K W) :=
  child.elim (some s) fun c => s.modify c fun c => { c with parent := p }

def rotate (s : DiscretePDF K W) (n : Pointer) : Option (DiscretePDF K W) := do
  let p ← (← s.nodes n).parent
  let pp := (← s.nodes p).parent
  let s ← s.modify n fun c => { c with parent := pp }
  let s ← s.modify p fun c => { c with parent := some n }
  let nc ← s.nodes n
  let pc ← s.nodes p
  let s ← if pc.left = some n then do
      let s ← s.modify p fun c => { c with left := nc.right }
      let s ← s.modify n fun c => { c with right := some p }
      s.setChildParent nc.right (some p)
    else do
      let s ← s.modify p fun c => { c with right := nc.left }
      let s ← s.modify n fun c => { c with left := some p }
      s.setChildParent nc.left (some p)
  let s ← s.setSum n
  let s ← s.setSum p
  match pp with
  | none => some { s with root := some n }
  | some pp => do
    if (← s.nodes pp).left = some p then s.modify pp fun c => { c with left := some n }
    else s.modify pp fun c => { c with right := some n }

def split (s : DiscretePDF K W) (n : Pointer) : Option (DiscretePDF K W) := do
  let c ← s.nodes n
  let s ← s.markChildBlack c.left
  let s ← s.markChildBlack c.right
  match c.parent with
  | none => some s
  | some p => do
    let s ← s.markRed n
    if ← s.isBlack p then some s
    else
      let pp ← (← s.nodes p).parent
      let s ← s.markRed pp
      let pc ← s.nodes p
      let ppc ← s.nodes pp
      -- not same direction
      if ¬ ((pc.left = some n ∧ ppc.left = some p) ∨ (pc.right = some n ∧ ppc.right = some p)) then
        let s ← s.rotate n
        let s ← s.rotate n
        s.markBlack n
      else
        let s ← s.rotate p
        s.markBlack p

def sibling (s : DiscretePDF K W) (n : Pointer) : Option (Option Pointer) := do
  let p ← (← s.nodes n).parent
  let pc ← s.nodes p
  if pc.left = some n then some pc.right else some pc.left

def lengthenRedSibling (s : DiscretePDF K W) (n p : Pointer) : Option (DiscretePDF K W) := do
  match ← s.sibling n with
  | none => some s
  | some sibling => do
    if ← s.isBlack sibling then some s
    else
      let s ← s.markRed p
      let s ← s.markBlack sibling
      s.rotate sibling

def rotateAbove (s : DiscretePDF K W) (child sibling : Pointer) :
    Option (DiscretePDF K W × Pointer) := do
  let s ← s.rotate child
  let s ← s.markRed sibling
  let above ← (← s.nodes sibling).parent
  let s ← s.markBlack above
  some (s, above)

/-- The sibling is black, and a child of it is red; afterwards the child far from `n` is. -/
def reddenFarChild (s : DiscretePDF K W) (n sibling : Pointer) :
    Option (DiscretePDF K W × Pointer) := do
  let p ← (← s.nodes n).parent
  let pc ← s.nodes p
  let sc ← s.nodes sibling
  let leftIsBlack ← s.childIsBlack sc.left
  let rightIsBlack ← s.childIsBlack sc.right
  if pc.left = some n ∧ rightIsBlack then s.rotateAbove (← sc.left) sibling
  else if pc.right = some n ∧ leftIsBlack then s.rotateAbove (← sc.right) sibling
  else some (s, sibling)

/-- The end of `lengthen`: the sibling is black, and its child far from `n` is red. -/
def raiseSibling (s : DiscretePDF K W) (n sibling : Pointer) : Option (DiscretePDF K W) := do
  let s ← s.rotate sibling
  let p ← (← s.nodes n).parent
  let black ← s.isBlack p
  let s ← (if black then some s else s.markRed sibling)
  let s ← s.markBlack (← (← s.nodes sibling).left)
  s.markBlack (← (← s.nodes sibling).right)

def lengthenFrom : Nat → DiscretePDF K W → Pointer → Option (DiscretePDF K W)
  | 0, _, _ => none
  | fuel + 1, s, n => do
    if ¬ (← s.isBlack n) then s.markBlack n
    else match (← s.nodes n).parent with
    | none => some s
    | some p => do
      let s ← s.lengthenRedSibling n p
      match ← s.sibling n with
      | none => lengthenFrom fuel s p
      | some sibling => do
        let sc ← s.nodes sibling
        if (← s.childIsBlack sc.left) && (← s.childIsBlack sc.right) then
          if ← s.isBlack p then
            let s ← s.markRed sibling
            lengthenFrom fuel s p
          else
            let s ← s.markRed sibling
            s.markBlack p
        else
          let (s, sibling) ← s.reddenFarChild n sibling
          s.raiseSibling n sibling

def lengthen (s : DiscretePDF K W) (n : Pointer) : Option (DiscretePDF K W) :=
  lengthenFrom (s.next + 1) s n

end Balance

section Operations

variable [LinearOrder K]

/-- `Node **`: where a pointer to a node is kept. -/
inductive Link where
  | root
  | left (n : Pointer)
  | right (n : Pointer)

/-- `*np` -/
def follow (s : DiscretePDF K W) : Link → Option (Option Pointer)
  | .root => some s.root
  | .left n => (s.nodes n).map (·.left)
  | .right n => (s.nodes n).map (·.right)

/-- `*np = child` -/
def assign (s : DiscretePDF K W) (np : Link) (child : Option Pointer) : Option (DiscretePDF K W) :=
  match np with
  | .root => some { s with root := child }
  | .left n => s.modify n fun c => { c with left := child }
  | .right n => s.modify n fun c => { c with right := child }

def lookupFrom (s : DiscretePDF K W) (item : K) : Nat → Link → Option Link
  | 0, _ => none
  | fuel + 1, np => do
    match ← s.follow np with
    | none => some np
    | some n => do
      let c ← s.nodes n
      if c.key = item then some np
      else lookupFrom s item fuel (if item < c.key then .left n else .right n)

def lookup (s : DiscretePDF K W) (item : K) : Option Link := s.lookupFrom item (s.next + 1) .root

def inTree (s : DiscretePDF K W) (item : K) : Option Bool := do
  return (← s.follow (← s.lookup item)).isSome

def getWeight (s : DiscretePDF K W) (item : K) : Option W := do
  let n ← ← s.follow (← s.lookup item)
  return (← s.nodes n).weight

section Insert

variable [Zero W] [Add W]

/-- The loop of `insert`: the tree with the parent for the item. -/
def insertLoop (item : K) : Nat → DiscretePDF K W → Option Pointer → Option Pointer →
    Option (DiscretePDF K W × Option Pointer)
  | _, s, p, none => some (s, p)
  | 0, _, _, some _ => none
  | fuel + 1, s, _, some n => do
    let c ← s.nodes n
    let leftIsBlack ← s.childIsBlack c.left
    let rightIsBlack ← s.childIsBlack c.right
    let s ← (if !leftIsBlack && !rightIsBlack then s.split n else some s)
    let c ← s.nodes n
    if c.key = item then none
    else insertLoop item fuel s (some n) (if item < c.key then c.left else c.right)

/-- The rest of `insert`, below the parent for the item. -/
def insertAt (s : DiscretePDF K W) (p : Option Pointer) (item : K) (weight : W) :
    Option (DiscretePDF K W) := do
  let n := s.next
  let s : DiscretePDF K W :=
    { s with
      nodes := Function.update s.nodes n (some ⟨p, none, none, item, weight, 0, false⟩)
      next := n + 1 }
  let s ← match p with
    | none => some { s with root := some n }
    | some p => do
      let pc ← s.nodes p
      let s ← s.assign (if item < pc.key then .left p else .right p) (some n)
      s.split n
  s.propagateSumsUp (some n)

def insert (s : DiscretePDF K W) (item : K) (weight : W) : Option (DiscretePDF K W) := do
  let (s, p) ← insertLoop item (2 * s.next + 1) s none s.root
  s.insertAt p item weight

end Insert

section Remove

/-- The loop of `remove`, to the link of the largest item. -/
def rightmostFrom (s : DiscretePDF K W) : Nat → Link → Option Link
  | 0, _ => none
  | fuel + 1, np => do
    let n ← ← s.follow np
    match (← s.nodes n).right with
    | none => some np
    | some _ => rightmostFrom s fuel (.right n)

/-- The link to the node that `remove` takes out: the item's own, or the largest item's on its
left. -/
def removedLink (s : DiscretePDF K W) (item : K) : Option Link := do
  let np ← s.lookup item
  let n ← ← s.follow np
  match (← s.nodes n).left with
  | none => some np
  | some _ => s.rightmostFrom s.next (.left n)

variable [Zero W] [Add W]

/-- The only child of `n` gets the parent of `n`. -/
def adopt (s : DiscretePDF K W) (n : Pointer) (child : Option Pointer) :
    Option (DiscretePDF K W) :=
  match child with
  | none => some s
  | some child => do
    let c ← s.nodes n
    let s ← s.modify child fun d => { d with parent := c.parent }
    let black ← s.isBlack n
    if black then s.lengthen child else some s

/-- The end of `remove`, for a node with at most one child. -/
def takeOut (s : DiscretePDF K W) (np : Link) : Option (DiscretePDF K W) := do
  let n ← ← s.follow np
  let c ← s.nodes n
  let child := if c.left.isSome then c.left else c.right
  let s ← s.assign np child
  let s ← s.adopt n child
  let s ← s.propagateSumsUp (← s.nodes n).parent
  some { s with nodes := Function.update s.nodes n none }

def remove (s : DiscretePDF K W) (item : K) : Option (DiscretePDF K W) := do
  let np ← s.lookup item
  let n ← ← s.follow np
  match (← s.nodes n).left with
  | none => s.takeOut np
  | some _ => do
    let leftMaxp ← s.rightmostFrom s.next (.left n)
    let max ← s.nodes (← ← s.follow leftMaxp)
    let s ← s.modify n fun c => { c with key := max.key, weight := max.weight }
    s.takeOut leftMaxp

def update (s : DiscretePDF K W) (item : K) (weight : W) : Option (DiscretePDF K W) := do
  let n ← ← s.follow (← s.lookup item)
  let s ← s.modify n fun c => { c with weight := weight }
  s.propagateSumsUp (some n)

end Remove

section Choose

variable [Zero W] [Mul W] [One W] [Sub W] [LT W] [DecidableLT W] [LE W] [DecidableLE W]

def chooseFrom (s : DiscretePDF K W) : Nat → W → Pointer → Option K
  | 0, _, _ => none
  | fuel + 1, w, n => do
    let c ← s.nodes n
    let rest (w : W) : Option K :=
      match c.right with
      | none => some c.key
      | some r => if w < c.weight then some c.key else chooseFrom s fuel (w - c.weight) r
    match c.left with
    | none => rest w
    | some l => do
      let sum := (← s.nodes l).sumWeights
      if w < sum then chooseFrom s fuel w l else rest (w - sum)

def choose (s : DiscretePDF K W) (p : W) : Option K := do
  guard (¬ (p < 0 ∨ p ≥ 1))
  let n ← s.root
  chooseFrom s s.next ((← s.nodes n).sumWeights * p) n

end Choose

end Operations

end DiscretePDF

end Klee

import Mathlib.Data.BitVec
import Mathlib.Tactic

/-! `CallPathManager`: the nodes for the call paths that are met, and their statistics. A pointer to
a node is a number: 0 is `root`, and `paths[k]` is `k + 1`. -/
namespace Klee

abbrev StatisticRecord (m : ℕ) := Fin m → BitVec 64

abbrev CallKey (I F : Type) := Option I × Option F

structure CallPathNode (I F : Type) (m : ℕ) where
  parent : Option ℕ
  callSite : Option I
  function : Option F
  children : CallKey I F → Option ℕ
  statistics : StatisticRecord m
  summaryStatistics : StatisticRecord m
  count : BitVec 32

structure CallSiteInfo (m : ℕ) where
  count : BitVec 32
  statistics : StatisticRecord m

/-- `results`: the entries that there are so far -/
abbrev CallSiteSummaryTable (I F : Type) (m : ℕ) := CallKey I F → Option (CallSiteInfo m)

/-- The nodes up to `size`, which is `paths.size()`. -/
structure CallPathManager (I F : Type) (m : ℕ) where
  size : ℕ
  node : ℕ → CallPathNode I F m

namespace CallPathNode

variable {I F : Type} {m : ℕ}

def new (parent : Option ℕ) (callSite : Option I) (function : Option F) : CallPathNode I F m :=
  ⟨parent, callSite, function, fun _ => none, 0, 0, 0⟩

def key (cp : CallPathNode I F m) : CallKey I F := (cp.callSite, cp.function)

end CallPathNode

namespace CallPathManager

variable {I F : Type} {m : ℕ}

def initial : CallPathManager I F m := ⟨0, fun _ => .new none none none⟩

variable (c : CallPathManager I F m)

def setNode (p : ℕ) (cp : CallPathNode I F m) : CallPathManager I F m :=
  { c with node := Function.update c.node p cp }

section Paths

variable [DecidableEq I] [DecidableEq F]

/-- The loop of `computeCallPath` from a node upwards. There are at most `p` nodes above `p`. -/
def findAbove (cs : Option I) (f : Option F) : ℕ → ℕ → Option ℕ
  | 0, _ => none
  | fuel + 1, p =>
    if cs = (c.node p).callSite ∧ f = (c.node p).function then some p
    else
      match (c.node p).parent with
      | none => none
      | some p => findAbove cs f fuel p

def computeCallPath (parent : ℕ) (cs : Option I) (f : Option F) : ℕ × CallPathManager I F m :=
  match c.findAbove cs f (parent + 1) parent with
  | some p => (p, c)
  | none =>
    (c.size + 1, { c.setNode (c.size + 1) (.new (some parent) cs f) with size := c.size + 1 })

def getCallPath (parent : Option ℕ) (cs : Option I) (f : Option F) : ℕ × CallPathManager I F m :=
  let parent := parent.getD 0
  match (c.node parent).children (cs, f) with
  | some cp => (cp, c)
  | none =>
    let (cp, c) := c.computeCallPath parent cs f
    let node := c.node parent
    (cp, c.setNode parent { node with
      children := Function.update node.children (cs, f) (some cp) })

end Paths

section Summary

/-- The first loop of `getSummaryStatistics`. That of the root stays what it was. -/
def resetSummaries : CallPathManager I F m :=
  { c with node := fun p =>
    if 0 < p ∧ p ≤ c.size then
      { c.node p with summaryStatistics := (c.node p).statistics }
    else c.node p }

/-- `cp->parent->summaryStatistics += cp->summaryStatistics` -/
def addToParent (p : ℕ) : CallPathManager I F m :=
  match (c.node p).parent with
  | none => c
  | some q => c.setNode q { c.node q with
      summaryStatistics := (c.node q).summaryStatistics + (c.node p).summaryStatistics }

variable [DecidableEq I] [DecidableEq F]

/-- `results[cp->callSite][cp->function]` takes a node. -/
def addEntry (results : CallSiteSummaryTable I F m) (cp : CallPathNode I F m) :
    CallSiteSummaryTable I F m :=
  let csi := (results cp.key).getD ⟨0, 0⟩
  Function.update results cp.key
    (some ⟨csi.count + cp.count, csi.statistics + cp.summaryStatistics⟩)

/-- The second loop, from the path at `k - 1` on. -/
def summarize : ℕ → CallPathManager I F m → CallSiteSummaryTable I F m →
    CallPathManager I F m × CallSiteSummaryTable I F m
  | 0, c, results => (c, results)
  | k + 1, c, results =>
    let c := c.addToParent (k + 1)
    summarize k c (addEntry results (c.node (k + 1)))

def getSummaryStatistics : CallPathManager I F m × CallSiteSummaryTable I F m :=
  summarize c.size c.resetSummaries fun _ => none

end Summary

end CallPathManager

end Klee

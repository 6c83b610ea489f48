import Mathlib.Data.List.Perm.Basic
import Mathlib.Tactic

/-! `PTree`, the process tree. A node is given by the state it carries, as `ptreeNode` of that
state points to it. -/
namespace Klee

/-- The address of an `ExecutionState`. -/
abbrev StateId := Nat

/-- `null` is a missing child, and `leaf` a node that carries a state. -/
inductive PTree where
  | null
  | leaf (state : StateId)
  | node (left right : PTree)
deriving DecidableEq, Repr

namespace PTree

def leaves : PTree → List StateId
  | null => []
  | leaf s => [s]
  | node left right => left.leaves ++ right.leaves

/-- `attach(node, left, right)` at the node of the state `n`. -/
def attach (n left right : StateId) : PTree → Option PTree
  | null => none
  | leaf s => if s = n then some (node (leaf left) (leaf right)) else none
  | node l r =>
    match attach n left right l with
    | some l' => some (node l' r)
    | none => (attach n left right r).map (node l)

def inner : PTree → PTree → PTree
  | null, null => null
  | l, r => node l r

/-- The loop of `remove` below the root. -/
def prune (n : StateId) : PTree → Option PTree
  | null => none
  | leaf s => if s = n then some null else none
  | node l r =>
    match prune n l with
    | some l' => some (inner l' r)
    | none => (prune n r).map (inner l)

/-- `remove`. The root stays, and when it is the leaf itself it keeps its state. -/
def remove (n : StateId) : PTree → Option PTree
  | null => none
  | leaf s => if s = n then some (leaf s) else none
  | node l r =>
    match prune n l with
    | some l' => some (node l' r)
    | none => (prune n r).map (node l)

/-- The descent of `RandomPathSearcher::selectState`, at the coin flips `flips`. -/
def randomPath : PTree → List Bool → Option StateId
  | null, _ => none
  | leaf s, _ => some s
  | node null right, flips => randomPath right flips
  | node left null, flips => randomPath left flips
  | node left right, b :: flips => if b then randomPath left flips else randomPath right flips
  | node _ _, [] => none

variable {n left right : StateId} {t t' : PTree}

@[simp] theorem leaves_inner (l r : PTree) : (inner l r).leaves = l.leaves ++ r.leaves := by
  unfold inner
  split <;> rfl

theorem attach_eq_none (h : n ∉ t.leaves) : t.attach n left right = none := by
  induction t with
  | null => rfl
  | leaf s =>
    rw [leaves, List.mem_singleton] at h
    exact if_neg (Ne.symm h)
  | node l r ihl ihr =>
    rw [leaves, List.mem_append, not_or] at h
    rw [attach, ihl h.1, ihr h.2]
    rfl

/-- The leaf of `n` is replaced by the two new leaves. -/
theorem attach_spec (left right : StateId) (h : n ∈ t.leaves) : ∃ t', t.attach n left right = some t' ∧
    t'.leaves.Perm (left :: right :: t.leaves.erase n) := by
  induction t with
  | null => cases h
  | leaf s =>
    obtain rfl := List.mem_singleton.mp h
    exact ⟨_, if_pos rfl, by simp [leaves]⟩
  | node l r ihl ihr =>
    by_cases hl : n ∈ l.leaves
    · obtain ⟨l', hl', hperm⟩ := ihl hl
      refine ⟨node l' r, by rw [attach, hl'], ?_⟩
      rw [leaves, leaves, List.erase_append_left _ hl]
      exact hperm.append_right _
    · have hr := (List.mem_append.mp h).resolve_left hl
      obtain ⟨r', hr', hperm⟩ := ihr hr
      refine ⟨node l r', by rw [attach, attach_eq_none hl, hr']; rfl, ?_⟩
      rw [leaves, leaves, List.erase_append_right _ hl]
      have hcomm : (r.leaves.erase n ++ l.leaves).Perm (l.leaves ++ r.leaves.erase n) :=
        List.perm_append_comm
      exact (hperm.append_left _).trans (List.perm_append_comm.trans ((hcomm.cons right).cons left))

theorem prune_eq_none (h : n ∉ t.leaves) : t.prune n = none := by
  induction t with
  | null => rfl
  | leaf s =>
    rw [leaves, List.mem_singleton] at h
    exact if_neg (Ne.symm h)
  | node l r ihl ihr =>
    rw [leaves, List.mem_append, not_or] at h
    rw [prune, ihl h.1, ihr h.2]
    rfl

theorem prune_spec (h : n ∈ t.leaves) : ∃ t', t.prune n = some t' ∧
    t'.leaves = t.leaves.erase n := by
  induction t with
  | null => cases h
  | leaf s =>
    obtain rfl := List.mem_singleton.mp h
    exact ⟨_, if_pos rfl, by simp [leaves]⟩
  | node l r ihl ihr =>
    by_cases hl : n ∈ l.leaves
    · obtain ⟨l', hl', heq⟩ := ihl hl
      refine ⟨inner l' r, by rw [prune, hl'], ?_⟩
      rw [leaves_inner, leaves, List.erase_append_left _ hl, heq]
    · have hr := (List.mem_append.mp h).resolve_left hl
      obtain ⟨r', hr', heq⟩ := ihr hr
      refine ⟨inner l r', by rw [prune, prune_eq_none hl, hr']; rfl, ?_⟩
      rw [leaves_inner, leaves, List.erase_append_right _ hl, heq]

/-- Removing a state that is not the root takes exactly its leaf away. -/
theorem remove_spec (h : n ∈ t.leaves) (hroot : t ≠ leaf n) : ∃ t', t.remove n = some t' ∧
    t'.leaves = t.leaves.erase n := by
  cases t with
  | null => cases h
  | leaf s =>
    obtain rfl := List.mem_singleton.mp h
    exact absurd rfl hroot
  | node l r =>
    by_cases hl : n ∈ l.leaves
    · obtain ⟨l', hl', heq⟩ := prune_spec hl
      refine ⟨node l' r, by rw [remove, hl'], ?_⟩
      rw [leaves, leaves, List.erase_append_left _ hl, heq]
    · have hr := (List.mem_append.mp h).resolve_left hl
      obtain ⟨r', hr', heq⟩ := prune_spec hr
      refine ⟨node l r', by rw [remove, prune_eq_none hl, hr']; rfl, ?_⟩
      rw [leaves, leaves, List.erase_append_right _ hl, heq]

/-- Removing a state leaves all others, and nothing else but the root. -/
theorem remove_of_mem (h : n ∈ t.leaves) (hnodup : t.leaves.Nodup) : ∃ t', t.remove n = some t' ∧
    t'.leaves.Nodup ∧ t'.leaves ⊆ t.leaves ∧ ∀ x ∈ t.leaves, x ≠ n → x ∈ t'.leaves := by
  by_cases hroot : t = leaf n
  · subst hroot
    exact ⟨leaf n, if_pos rfl, hnodup, List.Subset.refl _, fun x hx _ => hx⟩
  · obtain ⟨t', ht', heq⟩ := remove_spec h hroot
    refine ⟨t', ht', ?_⟩
    rw [heq]
    exact ⟨hnodup.erase n, List.erase_subset, fun x hx hne => (List.mem_erase_of_ne hne).mpr hx⟩

/-- The descent ends at a leaf. -/
theorem mem_leaves_of_randomPath {flips : List Bool} (h : t.randomPath flips = some n) :
    n ∈ t.leaves := by
  induction t, flips using randomPath.induct with
  | case1 => cases h
  | case2 s => simpa [randomPath, leaves, eq_comm] using h
  | case3 right flips ih =>
    rw [randomPath] at h
    simpa [leaves] using ih h
  | case4 left flips hne ih =>
    rw [randomPath] at h
    · simpa [leaves] using ih h
    · exact hne
  | case5 left right flips hl hr ih =>
    rw [randomPath, if_pos rfl] at h
    · exact List.mem_append_left _ (ih h)
    · exact hl
    · exact hr
  | case6 left right b flips hl hr hb ih =>
    rw [randomPath, if_neg hb] at h
    · exact List.mem_append_right _ (ih h)
    · exact hl
    · exact hr
  | case7 left right hl hr =>
    rw [randomPath] at h
    · cases h
    · exact hl
    · exact hr

end PTree

end Klee

import Klee.Expr.FindReads

/-! `findSymbolicObjects`: the symbolic arrays that expressions read. -/
namespace Klee

namespace SymbolicObjectFinder

def push (objects : List Array) (root : Array) : List Array :=
  if root.isSymbolicArray && !objects.contains root then objects ++ [root] else objects

mutual

/-- The table of visited expressions changes no result: a second visit finds no new array. -/
def visit : Expr → List Array → List Array
  | .constant _, objects => objects
  | .read root head index, objects => visit index (push (visitUpdates head objects) root)
  | .notOptimized e, objects => visit e objects
  | .select c t f, objects => visit f (visit t (visit c objects))
  | .concat l r, objects => visit r (visit l objects)
  | .extract e _ _, objects => visit e objects
  | .cast _ e _, objects => visit e objects
  | .not e, objects => visit e objects
  | .arith _ l r, objects => visit r (visit l objects)
  | .cmp _ l r, objects => visit r (visit l objects)

def visitUpdates : UpdateNode → List Array → List Array
  | .null, objects => objects
  | .node next index value, objects => visitUpdates next (visit value (visit index objects))

end

end SymbolicObjectFinder

open SymbolicObjectFinder

def findSymbolicObjects (es : List Expr) : List Array :=
  es.foldl (fun objects e => visit e objects) []

namespace SymbolicObjectFinder

theorem subset_push (objects : List Array) (root : Array) : objects ⊆ push objects root := by
  unfold push
  by_cases h : (root.isSymbolicArray && !objects.contains root) = true
  · rw [if_pos h]
    exact List.subset_append_left _ _
  · rw [if_neg h]
    exact List.Subset.refl _

theorem mem_push {objects : List Array} {root : Array} (h : root.isSymbolicArray = true) :
    root ∈ push objects root := by
  unfold push
  by_cases hc : root ∈ objects
  · simp [h, hc]
  · simp [h, hc]

mutual

theorem subset_visit : ∀ (e : Expr) (objects : List Array), objects ⊆ visit e objects
  | .constant _, _ => List.Subset.refl _
  | .read root head index, objects =>
    List.Subset.trans (List.Subset.trans (subset_visitUpdates head objects) (subset_push _ root))
      (subset_visit index _)
  | .notOptimized e, objects => subset_visit e objects
  | .select c t f, objects =>
    List.Subset.trans (List.Subset.trans (subset_visit c objects) (subset_visit t _))
      (subset_visit f _)
  | .concat l r, objects => List.Subset.trans (subset_visit l objects) (subset_visit r _)
  | .extract e _ _, objects => subset_visit e objects
  | .cast _ e _, objects => subset_visit e objects
  | .not e, objects => subset_visit e objects
  | .arith _ l r, objects => List.Subset.trans (subset_visit l objects) (subset_visit r _)
  | .cmp _ l r, objects => List.Subset.trans (subset_visit l objects) (subset_visit r _)

theorem subset_visitUpdates : ∀ (un : UpdateNode) (objects : List Array),
    objects ⊆ visitUpdates un objects
  | .null, _ => List.Subset.refl _
  | .node next index value, objects =>
    List.Subset.trans (List.Subset.trans (subset_visit index objects) (subset_visit value _))
      (subset_visitUpdates next _)

end

def Finds (objects : List Array) (re : ReadExpr) : Prop :=
  re.updates.root.isSymbolicArray = true → re.updates.root ∈ objects

theorem Finds.mono {objects objects' : List Array} {re : ReadExpr} (h : Finds objects re)
    (hsub : objects ⊆ objects') : Finds objects' re := fun hsym => hsub (h hsym)

theorem allReads_mono {objects objects' : List Array} {e : Expr} (h : e.AllReads (Finds objects))
    (hsub : objects ⊆ objects') : e.AllReads (Finds objects') :=
  h.mono fun _ hre => Finds.mono hre hsub

theorem updates_allReads_mono {objects objects' : List Array} {un : UpdateNode}
    (h : un.AllReads (Finds objects)) (hsub : objects ⊆ objects') :
    un.AllReads (Finds objects') := by
  rw [UpdateNode.allReads_iff] at h ⊢
  intro e he
  exact allReads_mono (h e he) hsub

mutual

theorem allReads_visit : ∀ (e : Expr) (objects : List Array),
    e.AllReads (Finds (visit e objects))
  | .constant _, _ => trivial
  | .read root head index, objects => by
    have hindex := subset_visit index (push (visitUpdates head objects) root)
    refine ⟨fun hsym => hindex (mem_push hsym), ?_, allReads_visit index _⟩
    exact updates_allReads_mono (allReads_visitUpdates head objects)
      (List.Subset.trans (subset_push _ root) hindex)
  | .notOptimized e, objects => allReads_visit e objects
  | .select c t f, objects => by
    have hf := subset_visit f (visit t (visit c objects))
    exact ⟨allReads_mono (allReads_visit c objects) (List.Subset.trans (subset_visit t _) hf),
      allReads_mono (allReads_visit t _) hf, allReads_visit f _⟩
  | .concat l r, objects =>
    ⟨allReads_mono (allReads_visit l objects) (subset_visit r _), allReads_visit r _⟩
  | .extract e _ _, objects => allReads_visit e objects
  | .cast _ e _, objects => allReads_visit e objects
  | .not e, objects => allReads_visit e objects
  | .arith _ l r, objects =>
    ⟨allReads_mono (allReads_visit l objects) (subset_visit r _), allReads_visit r _⟩
  | .cmp _ l r, objects =>
    ⟨allReads_mono (allReads_visit l objects) (subset_visit r _), allReads_visit r _⟩

theorem allReads_visitUpdates : ∀ (un : UpdateNode) (objects : List Array),
    un.AllReads (Finds (visitUpdates un objects))
  | .null, _ => trivial
  | .node next index value, objects => by
    have hnext := subset_visitUpdates next (visit value (visit index objects))
    exact ⟨allReads_visitUpdates next _,
      allReads_mono (allReads_visit index objects) (List.Subset.trans (subset_visit value _) hnext),
      allReads_mono (allReads_visit value _) hnext⟩

end

theorem subset_foldl_visit (es : List Expr) (objects : List Array) :
    objects ⊆ es.foldl (fun objects e => visit e objects) objects := by
  induction es generalizing objects with
  | nil => exact List.Subset.refl _
  | cons e es ih => exact List.Subset.trans (subset_visit e objects) (ih _)

end SymbolicObjectFinder

/-- Every symbolic array of the expressions is found. -/
theorem allReads_findSymbolicObjects {es : List Expr} {e : Expr} (he : e ∈ es) :
    e.AllReads (Finds (findSymbolicObjects es)) := by
  unfold findSymbolicObjects
  generalize ([] : List Array) = objects
  induction es generalizing objects with
  | nil => cases he
  | cons e' es ih =>
    cases List.mem_cons.mp he with
    | inl heq =>
      subst heq
      exact allReads_mono (allReads_visit e objects) (subset_foldl_visit es _)
    | inr hmem => exact ih hmem _

/-- Expressions have the same values under assignments with the same bytes in their objects. -/
theorem eval_congr_findSymbolicObjects {σ τ : Assignment} {es : List Expr} {e : Expr} (he : e ∈ es)
    (h : ∀ a ∈ findSymbolicObjects es, a.isSymbolicArray = true → ∀ i < a.size, σ a i = τ a i)
    (w : Nat) :
    e.eval σ w = e.eval τ w := by
  refine e.eval_congr w ((allReads_findSymbolicObjects he).mono fun re hre => ?_)
  have hinitial (i : Nat) :
      re.updates.root.initial σ i = re.updates.root.initial τ i := by
    unfold Array.initial
    by_cases hsym : re.updates.root.isSymbolicArray = true
    · by_cases hi : i < re.updates.root.size
      · rw [h _ (hre hsym) hsym i hi]
      · simp [hi]
    · simp [Array.isConstantArray, hsym]
  unfold ReadExpr.Agrees
  split
  · exact hinitial _
  · exact hinitial

end Klee

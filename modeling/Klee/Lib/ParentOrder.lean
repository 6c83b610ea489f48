import Mathlib.Algebra.BigOperators.Group.Finset.Basic
import Mathlib.Logic.Relation
import Mathlib.Tactic

/-! Trees that are given by the parent of each node, where a parent is made before its children. -/
namespace ParentOrder

variable {parent : ℕ → Option ℕ} {i i' j n p : ℕ}

/-- `i` is `j` or below it. -/
def Below (parent : ℕ → Option ℕ) : ℕ → ℕ → Prop :=
  Relation.ReflTransGen fun i j => parent i = some j

/-- A parent comes before its children, among the nodes up to `n`. -/
def Ordered (parent : ℕ → Option ℕ) (n : ℕ) : Prop := ∀ i ≤ n, ∀ j, parent i = some j → j < i

section Below

theorem Below.refl (i : ℕ) : Below parent i i := Relation.ReflTransGen.refl

theorem Below.le (hord : Ordered parent n) (hi : i ≤ n) (h : Below parent i j) : j ≤ i := by
  induction h with
  | refl => exact le_rfl
  | tail _ hstep ih => exact (hord _ (ih.trans hi) _ hstep).le.trans ih

theorem below_iff_of_none (h : parent i = none) : Below parent i j ↔ j = i := by
  constructor
  · intro hb
    rcases hb.cases_head with heq | ⟨k, hk, -⟩
    · exact heq.symm
    · rw [h] at hk
      cases hk
  · rintro rfl
    exact .refl _

theorem below_iff_of_some (h : parent i = some p) :
    Below parent i j ↔ j = i ∨ Below parent p j := by
  constructor
  · intro hb
    rcases hb.cases_head with heq | ⟨k, hk, hb⟩
    · exact .inl heq.symm
    · rw [h] at hk
      cases hk
      exact .inr hb
  · rintro (rfl | hb)
    · exact .refl _
    · exact .head h hb

/-- Two nodes above the same one are above one another. -/
theorem Below.total (h : Below parent j i) (h' : Below parent j i') :
    Below parent i i' ∨ Below parent i' i :=
  Relation.ReflTransGen.total_of_right_unique
    (fun _ _ _ ha hb => Option.some.inj (ha.symm.trans hb)) h h'

/-- The nodes up to `n` keep what is above them when others get parents. -/
theorem Below.congr {parent' : ℕ → Option ℕ} (hord : Ordered parent n)
    (heq : ∀ i ≤ n, parent' i = parent i) (hi : i ≤ n) :
    Below parent' i j ↔ Below parent i j := by
  constructor
  · intro h
    induction h using Relation.ReflTransGen.head_induction_on with
    | refl => exact .refl _
    | head hstep _ ih =>
      rw [heq _ hi] at hstep
      exact .head hstep (ih ((hord _ hi _ hstep).le.trans hi))
  · intro h
    induction h using Relation.ReflTransGen.head_induction_on with
    | refl => exact .refl _
    | head hstep _ ih =>
      exact .head ((heq _ hi).trans hstep) (ih ((hord _ hi _ hstep).le.trans hi))

end Below

section Sums

variable {S : Type*} [AddCommMonoid S] {s : ℕ → S}

def addAt (s : ℕ → S) (p : Option ℕ) (x : S) : ℕ → S :=
  match p with
  | none => s
  | some p => Function.update s p (s p + x)

/-- The nodes from `n` on down to 1 are added to their parents. -/
def sumUp (parent : ℕ → Option ℕ) : ℕ → (ℕ → S) → ℕ → S
  | 0, s => s
  | n + 1, s => sumUp parent n (addAt s (parent (n + 1)) (s (n + 1)))

open Classical in
/-- The sum over the nodes up to `n` that are `i` or below it. -/
noncomputable def total (parent : ℕ → Option ℕ) (n : ℕ) (s : ℕ → S) (i : ℕ) : S :=
  ∑ j ∈ Finset.range (n + 1) with Below parent j i, s j

theorem addAt_self {x : S} : addAt s (some p) x p = s p + x := Function.update_self _ _ _

theorem addAt_of_ne {x : S} (h : i ≠ p) : addAt s (some p) x i = s i :=
  Function.update_of_ne h _ _

theorem addAt_of_lt {x : S} {q : Option ℕ} (h : ∀ p, q = some p → p < i) :
    addAt s q x i = s i := by
  cases q with
  | none => rfl
  | some p => exact addAt_of_ne (h p rfl).ne'

/-- A node is not changed any more when those before it are added. -/
theorem sumUp_of_lt (hord : Ordered parent n) (hi : n < i) : sumUp parent n s i = s i := by
  induction n generalizing s with
  | zero => rfl
  | succ n ih =>
    rw [sumUp, ih (fun k hk => hord k (hk.trans n.le_succ)) (n.lt_succ_self.trans hi)]
    exact addAt_of_lt fun p hp => (hord _ le_rfl p hp).trans hi

theorem total_zero : total parent 0 s 0 = s 0 := by
  simp [total, Finset.sum_filter, Below.refl]

open Classical in
theorem total_succ : total parent (n + 1) s i =
    total parent n s i + if Below parent (n + 1) i then s (n + 1) else 0 := by
  rw [total, Finset.sum_filter, Finset.sum_range_succ, total, Finset.sum_filter]

open Classical in
theorem total_self (hord : Ordered parent (n + 1)) : total parent n s (n + 1) = 0 := by
  refine Finset.sum_eq_zero fun j hj => ?_
  obtain ⟨hj, hbelow⟩ := Finset.mem_filter.mp hj
  have hlt := Finset.mem_range.mp hj
  exact absurd (hbelow.le hord hlt.le) (by omega)

open Classical in
theorem total_addAt {x : S} (hp : p ≤ n) : total parent n (addAt s (some p) x) i =
    total parent n s i + if Below parent p i then x else 0 := by
  have hsplit (j : ℕ) : addAt s (some p) x j = s j + if j = p then x else 0 := by
    by_cases hj : j = p
    · subst hj
      rw [addAt_self, if_pos rfl]
    · rw [addAt_of_ne hj, if_neg hj, add_zero]
  simp only [total, hsplit, Finset.sum_add_distrib]
  congr 1
  rw [Finset.sum_ite_eq']
  refine if_congr ?_ rfl rfl
  rw [Finset.mem_filter, Finset.mem_range]
  exact and_iff_right (Nat.lt_succ_of_le hp)

open Classical in
/-- A pass from the last node to the first leaves at each the sum of what is below it; by
induction on the number of nodes, the last of which has none below it. -/
theorem sumUp_eq_total (hord : Ordered parent n) (hi : i ≤ n) :
    sumUp parent n s i = total parent n s i := by
  induction n generalizing s with
  | zero =>
    obtain rfl := Nat.le_zero.mp hi
    exact total_zero.symm
  | succ n ih =>
    have hord' : Ordered parent n := fun k hk => hord k (hk.trans n.le_succ)
    rw [sumUp, total_succ]
    rcases hi.lt_or_eq with hlt | rfl
    · rw [ih hord' (Nat.le_of_lt_succ hlt)]
      cases hparent : parent (n + 1) with
      | none =>
        rw [if_neg fun h => hlt.ne ((below_iff_of_none hparent).mp h), add_zero]
        rfl
      | some p =>
        rw [total_addAt (Nat.le_of_lt_succ (hord _ le_rfl p hparent))]
        congr 1
        refine if_congr ?_ rfl rfl
        rw [below_iff_of_some hparent]
        exact (or_iff_right hlt.ne).symm
    · rw [sumUp_of_lt hord' n.lt_succ_self, total_self hord, zero_add, if_pos (.refl _)]
      exact addAt_of_lt fun p hp => hord _ le_rfl p hp

open Classical in
/-- Below nodes that are not above one another, no node is counted twice. -/
theorem sum_total {I : Finset ℕ} (hI : ∀ i ∈ I, ∀ i' ∈ I, Below parent i i' → i = i') :
    ∑ i ∈ I, total parent n s i =
      ∑ j ∈ Finset.range (n + 1) with ∃ i ∈ I, Below parent j i, s j := by
  have hdisjoint : (I : Set ℕ).PairwiseDisjoint fun i =>
      (Finset.range (n + 1)).filter fun j => Below parent j i := by
    intro i hi i' hi' hne
    refine Finset.disjoint_left.mpr fun j hj hj' => hne ?_
    rcases (Finset.mem_filter.mp hj).2.total (Finset.mem_filter.mp hj').2 with h | h
    · exact hI i hi i' hi' h
    · exact (hI i' hi' i hi h).symm
  simp only [total]
  rw [← Finset.sum_biUnion hdisjoint]
  refine Finset.sum_congr ?_ fun _ _ => rfl
  ext j
  simp only [Finset.mem_biUnion, Finset.mem_filter]
  tauto

end Sums

end ParentOrder

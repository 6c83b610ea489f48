import Mathlib.Algebra.BigOperators.Ring.Finset
import Mathlib.Algebra.Order.BigOperators.Group.Finset
import Mathlib.Data.NNRat.BigOperators
import Mathlib.Algebra.Order.Ring.NNRat

/-! The accumulation of the training rewards, from the rows of features of all test cases. -/
namespace Klee.Learch

structure FeatureRow where
  /-- The column `Index`: a number for a selection of a state. -/
  index : Nat
  queryCost : ℚ≥0
deriving DecidableEq

structure TestCase where
  /-- The lines that `get_cov` counts after the replay of a test with a `.covnew` file. -/
  lineCovered : Option ℤ
  features : List FeatureRow

structure Totals where
  improvements : Nat → Option ℤ
  remainingTimes : Nat → Option ℚ≥0
  covPrev : ℤ

section Accumulate

def Totals.empty : Totals := ⟨fun _ => none, fun _ => none, 0⟩

/-- The body of the loop over the rows of a test, with its `remaining_time`. -/
def addRow (improvement : ℤ) (row : FeatureRow) (acc : Totals × ℚ≥0) : Totals × ℚ≥0 :=
  let (t, remainingTime) := acc
  ({ t with
      improvements := Function.update t.improvements row.index
        (some ((t.improvements row.index).getD 0 + improvement))
      remainingTimes := Function.update t.remainingTimes row.index
        (some ((t.remainingTimes row.index).getD row.queryCost + remainingTime)) },
    remainingTime + row.queryCost)

def addRows (improvement : ℤ) (features : List FeatureRow) (t : Totals) : Totals × ℚ≥0 :=
  features.reverse.foldl (fun acc row => addRow improvement row acc) (t, 0)

def improvementOf (covPrev : ℤ) (f : TestCase) : ℤ := f.lineCovered.elim 0 (· - covPrev)

def addTest (t : Totals) (f : TestCase) : Totals :=
  let t' := (addRows (improvementOf t.covPrev f) f.features t).1
  { t' with covPrev := f.lineCovered.getD t.covPrev }

def accumulate (ktests : List TestCase) : Totals := ktests.foldl addTest .empty

end Accumulate

section Tree

def TestCase.path (f : TestCase) : List Nat := f.features.map (·.index)

/-- An index is one selection: with the same selections before it, at the same cost. -/
def TreeShaped (ktests : List TestCase) : Prop :=
  ∀ f ∈ ktests, ∀ f' ∈ ktests, ∀ p row s p' row' s', f.features = p ++ row :: s →
    f'.features = p' ++ row' :: s' → row.index = row'.index → p = p' ∧ row = row'

/-- The rows after the selection `i`, none if it is not there. -/
def rowsAfter (i : Nat) (features : List FeatureRow) : List FeatureRow :=
  (features.dropWhile fun row => row.index ≠ i).tail

def selections (ktests : List TestCase) : Finset Nat := (ktests.flatMap (·.path)).toFinset

/-- The distinct selections strictly below `i` in the tree. -/
def strictlyBelow (ktests : List TestCase) (i : Nat) : Finset Nat :=
  (ktests.flatMap fun f => (rowsAfter i f.features).map (·.index)).toFinset

def costOf (ktests : List TestCase) (i : Nat) : ℚ≥0 :=
  ((ktests.flatMap (·.features)).find? fun row => row.index = i).elim 0 (·.queryCost)

/-- The tests with the improvements of coverage that they are replayed with. -/
def coverageImprovements (covPrev : ℤ) : List TestCase → List (TestCase × ℤ)
  | [] => []
  | f :: ktests => (f, improvementOf covPrev f) ::
      coverageImprovements (f.lineCovered.getD covPrev) ktests

/-- What the dictionaries are for: an improvement counts for each selection on its path, and the
cost of a selection once for each selection at or above it. -/
structure TotalsRight (ktests : List TestCase) (t : Totals) : Prop where
  improvements : ∀ i, t.improvements i = if i ∈ selections ktests then
    some (((coverageImprovements 0 ktests).filter fun f => i ∈ f.1.path).map (·.2)).sum else none
  remainingTimes : ∀ i, t.remainingTimes i = if i ∈ selections ktests then
    some (∑ j ∈ insert i (strictlyBelow ktests i), costOf ktests j) else none

end Tree

end Klee.Learch

/-! When the accumulated times are those of the tree: a selection that is not the first one of a test
must be free or in one test only. -/
namespace Klee.Learch

variable {ktests : List TestCase} {f f' : TestCase} {t : Totals} {i j : Nat} {c : ℚ≥0}

section Rows

variable {improvement : ℤ} {row : FeatureRow} {features : List FeatureRow}

theorem addRow_improvements {acc : Totals × ℚ≥0} : (addRow improvement row acc).1.improvements =
    Function.update acc.1.improvements row.index
      (some ((acc.1.improvements row.index).getD 0 + improvement)) := rfl

theorem addRow_remainingTimes {acc : Totals × ℚ≥0} : (addRow improvement row acc).1.remainingTimes =
    Function.update acc.1.remainingTimes row.index
      (some ((acc.1.remainingTimes row.index).getD row.queryCost + acc.2)) := rfl

theorem addRows_cons : addRows improvement (row :: features) t =
    addRow improvement row (addRows improvement features t) := by
  unfold addRows
  rw [List.foldl_reverse, List.foldl_reverse, List.foldr_cons]

theorem addRows_time : (addRows improvement features t).2 = (features.map (·.queryCost)).sum := by
  induction features with
  | nil => rfl
  | cons row features ih =>
    rw [addRows_cons, List.map_cons, List.sum_cons, ← ih, add_comm]
    rfl

theorem rowsAfter_cons : rowsAfter i (row :: features) =
    if row.index = i then features else rowsAfter i features := by
  unfold rowsAfter
  rw [List.dropWhile_cons]
  by_cases h : row.index = i
  · simp [h]
  · simp [h]

theorem rowsAfter_of_notMem (h : i ∉ features.map (·.index)) : rowsAfter i features = [] := by
  induction features with
  | nil => rfl
  | cons row features ih =>
    rw [List.map_cons, List.mem_cons, not_or] at h
    rw [rowsAfter_cons, if_neg (Ne.symm h.1), ih h.2]

/-- The loop over the rows does not touch another selection. -/
theorem addRows_of_notMem (h : i ∉ features.map (·.index)) :
    (addRows improvement features t).1.improvements i = t.improvements i ∧
      (addRows improvement features t).1.remainingTimes i = t.remainingTimes i := by
  induction features with
  | nil => exact ⟨rfl, rfl⟩
  | cons row features ih =>
    rw [List.map_cons, List.mem_cons, not_or] at h
    rw [addRows_cons, addRow_improvements, addRow_remainingTimes, Function.update_of_ne h.1,
      Function.update_of_ne h.1]
    exact ih h.2

/-- It adds to a selection once, with the costs after it. -/
theorem addRows_of_mem (hnodup : (features.map (·.index)).Nodup) (hi : i ∈ features.map (·.index))
    (hcost : ∀ row ∈ features, row.index = i → row.queryCost = c) :
    (addRows improvement features t).1.improvements i =
        some ((t.improvements i).getD 0 + improvement) ∧
      (addRows improvement features t).1.remainingTimes i =
        some ((t.remainingTimes i).getD c + ((rowsAfter i features).map (·.queryCost)).sum) := by
  induction features with
  | nil => exact absurd hi List.not_mem_nil
  | cons row features ih =>
    rw [List.map_cons, List.nodup_cons] at hnodup
    rw [addRows_cons, rowsAfter_cons, addRow_improvements, addRow_remainingTimes]
    by_cases hrow : row.index = i
    · subst hrow
      obtain ⟨himprovement, htime⟩ := addRows_of_notMem (t := t) hnodup.1
      rw [if_pos rfl, Function.update_self, Function.update_self, himprovement, htime, addRows_time,
        hcost row List.mem_cons_self rfl]
      exact ⟨rfl, rfl⟩
    · have hmem := (List.mem_cons.mp hi).resolve_left (Ne.symm hrow)
      obtain ⟨himprovement, htime⟩ :=
        ih hnodup.2 hmem fun r hr => hcost r (List.mem_cons_of_mem row hr)
      rw [if_neg hrow, Function.update_of_ne (Ne.symm hrow), Function.update_of_ne (Ne.symm hrow)]
      exact ⟨himprovement, htime⟩

end Rows

section Tests

/-- The cost of the selections after `i` in a test. -/
def timeAfter (i : Nat) (f : TestCase) : ℚ≥0 := ((rowsAfter i f.features).map (·.queryCost)).sum

theorem mem_selections : i ∈ selections ktests ↔ ∃ f ∈ ktests, i ∈ f.path := by
  rw [selections, List.mem_toFinset, List.mem_flatMap]

theorem addTest_of_notMem (h : i ∉ f.path) : (addTest t f).improvements i = t.improvements i ∧
    (addTest t f).remainingTimes i = t.remainingTimes i := addRows_of_notMem h

theorem addTest_of_mem (hnodup : f.path.Nodup) (h : i ∈ f.path)
    (hcost : ∀ row ∈ f.features, row.index = i → row.queryCost = c) :
    (addTest t f).improvements i =
        some ((t.improvements i).getD 0 + improvementOf t.covPrev f) ∧
      (addTest t f).remainingTimes i = some ((t.remainingTimes i).getD c + timeAfter i f) :=
  addRows_of_mem hnodup h hcost

theorem timeAfter_of_notMem (h : i ∉ f.path) : timeAfter i f = 0 := by
  rw [timeAfter, rowsAfter_of_notMem h, List.map_nil, List.sum_nil]

/-- The improvements that count for `i`. -/
def improvementsAt (i : Nat) (covPrev : ℤ) (ktests : List TestCase) : ℤ :=
  (((coverageImprovements covPrev ktests).filter fun f => i ∈ f.1.path).map (·.2)).sum

theorem improvementsAt_cons {covPrev : ℤ} : improvementsAt i covPrev (f :: ktests) =
    (if i ∈ f.path then improvementOf covPrev f else 0) +
      improvementsAt i (f.lineCovered.getD covPrev) ktests := by
  unfold improvementsAt
  rw [coverageImprovements]
  by_cases h : i ∈ f.path
  · rw [List.filter_cons_of_pos (by simpa using h), List.map_cons, List.sum_cons, if_pos h]
  · rw [List.filter_cons_of_neg (by simpa using h), if_neg h, zero_add]

/-- A selection of no test counts nothing. -/
theorem sums_of_notMem {covPrev : ℤ} (h : i ∉ selections ktests) :
    improvementsAt i covPrev ktests = 0 ∧ (ktests.map (timeAfter i)).sum = 0 := by
  induction ktests generalizing covPrev with
  | nil => exact ⟨rfl, rfl⟩
  | cons f ktests ih =>
    have hnot : ∀ f' ∈ f :: ktests, i ∉ f'.path := fun f' hf' hi => h (mem_selections.mpr ⟨f', hf', hi⟩)
    have hrest : i ∉ selections ktests := fun hi => by
      obtain ⟨f', hf', hmem⟩ := mem_selections.mp hi
      exact hnot f' (List.mem_cons_of_mem f hf') hmem
    have hf := hnot f List.mem_cons_self
    rw [improvementsAt_cons, if_neg hf, (ih hrest).1, List.map_cons, List.sum_cons, (@ih covPrev hrest).2,
      timeAfter_of_notMem hf]
    exact ⟨rfl, add_zero 0⟩

/-- What the loop over the tests adds to a selection. -/
theorem foldl_addTest (hnodup : ∀ f ∈ ktests, f.path.Nodup)
    (hcost : ∀ f ∈ ktests, ∀ row ∈ f.features, row.index = i → row.queryCost = c) :
    ((ktests.foldl addTest t).improvements i = if i ∈ selections ktests then
      some ((t.improvements i).getD 0 + improvementsAt i t.covPrev ktests) else t.improvements i) ∧
    (ktests.foldl addTest t).remainingTimes i = if i ∈ selections ktests then
      some ((t.remainingTimes i).getD c + (ktests.map (timeAfter i)).sum) else t.remainingTimes i := by
  induction ktests generalizing t with
  | nil => exact ⟨rfl, rfl⟩
  | cons f ktests ih =>
    obtain ⟨himprovement, htime⟩ := @ih (addTest t f) (fun f hf => hnodup f (List.mem_cons_of_mem _ hf))
      fun f hf => hcost f (List.mem_cons_of_mem _ hf)
    have hcov : (addTest t f).covPrev = f.lineCovered.getD t.covPrev := rfl
    have hmem : i ∈ selections (f :: ktests) ↔ i ∈ f.path ∨ i ∈ selections ktests := by
      simp only [mem_selections, List.exists_mem_cons_iff]
    rw [List.foldl_cons, himprovement, htime, hcov, List.map_cons, List.sum_cons, improvementsAt_cons]
    by_cases hi : i ∈ f.path
    · obtain ⟨hself, hself'⟩ := @addTest_of_mem f t i c (hnodup f List.mem_cons_self) hi
        (hcost f List.mem_cons_self)
      rw [hself, hself', if_pos (hmem.mpr (.inl hi)), if_pos (hmem.mpr (.inl hi)), if_pos hi]
      by_cases hrest : i ∈ selections ktests
      · rw [if_pos hrest, if_pos hrest, Option.getD_some, Option.getD_some, add_assoc, add_assoc]
        exact ⟨rfl, rfl⟩
      · obtain ⟨hzero, hzero'⟩ := @sums_of_notMem ktests i (f.lineCovered.getD t.covPrev) hrest
        rw [if_neg hrest, if_neg hrest, hzero, hzero', add_zero, add_zero]
        exact ⟨rfl, rfl⟩
    · obtain ⟨hself, hself'⟩ := @addTest_of_notMem f t i hi
      have hiff : i ∈ selections (f :: ktests) ↔ i ∈ selections ktests := hmem.trans (or_iff_right hi)
      rw [hself, hself', if_neg hi, timeAfter_of_notMem hi, zero_add, zero_add]
      simp only [hiff, and_self]

end Tests

section Tree

variable {row row' : FeatureRow} {p p' s s' : List FeatureRow}

theorem TreeShaped.nodup (h : TreeShaped ktests) (hf : f ∈ ktests) : f.path.Nodup := by
  have hsuffix (s p : List FeatureRow) (hps : f.features = p ++ s) : (s.map (·.index)).Nodup := by
    induction s generalizing p with
    | nil => exact List.nodup_nil
    | cons row s ih =>
      rw [List.map_cons, List.nodup_cons]
      refine ⟨fun hmem => ?_, ih (p ++ [row]) (by rw [hps, List.append_assoc]; rfl)⟩
      -- a second row with the index would have the first one before it
      obtain ⟨row', hrow', heq⟩ := List.mem_map.mp hmem
      obtain ⟨a, b, rfl⟩ := List.append_of_mem hrow'
      have hsecond : f.features = (p ++ row :: a) ++ row' :: b := by
        rw [hps, List.append_assoc, List.cons_append]
      have hp := (h f hf f hf _ _ _ _ _ _ hps hsecond heq.symm).1
      have hlen := congrArg List.length hp
      simp at hlen
  exact hsuffix f.features [] rfl

theorem rowsAfter_split (hnodup : ((p ++ row :: s).map (·.index)).Nodup) :
    rowsAfter row.index (p ++ row :: s) = s := by
  induction p with
  | nil => rw [List.nil_append, rowsAfter_cons, if_pos rfl]
  | cons r p ih =>
    rw [List.cons_append, List.map_cons, List.nodup_cons] at hnodup
    have hne : r.index ≠ row.index := fun heq => hnodup.1 (by simp [heq])
    rw [List.cons_append, rowsAfter_cons, if_neg hne, ih hnodup.2]

/-- A selection after `i` has a row with `i` before it. -/
theorem exists_split (h : j ∈ (rowsAfter i f.features).map (·.index)) : ∃ p row a row' b,
    f.features = p ++ row :: (a ++ row' :: b) ∧ row.index = i ∧ row'.index = j := by
  have hsplit (features : List FeatureRow) (hmem : j ∈ (rowsAfter i features).map (·.index)) :
      ∃ p row a row' b, features = p ++ row :: (a ++ row' :: b) ∧ row.index = i ∧ row'.index = j := by
    induction features with
    | nil => exact absurd hmem List.not_mem_nil
    | cons r features ih =>
      rw [rowsAfter_cons] at hmem
      split at hmem
      · rename_i hr
        obtain ⟨row', hrow', hj⟩ := List.mem_map.mp hmem
        obtain ⟨a, b, rfl⟩ := List.append_of_mem hrow'
        exact ⟨[], r, a, row', b, rfl, hr, hj⟩
      · obtain ⟨p, row, a, row', b, heq, hi, hj⟩ := ih hmem
        exact ⟨r :: p, row, a, row', b, by rw [heq]; rfl, hi, hj⟩
  exact hsplit f.features h

theorem mem_strictlyBelow : j ∈ strictlyBelow ktests i ↔
    ∃ f ∈ ktests, j ∈ (rowsAfter i f.features).map (·.index) := by
  rw [strictlyBelow, List.mem_toFinset, List.mem_flatMap]

/-- A test through a selection below `i` comes through `i` before. -/
theorem TreeShaped.mem_rowsAfter (h : TreeShaped ktests) (hf : f ∈ ktests)
    (hj : j ∈ strictlyBelow ktests i) :
    j ∈ (rowsAfter i f.features).map (·.index) ↔ j ∈ f.path := by
  constructor
  · intro hmem
    obtain ⟨p, row, a, row', b, heq, -, rfl⟩ := exists_split hmem
    rw [TestCase.path, heq]
    simp
  · intro hmem
    obtain ⟨f', hf', hbelow⟩ := mem_strictlyBelow.mp hj
    obtain ⟨p, row, a, row', b, heq, rfl, rfl⟩ := exists_split hbelow
    obtain ⟨row'', hrow'', hindex⟩ := List.mem_map.mp hmem
    obtain ⟨q, b', hq⟩ := List.append_of_mem hrow''
    have hsecond : f'.features = (p ++ row :: a) ++ row' :: b := by
      rw [heq, List.append_assoc, List.cons_append]
    obtain ⟨rfl, rfl⟩ := h f hf f' hf' _ _ _ _ _ _ hq hsecond hindex
    have hfeatures : f.features = p ++ row :: (a ++ row'' :: b') := by
      rw [hq, List.append_assoc, List.cons_append]
    have hnodup := h.nodup hf
    rw [TestCase.path, hfeatures] at hnodup
    rw [hfeatures, rowsAfter_split hnodup]
    simp

theorem TreeShaped.costOf_eq (h : TreeShaped ktests) (hf : f ∈ ktests) (hrow : row ∈ f.features) :
    row.queryCost = costOf ktests row.index := by
  unfold costOf
  cases hfind : (ktests.flatMap (·.features)).find? fun r => r.index = row.index with
  | none =>
    have hnone := List.find?_eq_none.mp hfind row (List.mem_flatMap.mpr ⟨f, hf, hrow⟩)
    simp at hnone
  | some row' =>
    obtain ⟨f', hf', hrow'⟩ := List.mem_flatMap.mp (List.mem_of_find?_eq_some hfind)
    have hindex : row'.index = row.index := by simpa using List.find?_some hfind
    obtain ⟨p, s, hp⟩ := List.append_of_mem hrow
    obtain ⟨p', s', hp'⟩ := List.append_of_mem hrow'
    rw [(h f hf f' hf' _ _ _ _ _ _ hp hp' hindex.symm).2]
    rfl

theorem rowsAfter_sublist (i : Nat) (features : List FeatureRow) :
    (rowsAfter i features).Sublist features :=
  (List.tail_sublist _).trans (List.dropWhile_sublist _)

/-- The costs after `i` in a test are those of the selections below `i` that it comes through. -/
theorem TreeShaped.timeAfter_eq (h : TreeShaped ktests) (hf : f ∈ ktests) :
    timeAfter i f = ∑ j ∈ strictlyBelow ktests i, if j ∈ f.path then costOf ktests j else 0 := by
  have hsub := rowsAfter_sublist i f.features
  have hcosts : (rowsAfter i f.features).map (·.queryCost) =
      ((rowsAfter i f.features).map (·.index)).map (costOf ktests) := by
    rw [List.map_map]
    exact List.map_congr_left fun row hrow => h.costOf_eq hf (hsub.subset hrow)
  have hset : ((rowsAfter i f.features).map (·.index)).toFinset =
      (strictlyBelow ktests i).filter (· ∈ f.path) := by
    ext j
    rw [List.mem_toFinset, Finset.mem_filter]
    constructor
    · intro hj
      have hbelow := mem_strictlyBelow.mpr ⟨f, hf, hj⟩
      exact ⟨hbelow, (h.mem_rowsAfter hf hbelow).mp hj⟩
    · exact fun ⟨hbelow, hj⟩ => (h.mem_rowsAfter hf hbelow).mpr hj
  have hnodup : ((rowsAfter i f.features).map (·.index)).Nodup := (h.nodup hf).sublist (hsub.map _)
  rw [timeAfter, hcosts, ← List.sum_toFinset _ hnodup, hset, Finset.sum_filter]

/-- Over all tests each selection counts as often as there are tests through it. -/
theorem sum_map_ite (S : Finset Nat) (cost : Nat → ℚ≥0) (ktests : List TestCase) :
    (ktests.map fun f => ∑ j ∈ S, if j ∈ f.path then cost j else 0).sum =
      ∑ j ∈ S, (ktests.countP fun f => j ∈ f.path) • cost j := by
  induction ktests with
  | nil => simp
  | cons f ktests ih =>
    rw [List.map_cons, List.sum_cons, ih, ← Finset.sum_add_distrib]
    refine Finset.sum_congr rfl fun j _ => ?_
    by_cases hj : j ∈ f.path
    · rw [if_pos hj, List.countP_cons_of_pos (by simpa using hj), add_comm, add_nsmul, one_nsmul]
    · rw [if_neg hj, List.countP_cons_of_neg (by simpa using hj), zero_add]

theorem TreeShaped.notMem_strictlyBelow (h : TreeShaped ktests) : i ∉ strictlyBelow ktests i := by
  intro hi
  obtain ⟨f, hf, hmem⟩ := mem_strictlyBelow.mp hi
  obtain ⟨p, row, a, row', b, heq, hrow, hrow'⟩ := exists_split hmem
  have hnodup := h.nodup hf
  rw [TestCase.path, heq, List.map_append, List.map_cons] at hnodup
  have hnot := (List.nodup_cons.mp hnodup.of_append_right).1
  rw [hrow, List.map_append, List.map_cons, hrow'] at hnot
  exact hnot (List.mem_append_right _ List.mem_cons_self)

/-- What the loops leave of the times. -/
theorem TreeShaped.accumulate_eq (h : TreeShaped ktests) :
    (accumulate ktests).improvements i = (if i ∈ selections ktests then
      some (improvementsAt i 0 ktests) else none) ∧
    (accumulate ktests).remainingTimes i = if i ∈ selections ktests then some (costOf ktests i +
      ∑ j ∈ strictlyBelow ktests i, (ktests.countP fun f => j ∈ f.path) • costOf ktests j) else none := by
  obtain ⟨himprovement, htime⟩ := @foldl_addTest ktests .empty i (costOf ktests i)
    (fun f hf => h.nodup hf) fun f hf row hrow hi => hi ▸ h.costOf_eq hf hrow
  have htimes : ktests.map (timeAfter i) = ktests.map fun f =>
      ∑ j ∈ strictlyBelow ktests i, if j ∈ f.path then costOf ktests j else 0 :=
    List.map_congr_left fun f hf => h.timeAfter_eq hf
  rw [accumulate, himprovement, htime, htimes, sum_map_ite]
  simp [Totals.empty]

end Tree

section Right

/-- A selection with others before it costs nothing, or one test comes through it. -/
def CountedOnce (ktests : List TestCase) : Prop :=
  ∀ f ∈ ktests, ∀ row ∈ f.features.tail, row.queryCost = 0 ∨
    (ktests.countP fun f => row.index ∈ f.path) = 1

theorem one_le_countP (hj : j ∈ strictlyBelow ktests i) : 1 ≤ ktests.countP fun f => j ∈ f.path := by
  obtain ⟨f, hf, hmem⟩ := mem_strictlyBelow.mp hj
  refine List.countP_pos_iff.mpr ⟨f, hf, decide_eq_true ?_⟩
  exact ((rowsAfter_sublist i f.features).map _).subset hmem

/-- The times are right if and only if nothing below a selection counts twice. -/
theorem remainingTime_right_iff (h : TreeShaped ktests) : (costOf ktests i +
      ∑ j ∈ strictlyBelow ktests i, (ktests.countP fun f => j ∈ f.path) • costOf ktests j =
      ∑ j ∈ insert i (strictlyBelow ktests i), costOf ktests j) ↔
    ∀ j ∈ strictlyBelow ktests i, costOf ktests j = 0 ∨ (ktests.countP fun f => j ∈ f.path) = 1 := by
  have hle : ∀ j ∈ strictlyBelow ktests i,
      costOf ktests j ≤ (ktests.countP fun f => j ∈ f.path) • costOf ktests j := fun j hj =>
    le_self_nsmul zero_le (Nat.ne_of_gt (one_le_countP hj))
  rw [Finset.sum_insert h.notMem_strictlyBelow, add_right_inj, eq_comm,
    Finset.sum_eq_sum_iff_of_le hle]
  refine forall₂_congr fun j _ => ?_
  rw [nsmul_eq_mul, eq_comm]
  by_cases hzero : costOf ktests j = 0
  · simp [hzero]
  · rw [mul_eq_right₀ hzero, Nat.cast_eq_one, or_iff_right hzero]

theorem TreeShaped.countedOnce_iff (h : TreeShaped ktests) : CountedOnce ktests ↔
    ∀ i ∈ selections ktests, ∀ j ∈ strictlyBelow ktests i,
      costOf ktests j = 0 ∨ (ktests.countP fun f => j ∈ f.path) = 1 := by
  constructor
  · intro hone i _ j hj
    obtain ⟨f, hf, hmem⟩ := mem_strictlyBelow.mp hj
    obtain ⟨p, row, a, row', b, heq, -, rfl⟩ := exists_split hmem
    have htail : row' ∈ f.features.tail := by
      rw [heq]
      cases p <;> simp
    rw [← h.costOf_eq hf (List.mem_of_mem_tail htail)]
    exact hone f hf row' htail
  · intro hall f hf row hrow
    rw [h.costOf_eq hf (List.mem_of_mem_tail hrow)]
    cases hfeatures : f.features with
    | nil =>
      rw [hfeatures] at hrow
      exact absurd hrow List.not_mem_nil
    | cons first rest =>
      refine hall first.index (mem_selections.mpr ⟨f, hf, ?_⟩) row.index
        (mem_strictlyBelow.mpr ⟨f, hf, ?_⟩)
      · rw [TestCase.path, hfeatures]
        exact List.mem_cons_self
      · rw [hfeatures] at hrow ⊢
        rw [rowsAfter_cons, if_pos rfl]
        exact List.mem_map_of_mem hrow

theorem TreeShaped.perm (h : TreeShaped ktests) {ktests' : List TestCase}
    (hperm : ktests'.Perm ktests) : TreeShaped ktests' := fun f hf f' hf' =>
  h f (hperm.mem_iff.mp hf) f' (hperm.mem_iff.mp hf')

theorem CountedOnce.perm (h : CountedOnce ktests) {ktests' : List TestCase}
    (hperm : ktests'.Perm ktests) : CountedOnce ktests' := fun f hf row hrow => by
  rw [hperm.countP_eq]
  exact h f (hperm.mem_iff.mp hf) row hrow

theorem TreeShaped.totalsRight_iff (h : TreeShaped ktests) :
    TotalsRight ktests (accumulate ktests) ↔ CountedOnce ktests := by
  rw [h.countedOnce_iff]
  constructor
  · intro hright i hi
    have htime := hright.remainingTimes i
    rw [h.accumulate_eq.2, if_pos hi, if_pos hi] at htime
    exact (remainingTime_right_iff h).mp (Option.some.inj htime)
  · intro hone
    refine ⟨fun i => h.accumulate_eq.1, fun i => ?_⟩
    rw [h.accumulate_eq.2]
    by_cases hi : i ∈ selections ktests
    · rw [if_pos hi, if_pos hi, (remainingTime_right_iff h).mpr (hone i hi)]
    · rw [if_neg hi, if_neg hi]

/-- In every order of the tests the totals are right, if and only if no selection with a cost and
with others before it is in two tests. -/
theorem accumulate_right_iff (ktests : List TestCase) (h : TreeShaped ktests) :
    (∀ ktests', ktests'.Perm ktests → TotalsRight ktests' (accumulate ktests')) ↔
      CountedOnce ktests := by
  constructor
  · exact fun hright => h.totalsRight_iff.mp (hright ktests (.refl _))
  · exact fun hone ktests' hperm => (h.perm hperm).totalsRight_iff.mpr (hone.perm hperm)

def forked (shared : Bool) : List TestCase :=
  [⟨some 3, [⟨1, 1⟩, ⟨2, 1⟩, ⟨3, 1⟩]⟩, ⟨none, [⟨1, 1⟩, ⟨if shared then 2 else 4, 1⟩, ⟨5, 1⟩]⟩]

/-- The places of the rows, instead of the rows before them. -/
theorem treeShaped_of_take (h : ∀ f ∈ ktests, ∀ f' ∈ ktests, ∀ a < f.features.length,
    ∀ b < f'.features.length, f.path[a]? = f'.path[b]? →
      f.features.take (a + 1) = f'.features.take (b + 1)) : TreeShaped ktests := by
  intro f hf f' hf' p row s p' row' s' heq heq' hindex
  have hsame := h f hf f' hf' p.length (by simp [heq]) p'.length (by simp [heq'])
    (by simp [TestCase.path, heq, heq', hindex])
  have htake (q : List FeatureRow) (r : FeatureRow) (z : List FeatureRow) :
      (q ++ r :: z).take (q.length + 1) = q ++ [r] := by
    rw [List.take_length_add_append]
    rfl
  rw [heq, heq', htake, htake] at hsame
  obtain ⟨hp, hrow⟩ := List.append_inj' hsame rfl
  exact ⟨hp, List.singleton_inj.mp hrow⟩

theorem treeShaped_forked (shared : Bool) : TreeShaped (forked shared) := by
  refine treeShaped_of_take ?_
  cases shared
  · decide +kernel
  · decide +kernel

/-- The tests part after their first selection. -/
theorem accumulate_right_forked :
    TotalsRight (forked false) (accumulate (forked false)) :=
  (accumulate_right_iff (forked false) (treeShaped_forked false)).mpr (by
    simp [CountedOnce, forked, TestCase.path]) (forked false) (.refl _)

/-- They part after the second one, which counts twice for the first. -/
theorem not_accumulate_right : (accumulate (forked true)).remainingTimes 1 = some 5 ∧
    ¬ TotalsRight (forked true) (accumulate (forked true)) := by
  refine ⟨by decide +kernel, fun hright => ?_⟩
  have hone := (treeShaped_forked true).totalsRight_iff.mp hright
  have hsecond := hone _ List.mem_cons_self ⟨2, 1⟩ (List.mem_cons_self)
  revert hsecond
  simp [forked, TestCase.path]

end Right

end Klee.Learch

import Klee.Core.CallPathManager
import Klee.Lib.ParentOrder

/-! Recursion is folded onto the nearest node, and the summaries count each node once. -/
namespace Klee.CallPathManager

open ParentOrder

variable {I F : Type} {m : ℕ} {c c' : CallPathManager I F m} {cs : Option I} {f : Option F}
  {i j p q : ℕ}

section Tree

theorem node_setNode_self {cp : CallPathNode I F m} : (c.setNode p cp).node p = cp := by
  simp [setNode]

theorem node_setNode_of_ne {cp : CallPathNode I F m} (h : i ≠ p) :
    (c.setNode p cp).node i = c.node i := by
  simp [setNode, h]

def parentOf (c : CallPathManager I F m) (p : ℕ) : Option ℕ := (c.node p).parent

def keyOf (c : CallPathManager I F m) (p : ℕ) : CallKey I F := (c.node p).key

/-- What a request at `p` is answered by: a node with the key, above `p` or a child of it -/
structure Answer (c : CallPathManager I F m) (p : ℕ) (key : CallKey I F) (cp : ℕ) : Prop where
  le : cp ≤ c.size
  key : c.keyOf cp = key
  place : Below c.parentOf p cp ∨ c.parentOf cp = some p

/-- What holds between calls: all nodes are below the root, and no key is above itself. -/
structure Inv (c : CallPathManager I F m) : Prop where
  root : c.parentOf 0 = none
  parent : ∀ i, 0 < i → i ≤ c.size → ∃ p, c.parentOf i = some p
  ordered : Ordered c.parentOf c.size
  folded : ∀ i ≤ c.size, ∀ j, Below c.parentOf i j → c.keyOf i = c.keyOf j → i = j
  children : ∀ i ≤ c.size, ∀ key cp, (c.node i).children key = some cp → c.Answer i key cp

structure SameTree (c c' : CallPathManager I F m) : Prop where
  size : c'.size = c.size
  parentOf : c'.parentOf = c.parentOf
  keyOf : c'.keyOf = c.keyOf
  children : ∀ p, (c'.node p).children = (c.node p).children

theorem SameTree.refl (c : CallPathManager I F m) : SameTree c c := ⟨rfl, rfl, rfl, fun _ => rfl⟩

theorem SameTree.trans {c'' : CallPathManager I F m} (h : SameTree c c') (h' : SameTree c' c'') :
    SameTree c c'' :=
  ⟨h'.size.trans h.size, h'.parentOf.trans h.parentOf, h'.keyOf.trans h.keyOf,
    fun p => (h'.children p).trans (h.children p)⟩

theorem Answer.congr {key : CallKey I F} {cp : ℕ} (h : c.Answer p key cp) (hsize : c'.size = c.size)
    (hparent : c'.parentOf = c.parentOf) (hkey : c'.keyOf = c.keyOf) : c'.Answer p key cp := by
  constructor
  · rw [hsize]
    exact h.le
  · rw [hkey]
    exact h.key
  · rw [hparent]
    exact h.place

theorem Inv.congr (hinv : Inv c) (h : SameTree c c') : Inv c' := by
  obtain ⟨hsize, hparent, hkey, hchildren⟩ := h
  constructor
  · rw [hparent]
    exact hinv.root
  · rw [hparent, hsize]
    exact hinv.parent
  · rw [hparent, hsize]
    exact hinv.ordered
  · rw [hparent, hkey, hsize]
    exact hinv.folded
  · intro i hi key cp hcp
    rw [hsize] at hi
    rw [hchildren] at hcp
    exact (hinv.children i hi key cp hcp).congr hsize hparent hkey

structure Kept (c c' : CallPathManager I F m) : Prop where
  size : c.size ≤ c'.size
  children : ∀ i ≤ c.size, ∀ key cp, (c.node i).children key = some cp →
    (c'.node i).children key = some cp

theorem Kept.refl (c : CallPathManager I F m) : Kept c c := ⟨le_rfl, fun _ _ _ _ h => h⟩

theorem Kept.trans {c'' : CallPathManager I F m} (h : Kept c c') (h' : Kept c' c'') : Kept c c'' :=
  ⟨h.size.trans h'.size, fun i hi key cp hcp =>
    h'.children i (hi.trans h.size) key cp (h.children i hi key cp hcp)⟩

theorem SameTree.kept (h : SameTree c c') : Kept c c' :=
  ⟨h.size.ge, fun i _ key cp hcp => by rw [h.children]; exact hcp⟩

/-- If a node with the key is above the place of the request, it is the answer. -/
theorem Answer.eq_of_below {key : CallKey I F} {cp : ℕ} (hinv : Inv c) (h : c.Answer p key cp)
    (hp : p ≤ c.size) (hq : Below c.parentOf p q) (hkey : c.keyOf q = key) : q = cp := by
  rcases h.place with hbelow | hparent
  · have hcp := hbelow.le hinv.ordered hp
    rcases hq.total hbelow with hqcp | hcpq
    · exact hinv.folded q ((hq.le hinv.ordered hp).trans hp) cp hqcp (hkey.trans h.key.symm)
    · exact (hinv.folded cp (hcp.trans hp) q hcpq (h.key.trans hkey.symm)).symm
  · exact (hinv.folded cp h.le q (.head hparent hq) (h.key.trans hkey.symm)).symm

theorem inv_initial : Inv (initial : CallPathManager I F m) where
  root := rfl
  parent _ hpos hle := absurd hle (Nat.not_le.mpr hpos)
  ordered _ _ _ h := by cases h
  folded i hi j hbelow _ := by
    rcases hbelow.cases_head with heq | ⟨k, hk, -⟩
    · exact heq
    · cases hk
  children _ _ _ _ h := by cases h

end Tree

section Requests

/-- A new node below `p` -/
def withPath (c : CallPathManager I F m) (p : ℕ) (cs : Option I) (f : Option F) :
    CallPathManager I F m :=
  { c.setNode (c.size + 1) (.new (some p) cs f) with size := c.size + 1 }

theorem node_withPath (hi : i ≤ c.size) : (c.withPath p cs f).node i = c.node i :=
  Function.update_of_ne (by omega) _ _

theorem parentOf_withPath_last : (c.withPath p cs f).parentOf (c.size + 1) = some p := by
  simp [parentOf, withPath, setNode, CallPathNode.new]

theorem keyOf_withPath_last : (c.withPath p cs f).keyOf (c.size + 1) = (cs, f) := by
  simp [keyOf, withPath, setNode, CallPathNode.new, CallPathNode.key]

theorem parentOf_setNode {cp : CallPathNode I F m} (h : cp.parent = c.parentOf p) :
    (c.setNode p cp).parentOf = c.parentOf := by
  funext i
  by_cases hi : i = p
  · subst hi
    exact (congrArg CallPathNode.parent node_setNode_self).trans h
  · exact congrArg CallPathNode.parent (node_setNode_of_ne hi)

theorem keyOf_setNode {cp : CallPathNode I F m} (h : cp.key = c.keyOf p) :
    (c.setNode p cp).keyOf = c.keyOf := by
  funext i
  by_cases hi : i = p
  · subst hi
    exact (congrArg CallPathNode.key node_setNode_self).trans h
  · exact congrArg CallPathNode.key (node_setNode_of_ne hi)

theorem below_withPath (hinv : Inv c) (hi : i ≤ c.size) :
    Below (c.withPath p cs f).parentOf i j ↔ Below c.parentOf i j :=
  Below.congr hinv.ordered (fun _ hk => congrArg CallPathNode.parent (node_withPath hk)) hi

theorem Inv.withPath (hinv : Inv c) (hp : p ≤ c.size)
    (hnew : ∀ q, Below c.parentOf p q → c.keyOf q ≠ (cs, f)) : Inv (c.withPath p cs f) := by
  have hparent (i : ℕ) (hi : i ≤ c.size) : (c.withPath p cs f).parentOf i = c.parentOf i :=
    congrArg CallPathNode.parent (node_withPath hi)
  have hkey (i : ℕ) (hi : i ≤ c.size) : (c.withPath p cs f).keyOf i = c.keyOf i :=
    congrArg CallPathNode.key (node_withPath hi)
  refine ⟨(hparent 0 (Nat.zero_le _)).trans hinv.root, fun i hpos hi => ?_, fun i hi j hj => ?_,
    fun i hi j hbelow heq => ?_, fun i hi key cp hcp => ?_⟩
  · rcases Nat.le_succ_iff.mp hi with hi | rfl
    · rw [hparent i hi]
      exact hinv.parent i hpos hi
    · exact ⟨p, parentOf_withPath_last⟩
  · rcases Nat.le_succ_iff.mp hi with hi | rfl
    · rw [hparent i hi] at hj
      exact hinv.ordered i hi j hj
    · rw [parentOf_withPath_last] at hj
      cases hj
      exact Nat.lt_succ_of_le hp
  · rcases Nat.le_succ_iff.mp hi with hi | rfl
    · have hbelow := (below_withPath hinv hi).mp hbelow
      rw [hkey i hi, hkey j ((hbelow.le hinv.ordered hi).trans hi)] at heq
      exact hinv.folded i hi j hbelow heq
    · rcases (below_iff_of_some parentOf_withPath_last).mp hbelow with rfl | hbelow
      · rfl
      · have hbelow := (below_withPath hinv hp).mp hbelow
        rw [keyOf_withPath_last, hkey j ((hbelow.le hinv.ordered hp).trans hp)] at heq
        exact absurd heq.symm (hnew j hbelow)
  · rcases Nat.le_succ_iff.mp hi with hi | rfl
    · rw [node_withPath hi] at hcp
      obtain ⟨hle, hcp, hplace⟩ := hinv.children i hi key cp hcp
      refine ⟨hle.trans (Nat.le_succ _), (hkey cp hle).trans hcp, ?_⟩
      rw [below_withPath hinv hi, hparent cp hle]
      exact hplace
    · simp [CallPathManager.withPath, setNode, CallPathNode.new] at hcp

variable [DecidableEq I] [DecidableEq F]

/-- `parent->children.insert` -/
def setChild (c : CallPathManager I F m) (p : ℕ) (key : CallKey I F) (cp : ℕ) :
    CallPathManager I F m :=
  c.setNode p { c.node p with children := Function.update (c.node p).children key (some cp) }

/-- A child that is entered has its key; all others stay. -/
theorem children_setChild (key key' : CallKey I F) (cp : ℕ) :
    ((c.setChild p key cp).node i).children key' =
      if i = p ∧ key' = key then some cp else (c.node i).children key' := by
  unfold setChild
  by_cases hi : i = p
  · subst hi
    rw [node_setNode_self]
    by_cases hkey : key' = key
    · subst hkey
      rw [if_pos ⟨rfl, rfl⟩]
      exact Function.update_self _ _ _
    · rw [if_neg fun h => hkey h.2]
      exact Function.update_of_ne hkey _ _
  · rw [if_neg fun h => hi h.1, node_setNode_of_ne hi]

theorem Inv.setChild (hinv : Inv c) {key : CallKey I F} {cp : ℕ} (hcp : c.Answer p key cp) :
    Inv (c.setChild p key cp) := by
  have hparent : (c.setChild p key cp).parentOf = c.parentOf := parentOf_setNode rfl
  have hkey : (c.setChild p key cp).keyOf = c.keyOf := keyOf_setNode rfl
  refine ⟨hparent ▸ hinv.root, hparent ▸ hinv.parent, hparent ▸ hinv.ordered, ?_, ?_⟩
  · rw [hparent, hkey]
    exact hinv.folded
  · intro i hi key' cp' hcp'
    rw [children_setChild] at hcp'
    split_ifs at hcp' with heq
    · obtain ⟨rfl, rfl⟩ := heq
      cases hcp'
      exact hcp.congr rfl hparent hkey
    · exact (hinv.children i hi key' cp' hcp').congr rfl hparent hkey

/-- The loop finds a node with the key above `p`, if there is one. -/
theorem findAbove_spec (cs : Option I) (f : Option F) (hord : Ordered c.parentOf c.size)
    (hp : p ≤ c.size) {fuel : ℕ} (hfuel : p < fuel) :
    (∀ q, c.findAbove cs f fuel p = some q → Below c.parentOf p q ∧ c.keyOf q = (cs, f)) ∧
    (c.findAbove cs f fuel p = none → ∀ q, Below c.parentOf p q → c.keyOf q ≠ (cs, f)) := by
  induction fuel generalizing p with
  | zero => exact absurd hfuel (Nat.not_lt_zero p)
  | succ fuel ih =>
    have hkey : (cs = (c.node p).callSite ∧ f = (c.node p).function) ↔ c.keyOf p = (cs, f) := by
      rw [keyOf, CallPathNode.key, Prod.mk.injEq, eq_comm, @eq_comm _ f]
    rw [findAbove]
    split_ifs with hfound
    · refine ⟨fun q hq => ?_, nofun⟩
      cases hq
      exact ⟨.refl p, hkey.mp hfound⟩
    · rw [hkey] at hfound
      cases hparent : (c.node p).parent with
      | none =>
        refine ⟨nofun, fun _ q hq => ?_⟩
        obtain rfl := (below_iff_of_none hparent).mp hq
        exact hfound
      | some r =>
        have hlt : r < p := hord p hp r hparent
        obtain ⟨hsome, hnone⟩ := ih (hlt.le.trans hp) (hlt.trans_le (Nat.le_of_lt_succ hfuel))
        refine ⟨fun q hq => ?_, fun h q hq => ?_⟩
        · obtain ⟨hbelow, hq⟩ := hsome q hq
          exact ⟨.head hparent hbelow, hq⟩
        · rcases (below_iff_of_some hparent).mp hq with rfl | hq
          · exact hfound
          · exact hnone h q hq

/-- `computeCallPath` gives a node above the parent, or makes one. -/
theorem computeCallPath_spec (cs : Option I) (f : Option F) (hinv : Inv c) (hp : p ≤ c.size) :
    Inv (c.computeCallPath p cs f).2 ∧
      (c.computeCallPath p cs f).2.Answer p (cs, f) (c.computeCallPath p cs f).1 ∧
      c.size ≤ (c.computeCallPath p cs f).2.size ∧
      ∀ i ≤ c.size, (c.computeCallPath p cs f).2.node i = c.node i := by
  obtain ⟨hsome, hnone⟩ := findAbove_spec cs f hinv.ordered hp p.lt_succ_self
  unfold computeCallPath
  cases hfind : c.findAbove cs f (p + 1) p with
  | some q =>
    obtain ⟨hbelow, hkey⟩ := hsome q hfind
    exact ⟨hinv, ⟨(hbelow.le hinv.ordered hp).trans hp, hkey, .inl hbelow⟩, le_rfl, fun _ _ => rfl⟩
  | none =>
    exact ⟨hinv.withPath hp (hnone hfind),
      ⟨le_rfl, keyOf_withPath_last, .inr parentOf_withPath_last⟩, Nat.le_succ _,
      fun _ hi => node_withPath hi⟩

/-- The node that a request is for; later requests find it among the children. -/
theorem getCallPath_spec (cs : Option I) (f : Option F) (hinv : Inv c) {parent : Option ℕ}
    (hp : parent.getD 0 ≤ c.size) :
    Inv (c.getCallPath parent cs f).2 ∧ Kept c (c.getCallPath parent cs f).2 ∧
      (c.getCallPath parent cs f).2.Answer (parent.getD 0) (cs, f)
        (c.getCallPath parent cs f).1 ∧
      ((c.getCallPath parent cs f).2.node (parent.getD 0)).children (cs, f) =
        some (c.getCallPath parent cs f).1 := by
  unfold getCallPath
  generalize parent.getD 0 = p at hp
  dsimp only
  cases hchild : (c.node p).children (cs, f) with
  | some cp => exact ⟨hinv, .refl c, hinv.children p hp _ cp hchild, hchild⟩
  | none =>
    obtain ⟨hinv', hcp, hsize, hnode⟩ := computeCallPath_spec cs f hinv hp
    have hset : (setChild (c.computeCallPath p cs f).2 p (cs, f)
        (c.computeCallPath p cs f).1).parentOf = (c.computeCallPath p cs f).2.parentOf :=
      parentOf_setNode rfl
    refine ⟨hinv'.setChild hcp, ⟨hsize, fun i hi key cp hcp => ?_⟩,
      hcp.congr rfl hset (keyOf_setNode rfl), ?_⟩
    · refine (children_setChild _ _ _).trans ((if_neg ?_).trans ?_)
      · rintro ⟨rfl, rfl⟩
        cases hchild.symm.trans hcp
      · rw [hnode i hi]
        exact hcp
    · exact (children_setChild _ _ _).trans (if_pos ⟨rfl, rfl⟩)

/-- A request that has been answered is answered so again, and changes nothing. -/
theorem getCallPath_of_child {parent : Option ℕ} {cp : ℕ}
    (h : (c.node (parent.getD 0)).children (cs, f) = some cp) :
    c.getCallPath parent cs f = (cp, c) := by
  unfold getCallPath
  dsimp only
  rw [h]

end Requests

section Summary

theorem statistics_setNode {cp : CallPathNode I F m} (h : cp.statistics = (c.node p).statistics) :
    ((c.setNode p cp).node i).statistics = (c.node i).statistics := by
  by_cases hi : i = p
  · subst hi
    rw [node_setNode_self, h]
  · rw [node_setNode_of_ne hi]

theorem count_setNode {cp : CallPathNode I F m} (h : cp.count = (c.node p).count) :
    ((c.setNode p cp).node i).count = (c.node i).count := by
  by_cases hi : i = p
  · subst hi
    rw [node_setNode_self, h]
  · rw [node_setNode_of_ne hi]

theorem sameTree_setNode {cp : CallPathNode I F m} (hparent : cp.parent = c.parentOf p)
    (hkey : cp.key = c.keyOf p) (hchildren : cp.children = (c.node p).children) :
    SameTree c (c.setNode p cp) := by
  refine ⟨rfl, parentOf_setNode hparent, keyOf_setNode hkey, fun i => ?_⟩
  by_cases hi : i = p
  · subst hi
    rw [node_setNode_self, hchildren]
  · rw [node_setNode_of_ne hi]

def summaryOf (c : CallPathManager I F m) (p : ℕ) : StatisticRecord m :=
  (c.node p).summaryStatistics

/-- One step of the reverse pass changes nothing but the parent's summary. -/
structure SummaryStep (c c' : CallPathManager I F m) : Prop where
  tree : SameTree c c'
  statistics : ∀ p, (c'.node p).statistics = (c.node p).statistics
  count : ∀ p, (c'.node p).count = (c.node p).count

theorem SummaryStep.trans {c'' : CallPathManager I F m} (h : SummaryStep c c')
    (h' : SummaryStep c' c'') : SummaryStep c c'' :=
  ⟨h.tree.trans h'.tree, fun p => (h'.statistics p).trans (h.statistics p),
    fun p => (h'.count p).trans (h.count p)⟩

theorem addToParent_spec : SummaryStep c (c.addToParent p) ∧
    (c.addToParent p).summaryOf = addAt c.summaryOf (c.parentOf p) (c.summaryOf p) := by
  unfold addToParent
  cases hparent : (c.node p).parent with
  | none => exact ⟨⟨.refl c, fun _ => rfl, fun _ => rfl⟩, by rw [parentOf, hparent]; rfl⟩
  | some q =>
    refine ⟨⟨sameTree_setNode rfl rfl rfl, fun _ => statistics_setNode rfl,
      fun _ => count_setNode rfl⟩, ?_⟩
    rw [parentOf, hparent]
    funext i
    by_cases hi : i = q
    · subst hi
      rw [addAt_self]
      exact congrArg CallPathNode.summaryStatistics node_setNode_self
    · rw [addAt_of_ne hi]
      exact congrArg CallPathNode.summaryStatistics (node_setNode_of_ne hi)

theorem resetSummaries_spec : SummaryStep c c.resetSummaries ∧
    ∀ i, 0 < i → i ≤ c.size → c.resetSummaries.summaryOf i = (c.node i).statistics := by
  refine ⟨⟨⟨rfl, ?_, ?_, fun i => ?_⟩, fun i => ?_, fun i => ?_⟩, fun i hpos hle => ?_⟩
  · funext i
    simp only [parentOf, resetSummaries, apply_ite CallPathNode.parent, ite_self]
  · funext i
    simp only [keyOf, CallPathNode.key, resetSummaries, apply_ite CallPathNode.callSite,
      apply_ite CallPathNode.function, ite_self]
  · simp only [resetSummaries, apply_ite CallPathNode.children, ite_self]
  · simp only [resetSummaries, apply_ite CallPathNode.statistics, ite_self]
  · simp only [resetSummaries, apply_ite CallPathNode.count, ite_self]
  · exact congrArg CallPathNode.summaryStatistics (if_pos ⟨hpos, hle⟩)

open Classical in
/-- A node that is not the root has nothing but statistics below it. -/
theorem total_resetSummaries (hinv : Inv c) (hpos : 0 < i) :
    total c.parentOf c.size c.resetSummaries.summaryOf i =
      total c.parentOf c.size (fun j => (c.node j).statistics) i := by
  refine Finset.sum_congr rfl fun j hj => ?_
  obtain ⟨hj, hbelow⟩ := Finset.mem_filter.mp hj
  have hle : j ≤ c.size := Nat.le_of_lt_succ (Finset.mem_range.mp hj)
  exact resetSummaries_spec.2 j (hpos.trans_le (hbelow.le hinv.ordered hle)) hle

variable [DecidableEq I] [DecidableEq F] {results : CallSiteSummaryTable I F m} {key : CallKey I F}
  {n : ℕ}

/-- `results[..][..]` -/
def entry (results : CallSiteSummaryTable I F m) (key : CallKey I F) : CallSiteInfo m :=
  (results key).getD ⟨0, 0⟩

theorem isSome_addEntry {cp : CallPathNode I F m} :
    (addEntry results cp key).isSome ↔ (results key).isSome ∨ cp.key = key := by
  unfold addEntry
  by_cases hkey : key = cp.key
  · subst hkey
    simp
  · rw [Function.update_of_ne hkey, or_iff_left (Ne.symm hkey)]

theorem entry_addEntry {cp : CallPathNode I F m} : entry (addEntry results cp) key =
    if cp.key = key then
      ⟨(entry results key).count + cp.count,
        (entry results key).statistics + cp.summaryStatistics⟩
    else entry results key := by
  unfold entry addEntry
  by_cases hkey : key = cp.key
  · subst hkey
    rw [Function.update_self, if_pos rfl]
    rfl
  · rw [Function.update_of_ne hkey, if_neg (Ne.symm hkey)]

/-- The nodes from 1 to `n` with the key -/
def nodesOf (c : CallPathManager I F m) (n : ℕ) (key : CallKey I F) : Finset ℕ :=
  (Finset.Icc 1 n).filter fun i => c.keyOf i = key

theorem mem_nodesOf : i ∈ c.nodesOf n key ↔ (1 ≤ i ∧ i ≤ n) ∧ c.keyOf i = key := by
  rw [nodesOf, Finset.mem_filter, Finset.mem_Icc]

theorem nonempty_nodesOf_succ :
    (c.nodesOf (n + 1) key).Nonempty ↔ c.keyOf (n + 1) = key ∨ (c.nodesOf n key).Nonempty := by
  constructor
  · rintro ⟨i, hi⟩
    obtain ⟨⟨hpos, hle⟩, hkey⟩ := mem_nodesOf.mp hi
    rcases Nat.le_succ_iff.mp hle with hle | rfl
    · exact .inr ⟨i, mem_nodesOf.mpr ⟨⟨hpos, hle⟩, hkey⟩⟩
    · exact .inl hkey
  · rintro (hkey | ⟨i, hi⟩)
    · exact ⟨n + 1, mem_nodesOf.mpr ⟨⟨n.succ_pos, le_rfl⟩, hkey⟩⟩
    · obtain ⟨⟨hpos, hle⟩, hkey⟩ := mem_nodesOf.mp hi
      exact ⟨i, mem_nodesOf.mpr ⟨⟨hpos, hle.trans n.le_succ⟩, hkey⟩⟩

theorem sum_nodesOf_succ {S : Type} [AddCommMonoid S] (s : ℕ → S) :
    ∑ i ∈ c.nodesOf (n + 1) key, s i =
      (if c.keyOf (n + 1) = key then s (n + 1) else 0) + ∑ i ∈ c.nodesOf n key, s i := by
  rw [nodesOf, nodesOf, Finset.sum_filter, Finset.sum_Icc_succ_top (Nat.le_add_left 1 n), add_comm,
    Finset.sum_filter]

theorem nodesOf_congr (h : SameTree c c') : c'.nodesOf n key = c.nodesOf n key := by
  rw [nodesOf, nodesOf, h.keyOf]

/-- The reverse pass, by induction on the nodes that are left: when a node is entered into the
table, all that are below it have been added to it. -/
theorem summarize_spec (results : CallSiteSummaryTable I F m) (hord : Ordered c.parentOf n) :
    SummaryStep c (summarize n c results).1 ∧
      (summarize n c results).1.summaryOf = sumUp c.parentOf n c.summaryOf ∧
      (∀ key, ((summarize n c results).2 key).isSome ↔
        (results key).isSome ∨ (c.nodesOf n key).Nonempty) ∧
      ∀ key, (entry (summarize n c results).2 key).count =
          (entry results key).count + ∑ i ∈ c.nodesOf n key, (c.node i).count ∧
        (entry (summarize n c results).2 key).statistics =
          (entry results key).statistics +
            ∑ i ∈ c.nodesOf n key, sumUp c.parentOf n c.summaryOf i := by
  induction n generalizing c results with
  | zero =>
    refine ⟨⟨.refl c, fun _ => rfl, fun _ => rfl⟩, rfl, fun key => ?_, fun key => ?_⟩
    · simp [summarize, nodesOf]
    · simp [summarize, nodesOf]
  | succ n ih =>
    obtain ⟨hstep, hsum⟩ := addToParent_spec (c := c) (p := n + 1)
    have hord' : Ordered c.parentOf n := fun k hk => hord k (hk.trans n.le_succ)
    -- the entry is made from the summary that the node keeps
    have hself : c.summaryOf (n + 1) = sumUp c.parentOf (n + 1) c.summaryOf (n + 1) := by
      rw [sumUp, sumUp_of_lt hord' n.lt_succ_self]
      exact (addAt_of_lt fun p hp => hord _ le_rfl p hp).symm
    have hnode : (c.addToParent (n + 1)).summaryOf (n + 1) = c.summaryOf (n + 1) := by
      rw [hsum]
      exact addAt_of_lt fun p hp => hord _ le_rfl p hp
    have hkey : ((c.addToParent (n + 1)).node (n + 1)).key = c.keyOf (n + 1) :=
      congrFun hstep.tree.keyOf (n + 1)
    obtain ⟨hrest, hup, hsome, hentry⟩ := ih (c := c.addToParent (n + 1))
      (addEntry results ((c.addToParent (n + 1)).node (n + 1)))
      (by rw [hstep.tree.parentOf]; exact hord')
    have hup' : sumUp (c.addToParent (n + 1)).parentOf n (c.addToParent (n + 1)).summaryOf =
        sumUp c.parentOf (n + 1) c.summaryOf := by
      rw [hstep.tree.parentOf, hsum]
      rfl
    refine ⟨hstep.trans hrest, hup.trans hup', fun key => ?_, fun key => ?_⟩
    · rw [summarize, hsome, isSome_addEntry, hkey, nodesOf_congr hstep.tree, or_assoc,
        nonempty_nodesOf_succ]
    · obtain ⟨hcount, hstatistics⟩ := hentry key
      rw [hup'] at hstatistics
      simp only [hstep.count] at hcount
      rw [summarize, hcount, hstatistics, nodesOf_congr hstep.tree, entry_addEntry, hkey,
        sum_nodesOf_succ, sum_nodesOf_succ, ← hself, ← hnode, ← hstep.count]
      split_ifs
      · exact ⟨add_assoc _ _ _, add_assoc _ _ _⟩
      · exact ⟨by rw [zero_add], by rw [zero_add]⟩

open Classical in
noncomputable def under (c : CallPathManager I F m) (key : CallKey I F) : Finset ℕ :=
  (Finset.range (c.size + 1)).filter fun j =>
    ∃ i, 0 < i ∧ i ≤ c.size ∧ c.keyOf i = key ∧ Below c.parentOf j i

/-- No node is below two nodes with one key, so nothing is counted twice. -/
theorem sum_total_nodesOf (hinv : Inv c) (s : ℕ → StatisticRecord m) :
    ∑ i ∈ c.nodesOf c.size key, total c.parentOf c.size s i = ∑ j ∈ c.under key, s j := by
  rw [sum_total fun i hi i' hi' hbelow => ?_]
  · refine Finset.sum_congr ?_ fun _ _ => rfl
    ext j
    simp only [under, Finset.mem_filter, mem_nodesOf, Nat.lt_iff_add_one_le, zero_add, and_assoc]
  · obtain ⟨⟨-, hle⟩, hkey⟩ := mem_nodesOf.mp hi
    obtain ⟨-, hkey'⟩ := mem_nodesOf.mp hi'
    exact hinv.folded i hle i' hbelow (hkey.trans hkey'.symm)

/-- What a call of `getSummaryStatistics` is for -/
structure Summarized (c c' : CallPathManager I F m) (results : CallSiteSummaryTable I F m) :
    Prop where
  nodes : SummaryStep c c'
  summary : ∀ i, 0 < i → i ≤ c.size → (c'.node i).summaryStatistics =
    total c.parentOf c.size (fun j => (c.node j).statistics) i
  isSome : ∀ key, (results key).isSome ↔ ∃ i, 0 < i ∧ i ≤ c.size ∧ c.keyOf i = key
  count : ∀ key, (entry results key).count = ∑ i ∈ c.nodesOf c.size key, (c.node i).count
  statistics : ∀ key, (entry results key).statistics = ∑ j ∈ c.under key, (c.node j).statistics

theorem getSummaryStatistics_spec (hinv : Inv c) :
    Summarized c c.getSummaryStatistics.1 c.getSummaryStatistics.2 := by
  obtain ⟨hreset, -⟩ := resetSummaries_spec (c := c)
  have hord : Ordered c.resetSummaries.parentOf c.size := by
    rw [hreset.tree.parentOf]
    exact hinv.ordered
  obtain ⟨hstep, hup, hsome, hentry⟩ := summarize_spec (fun _ => none) hord
  have htotal (i : ℕ) (hpos : 0 < i) (hle : i ≤ c.size) :
      sumUp c.resetSummaries.parentOf c.size c.resetSummaries.summaryOf i =
        total c.parentOf c.size (fun j => (c.node j).statistics) i := by
    rw [sumUp_eq_total hord hle, hreset.tree.parentOf, total_resetSummaries hinv hpos]
  refine ⟨hreset.trans hstep, fun i hpos hle => ?_, fun key => ?_, fun key => ?_, fun key => ?_⟩
  · exact (congrFun hup i).trans (htotal i hpos hle)
  · refine (hsome key).trans ?_
    rw [nodesOf_congr hreset.tree]
    simp only [Option.isSome_none, Bool.false_eq_true, false_or, Finset.Nonempty, mem_nodesOf,
      Nat.lt_iff_add_one_le, zero_add, and_assoc]
  · refine (hentry key).1.trans ?_
    rw [nodesOf_congr hreset.tree]
    simp only [hreset.count]
    exact zero_add _
  · refine (hentry key).2.trans ((zero_add _).trans ?_)
    rw [nodesOf_congr hreset.tree, ← sum_total_nodesOf hinv]
    refine Finset.sum_congr rfl fun i hi => ?_
    obtain ⟨⟨hpos, hle⟩, -⟩ := mem_nodesOf.mp hi
    exact htotal i hpos hle

end Summary

section Runs

variable [DecidableEq I] [DecidableEq F]

/-- A use of the manager: a request at the root or at a node that there is, statistics of any
kind for a node, or a summary -/
inductive Step : CallPathManager I F m → CallPathManager I F m → Prop
  | request (c : CallPathManager I F m) (parent : Option ℕ) (cs : Option I) (f : Option F)
      (hp : parent.getD 0 ≤ c.size) : Step c (c.getCallPath parent cs f).2
  | record (c : CallPathManager I F m) (p : ℕ) (s : StatisticRecord m) (k : BitVec 32)
      (hp : p ≤ c.size) :
      Step c (c.setNode p { c.node p with statistics := s, count := k })
  | summary (c : CallPathManager I F m) : Step c c.getSummaryStatistics.1

abbrev Run : CallPathManager I F m → CallPathManager I F m → Prop :=
  Relation.ReflTransGen Step

theorem Step.inv (h : Step c c') (hinv : Inv c) : Inv c' ∧ Kept c c' := by
  cases h with
  | request parent cs f hp =>
    obtain ⟨hinv', hkept, -⟩ := getCallPath_spec cs f hinv hp
    exact ⟨hinv', hkept⟩
  | record p s k _ =>
    have htree : SameTree c (c.setNode p { c.node p with statistics := s, count := k }) :=
      sameTree_setNode rfl rfl rfl
    exact ⟨hinv.congr htree, htree.kept⟩
  | summary =>
    have htree := (getSummaryStatistics_spec hinv).nodes.tree
    exact ⟨hinv.congr htree, htree.kept⟩

theorem Run.inv (h : Run c c') (hinv : Inv c) : Inv c' ∧ Kept c c' := by
  induction h with
  | refl => exact ⟨hinv, .refl c⟩
  | tail _ hstep ih =>
    obtain ⟨hinv', hkept⟩ := hstep.inv ih.1
    exact ⟨hinv', ih.2.trans hkept⟩

/-- After any use of the manager: no node is below another one with its key; a request gives a
node of the key, the one above the place of the request if there is one, and gives it again
whatever happens in between; and a summary has each node's statistics once. -/
theorem callPaths_right (h : Run initial c) :
    (∀ i ≤ c.size, ∀ j, Below c.parentOf i j → c.keyOf i = c.keyOf j → i = j) ∧
    (∀ parent cs f, parent.getD 0 ≤ c.size →
      (c.getCallPath parent cs f).2.Answer (parent.getD 0) (cs, f)
        (c.getCallPath parent cs f).1 ∧
      (∀ q, Below (c.getCallPath parent cs f).2.parentOf (parent.getD 0) q →
        (c.getCallPath parent cs f).2.keyOf q = (cs, f) → q = (c.getCallPath parent cs f).1) ∧
      ∀ c', Run (c.getCallPath parent cs f).2 c' →
        c'.getCallPath parent cs f = ((c.getCallPath parent cs f).1, c')) ∧
    Summarized c c.getSummaryStatistics.1 c.getSummaryStatistics.2 := by
  obtain ⟨hinv, -⟩ := h.inv inv_initial
  refine ⟨hinv.folded, fun parent cs f hp => ?_, getSummaryStatistics_spec hinv⟩
  obtain ⟨hinv', hkept, hanswer, hchild⟩ := getCallPath_spec cs f hinv hp
  refine ⟨hanswer, fun q hq hkey => ?_, fun c' hrun => ?_⟩
  · exact hanswer.eq_of_below hinv' (hp.trans hkept.size) hq hkey
  · obtain ⟨-, hkept'⟩ := hrun.inv hinv'
    exact getCallPath_of_child (hkept'.children _ (hp.trans hkept.size) _ _ hchild)

/-- `f` calls `g`, once. -/
def oneCall : CallPathManager ℕ ℕ 1 :=
  let (f, c) := initial.getCallPath none (some 1) (some 10)
  (c.getCallPath (some f) (some 2) (some 20)).2

theorem callPaths_right_oneCall : (oneCall.getCallPath (some 2) (some 1) (some 10)).1 = 1 ∧
    Summarized oneCall oneCall.getSummaryStatistics.1 oneCall.getSummaryStatistics.2 := by
  refine ⟨by decide, (callPaths_right ?_).2.2⟩
  exact .tail (.single (.request initial none (some 1) (some 10) le_rfl))
    (.request _ (some 1) (some 2) (some 20) (by decide))

end Runs

end Klee.CallPathManager

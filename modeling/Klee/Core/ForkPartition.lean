import Klee.Core.ForkSpec

/-! `fork` partitions the inputs of a state and its seeds. -/
namespace Klee.Executor

open Hoare

variable {M : Type}

/-- The bookkeeping of the executor: what the next state gets is fresh, and no state has two
nodes in the process tree. -/
structure WellFormed (ex : Executor M) : Prop where
  heap : ∀ st, ex.nextState ≤ st → ex.heap st = none
  addedStates : ∀ st, ex.nextState ≤ st → st ∉ ex.addedStates
  leaves : ∀ st, ex.nextState ≤ st → st ∉ ex.processTree.leaves
  seedMap : ∀ st, ex.nextState ≤ st → ex.seedMap st = none
  nodup : ex.processTree.leaves.Nodup

/-- Forking is not inhibited: no replay, no memory, depth, static-percentage or fork limit,
and `forkDisabled` is off. -/
structure NotInhibited (o : ExecutorOptions) (ex : Executor M) (s : ExecutionState M) : Prop where
  replayPath : o.replayPath = none
  replayKTest : o.replayKTest = false
  maxStaticPct : o.maxStaticPct = false
  memory : (o.maxMemoryInhibit && o.atMemoryLimit) = false
  forkDisabled : s.forkDisabled = false
  inhibitForking : o.inhibitForking = false
  maxForks : ∀ n ∈ o.maxForks, ex.forks < n
  depth : o.maxDepth = 0 ∨ s.depth + 1 < o.maxDepth

def seedsOf (ex : Executor M) (st : Option StateId) : List SeedInfo :=
  (st.bind ex.seedMap).getD []

/-- A side is closed: it is infeasible, or only seeds are replayed and none takes it. -/
def Closed (o : ExecutorOptions) (ex : Executor M) (current : StateId) (cs : List Expr)
    (condition : Expr) (side : Bool) : Prop :=
  (¬ ∃ σ, Satisfies σ cs ∧ (condition.Holds σ ↔ side = true)) ∨
    o.onlyReplaySeeds = true ∧ (∃ σ, Satisfies σ cs ∧ ¬ (condition.Holds σ ↔ side = true)) ∧
      ∃ seeds, ex.seedMap current = some seeds ∧
        ∀ seed ∈ seeds, ¬ SeedTakes o cs condition side seed

/-- A returned state is a copy of the parent's registers and memory whose path condition
is that of its side. -/
def OnSide (s : ExecutionState M) (condition : Expr) (ex' : Executor M) (side : Bool)
    (st : Option StateId) : Prop :=
  ∀ id, st = some id → ∃ s', ex'.heap id = some s' ∧ s'.memory = s.memory ∧
    ∀ σ, Satisfies σ s'.constraints ↔ Satisfies σ s.constraints ∧ (condition.Holds σ ↔ side = true)

/-- The states that `fork` returns partition the inputs and the seeds of the parent. -/
structure Partition (o : ExecutorOptions) (ex : Executor M) (current : StateId)
    (s : ExecutionState M) (condition : Expr) (r : Option StateId × Option StateId)
    (ex' : Executor M) : Prop where
  trueSide : OnSide s condition ex' true r.1
  falseSide : OnSide s condition ex' false r.2
  trueClosed : r.1 = none ↔ Closed o ex current s.constraints condition true
  falseClosed : r.2 = none ↔ Closed o ex current s.constraints condition false
  seeds : ((ex.seedMap current).getD []).Perm (seedsOf ex' r.1 ++ seedsOf ex' r.2)
  parent : ∃ s', ex'.heap current = some s' ∧ s'.memory = s.memory
  alone : r = (some current, none) ∨ r = (none, some current) →
    ex'.addedStates = ex.addedStates ∧ ex'.processTree = ex.processTree
  new : r = (some current, none) ∨ r = (none, some current) ∨
    ∃ new, r = (some current, some new) ∧ new ≠ current ∧ ex.heap new = none ∧
      ex'.addedStates = ex.addedStates ++ [new] ∧ new ∉ ex.addedStates ∧
      ex'.processTree.leaves.Perm (new :: ex.processTree.leaves) ∧ new ∉ ex.processTree.leaves
  others : ∀ st, st ≠ current → r.2 ≠ some st →
    ex'.heap st = ex.heap st ∧ ex'.seedMap st = ex.seedMap st

variable {o : ExecutorOptions} {ex : Executor M} {current : StateId} {s : ExecutionState M}
variable {condition : Expr} {cs : List Expr}

theorem NotInhibited.skipsFork (h : NotInhibited o ex s) : skipsFork o ex s = false := by
  unfold Executor.skipsFork
  rw [h.memory, h.forkDisabled, h.inhibitForking]
  cases hmax : o.maxForks with
  | none => rfl
  | some n => simpa using h.maxForks n hmax

theorem SeedTakes.unique {seed : SeedInfo} {side side' : Bool}
    (h : SeedTakes o cs condition side seed) (h' : SeedTakes o cs condition side' seed) :
    side = side' := by
  obtain ⟨c, hc, rfl⟩ := h
  obtain ⟨c', hc', rfl⟩ := h'
  rw [Option.some.inj (hc.symm.trans hc')]

theorem free_of_notInhibited (hwf : ex.WellFormed) (hnode : current ∈ ex.processTree.leaves)
    (ha : Answers o s.constraints condition) (hseeds : ex.seedMap current ≠ some [])
    (h : NotInhibited o ex s) (isInternal : Bool) :
    Free o ex current s condition isInternal where
  answers := ha
  node := by
    obtain ⟨t, ht, -⟩ := PTree.attach_spec ex.nextState current hnode
    rw [ht]
    rfl
  freshSeeds := hwf.seedMap _ le_rfl
  seeds := hseeds
  maxStaticPct := h.maxStaticPct
  replayPath _ := h.replayPath
  replayKTest := h.replayKTest
  skipsFork := h.skipsFork
  depth hd := by
    obtain h0 | hlt := h.depth
    · exact hd.1 h0
    · omega

/-- With both sides feasible a side is closed when no seed takes it. -/
theorem closed_iff_of_feasible (hverdict : Validity.unknown.Says cs condition) (side : Bool) :
    Closed o ex current cs condition side ↔ o.onlyReplaySeeds = true ∧
      ∃ seeds, ex.seedMap current = some seeds ∧
        ∀ seed ∈ seeds, ¬ SeedTakes o cs condition side seed := by
  have hfeasible := Validity.Says.feasible hverdict side
  have hother : ∃ σ, Satisfies σ cs ∧ ¬ (condition.Holds σ ↔ side = true) := by
    obtain ⟨σ, hσ, hh⟩ := Validity.Says.feasible hverdict (!side)
    refine ⟨σ, hσ, fun hside => ?_⟩
    cases side <;> simp_all
  constructor
  · rintro (h | ⟨honly, -, hseeds⟩)
    · exact absurd hfeasible h
    · exact ⟨honly, hseeds⟩
  · exact fun h => .inr ⟨h.1, hother, h.2⟩

/-- The side on which a state goes on alone is open, and the other one is closed. -/
theorem OneSided.closed {side : Bool} {ex' : Executor M} {s' : ExecutionState M}
    (hsat : ∃ σ, Satisfies σ s.constraints)
    (h : OneSided o ex current s condition side ex' s') :
    ¬ Closed o ex current s.constraints condition side ∧
      Closed o ex current s.constraints condition (!side) := by
  obtain hall | ⟨hverdict, honly, seeds, hseeds, hne, htakes⟩ := h.why
  · constructor
    · rintro (hinf | ⟨-, ⟨σ, hσ, hh⟩, -⟩)
      · obtain ⟨σ, hσ⟩ := hsat
        exact hinf ⟨σ, hσ, hall σ hσ⟩
      · exact hh (hall σ hσ)
    · refine .inl fun ⟨σ, hσ, hh⟩ => ?_
      have hside := hall σ hσ
      cases side <;> simp_all
  · rw [closed_iff_of_feasible hverdict, closed_iff_of_feasible hverdict]
    constructor
    · rintro ⟨-, seeds', hseeds', hnot⟩
      obtain rfl : seeds = seeds' := Option.some.inj (hseeds.symm.trans hseeds')
      obtain ⟨seed, hseed⟩ := List.exists_mem_of_ne_nil seeds hne
      exact hnot seed hseed (htakes seed hseed)
    · refine ⟨honly, seeds, hseeds, fun seed hseed hnot => ?_⟩
      have hside := (htakes seed hseed).unique hnot
      cases side <;> cases hside

theorem TwoSided.closed {m : StateId → Option (List SeedInfo)} {a b : ExecutionState M}
    (h : TwoSided o ex current s condition m a b) (side : Bool) :
    ¬ Closed o ex current s.constraints condition side := by
  rw [closed_iff_of_feasible h.feasible]
  rintro ⟨honly, seeds, hseeds, hnot⟩
  obtain ⟨⟨x, hx, hxt⟩, y, hy, hyf⟩ := h.seeded seeds hseeds honly
  cases side with
  | true => exact hnot x hx hxt
  | false => exact hnot y hy hyf

/-- A state that goes on alone keeps its seeds and takes its side. -/
theorem OneSided.partition {side isInternal : Bool} {ex' : Executor M} {s' : ExecutionState M}
    {fs : List StateId} (hsat : ∃ σ, Satisfies σ s.constraints)
    (hprep : Prepared current ex s ex' s') (h : OneSided o ex current s condition side ex' s') :
    Partition o ex current s condition (Executor.alone current side)
      (aloneResult ex' current s' isInternal side fs) := by
  have hheap : (aloneResult ex' current s' isInternal side fs).heap current =
      some (s'.took (sideIndex side)) := Function.update_self _ _ _
  have hmem : (s'.took (sideIndex side)).memory = s.memory := by
    rw [hprep.state]
    rfl
  have hmap : (aloneResult ex' current s' isInternal side fs).seedMap = ex.seedMap := h.seedMap
  have hother (st : StateId) (hst : st ≠ current) :
      (aloneResult ex' current s' isInternal side fs).heap st = ex.heap st :=
    (Function.update_of_ne hst _ _).trans (hprep.heap_of_ne hst)
  have hside : OnSide s condition (aloneResult ex' current s' isInternal side fs) side
      (some current) := by
    intro id hid
    obtain rfl := Option.some.inj hid
    exact ⟨_, hheap, hmem, h.constraints⟩
  have hnone (side' : Bool) :
      OnSide s condition (aloneResult ex' current s' isInternal side fs) side' none := by
    intro id hid
    cases hid
  have hadded : (aloneResult ex' current s' isInternal side fs).addedStates = ex.addedStates := by
    rw [aloneResult, hprep.executor]
  have htree : (aloneResult ex' current s' isInternal side fs).processTree = ex.processTree :=
    hprep.processTree
  obtain ⟨hopen, hclosed⟩ := h.closed hsat
  cases side with
  | true =>
    refine ⟨hside, hnone _, ?_, ?_, ?_, ⟨_, hheap, hmem⟩,
      fun _ => ⟨hadded, htree⟩, .inl rfl, fun st hst _ => ⟨hother st hst, congrFun hmap st⟩⟩
    · exact iff_of_false (by simp [Executor.alone]) hopen
    · exact iff_of_true rfl hclosed
    · simp [seedsOf, Executor.alone, hmap]
  | false =>
    refine ⟨hnone _, hside, ?_, ?_, ?_, ⟨_, hheap, hmem⟩,
      fun _ => ⟨hadded, htree⟩, .inr (.inl rfl), fun st hst _ => ⟨hother st hst, congrFun hmap st⟩⟩
    · exact iff_of_true rfl hclosed
    · exact iff_of_false (by simp [Executor.alone]) hopen
    · simp [seedsOf, Executor.alone, hmap]

/-- After a split each state has its side and the seeds that take it. -/
theorem TwoSided.partition {isInternal : Bool} {t : PTree} {fs : List StateId}
    {m : StateId → Option (List SeedInfo)} {n : BitVec 32} {a b : ExecutionState M}
    (hwf : ex.WellFormed) (hs : ex.heap current = some s) (hnode : current ∈ ex.processTree.leaves)
    (ht : ex.processTree.attach current ex.nextState current = some t)
    (hstates : SplitStates ex s isInternal a b) (h : TwoSided o ex current s condition m a b) :
    Partition o ex current s condition (some current, some ex.nextState)
      (splitResult ex current s isInternal t fs m n a b) := by
  have hnew := hwf.heap _ le_rfl
  have hne : current ≠ ex.nextState := by
    intro heq
    rw [← heq, hs] at hnew
    cases hnew
  obtain ⟨ts, fs', hseeds⟩ := h.split.seeds
  have hleft : (splitResult ex current s isInternal t fs m n a b).heap current = some a :=
    heap_withPair_left hne
  have hright : (splitResult ex current s isInternal t fs m n a b).heap ex.nextState = some b :=
    heap_withPair_right
  have ha : a.memory = s.memory := by
    rw [hstates.trueSide]
    rfl
  have hb : b.memory = s.memory := by
    rw [hstates.falseSide]
    rfl
  refine ⟨?_, ?_, ?_, ?_, ?_, ⟨a, hleft, ha⟩, ?_, .inr (.inr ?_), ?_⟩
  · intro id hid
    obtain rfl := Option.some.inj hid
    exact ⟨a, hleft, ha, fun σ => by simpa using h.split.trueSide σ⟩
  · intro id hid
    obtain rfl := Option.some.inj hid
    exact ⟨b, hright, hb, fun σ => by simpa using h.split.falseSide σ⟩
  · exact iff_of_false (by simp) (h.closed true)
  · exact iff_of_false (by simp) (h.closed false)
  · show ((ex.seedMap current).getD []).Perm ((m current).getD [] ++ (m ex.nextState).getD [])
    rw [hseeds.left hne, hseeds.right (hwf.seedMap _ le_rfl)]
    exact hseeds.perm
  · intro halone
    simp at halone
  · obtain ⟨t', ht', hperm⟩ := PTree.attach_spec ex.nextState current hnode
    obtain rfl : t = t' := Option.some.inj (ht.symm.trans ht')
    exact ⟨ex.nextState, rfl, hne.symm, hnew, rfl, hwf.addedStates _ le_rfl,
      hperm.trans ((List.perm_cons_erase hnode).symm.cons _), hwf.leaves _ le_rfl⟩
  · intro st hst hst'
    have hst' : st ≠ ex.nextState := fun heq => hst' (congrArg some heq.symm)
    exact ⟨heap_withPair_of_ne hst hst', hseeds.of_ne hst hst'⟩

theorem wp_fork_partition {o : ExecutorOptions} {ex : Executor M} {current : StateId}
    {s : ExecutionState M} {condition : Expr} (isInternal : Bool) (hwf : ex.WellFormed)
    (hs : ex.heap current = some s) (hnode : current ∈ ex.processTree.leaves)
    (ha : Answers o s.constraints condition) (hseeds : ex.seedMap current ≠ some [])
    (hfree : NotInhibited o ex s) : wp (fork o current condition isInternal)
      (Partition o ex current s condition) (fun _ => ¬ True) ex := by
  refine wp_fork hs (hwf.heap _ le_rfl)
    (fun _ => free_of_notInhibited hwf hnode ha hseeds hfree isInternal) ?_ ?_ ?_ ?_
  · exact fun side ex' s' fs hprep h => (h trivial).partition ha.sat hprep
  · intro ex' s' t fs m n a b _ ht hstates h
    obtain ⟨rfl, rfl, htwo⟩ := h trivial
    exact htwo.partition hwf hs hnode ht hstates
  · exact fun _ _ _ _ _ _ _ _ _ _ _ _ _ hnC => absurd trivial hnC
  · exact fun _ _ _ _ _ hnC => absurd trivial hnC

section Example

def emptyState : ExecutionState Unit where
  id := 1
  pc := 7
  prevPC := 7
  memory := ()
  constraints := []
  depth := 0
  pathOS := 0
  symPathOS := 0
  coveredNew := false
  coveredLines := []
  forkDisabled := false
  takenBranches := []

noncomputable def plainOptions : ExecutorOptions where
  solver := .ideal
  rewriteEqualities := true
  maxForks := none
  maxDepth := 0
  onlyReplaySeeds := false
  featureExtract := false
  maxMemoryInhibit := true
  atMemoryLimit := false
  inhibitForking := false
  maxStaticPct := false
  replayPath := none
  replayKTest := false

theorem wellFormed_initial (s : ExecutionState M) (pw sw : Option TreeStreamWriter) :
    (initial s pw sw).WellFormed where
  heap st hst := by
    have hne : st ≠ 0 := Nat.ne_of_gt hst
    show Function.update (fun _ => none) 0 (some s) st = none
    rw [Function.update_of_ne hne]
  addedStates _ _ := List.not_mem_nil
  leaves st hst hmem := Nat.ne_of_gt hst (List.mem_singleton.mp hmem)
  seedMap _ _ := rfl
  nodup := List.nodup_singleton 0

end Example

end Klee.Executor

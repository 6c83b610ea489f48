import Klee.Core.PathHistory

/-! `fork` inside the loops of one instruction: with room for the fork and a solver that
answers, a state goes on alone or is split, and nothing else changes. -/
namespace Klee.Executor

open Hoare

variable {M : Type}

structure Ready (ex : Executor M) (st : StateId) (s : ExecutionState M) : Prop where
  heap : ex.heap st = some s
  node : st ∈ ex.processTree.leaves
  seeds : ex.seedMap st ≠ some []
  isBool : ∀ c ∈ s.constraints, c.IsBool
  sat : ∃ σ, Satisfies σ s.constraints

/-- No mode and no limit inhibits the next `k` forks from a state. -/
structure Room (o : ExecutorOptions) (ex : Executor M) (s : ExecutionState M) (k : Nat) : Prop where
  onlyReplaySeeds : o.onlyReplaySeeds = false
  replayKTest : o.replayKTest = false
  maxStaticPct : o.maxStaticPct = false
  memory : (o.maxMemoryInhibit && o.atMemoryLimit) = false
  forkDisabled : s.forkDisabled = false
  inhibitForking : o.inhibitForking = false
  maxForks : ∀ n ∈ o.maxForks, ex.forks + k ≤ n
  depth : o.maxDepth = 0 ∨ s.depth + k < o.maxDepth

/-- Only the states `sts` have changed; none was terminated. -/
structure OnlyIn (sts : List StateId) (ex ex' : Executor M) : Prop where
  wellFormed : ex'.WellFormed
  heap : ∀ st, st ∉ sts → ex'.heap st = ex.heap st
  node : ∀ st, st ∈ ex.processTree.leaves → st ∈ ex'.processTree.leaves
  seedMap : ∀ st, st ∉ sts → ex'.seedMap st = ex.seedMap st
  addedStates : ∀ st, st < ex.nextState → st ∉ ex.addedStates → st ∉ ex'.addedStates
  removedStates : ex'.removedStates = ex.removedStates
  explored : ex'.explored = ex.explored

/-- A state on a side of a fork: the parent with the constraint of that side. -/
structure Branched (s s' : ExecutionState M) (side : Assignment → Prop) : Prop where
  constraints : ∀ σ, Satisfies σ s'.constraints ↔ Satisfies σ s.constraints ∧ side σ
  memory : s'.memory = s.memory
  pc : s'.pc = s.pc
  prevPC : s'.prevPC = s.prevPC
  forkDisabled : s'.forkDisabled = s.forkDisabled
  depth : s'.depth ≤ s.depth + 1

variable {o : ExecutorOptions} {ex ex' : Executor M} {st : StateId} {s s' : ExecutionState M}
variable {condition : Expr} {k : Nat}

theorem Branched.congr {side side' : Assignment → Prop} (h : Branched s s' side)
    (hside : ∀ σ, side σ ↔ side' σ) : Branched s s' side' :=
  { h with constraints := fun σ => by rw [h.constraints, hside] }

theorem Room.mono {j : Nat} (h : Room o ex s k) (hj : j ≤ k) : Room o ex s j :=
  { h with
    maxForks := fun n hn => (Nat.add_le_add_left hj _).trans (h.maxForks n hn)
    depth := h.depth.imp_right fun hd => (Nat.add_le_add_left hj _).trans_lt hd }

/-- A fork takes one of the forks that there is room for. -/
theorem Room.branched {side : Assignment → Prop} (h : Room o ex s (k + 1))
    (hs : Branched s s' side) (hforks : ex'.forks ≤ ex.forks + 1) : Room o ex' s' k :=
  { h with
    forkDisabled := hs.forkDisabled.trans h.forkDisabled
    maxForks := fun n hn => by
      have hle := h.maxForks n hn
      omega
    depth := h.depth.imp_right fun hd => by
      have hle := hs.depth
      omega }

theorem Room.skipsFork (h : Room o ex s (k + 1)) : skipsFork o ex s = false := by
  unfold Executor.skipsFork
  rw [h.memory, h.forkDisabled, h.inhibitForking]
  cases hmax : o.maxForks with
  | none => rfl
  | some n =>
    have hle := h.maxForks n hmax
    simpa using show ex.forks < n by omega

theorem Room.free (h : Room o ex s (k + 1)) (hwf : ex.WellFormed) (hready : Ready ex st s)
    (hsolver : o.solver.Correct) (hc : condition.IsBool) : Free o ex st s condition true where
  answers := ⟨hsolver, hready.isBool, hc, hready.sat⟩
  node := by
    obtain ⟨t, ht, -⟩ := PTree.attach_spec ex.nextState st hready.node
    rw [ht]
    rfl
  freshSeeds := hwf.seedMap _ le_rfl
  seeds := hready.seeds
  maxStaticPct := h.maxStaticPct
  replayPath hfalse := by cases hfalse
  replayKTest := h.replayKTest
  skipsFork := h.skipsFork
  depth hd := by
    cases h.depth with
    | inl h0 => exact hd.1 h0
    | inr hlt =>
      have hle := hd.2
      omega

theorem lt_nextState (hwf : ex.WellFormed) (hs : ex.heap st = some s) : st < ex.nextState := by
  by_contra hle
  rw [hwf.heap st (Nat.le_of_not_lt hle)] at hs
  cases hs

/-- Without only-replay-seed mode a state goes on alone because the other side is infeasible. -/
theorem OneSided.all {side : Bool} (h : OneSided o ex st s condition side ex' s')
    (honly : o.onlyReplaySeeds = false) :
    ∀ σ, Satisfies σ s.constraints → (condition.Holds σ ↔ side = true) := by
  cases h.why with
  | inl hall => exact hall
  | inr hseeded => cases honly.symm.trans hseeded.2.1

/-- A state that goes on alone keeps its place. -/
theorem OneSided.onlyIn {side : Bool} (fs : List StateId) {ex₁ : Executor M}
    {s₁ : ExecutionState M} (hwf : ex.WellFormed) (hready : Ready ex st s)
    (honly : o.onlyReplaySeeds = false) (hprep : Prepared st ex s ex₁ s₁) (h : OneSided o ex st s condition side ex₁ s₁) :
    OnlyIn [st] ex (aloneResult ex₁ st s₁ true side fs) ∧
      Ready (aloneResult ex₁ st s₁ true side fs) st (s₁.took (sideIndex side)) := by
  have hlt := lt_nextState hwf hready.heap
  have htree : ex₁.processTree = ex.processTree := hprep.processTree
  have hnext : ex₁.nextState = ex.nextState := hprep.nextState
  have hadded : ex₁.addedStates = ex.addedStates := by rw [hprep.executor]
  have hother (x : StateId) (hx : x ≠ st) :
      (aloneResult ex₁ st s₁ true side fs).heap x = ex.heap x :=
    (heap_aloneResult_of_ne hx).trans (hprep.heap_of_ne hx)
  constructor
  · refine ⟨⟨fun x hx => ?_, fun x hx => ?_, fun x hx => ?_, fun x hx => ?_, ?_⟩, fun x hx => ?_,
      fun x hx => ?_, fun x _ => congrFun h.seedMap x, fun x _ hx => ?_, ?_, ?_⟩
    · have hle : ex.nextState ≤ x := hnext ▸ hx
      rw [hother x (Nat.ne_of_gt (Nat.lt_of_lt_of_le hlt hle))]
      exact hwf.heap x hle
    · show x ∉ ex₁.addedStates
      rw [hadded]
      exact hwf.addedStates x (hnext ▸ hx)
    · show x ∉ ex₁.processTree.leaves
      rw [htree]
      exact hwf.leaves x (hnext ▸ hx)
    · exact (congrFun h.seedMap x).trans (hwf.seedMap x (hnext ▸ hx))
    · show ex₁.processTree.leaves.Nodup
      rw [htree]
      exact hwf.nodup
    · exact hother x (by simpa using hx)
    · show x ∈ ex₁.processTree.leaves
      rwa [htree]
    · show x ∉ ex₁.addedStates
      rwa [hadded]
    · show ex₁.removedStates = _
      rw [hprep.executor]
    · show ex₁.explored = _
      rw [hprep.executor]
  · refine ⟨Function.update_self _ _ _, ?_, ?_, h.isBool, ?_⟩
    · show st ∈ ex₁.processTree.leaves
      rw [htree]
      exact hready.node
    · show ex₁.seedMap st ≠ _
      rw [h.seedMap]
      exact hready.seeds
    · obtain ⟨σ, hσ⟩ := hready.sat
      exact ⟨σ, (h.constraints σ).mpr ⟨hσ, h.all honly σ hσ⟩⟩

theorem seedEntry_ne (seeds : List SeedInfo) : seedEntry seeds ≠ some [] := by
  intro h
  have hnil := seedEntry_eq_some h
  rw [← hnil] at h
  simp [seedEntry] at h

/-- No state gets an empty list of seeds. -/
theorem SeedsSplit.ne_nil {cs : List Expr} {m : StateId → Option (List SeedInfo)}
    {ts fs : List SeedInfo} {new x : StateId} (h : SeedsSplit o ex st new cs condition m ts fs)
    (hx : ex.seedMap x ≠ some []) : m x ≠ some [] := by
  rw [h.map]
  split
  · exact hx
  · by_cases hnew : x = new
    · rw [hnew, Function.update_self]
      exact seedEntry_ne fs
    · rw [Function.update_of_ne hnew]
      by_cases hst : x = st
      · rw [hst, Function.update_self]
        exact seedEntry_ne ts
      · rwa [Function.update_of_ne hst]

/-- The two states of a fork have their places, and no other state has changed. -/
theorem TwoSided.onlyIn {t : PTree} (fs : List StateId) (n : BitVec 32)
    {m : StateId → Option (List SeedInfo)} {a b : ExecutionState M} (hwf : ex.WellFormed) (hready : Ready ex st s)
    (ht : ex.processTree.attach st ex.nextState st = some t)
    (h : TwoSided o ex st s condition m a b) :
    OnlyIn [st, ex.nextState] ex (splitResult ex st s true t fs m n a b) ∧
      Ready (splitResult ex st s true t fs m n a b) st a ∧
      Ready (splitResult ex st s true t fs m n a b) ex.nextState b := by
  have hlt := lt_nextState hwf hready.heap
  have hne : st ≠ ex.nextState := Nat.ne_of_lt hlt
  obtain ⟨t', ht', hperm⟩ := PTree.attach_spec ex.nextState st hready.node
  obtain rfl : t = t' := Option.some.inj (ht.symm.trans ht')
  have hperm : t.leaves.Perm (ex.nextState :: ex.processTree.leaves) :=
    hperm.trans ((List.perm_cons_erase hready.node).symm.cons _)
  obtain ⟨ts, fs', hseeds⟩ := h.split.seeds
  have hbig (x : StateId) (hx : ex.nextState + 1 ≤ x) : x ≠ st ∧ x ≠ ex.nextState :=
    ⟨Nat.ne_of_gt (Nat.lt_trans hlt hx), Nat.ne_of_gt hx⟩
  refine ⟨⟨⟨fun x hx => ?_, fun x hx hmem => ?_, fun x hx hmem => ?_, fun x hx => ?_, ?_⟩,
    fun x hx => ?_, fun x hx => ?_, fun x hx => ?_, fun x hx hold hmem => ?_, rfl, rfl⟩, ?_, ?_⟩
  · have hx' := hbig x hx
    exact (heap_withPair_of_ne hx'.1 hx'.2).trans (hwf.heap x (Nat.le_of_lt hx))
  · cases List.mem_append.mp hmem with
    | inl hold => exact hwf.addedStates x (Nat.le_of_lt hx) hold
    | inr hnew => exact (hbig x hx).2 (List.mem_singleton.mp hnew)
  · cases List.mem_cons.mp (hperm.mem_iff.mp hmem) with
    | inl hnew => exact (hbig x hx).2 hnew
    | inr hold => exact hwf.leaves x (Nat.le_of_lt hx) hold
  · have hx' := hbig x hx
    exact (hseeds.of_ne hx'.1 hx'.2).trans (hwf.seedMap x (Nat.le_of_lt hx))
  · exact hperm.nodup_iff.mpr (List.nodup_cons.mpr ⟨hwf.leaves _ le_rfl, hwf.nodup⟩)
  · rw [List.mem_cons, List.mem_singleton, not_or] at hx
    exact heap_withPair_of_ne hx.1 hx.2
  · exact hperm.mem_iff.mpr (List.mem_cons_of_mem _ hx)
  · rw [List.mem_cons, List.mem_singleton, not_or] at hx
    exact hseeds.of_ne hx.1 hx.2
  · cases List.mem_append.mp hmem with
    | inl h => exact hold h
    | inr hnew => exact Nat.ne_of_lt hx (List.mem_singleton.mp hnew)
  · refine ⟨heap_withPair_left hne, hperm.mem_iff.mpr (List.mem_cons_of_mem _ hready.node), ?_,
      h.split.isBool.1, ?_⟩
    · exact hseeds.ne_nil hready.seeds
    · obtain ⟨σ, hσ, hh⟩ := h.feasible.1
      exact ⟨σ, (h.split.trueSide σ).mpr ⟨hσ, hh⟩⟩
  · refine ⟨heap_withPair_right, hperm.mem_iff.mpr List.mem_cons_self, ?_, h.split.isBool.2, ?_⟩
    · refine hseeds.ne_nil ?_
      rw [hwf.seedMap _ le_rfl]
      simp
    · obtain ⟨σ, hσ, hh⟩ := h.feasible.2
      exact ⟨σ, (h.split.falseSide σ).mpr ⟨hσ, hh⟩⟩

/-- The spec of `fork` for a state that has room for it. -/
theorem wp_fork_internal {Q : Option StateId × Option StateId → Executor M → Prop}
    (hwf : ex.WellFormed) (hready : Ready ex st s) (hsolver : o.solver.Correct)
    (hc : condition.IsBool) (hroom : Room o ex s (k + 1))
    (hOne : ∀ side ex' s', (∀ σ, Satisfies σ s.constraints → (condition.Holds σ ↔ side = true)) →
      OnlyIn [st] ex ex' → ex'.nextState = ex.nextState → Ready ex' st s' → Room o ex' s' (k + 1) →
      Branched s s' (fun σ => condition.Holds σ ↔ side = true) → Q (alone st side) ex')
    (hTwo : ∀ ex' a b, (∃ σ, Satisfies σ s.constraints ∧ condition.Holds σ) →
      (∃ σ, Satisfies σ s.constraints ∧ ¬ condition.Holds σ) →
      OnlyIn [st, ex.nextState] ex ex' → ex'.nextState = ex.nextState + 1 → Ready ex' st a →
      Ready ex' ex.nextState b → Room o ex' a k → Room o ex' b k →
      Branched s a (fun σ => condition.Holds σ) → Branched s b (fun σ => ¬ condition.Holds σ) →
      Q (some st, some ex.nextState) ex') :
    wp (fork o st condition true) Q (fun _ => False) ex := by
  have hfork : wp (fork o st condition true) Q (fun _ => ¬ True) ex := by
    refine wp_fork hready.heap (hwf.heap _ le_rfl)
      (fun _ => hroom.free hwf hready hsolver hc) (fun side ex' s' fs hprep h => ?_)
      (fun ex' s' t fs m n a b _ ht hstates h => ?_)
      (fun _ _ _ _ _ _ _ _ _ _ _ _ _ hnC => absurd trivial hnC)
      fun _ _ _ _ _ hnC => absurd trivial hnC
    · have h := h trivial
      obtain ⟨honlyIn, hready'⟩ := h.onlyIn fs hwf hready hroom.onlyReplaySeeds hprep
      have hs' := hprep.state
      have hbranched : Branched s (s'.took (sideIndex side))
          (fun σ => condition.Holds σ ↔ side = true) := by
        refine ⟨h.constraints, ?_, ?_, ?_, ?_, ?_⟩ <;> rw [hs']
        all_goals first | rfl | exact Nat.le_succ _
      have hforks : ex'.forks = ex.forks := by rw [hprep.executor]
      have hroom' : Room o (aloneResult ex' st s' true side fs) (s'.took (sideIndex side)) (k + 1) := by
        refine { hroom with
          forkDisabled := hbranched.forkDisabled.trans hroom.forkDisabled
          maxForks := ?_
          depth := ?_ }
        · show ∀ n ∈ o.maxForks, ex'.forks + (k + 1) ≤ n
          rw [hforks]
          exact hroom.maxForks
        · rw [hs']
          exact hroom.depth
      exact hOne side _ _ (h.all hroom.onlyReplaySeeds) honlyIn hprep.nextState hready' hroom'
        hbranched
    · obtain ⟨rfl, rfl, htwo⟩ := h trivial
      obtain ⟨honlyIn, ha, hb⟩ := htwo.onlyIn fs n hwf hready ht
      have hbranched : Branched s' a (fun σ => condition.Holds σ) := by
        refine ⟨htwo.split.trueSide, ?_, ?_, ?_, ?_, ?_⟩ <;> rw [hstates.trueSide] <;> rfl
      have hbranched' : Branched s' b (fun σ => ¬ condition.Holds σ) := by
        refine ⟨htwo.split.falseSide, ?_, ?_, ?_, ?_, ?_⟩ <;> rw [hstates.falseSide] <;> rfl
      exact hTwo _ a b htwo.feasible.1 htwo.feasible.2 honlyIn rfl ha hb
        (hroom.branched hbranched le_rfl) (hroom.branched hbranched' le_rfl) hbranched hbranched'
  exact wp_mono hfork (fun _ _ h => h) fun _ h => h trivial

end Klee.Executor

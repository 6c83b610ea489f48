import Klee.Core.BranchSpec
import Klee.Core.ForkPartition

/-! The branches that each state took, over the runs of `fork` and `branch`. -/
namespace Klee

/-- A branch that a state took: a side of a two-way branch, or the index of a multi-way one.
`split` tells that the other side was feasible too. -/
inductive Decision where
  | fork (inst : Nat) (side isInternal split : Bool)
  | branch (inst index : Nat)
deriving DecidableEq, Repr

namespace Decision

/-- The entry of `takenBranches`. -/
def entry : Decision → Nat × Nat
  | fork inst side _ _ => (inst, Executor.sideIndex side)
  | branch inst index => (inst, index)

end Decision

abbrev Histories := StateId → Option (List Decision)

namespace Histories

def initial : Histories := fun st => if st = 0 then some [] else none

/-- Some states go on from `parent`, each with its decision. -/
def record (h : Histories) (parent : StateId) (taken : List (StateId × Decision)) : Histories :=
  fun st => match taken.lookup st with
    | some d => some ((h parent).getD [] ++ [d])
    | none => if st = parent then none else h st

variable {h : Histories} {parent st : StateId} {taken : List (StateId × Decision)}

/-- A state with a history got a decision, or had its history before. -/
theorem record_cases {ds ds' : List Decision} (hparent : h parent = some ds)
    (hst : h.record parent taken st = some ds') :
    (∃ d, taken.lookup st = some d ∧ ds' = ds ++ [d]) ∨ st ≠ parent ∧ h st = some ds' := by
  unfold record at hst
  cases hd : taken.lookup st with
  | some d =>
    rw [hd, hparent] at hst
    exact .inl ⟨d, rfl, (Option.some.inj hst).symm⟩
  | none =>
    rw [hd] at hst
    dsimp only at hst
    by_cases hne : st = parent
    · rw [if_pos hne] at hst
      cases hst
    · rw [if_neg hne] at hst
      exact .inr ⟨hne, hst⟩

end Histories

namespace Executor

open Hoare

variable {M : Type}

section Effect

/-- What `fork` can do. -/
inductive ForkEffect (ex : Executor M) (current : StateId) (s : ExecutionState M)
    (isInternal : Bool) : Option StateId × Option StateId → Executor M → Prop
  | alone (side : Bool) (fs : List StateId) {ex' : Executor M} {s' : ExecutionState M}
      (hprep : Prepared current ex s ex' s') :
      ForkEffect ex current s isInternal (alone current side)
        (aloneResult ex' current s' isInternal side fs)
  | split (t : PTree) (fs : List StateId) (m : StateId → Option (List SeedInfo)) (n : BitVec 32)
      {ex' : Executor M} {s' a b : ExecutionState M} (hprep : Prepared current ex s ex' s')
      (hstates : SplitStates ex' s' isInternal a b) :
      ForkEffect ex current s isInternal (some current, some ex.nextState)
        (splitResult ex' current s' isInternal t fs m n a b)
  | depth {t : PTree} {fs : List StateId} {m : StateId → Option (List SeedInfo)} {n : BitVec 32}
      {ex₁ ex' : Executor M} {s₁ a b : ExecutionState M} (hprep : Prepared current ex s ex₁ s₁)
      (hstates : SplitStates ex₁ s₁ isInternal a b)
      (hterm : Terminated [current, ex.nextState]
        (splitResult ex₁ current s₁ isInternal t fs m n a b) ex') :
      ForkEffect ex current s isInternal (none, none) ex'
  | timeout {ex₁ ex' : Executor M} {s₁ : ExecutionState M} (hprep : Prepared current ex s ex₁ s₁)
      (hterm : Terminated [current] ex₁ ex') :
      ForkEffect ex current s isInternal (none, none) ex'

variable {o : ExecutorOptions} {ex ex' : Executor M} {current : StateId} {s : ExecutionState M}
variable {condition : Expr} {isInternal : Bool} {r : Option StateId × Option StateId}

theorem forkEffect_of_fork (hs : ex.heap current = some s)
    (hnew : ex.heap ex.nextState = none)
    (hcall : fork o current condition isInternal ex = .ok (r, ex')) :
    ForkEffect ex current s isInternal r ex' := by
  have hfork : wp (fork o current condition isInternal)
      (ForkEffect ex current s isInternal) (fun _ => ¬ False) ex := by
    refine wp_fork hs hnew False.elim ?_ ?_ ?_ ?_
    · exact fun side ex₁ s₁ fs hprep _ => .alone side fs hprep
    · exact fun ex₁ s₁ t fs m n a b hprep _ hstates _ => .split t fs m n hprep hstates
    · exact fun ex₁ s₁ t fs m n a b ex₂ hprep _ hstates hterm _ => .depth hprep hstates hterm
    · exact fun ex₁ s₁ ex₂ hprep hterm _ => .timeout hprep hterm
  exact wp_ok hfork hcall

/-- What `branch` can do without a new state. -/
structure BranchEffect (o : ExecutorOptions) (ex : Executor M) (state : StateId)
    (s : ExecutionState M) (n : Nat) (result : List (Option StateId)) (ex' : Executor M) :
    Prop where
  still : StillAlone state ex (branchEntry o ex s) result ex'
  result : (∀ st ∈ result, st = none) ∨ ∃ i, i < n ∧ result = aloneAt state i n

theorem branchEffect_of_branch {state : StateId} {conditions : List Expr}
    {result : List (Option StateId)} (hs : ex.heap state = some s)
    (hlen : conditions.length = 1 ∨ Limited o ex)
    (hcall : branch o state conditions ex = .ok (result, ex')) :
    BranchEffect o ex state s conditions.length result ex' := by
  have hbranch : wp (branch o state conditions)
      (BranchEffect o ex state s conditions.length) (fun _ => True) ex := by
    refine wp_branch_alone hs hlen fun result ex₁ i hi hresult hstill => ⟨hstill, ?_⟩
    cases hresult with
    | inl hnone => exact .inl hnone
    | inr halone => exact .inr ⟨i, hi, halone⟩
  exact wp_ok hbranch hcall

end Effect

section Run

/-- What a state passes a branch with. A `switch` or an `indirectbr` on a value that `toUnique`
gives as a constant calls neither `fork` nor `branch`: the state is transferred to the block. -/
inductive Call where
  | fork (o : ExecutorOptions) (current : StateId) (condition : Expr) (isInternal : Bool)
  | branch (o : ExecutorOptions) (state : StateId) (conditions : List Expr)
  | transfer (state : StateId) (index : Nat)

/-- The decisions of the states that `fork` returns. -/
def forkTaken (inst : Nat) (isInternal : Bool) :
    Option StateId × Option StateId → List (StateId × Decision)
  | (some st, none) => [(st, .fork inst true isInternal false)]
  | (none, some st) => [(st, .fork inst false isInternal false)]
  | (some st, some st') =>
    [(st, .fork inst true isInternal true), (st', .fork inst false isInternal true)]
  | (none, none) => []

/-- The decisions of the states that `branch` returns. -/
def branchTaken (inst : Nat) (result : List (Option StateId)) : List (StateId × Decision) :=
  result.zipIdx.filterMap fun (st, i) => st.map fun st => (st, .branch inst i)

/-- An instruction that is no branch, or the work between instructions: no state is allocated, and
what the histories are about is left alone. -/
structure Elsewhere (ex ex' : Executor M) : Prop where
  nextState : ex'.nextState = ex.nextState
  pathWriter : ex'.pathWriter = ex.pathWriter
  symPathWriter : ex'.symPathWriter = ex.symPathWriter
  states : ∀ st s', ex'.heap st = some s' → ∃ s, ex.heap st = some s ∧
    s'.takenBranches = s.takenBranches ∧ s'.pathOS = s.pathOS ∧ s'.symPathOS = s.symPathOS

/-- `transferToBasicBlock` changes the place and the stack of the state. -/
structure MovedOn (ex ex' : Executor M) : Prop extends Elsewhere ex ex' where
  live : ∀ st s, ex.heap st = some s → ∃ s', ex'.heap st = some s'

/-- The runs whose calls meet `ok`, with the decisions of every state that lives. -/
inductive Run (ok : Executor M → Call → Prop) (start : Executor M) :
    Executor M → Histories → Prop
  | start : Run ok start start .initial
  | fork {ex ex' : Executor M} {h : Histories} {o : ExecutorOptions} {current : StateId}
      {condition : Expr} {isInternal : Bool} {s : ExecutionState M} {ds : List Decision}
      {r : Option StateId × Option StateId} (hrun : Run ok start ex h)
      (hlive : h current = some ds) (hs : ex.heap current = some s)
      (hok : ok ex (.fork o current condition isInternal))
      (hcall : fork o current condition isInternal ex = .ok (r, ex')) :
      Run ok start ex' (h.record current (forkTaken s.prevPC isInternal r))
  | branch {ex ex' : Executor M} {h : Histories} {o : ExecutorOptions} {state : StateId}
      {conditions : List Expr} {s : ExecutionState M} {ds : List Decision}
      {result : List (Option StateId)} (hrun : Run ok start ex h)
      (hlive : h state = some ds) (hs : ex.heap state = some s)
      (hok : ok ex (.branch o state conditions))
      (hcall : branch o state conditions ex = .ok (result, ex')) :
      Run ok start ex' (h.record state (branchTaken s.prevPC result))
  | transfer {ex ex' : Executor M} {h : Histories} {state : StateId} {index : Nat}
      {s : ExecutionState M} {ds : List Decision} (hrun : Run ok start ex h)
      (hlive : h state = some ds) (hs : ex.heap state = some s)
      (hok : ok ex (.transfer state index)) (htrans : MovedOn ex ex') :
      Run ok start ex' (h.record state (branchTaken s.prevPC (aloneAt state index (index + 1))))
  | elsewhere {ex ex' : Executor M} {h : Histories} (hrun : Run ok start ex h)
      (helse : Elsewhere ex ex') :
      Run ok start ex' fun st => if (ex'.heap st).isSome then h st else none

section Taken

variable {inst : Nat} {result : List (Option StateId)} {st : StateId}

theorem mem_branchTaken {d : Decision} (h : (st, d) ∈ branchTaken inst result) :
    some st ∈ result ∧ ∃ i, d = .branch inst i := by
  obtain ⟨⟨x, i⟩, hmem, hx⟩ := List.mem_filterMap.mp h
  obtain ⟨st', rfl, heq⟩ := Option.map_eq_some_iff.mp hx
  cases heq
  exact ⟨List.fst_mem_of_mem_zipIdx hmem, i, rfl⟩

theorem mem_of_lookup {α β : Type} [BEq α] [LawfulBEq α] {a : α} {b : β} {l : List (α × β)}
    (h : l.lookup a = some b) : (a, b) ∈ l := by
  induction l with
  | nil => cases h
  | cons p l ih =>
    obtain ⟨a', b'⟩ := p
    by_cases ha : a = a'
    · subst ha
      rw [List.lookup_cons_self] at h
      obtain rfl := Option.some.inj h
      exact List.mem_cons_self
    · have hbeq : (a == a') = false := by simpa using ha
      rw [List.lookup_cons, hbeq] at h
      exact List.mem_cons_of_mem _ (ih h)

theorem lookup_branchTaken {d : Decision} (h : (branchTaken inst result).lookup st = some d) :
    some st ∈ result ∧ ∃ i, d = .branch inst i := mem_branchTaken (mem_of_lookup h)

theorem lookup_forkTaken_alone {current : StateId} {isInternal side : Bool} {d : Decision}
    (h : (forkTaken inst isInternal (alone current side)).lookup st = some d) :
    st = current ∧ d = .fork inst side isInternal false := by
  cases side with
  | true =>
    have hmem := mem_of_lookup h
    simpa [forkTaken, alone] using hmem
  | false =>
    have hmem := mem_of_lookup h
    simpa [forkTaken, alone] using hmem

theorem lookup_forkTaken_split {current new : StateId} {isInternal : Bool} {d : Decision}
    (h : (forkTaken inst isInternal (some current, some new)).lookup st = some d) :
    st = current ∧ d = .fork inst true isInternal true ∨
      st = new ∧ d = .fork inst false isInternal true := by
  have hmem := mem_of_lookup h
  simpa [forkTaken] using hmem

end Taken

end Run

section Recorded

/-- The last branches of a state, up to `1 << index` of them. -/
def getSubpath (s : ExecutionState M) (index : Nat) : List (Nat × Nat) :=
  let length := min (2 ^ index % 2 ^ 32) s.takenBranches.length
  s.takenBranches.drop (s.takenBranches.length - length)

variable {ex ex' : Executor M} {h : Histories} {current : StateId} {s : ExecutionState M}
variable {ds : List Decision}

theorem Prepared.took_taken {ex₁ : Executor M} {s₁ : ExecutionState M}
    (hprep : Prepared current ex s ex₁ s₁) (index : Nat) :
    (s₁.took index).takenBranches = s.takenBranches ++ [(s.prevPC, index)] := by
  rw [hprep.state]
  rfl

theorem heap_aloneResult_of_ne {isInternal side : Bool} {fs : List StateId} {st : StateId}
    (hne : st ≠ current) :
    (aloneResult ex current s isInternal side fs).heap st = ex.heap st :=
  Function.update_of_ne hne _ _

/-- `fork` keeps the heap but for its states. -/
theorem ForkEffect.heap {isInternal : Bool} {r : Option StateId × Option StateId} {st : StateId}
    (heffect : ForkEffect ex current s isInternal r ex') (hne : st ≠ current)
    (hnew : st ≠ ex.nextState) : ex'.heap st = ex.heap st := by
  cases heffect with
  | alone side fs hprep => exact (heap_aloneResult_of_ne hne).trans (hprep.heap_of_ne hne)
  | split t fs m n hprep hstates =>
    rw [splitResult, heap_withPair_of_ne hne (by rwa [hprep.nextState])]
    exact hprep.heap_of_ne hne
  | depth hprep hstates hterm =>
    rw [hterm.heap st (by simp [hne, hnew]), splitResult,
      heap_withPair_of_ne hne (by rwa [hprep.nextState])]
    exact hprep.heap_of_ne hne
  | timeout hprep hterm =>
    rw [hterm.heap st (by simpa using hne)]
    exact hprep.heap_of_ne hne

def Fresh (ex : Executor M) : Prop := ∀ st, ex.nextState ≤ st → ex.heap st = none

theorem Fresh.lt (hfresh : Fresh ex) (hs : ex.heap current = some s) :
    current < ex.nextState := by
  by_contra hle
  rw [hfresh current (Nat.le_of_not_lt hle)] at hs
  cases hs

theorem ForkEffect.fresh {isInternal : Bool} {r : Option StateId × Option StateId}
    (heffect : ForkEffect ex current s isInternal r ex') (hfresh : Fresh ex)
    (hs : ex.heap current = some s) : Fresh ex' := by
  have hlt := hfresh.lt hs
  intro st hst
  cases heffect with
  | alone side fs hprep =>
    have hle : ex.nextState ≤ st := hprep.nextState ▸ hst
    have hne : st ≠ current := Nat.ne_of_gt (Nat.lt_of_lt_of_le hlt hle)
    exact (heap_aloneResult_of_ne hne).trans ((hprep.heap_of_ne hne).trans (hfresh st hle))
  | split t fs m n hprep hstates =>
    have hle : ex.nextState + 1 ≤ st := hprep.nextState ▸ hst
    have hne : st ≠ current := Nat.ne_of_gt (Nat.lt_trans hlt hle)
    have hnew : st ≠ ex.nextState := Nat.ne_of_gt hle
    rw [ForkEffect.heap (.split t fs m n hprep hstates) hne hnew]
    exact hfresh st (Nat.le_of_lt hle)
  | depth hprep hstates hterm =>
    rw [hterm.nextState] at hst
    have hle : ex.nextState + 1 ≤ st := hprep.nextState ▸ hst
    have hne : st ≠ current := Nat.ne_of_gt (Nat.lt_trans hlt hle)
    have hnew : st ≠ ex.nextState := Nat.ne_of_gt hle
    rw [ForkEffect.heap (.depth hprep hstates hterm) hne hnew]
    exact hfresh st (Nat.le_of_lt hle)
  | timeout hprep hterm =>
    rw [hterm.nextState] at hst
    have hle : ex.nextState ≤ st := hprep.nextState ▸ hst
    have hne : st ≠ current := Nat.ne_of_gt (Nat.lt_of_lt_of_le hlt hle)
    rw [hterm.heap st (by simpa using hne), hprep.heap_of_ne hne]
    exact hfresh st hle

theorem BranchEffect.fresh {o : ExecutorOptions} {n : Nat} {result : List (Option StateId)}
    (heffect : BranchEffect o ex current s n result ex') (hfresh : Fresh ex)
    (hs : ex.heap current = some s) : Fresh ex' := by
  have hlt := hfresh.lt hs
  intro st hst
  have hle : ex.nextState ≤ st := heffect.still.nextState ▸ hst
  have hne : st ≠ current := Nat.ne_of_gt (Nat.lt_of_lt_of_le hlt hle)
  rw [heffect.still.others st hne]
  exact hfresh st hle

theorem Elsewhere.fresh (helse : Elsewhere ex ex') (hfresh : Fresh ex) : Fresh ex' := by
  intro st hst
  cases hs' : ex'.heap st with
  | none => rfl
  | some s' =>
    obtain ⟨s, hs, -⟩ := helse.states st s' hs'
    rw [hfresh st (helse.nextState ▸ hst)] at hs
    cases hs

structure Recorded (ex : Executor M) (h : Histories) : Prop where
  fresh : Fresh ex
  taken : ∀ st ds, h st = some ds → ∃ s, ex.heap st = some s ∧
    s.takenBranches = ds.map Decision.entry

theorem heap_initial_self (s : ExecutionState M) (pw sw : Option TreeStreamWriter) :
    (initial s pw sw).heap 0 = some s := rfl

theorem fresh_initial (s : ExecutionState M) (pw sw : Option TreeStreamWriter) :
    Fresh (initial s pw sw) := by
  intro st hst
  show Function.update (fun _ => none) 0 (some s) st = none
  rw [Function.update_of_ne (Nat.ne_of_gt hst)]

theorem recorded_initial {s : ExecutionState M} {pw sw : Option TreeStreamWriter}
    (hs : s.takenBranches = []) :
    Recorded (initial s pw sw) .initial where
  fresh := fresh_initial s pw sw
  taken st ds hds := by
    unfold Histories.initial at hds
    by_cases hst : st = 0
    · subst hst
      rw [if_pos rfl] at hds
      obtain rfl := Option.some.inj hds
      exact ⟨s, heap_initial_self s pw sw, hs⟩
    · rw [if_neg hst] at hds
      cases hds

/-- `fork` records one entry for each state that goes on. -/
theorem Recorded.fork {isInternal : Bool} {r : Option StateId × Option StateId}
    (hrec : Recorded ex h) (hlive : h current = some ds) (hs : ex.heap current = some s)
    (heffect : ForkEffect ex current s isInternal r ex') :
    Recorded ex' (h.record current (forkTaken s.prevPC isInternal r)) where
  fresh := heffect.fresh hrec.fresh hs
  taken st ds' hst := by
    have hne := hrec.fresh.lt hs
    have htaken : s.takenBranches = ds.map Decision.entry := by
      obtain ⟨s', hs', htaken⟩ := hrec.taken current ds hlive
      rwa [Option.some.inj (hs.symm.trans hs')]
    obtain ⟨d, hd, rfl⟩ | ⟨hne', hst⟩ := Histories.record_cases hlive hst
    · -- the state is one of those that go on, with one more entry
      rw [List.map_append, ← htaken]
      cases heffect with
      | alone side fs hprep =>
        obtain ⟨rfl, rfl⟩ := lookup_forkTaken_alone hd
        exact ⟨_, Function.update_self _ _ _, hprep.took_taken _⟩
      | @split t fs m n ex₁ s₁ a b hprep hstates =>
        have hnew : current ≠ ex₁.nextState := by
          rw [hprep.nextState]
          exact Nat.ne_of_lt hne
        obtain ⟨rfl, rfl⟩ | ⟨rfl, rfl⟩ := lookup_forkTaken_split hd
        · refine ⟨a, heap_withPair_left hnew, ?_⟩
          rw [hstates.trueSide]
          exact hprep.took_taken 1
        · refine ⟨b, ?_, ?_⟩
          · rw [← hprep.nextState]
            exact heap_withPair_right
          · rw [hstates.falseSide]
            exact hprep.took_taken 0
      | depth hprep hstates hterm => cases hd
      | timeout hprep hterm => cases hd
    · obtain ⟨s', hs', htaken'⟩ := hrec.taken st ds' hst
      have hlt := hrec.fresh.lt hs'
      exact ⟨s', (heffect.heap hne' (Nat.ne_of_lt hlt)).trans hs', htaken'⟩

/-- `branch` on one condition records one entry. -/
theorem Recorded.branch {o : ExecutorOptions} {result : List (Option StateId)}
    (hrec : Recorded ex h) (hlive : h current = some ds) (hs : ex.heap current = some s)
    (hlimited : ¬ Limited o ex) (heffect : BranchEffect o ex current s 1 result ex') :
    Recorded ex' (h.record current (branchTaken s.prevPC result)) where
  fresh := heffect.fresh hrec.fresh hs
  taken st ds' hst := by
    have htaken : s.takenBranches = ds.map Decision.entry := by
      obtain ⟨s', hs', htaken⟩ := hrec.taken current ds hlive
      rwa [Option.some.inj (hs.symm.trans hs')]
    obtain ⟨d, hd, rfl⟩ | ⟨hne', hst⟩ := Histories.record_cases hlive hst
    · obtain hnone | ⟨i, hi, rfl⟩ := heffect.result
      · cases hnone _ (lookup_branchTaken hd).1
      · obtain rfl : i = 0 := by omega
        obtain ⟨rfl, rfl⟩ : st = current ∧ d = .branch s.prevPC 0 := by
          have hmem := mem_of_lookup hd
          simpa [branchTaken, aloneAt] using hmem
        obtain ⟨cs, hcs⟩ := heffect.still.live (by simp [aloneAt])
        refine ⟨_, hcs, ?_⟩
        rw [branchEntry, if_neg hlimited, List.map_append, ← htaken]
        rfl
    · obtain ⟨s', hs', htaken'⟩ := hrec.taken st ds' hst
      exact ⟨s', (heffect.still.others st hne').trans hs', htaken'⟩

theorem Recorded.elsewhere (hrec : Recorded ex h) (helse : Elsewhere ex ex') :
    Recorded ex' fun st => if (ex'.heap st).isSome then h st else none where
  fresh := helse.fresh hrec.fresh
  taken st ds hst := by
    cases hs' : ex'.heap st with
    | none =>
      rw [hs'] at hst
      cases hst
    | some s' =>
      rw [hs'] at hst
      obtain ⟨s, hs, htaken, -⟩ := helse.states st s' hs'
      obtain ⟨s₁, hs₁, htaken₁⟩ := hrec.taken st ds hst
      obtain rfl := Option.some.inj (hs.symm.trans hs₁)
      exact ⟨s', rfl, htaken.trans htaken₁⟩

/-- The calls for which the lists are kept: `branch` on one condition below the fork limit. A
transfer without a call of `branch` pushes no entry. -/
def OneCondition (ex : Executor M) : Call → Prop
  | .fork _ _ _ _ => True
  | .branch o _ conditions => conditions.length = 1 ∧ ¬ Limited o ex
  | .transfer _ _ => False

theorem Recorded.run {start : Executor M} (hstart : Recorded start .initial)
    (hrun : Run OneCondition start ex h) : Recorded ex h := by
  induction hrun with
  | start => exact hstart
  | fork hrun hlive hs hok hcall ih =>
    exact ih.fork hlive hs (forkEffect_of_fork hs (ih.fresh _ le_rfl) hcall)
  | branch hrun hlive hs hok hcall ih =>
    have heffect := branchEffect_of_branch hs (.inl hok.1) hcall
    rw [hok.1] at heffect
    exact ih.branch hlive hs hok.2 heffect
  | transfer hrun hlive hs hok => exact hok.elim
  | elsewhere hrun helse ih => exact ih.elsewhere helse

/-- In a run whose multi-way branches all come to `branch` with one condition, below the fork
limit, the list of every live state is its history, and its subpaths end that. -/
theorem takenBranches_run (s₀ : ExecutionState M) (pw sw : Option TreeStreamWriter)
    (ex : Executor M) (h : Histories) (hs₀ : s₀.takenBranches = [])
    (hrun : Run OneCondition (initial s₀ pw sw) ex h) (st : StateId) (ds : List Decision)
    (hlive : h st = some ds) : ∃ s, ex.heap st = some s ∧
      s.takenBranches = ds.map Decision.entry ∧ ∀ index < 32, ∃ before,
        ds.map Decision.entry = before ++ getSubpath s index ∧
          (getSubpath s index).length = min (2 ^ index) ds.length := by
  have hrec := Recorded.run (recorded_initial hs₀) hrun
  obtain ⟨s, hs, htaken⟩ := hrec.taken st ds hlive
  refine ⟨s, hs, htaken, fun index hindex => ?_⟩
  have hpow : 2 ^ index % 2 ^ 32 = 2 ^ index := Nat.mod_eq_of_lt (Nat.pow_lt_pow_right (by decide) hindex)
  refine ⟨s.takenBranches.take (s.takenBranches.length - min (2 ^ index) s.takenBranches.length),
    ?_, ?_⟩
  · rw [getSubpath, hpow, List.take_append_drop, htaken]
  · rw [getSubpath, hpow, List.length_drop, htaken, List.length_map]
    omega

/-- A first fork on `x[0] == 1`, of which both sides are feasible. -/
theorem fork_byteIs_splits (s : ExecutionState Unit) (pw sw : Option TreeStreamWriter)
    (hs : s.constraints = []) (hdisabled : s.forkDisabled = false) :
    ∃ ex', fork plainOptions 0 (byteIs 1 0) false (initial s pw sw) =
      .ok ((some 0, some 1), ex') := by
  have hsat (σ : Assignment) : Satisfies σ s.constraints := by
    rw [hs]
    exact satisfies_nil σ
  have hopen (side : Bool) : ¬ Closed plainOptions (initial s pw sw) 0 s.constraints
      (byteIs 1 0) side := by
    have hfeasible : ∃ σ, Satisfies σ s.constraints ∧ ((byteIs 1 0).Holds σ ↔ side = true) := by
      cases side with
      | true => exact ⟨fun _ _ => 1, hsat _, by decide⟩
      | false => exact ⟨fun _ _ => 0, hsat _, by decide⟩
    intro hclosed
    cases hclosed with
    | inl h => exact h hfeasible
    | inr h => cases h.1
  have hanswers : Answers plainOptions s.constraints (byteIs 1 0) :=
    ⟨TimingSolver.correct_ideal, by simp [hs], isBool_byteIs 1 0, fun _ _ => 0, hsat _⟩
  have hfork := wp_fork_partition false (wellFormed_initial s pw sw) rfl (List.mem_singleton.mpr rfl)
    hanswers (by simp [initial])
    ⟨rfl, rfl, rfl, rfl, hdisabled, rfl, by simp [plainOptions], .inl rfl⟩
  obtain ⟨r, ex', hcall, hpart⟩ :=
    exists_ok_of_wp (wp_mono hfork (fun _ _ h => h) fun _ h => h trivial)
  have htrue : r.1 ≠ none := fun h => hopen true (hpart.trueClosed.mp h)
  have hfalse : r.2 ≠ none := fun h => hopen false (hpart.falseClosed.mp h)
  cases forkEffect_of_fork rfl (fresh_initial _ _ _ _ le_rfl) hcall with
  | alone side fs hprep =>
    cases side with
    | true => exact absurd rfl hfalse
    | false => exact absurd rfl htrue
  | split t fs m n hprep hstates => exact ⟨_, hcall⟩
  | depth hprep hstates hterm => exact absurd rfl htrue
  | timeout hprep hterm => exact absurd rfl htrue

/-- The state that takes the false side of a first fork. -/
theorem takenBranches_run_byteIs : ∃ ex h,
    Run OneCondition (initial emptyState none none) ex h ∧
      h 1 = some [.fork 7 false false true] ∧ ∃ s, ex.heap 1 = some s ∧
        s.takenBranches = [(7, 0)] ∧ ∀ index < 32, ∃ before,
          [(7, 0)] = before ++ getSubpath s index ∧
            (getSubpath s index).length = min (2 ^ index) 1 := by
  obtain ⟨ex, hcall⟩ := fork_byteIs_splits emptyState none none rfl rfl
  have hrun : Run OneCondition (initial emptyState none none) ex _ :=
    .fork .start rfl rfl trivial hcall
  exact ⟨ex, _, hrun, rfl, takenBranches_run emptyState none none ex _ rfl hrun 1
    [.fork 7 false false true] rfl⟩

/-- A first branch on two conditions gives the copy the entry of the original state too. -/
theorem branch_byteIs_copies : ∃ ex', branch plainOptions 0 [byteIs 0 0, byteIs 1 0]
    (initial emptyState none none) = .ok ([some 0, some 1], ex') ∧
      ∃ b, ex'.heap 1 = some b ∧ b.takenBranches = [(7, 0), (7, 1)] := by
  have hanswers (v : BitVec 8) : Answers plainOptions emptyState.constraints (byteIs v 0) :=
    ⟨TimingSolver.correct_ideal, by simp [emptyState], isBool_byteIs v 0, fun _ _ => 0,
      satisfies_nil _⟩
  have hbranch : wp (branch plainOptions 0 [byteIs 0 0, byteIs 1 0])
      (fun result ex' => result = [some 0, some 1] ∧
        ∃ b, ex'.heap 1 = some b ∧ b.takenBranches = [(7, 0), (7, 1)]) (fun _ => ¬ True)
      (initial emptyState none none) := by
    refine wp_branch_pair (s := emptyState) (t := .node (.leaf 1) (.leaf 0)) rfl rfl rfl
      (by simp [Limited, plainOptions]) rfl rfl (hanswers 0) (hanswers 1)
      ⟨fun _ _ => 0, satisfies_nil _, by decide⟩ ⟨fun _ _ => 1, satisfies_nil _, by decide⟩
      fun fs g n id cs ds _ _ => ⟨rfl, _, heap_withPair_right, rfl⟩
  obtain ⟨result, ex', hcall, rfl, hb⟩ :=
    exists_ok_of_wp (wp_mono hbranch (fun _ _ h => h) fun _ h => h trivial)
  exact ⟨ex', hcall, hb⟩

/-- Not every run keeps the lists apart. -/
theorem not_takenBranches_run : ¬ ∀ (ex : Executor Unit) (h : Histories),
    Run (fun _ _ => True) (initial emptyState none none) ex h → ∀ st ds, h st = some ds →
      ∃ s, ex.heap st = some s ∧ s.takenBranches = ds.map Decision.entry := by
  intro hall
  obtain ⟨ex, hcall, b, hb, htaken⟩ := branch_byteIs_copies
  have hrun : Run (fun _ _ => True) (initial emptyState none none) ex _ :=
    .branch .start rfl rfl trivial hcall
  obtain ⟨b', hb', htaken'⟩ := hall ex _ hrun 1 [.branch 7 1] rfl
  obtain rfl := Option.some.inj (hb.symm.trans hb')
  rw [htaken] at htaken'
  revert htaken'
  decide

end Recorded

end Executor

end Klee

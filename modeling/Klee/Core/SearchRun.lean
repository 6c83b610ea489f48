import Klee.Core.SearcherChainSpec

/-! `Executor::run`: the searcher, the states and the process tree, from one iteration of the loop
to the next. -/
namespace Klee

/-- The members of `Executor` that keep the states, with the states that were deleted. -/
structure SearchState where
  states : Finset StateId
  addedStates : List StateId
  removedStates : List StateId
  deleted : Finset StateId
  processTree : PTreeHeap
  searcher : UserSearcher
  data : SearchData

/-- What an instruction does to the states: it forks one, goes on with one on one side of a branch,
or ends one, with a test case or without. -/
inductive StateEvent where
  | fork (es copy : StateId)
  | decide (es : StateId)
  | terminate (es : StateId) (output : Bool)

/-- An iteration of the loop: what the two calls of the searcher read, and what happens between. -/
structure Iteration where
  select : SearchInputs
  events : List StateEvent
  update : SearchInputs

namespace SearchState

def allocated (st : SearchState) : Finset StateId := st.states ∪ st.addedStates.toFinset

variable (featureExtract : Bool) (scale : Span → Span)

def env (st : SearchState) (inputs : SearchInputs) : SearchEnv where
  toSearchInputs := inputs
  states := st.states
  allocated := st.allocated
  processTree := st.processTree
  featureExtract := featureExtract

section Events

/-- `featureStates.insert`, where features are extracted. -/
def markFeatures (data : SearchData) (es : StateId) : SearchData :=
  if featureExtract then { data with featureStates := insert es data.featureStates } else data

/-- `featureStates.erase`, where features are extracted. -/
def unmarkFeatures (data : SearchData) (es : StateId) : SearchData :=
  if featureExtract then { data with featureStates := data.featureStates.erase es } else data

def copyData (data : SearchData) (es copy : StateId) : SearchData :=
  { data with
    features := Function.update data.features copy (data.features es)
    predictedReward := Function.update data.predictedReward copy none }

/-- `ExecutionState::branch`, with what `fork` and `branch` of the executor do after it. -/
def fork (st : SearchState) (es copy : StateId) : Option SearchState := do
  guard (es ∈ st.allocated)
  let processTree ← st.processTree.step (.fork es copy true)
  let data := markFeatures featureExtract (copyData st.data es copy) es
  return { st with
    addedStates := st.addedStates ++ [copy]
    processTree
    data := markFeatures featureExtract data copy }

/-- `getStateFeatures` and `searcher->addFeatures`, before a test case is written. -/
def addFeatures (st : SearchState) (es : StateId) (output : Bool) : SearchState :=
  if featureExtract ∧ output then
    let (searcher, data) := st.searcher.addFeatures st.data es
    { st with searcher, data }
  else st

def terminateState (st : SearchState) (es : StateId) : Option SearchState := do
  let st := { st with data := unmarkFeatures featureExtract st.data es }
  if es ∉ st.addedStates then
    return { st with removedStates := st.removedStates ++ [es] }
  else
    let processTree ← st.processTree.step (.terminate es)
    return { st with
      addedStates := st.addedStates.erase es
      processTree
      deleted := insert es st.deleted }

def event (st : SearchState) : StateEvent → Option SearchState
  | .fork es copy => fork featureExtract st es copy
  | .decide es => do
    guard (es ∈ st.allocated)
    return { st with data := markFeatures featureExtract st.data es }
  | .terminate es output => do
    guard (es ∈ st.allocated)
    terminateState featureExtract (addFeatures featureExtract st es output) es

end Events

section Loop

/-- An iteration of the loop over `removedStates`. The search in `states` compares the numbers of
states, which are read. -/
def deleteState (st : SearchState) (es : StateId) : Option SearchState := do
  guard (st.states = ∅ ∨ es ∉ st.deleted)
  if es ∉ st.states then return st
  else
    let processTree ← st.processTree.step (.terminate es)
    return { st with
      states := st.states.erase es
      processTree
      data := unmarkFeatures featureExtract st.data es
      deleted := insert es st.deleted }

def updateStates (st : SearchState) (inputs : SearchInputs) (current : Option StateId) :
    Option SearchState := do
  let searcher ← st.searcher.update (st.env featureExtract inputs) current st.addedStates
    st.removedStates
  let st := { st with searcher, states := st.states ∪ st.addedStates.toFinset, addedStates := [] }
  let st ← st.removedStates.foldlM (deleteState featureExtract) st
  return { st with removedStates := [] }

def iterate (st : SearchState) (it : Iteration) : Option SearchState := do
  let (es, searcher, data) ←
    st.searcher.selectState (st.env featureExtract it.select) scale st.data
  guard (es ∈ st.allocated)
  let st ← it.events.foldlM (event featureExtract) { st with searcher, data }
  updateStates featureExtract st it.update (some es)

def run (st : SearchState) : List Iteration → Option SearchState
  | [] => some st
  | it :: its => do
    if st.states = ∅ then some st
    else run (← iterate featureExtract scale st it) its

/-- The start of the loop: the searcher is told of the states that are there. -/
def start (opts : SearchOptions) (inputs : SearchInputs) (states : Finset StateId)
    (processTree : PTreeHeap) (data : SearchData) : Option SearchState := do
  let st : SearchState := ⟨states, [], [], ∅, processTree, constructUserSearcher opts, data⟩
  let searcher ← st.searcher.update (st.env opts.featureExtract inputs) none
    (states.sort (· ≤ ·)) []
  let data := if opts.featureExtract then
    { data with predictedReward := fun es => if es ∈ states then none else data.predictedReward es }
    else data
  return { st with searcher, data }

end Loop

section Proper

variable (featureExtract : Bool) (scale : Span → Span)

/-- An instruction forks states that have not ended, under new numbers, and ends a state once. -/
def Proper (st : SearchState) : StateEvent → Prop
  | .fork es copy => es ∈ st.allocated ∧ copy ∉ st.allocated ∧ copy ∉ st.deleted
  | .decide es => es ∈ st.allocated
  | .terminate es _ => es ∈ st.allocated ∧ es ∉ st.removedStates

def ProperEvents : SearchState → List StateEvent → Prop
  | _, [] => True
  | st, e :: events =>
    Proper st e ∧ ∀ st', event featureExtract st e = some st' → ProperEvents st' events

def ProperIteration (st : SearchState) (it : Iteration) : Prop :=
  ∀ es searcher data,
    st.searcher.selectState (st.env featureExtract it.select) scale st.data =
      some (es, searcher, data) →
    ProperEvents featureExtract { st with searcher, data } it.events

def ProperRun : SearchState → List Iteration → Prop
  | _, [] => True
  | st, it :: its => st.states ≠ ∅ → ProperIteration featureExtract scale st it ∧
    ∀ st', iterate featureExtract scale st it = some st' → ProperRun st' its

end Proper

/-- The process tree is that of the states; its root carries the only state, or none. -/
structure TreeOf (processTree : PTreeHeap) (states : Finset StateId) : Prop where
  linked : processTree.Linked
  carried : processTree.Carried states none
  root : processTree.RootForked ∨ ∃ es, states = {es} ∧ processTree.ptreeNode es = processTree.root

namespace TreeOf

variable {h : PTreeHeap} {states : Finset StateId} {es copy : StateId}

theorem new (es : StateId) : TreeOf (.new es) {es} :=
  ⟨PTreeHeap.linked_new es, PTreeHeap.carried_new es, .inr ⟨es, rfl, Function.update_self _ _ _⟩⟩

theorem fork (ht : TreeOf h states) (hes : es ∈ states) (hcopy : copy ∉ states) :
    ∃ h', h.step (.fork es copy true) = some h' ∧ TreeOf h' (insert copy states) := by
  have hroot : h.RootForked ∨ h.ptreeNode es = some h.root := by
    refine ht.root.imp_right ?_
    rintro ⟨a, rfl, ha⟩
    rwa [Finset.mem_singleton.mp hes]
  obtain ⟨h', hstep, hl, hcar, hforked⟩ :=
    PTreeHeap.exists_fork ht.linked ht.carried hes hcopy hroot true
  exact ⟨h', hstep, hl, hcar, .inl hforked⟩

/-- Nothing is promised of the tree of no state. -/
theorem terminate (ht : TreeOf h states) (hes : es ∈ states) :
    ∃ h', h.step (.terminate es) = some h' ∧
      ((states.erase es).Nonempty → TreeOf h' (states.erase es)) := by
  rcases ht.root with hroot | ⟨a, rfl, ha⟩
  · obtain ⟨h', hstep, hl, hcar, hforked⟩ :=
      PTreeHeap.exists_terminate ht.linked ht.carried hes hroot
    exact ⟨h', hstep, fun _ => ⟨hl, hcar, .inl hforked⟩⟩
  · obtain rfl := Finset.mem_singleton.mp hes
    obtain ⟨n, c, hptr, hc, -, hchild⟩ := ht.carried.ptreeNode hes
    obtain rfl := Option.some.inj (hptr.symm.trans ha)
    obtain ⟨fuel, hfuel⟩ := Nat.exists_eq_add_one_of_ne_zero
      (Nat.ne_zero_of_lt (ht.linked.lt_next hc))
    refine ⟨h.setPtreeNode es none, ?_, fun hne => ?_⟩
    · have hparent : c.parent = none := (ht.linked.parent_eq_none hc).mpr rfl
      have hfrom : PTreeHeap.removeFrom h.next h h.root = some h := by
        rw [hfuel, PTreeHeap.removeFrom, hc, Option.bind_eq_bind, Option.bind_some, hparent]
      simp only [PTreeHeap.step, PTreeHeap.remove, hptr, hc, hchild.1, hchild.2, guard, hfrom,
        Option.bind_eq_bind, Option.bind_some, and_self, if_true, Option.pure_def]
    · rw [Finset.erase_singleton] at hne
      exact absurd hne Finset.not_nonempty_empty

end TreeOf

/-- The states within an iteration: those of the searcher, with the new ones, are those of the tree.
A state ends once. -/
structure Accounted (featureExtract : Bool) (st : SearchState) : Prop where
  searcher : st.searcher.Holds st.states
  added : st.addedStates.Nodup
  new : ∀ es ∈ st.addedStates, es ∉ st.states
  removed : st.removedStates.Nodup
  held : ∀ es ∈ st.removedStates, es ∈ st.states
  tree : st.allocated.Nonempty → TreeOf st.processTree st.allocated
  features : st.data.featureStates ⊆ st.allocated
  featureExtract : featureExtract = false → st.data.featureStates = ∅
  deleted : ∀ es ∈ st.deleted, es ∉ st.allocated

variable {featureExtract : Bool} {scale : Span → Span} {st : SearchState}

structure Kept (st st' : SearchState) : Prop where
  states : st'.states = st.states
  paused : st'.searcher.pausedStates = st.searcher.pausedStates

theorem Kept.trans {st st' st'' : SearchState} (h : Kept st st') (h' : Kept st' st'') :
    Kept st st'' := ⟨h'.states.trans h.states, h'.paused.trans h.paused⟩

section Events

theorem markFeatures_subset {data : SearchData} {es : StateId} {states : Finset StateId}
    (h : data.featureStates ⊆ states) (hes : es ∈ states) :
    (markFeatures featureExtract data es).featureStates ⊆ states := by
  rw [markFeatures]
  split
  · exact Finset.insert_subset hes h
  · exact h

theorem mem_allocated {es : StateId} :
    es ∈ st.allocated ↔ es ∈ st.states ∨ es ∈ st.addedStates := by
  rw [allocated, Finset.mem_union, List.mem_toFinset]

theorem allocated_eq_states (h : st.addedStates = []) : st.allocated = st.states := by
  rw [allocated, h, List.toFinset_nil, Finset.union_empty]

theorem Accounted.fork (h : Accounted featureExtract st) {es copy : StateId}
    (hes : es ∈ st.allocated) (hcopy : copy ∉ st.allocated) (hnew : copy ∉ st.deleted) :
    ∃ st', fork featureExtract st es copy = some st' ∧ Accounted featureExtract st' ∧
      Kept st st' := by
  obtain ⟨processTree, hstep, htree⟩ := (h.tree ⟨es, hes⟩).fork hes hcopy
  rw [SearchState.fork, guard, if_pos hes, Option.bind_eq_bind, hstep]
  have hcopy' := mt mem_allocated.mpr hcopy
  rw [not_or] at hcopy'
  have halloc : st.states ∪ (st.addedStates ++ [copy]).toFinset = insert copy st.allocated := by
    rw [allocated, List.toFinset_append, ← Finset.union_assoc, Finset.union_comm _ [copy].toFinset]
    rfl
  refine ⟨_, rfl, ⟨h.searcher, ?_, ?_, h.removed, h.held, fun _ => ?_, ?_, fun hfalse => ?_, ?_⟩,
    rfl, rfl⟩
  · exact h.added.append (List.nodup_singleton copy) fun a ha hmem =>
      hcopy'.2 (List.mem_singleton.mp hmem ▸ ha)
  · intro a ha
    rcases List.mem_append.mp ha with ha | ha
    · exact h.new a ha
    · exact List.mem_singleton.mp ha ▸ hcopy'.1
  · exact (congrArg (TreeOf processTree) halloc).mpr htree
  · have hsub : (copyData st.data es copy).featureStates ⊆ insert copy st.allocated :=
      h.features.trans (Finset.subset_insert copy st.allocated)
    exact (markFeatures_subset (markFeatures_subset hsub (Finset.mem_insert_of_mem hes))
      (Finset.mem_insert_self copy _)).trans halloc.symm.subset
  · subst hfalse
    exact h.featureExtract rfl
  · intro a ha hmem
    rcases Finset.mem_insert.mp (halloc.subset hmem) with rfl | hmem
    · exact hnew ha
    · exact h.deleted a ha hmem

/-- The call of the searcher changes nothing of what it holds. -/
theorem addFeatures_holds {s : SearcherChain} {held : Finset StateId} (h : s.Holds held)
    (data : SearchData) (es : StateId) : (s.addFeatures data es).1.Holds held ∧
      (s.addFeatures data es).1.cores = s.cores ∧
      (s.addFeatures data es).2.featureStates = data.featureStates := by
  induction s with
  | core searcher => exact ⟨h, rfl, rfl⟩
  | interleaved searchers index => exact ⟨h, rfl, rfl⟩
  | getFeatures b featureIndex ih => exact ⟨h, rfl, rfl⟩
  | branching b lastState ih =>
    obtain ⟨hb, hcores, hdata⟩ := ih h.1
    exact ⟨⟨hb, h.2⟩, hcores, hdata⟩
  | batching b _ _ _ _ _ ih => exact ⟨h, rfl, rfl⟩

theorem Accounted.addFeatures (h : Accounted featureExtract st) (es : StateId) (output : Bool) :
    Accounted featureExtract (addFeatures featureExtract st es output) ∧
      Kept st (addFeatures featureExtract st es output) ∧
      (addFeatures featureExtract st es output).addedStates = st.addedStates ∧
      (addFeatures featureExtract st es output).removedStates = st.removedStates := by
  rw [SearchState.addFeatures]
  split
  · have hdata : (st.searcher.addFeatures st.data es).2.featureStates = st.data.featureStates := by
      have hbase := h.searcher.base
      cases hs : st.searcher with
      | chain s =>
        rw [hs] at hbase
        exact (addFeatures_holds hbase st.data es).2.2
      | iterativeDeepening s => rfl
    refine ⟨⟨?_, h.added, h.new, h.removed, h.held, h.tree, hdata ▸ h.features,
      hdata ▸ h.featureExtract, h.deleted⟩, ⟨rfl, ?_⟩, rfl, rfl⟩
    · obtain ⟨hbase, hpaused, hawake, hrespects⟩ := h.searcher
      cases hs : st.searcher with
      | chain s =>
        rw [hs] at hbase hpaused hawake
        exact ⟨(addFeatures_holds hbase st.data es).1, hpaused, hawake, trivial⟩
      | iterativeDeepening s =>
        rw [hs] at hbase hpaused hawake hrespects
        exact ⟨hbase, hpaused, hawake, hrespects⟩
    · cases st.searcher <;> rfl
  · exact ⟨h, ⟨rfl, rfl⟩, rfl, rfl⟩

theorem Accounted.unmarkFeatures (h : Accounted featureExtract st) (es : StateId) :
    (unmarkFeatures featureExtract st.data es).featureStates ⊆ st.allocated.erase es ∧
      (featureExtract = false → (unmarkFeatures featureExtract st.data es).featureStates = ∅) := by
  cases featureExtract with
  | true => exact ⟨Finset.erase_subset_erase es h.features, fun hfalse => nomatch hfalse⟩
  | false =>
    have hnone := h.featureExtract rfl
    exact ⟨hnone ▸ Finset.empty_subset _, fun _ => hnone⟩

theorem Accounted.terminateState (h : Accounted featureExtract st) {es : StateId}
    (hes : es ∈ st.allocated) (hrem : es ∉ st.removedStates) :
    ∃ st', terminateState featureExtract st es = some st' ∧ Accounted featureExtract st' ∧
      Kept st st' := by
  obtain ⟨hmark, hnone⟩ := h.unmarkFeatures es
  rw [SearchState.terminateState]
  by_cases hadd : es ∈ st.addedStates
  · obtain ⟨processTree, hstep, htree⟩ := (h.tree ⟨es, hes⟩).terminate hes
    simp only [hadd, not_true_eq_false, if_false, hstep, Option.bind_eq_bind, Option.bind_some]
    have halloc : st.states ∪ (st.addedStates.erase es).toFinset = st.allocated.erase es := by
      have hnew := h.new es hadd
      ext a
      rw [allocated, Finset.mem_union, Finset.mem_erase, Finset.mem_union, List.mem_toFinset,
        h.added.mem_erase_iff, List.mem_toFinset]
      grind
    refine ⟨_, rfl, ⟨h.searcher, h.added.erase es, fun a ha => h.new a (List.mem_of_mem_erase ha),
      h.removed, h.held, fun hne => ?_, hmark.trans halloc.symm.subset, hnone, ?_⟩, rfl, rfl⟩
    · exact (congrArg (TreeOf processTree) halloc).mpr (htree (halloc ▸ hne))
    · intro a ha hmem
      have hmem := Finset.mem_erase.mp (halloc.subset hmem)
      rcases Finset.mem_insert.mp ha with rfl | ha
      · exact hmem.1 rfl
      · exact h.deleted a ha hmem.2
  · simp only [hadd, not_false_eq_true, if_true]
    refine ⟨_, rfl, ⟨h.searcher, h.added, h.new, ?_, ?_, h.tree,
      hmark.trans (Finset.erase_subset es _), hnone, h.deleted⟩, rfl, rfl⟩
    · exact h.removed.append (List.nodup_singleton es) fun a ha hmem =>
        hrem (List.mem_singleton.mp hmem ▸ ha)
    · intro a ha
      rcases List.mem_append.mp ha with ha | ha
      · exact h.held a ha
      · exact List.mem_singleton.mp ha ▸ (mem_allocated.mp hes).resolve_right hadd

theorem Accounted.event (h : Accounted featureExtract st) {e : StateEvent} (hp : Proper st e) :
    ∃ st', event featureExtract st e = some st' ∧ Accounted featureExtract st' ∧ Kept st st' := by
  cases e with
  | fork es copy => exact h.fork hp.1 hp.2.1 hp.2.2
  | decide es =>
    have hes : es ∈ st.allocated := hp
    refine ⟨{ st with data := markFeatures featureExtract st.data es }, ?_,
      ⟨h.searcher, h.added, h.new, h.removed, h.held, h.tree, markFeatures_subset h.features hes,
        fun hfalse => ?_, h.deleted⟩, rfl, rfl⟩
    · rw [SearchState.event, guard, if_pos hes]
      rfl
    · subst hfalse
      exact h.featureExtract rfl
  | terminate es output =>
    obtain ⟨hadd, hkept, hadded, hremoved⟩ := h.addFeatures es output
    have hes : es ∈ (SearchState.addFeatures featureExtract st es output).allocated := by
      rw [allocated, hkept.states, hadded]
      exact hp.1
    obtain ⟨st', hst', h', hkept'⟩ := hadd.terminateState hes (hremoved ▸ hp.2)
    exact ⟨st', by rw [SearchState.event, guard, if_pos hp.1]; exact hst', h', hkept.trans hkept'⟩

theorem Accounted.events {events : List StateEvent} (h : Accounted featureExtract st)
    (hp : ProperEvents featureExtract st events) :
    ∃ st', events.foldlM (SearchState.event featureExtract) st = some st' ∧
      Accounted featureExtract st' ∧ Kept st st' := by
  induction events generalizing st with
  | nil => exact ⟨st, rfl, h, rfl, rfl⟩
  | cons e events ih =>
    obtain ⟨st₁, hst₁, h₁, hkept₁⟩ := h.event hp.1
    obtain ⟨st', hst', h', hkept'⟩ := ih h₁ (hp.2 st₁ hst₁)
    exact ⟨st', by rw [List.foldlM_cons, hst₁]; exact hst', h', hkept₁.trans hkept'⟩

end Events

section Iterations

structure Settled (featureExtract : Bool) (st : SearchState) : Prop extends
    Accounted featureExtract st where
  addedStates : st.addedStates = []
  removedStates : st.removedStates = []

/-- What the loop over `removedStates` keeps, but for the searcher, which has removed them. -/
structure Deleting (featureExtract : Bool) (st : SearchState) : Prop where
  addedStates : st.addedStates = []
  tree : st.states.Nonempty → TreeOf st.processTree st.states
  features : st.data.featureStates ⊆ st.states
  featureExtract : featureExtract = false → st.data.featureStates = ∅
  deleted : ∀ es ∈ st.deleted, es ∉ st.states

theorem Deleting.deleteState (h : Deleting featureExtract st) {es : StateId}
    (hes : es ∈ st.states) :
    ∃ st', deleteState featureExtract st es = some st' ∧ Deleting featureExtract st' ∧
      st'.states = st.states.erase es ∧ st'.searcher = st.searcher := by
  obtain ⟨processTree, hstep, htree⟩ := (h.tree ⟨es, hes⟩).terminate hes
  have hguard : st.states = ∅ ∨ es ∉ st.deleted := .inr fun hdel => h.deleted es hdel hes
  have hmark : (SearchState.unmarkFeatures featureExtract st.data es).featureStates ⊆
      st.states.erase es ∧ (featureExtract = false →
        (SearchState.unmarkFeatures featureExtract st.data es).featureStates = ∅) := by
    cases featureExtract with
    | true => exact ⟨Finset.erase_subset_erase es h.features, fun hfalse => nomatch hfalse⟩
    | false => exact ⟨h.featureExtract rfl ▸ Finset.empty_subset _, fun _ => h.featureExtract rfl⟩
  refine ⟨{ st with
      states := st.states.erase es
      processTree
      data := SearchState.unmarkFeatures featureExtract st.data es
      deleted := insert es st.deleted }, ?_,
    ⟨h.addedStates, htree, hmark.1, hmark.2, fun a ha hmem => ?_⟩, rfl, rfl⟩
  · simp only [SearchState.deleteState, guard, hguard, if_true, hes, not_true_eq_false, if_false,
      hstep, Option.bind_eq_bind, Option.bind_some, Option.pure_def]
  · obtain ⟨hne, hmem⟩ := Finset.mem_erase.mp hmem
    exact h.deleted a ((Finset.mem_insert.mp ha).resolve_left hne) hmem

theorem Deleting.deleteStates (h : Deleting featureExtract st) {removed : List StateId}
    (hnodup : removed.Nodup) (hheld : ∀ es ∈ removed, es ∈ st.states) :
    ∃ st', removed.foldlM (SearchState.deleteState featureExtract) st = some st' ∧
      Deleting featureExtract st' ∧ st'.states = st.states \ removed.toFinset ∧
      st'.searcher = st.searcher := by
  let Holds (s : SearchState) (held : Finset StateId) : Prop :=
    Deleting featureExtract s ∧ s.states = held ∧ s.searcher = st.searcher
  have hdelete {s : SearchState} {held : Finset StateId} {es : StateId} (hs : Holds s held)
      (hes : es ∈ held) : ∃ s', SearchState.deleteState featureExtract s es = some s' ∧
        Holds s' (held.erase es) := by
    obtain ⟨hdel, rfl, hsearcher⟩ := hs
    obtain ⟨s', hs', h', hstates, hsame⟩ := hdel.deleteState hes
    exact ⟨s', hs', h', hstates, hsame.trans hsearcher⟩
  have hstart : Holds st st.states := ⟨h, rfl, rfl⟩
  exact CoreSearcher.foldlM_remove (fun hs hes => hdelete hs hes) hstart hnodup hheld

theorem Accounted.updateStates (h : Accounted featureExtract st) (inputs : SearchInputs)
    {current : Option StateId} (hcurrent : ∀ es ∈ current, es ∈ st.states)
    (hawake : ∀ es ∈ current, es ∉ st.searcher.pausedStates) :
    ∃ st', updateStates featureExtract st inputs current = some st' ∧
      Settled featureExtract st' := by
  have hp : ProperUpdate (st.env featureExtract inputs) st.states current st.addedStates
      st.removedStates :=
    { nodup := h.added
      nodupRemoved := h.removed
      new := h.new
      current := hcurrent
      removed := fun es hes => Finset.mem_union_left _ (h.held es hes)
      allocated := subset_rfl }
  obtain ⟨searcher, hsearcher, hholds⟩ := UserSearcher.update_holds h.searcher hp hawake
  have hdel : Deleting featureExtract { st with
      searcher, states := st.states ∪ st.addedStates.toFinset, addedStates := [] } :=
    ⟨rfl, h.tree, h.features, h.featureExtract, h.deleted⟩
  obtain ⟨st', hst', h', hstates, hsame⟩ := hdel.deleteStates h.removed
    fun es hes => Finset.mem_union_left _ (h.held es hes)
  have halloc := allocated_eq_states h'.addedStates
  refine ⟨{ st' with removedStates := [] }, ?_, ⟨?_, ?_, ?_, List.nodup_nil, ?_, ?_, ?_,
    h'.featureExtract, ?_⟩, h'.addedStates, rfl⟩
  · simp only [SearchState.updateStates, hsearcher, hst', Option.bind_eq_bind, Option.bind_some,
      Option.pure_def]
  · exact hstates.symm ▸ hsame.symm ▸ hholds
  · exact h'.addedStates.symm ▸ List.nodup_nil
  · exact h'.addedStates.symm ▸ fun es hes => absurd hes List.not_mem_nil
  · exact fun es hes => absurd hes List.not_mem_nil
  · exact halloc.symm ▸ h'.tree
  · exact halloc.symm ▸ h'.features
  · exact halloc.symm ▸ h'.deleted

/-- The searcher selects a live state that is not paused, and what it holds stays the same. -/
theorem Settled.selectState (scale : Span → Span) (h : Settled featureExtract st)
    (hne : st.states.Nonempty) (inputs : SearchInputs) :
    ∃ es ∈ st.states, es ∉ st.searcher.pausedStates ∧ ∃ searcher data,
      st.searcher.selectState (st.env featureExtract inputs) scale st.data =
        some (es, searcher, data) ∧
      Accounted featureExtract { st with searcher, data } ∧
      searcher.pausedStates = st.searcher.pausedStates := by
  have halloc := allocated_eq_states h.addedStates
  have htree := h.tree (halloc ▸ hne)
  rw [halloc] at htree
  have hacc : st.states ⊆ (st.env featureExtract inputs).allocated := Finset.subset_union_left
  obtain ⟨es, hes, hpaused, searcher, data, hsel, hholds, hkept, hsub⟩ :=
    UserSearcher.selectState_holds scale h.searcher hne hacc ⟨htree.linked, htree.carried⟩
      h.features
  exact ⟨es, hes, hpaused, searcher, data, hsel,
    ⟨hholds, h.added, h.new, h.removed, h.held, h.tree, hsub.trans h.features,
      fun hfalse => Finset.subset_empty.mp (h.featureExtract hfalse ▸ hsub), h.deleted⟩, hkept⟩

theorem Settled.iterate (h : Settled featureExtract st) (hne : st.states.Nonempty) {it : Iteration}
    (hp : ProperIteration featureExtract scale st it) :
    ∃ st', iterate featureExtract scale st it = some st' ∧ Settled featureExtract st' := by
  obtain ⟨es, hes, hpaused, searcher, data, hsel, hacc, hkept⟩ :=
    h.selectState scale hne it.select
  obtain ⟨st₁, hst₁, h₁, hsame⟩ := hacc.events (hp es searcher data hsel)
  have hcurrent : ∀ a ∈ some es, a ∈ st₁.states := by
    rintro a ⟨⟩
    rwa [hsame.states]
  have hawake : ∀ a ∈ some es, a ∉ st₁.searcher.pausedStates := by
    rintro a ⟨⟩
    rwa [hsame.paused, hkept]
  obtain ⟨st', hst', h'⟩ := h₁.updateStates it.update hcurrent hawake
  have hmem : es ∈ st.allocated := Finset.mem_union_left _ hes
  refine ⟨st', ?_, h'⟩
  simp only [SearchState.iterate, hsel, guard, hmem, if_true, hst₁, hst', Option.bind_eq_bind,
    Option.bind_some, Option.pure_def]

theorem Settled.run {its : List Iteration} (h : Settled featureExtract st)
    (hp : ProperRun featureExtract scale st its) :
    ∃ st', run featureExtract scale st its = some st' ∧ Settled featureExtract st' := by
  induction its generalizing st with
  | nil => exact ⟨st, rfl, h⟩
  | cons it its ih =>
    by_cases hempty : st.states = ∅
    · exact ⟨st, if_pos hempty, h⟩
    · obtain ⟨hit, hrest⟩ := hp hempty
      obtain ⟨st₁, hst₁, h₁⟩ := h.iterate (Finset.nonempty_iff_ne_empty.mpr hempty) hit
      obtain ⟨st', hst', h'⟩ := ih h₁ (hrest st₁ hst₁)
      refine ⟨st', ?_, h'⟩
      rw [SearchState.run, if_neg hempty, hst₁]
      exact hst'

end Iterations

section Start

theorem getNewSearcher_holds (sampling : Bool) (type : CoreSearchType) :
    (getNewSearcher sampling type).Holds ∅ := by
  have hlist : CoreSearcher.ListHolds [] ∅ := ⟨List.nodup_nil, rfl⟩
  have hpdf : CoreSearcher.PDFHolds .new ∅ :=
    ⟨_, .nil, DiscretePDF.represents_new,
      fun es => iff_of_false (absurd rfl) (Finset.notMem_empty es)⟩
  cases type with
  | dfs | bfs | randomState | sgs1 | sgs2 | sgs4 | sgs8 | ml => exact hlist
  | nursCovNew | nursMD2U | nursDepth | nursICnt | nursCPICnt | nursQC => exact hpdf
  | randomPath => trivial

theorem getNewSearcher_isRandomPath {sampling : Bool} {type : CoreSearchType}
    (h : (getNewSearcher sampling type).IsRandomPath) : type = .randomPath := by
  cases type with
  | randomPath => rfl
  | _ => exact h.elim

structure Fresh (opts : SearchOptions) (s : SearcherChain) : Prop where
  holds : s.Holds ∅
  cores : ∀ c ∈ s.cores, ∃ type ∈ opts.coreSearch, c = getNewSearcher opts.sampling type

variable {opts : SearchOptions} {s s' : SearcherChain}

theorem Fresh.ite {p : Prop} [Decidable p] (h : Fresh opts s) (hs' : Fresh opts s → Fresh opts s') :
    Fresh opts (if p then s' else s) := by
  split
  · exact hs' h
  · exact h

theorem fresh_coreSearcher (opts : SearchOptions) : Fresh opts opts.coreSearcher := by
  rw [SearchOptions.coreSearcher]
  split
  · next hlt =>
    refine ⟨⟨fun c hc => ?_, le_rfl, by simpa using hlt.le⟩, fun c hc => ?_⟩
    · obtain ⟨type, -, rfl⟩ := List.mem_map.mp hc
      exact getNewSearcher_holds _ type
    · obtain ⟨type, htype, rfl⟩ := List.mem_map.mp hc
      exact ⟨type, htype, rfl⟩
  · exact ⟨getNewSearcher_holds _ _, fun c hc =>
      ⟨_, List.head_mem opts.coreSearch_ne_nil, List.mem_singleton.mp hc⟩⟩

theorem fresh_baseSearcher (opts : SearchOptions) : Fresh opts opts.baseSearcher := by
  have hnone : ∀ es ∈ (none : Option StateId), es ∈ (∅ : Finset StateId) :=
    fun es hes => nomatch hes
  rw [SearchOptions.baseSearcher]
  refine Fresh.ite (Fresh.ite (Fresh.ite (fresh_coreSearcher opts) ?_) ?_) ?_
  · exact fun h => ⟨h.holds, h.cores⟩
  · exact fun h => ⟨⟨h.holds, hnone⟩, h.cores⟩
  · exact fun h => ⟨⟨h.holds, hnone⟩, h.cores⟩

theorem constructUserSearcher_holds
    (hpath : opts.useIterativeDeepeningTimeSearch → .randomPath ∉ opts.coreSearch) :
    (constructUserSearcher opts).Holds ∅ ∧ (constructUserSearcher opts).pausedStates = ∅ := by
  obtain ⟨hbase, hcores⟩ := fresh_baseSearcher opts
  rw [constructUserSearcher]
  split
  · next hdeep =>
    refine ⟨⟨hbase, Finset.empty_subset _, fun h => absurd h Finset.not_nonempty_empty, ?_⟩, rfl⟩
    rintro ⟨c, hc, hrandom⟩
    obtain ⟨type, htype, rfl⟩ := hcores c hc
    exact hpath hdeep (getNewSearcher_isRandomPath hrandom ▸ htype)
  · exact ⟨⟨hbase, Finset.empty_subset _, fun h => absurd h Finset.not_nonempty_empty, trivial⟩,
      rfl⟩

theorem start_settled
    (hpath : opts.useIterativeDeepeningTimeSearch → .randomPath ∉ opts.coreSearch)
    {states : Finset StateId} {processTree : PTreeHeap} {data : SearchData}
    (htree : TreeOf processTree states) (hsub : data.featureStates ⊆ states)
    (hnone : opts.featureExtract = false → data.featureStates = ∅) (inputs : SearchInputs) :
    ∃ st, start opts inputs states processTree data = some st ∧ Settled opts.featureExtract st := by
  obtain ⟨hholds, hpaused⟩ := constructUserSearcher_holds hpath
  set st₀ : SearchState := ⟨states, [], [], ∅, processTree, constructUserSearcher opts, data⟩
  have halloc : st₀.allocated = states := Finset.union_empty states
  have hp : ProperUpdate (st₀.env opts.featureExtract inputs) ∅ none (states.sort (· ≤ ·)) [] :=
    { nodup := Finset.sort_nodup states (· ≤ ·)
      nodupRemoved := List.nodup_nil
      new := fun a _ => Finset.notMem_empty a
      current := fun a ha => nomatch ha
      removed := fun a ha => absurd ha List.not_mem_nil
      allocated := by
        rw [Finset.sort_toFinset, Finset.empty_union]
        exact halloc.symm.subset }
  obtain ⟨searcher, hsearcher, hholds'⟩ :=
    UserSearcher.update_holds hholds hp fun a ha => nomatch ha
  have heq : heldAfter ∅ (states.sort (· ≤ ·)) [] = states := by
    rw [heldAfter, Finset.sort_toFinset, Finset.empty_union, List.toFinset_nil, Finset.sdiff_empty]
  rw [heq] at hholds'
  refine ⟨_, by rw [start]; simp only [st₀] at hsearcher; rw [hsearcher]; rfl,
    ⟨⟨hholds', List.nodup_nil, fun a ha => absurd ha List.not_mem_nil, List.nodup_nil,
      fun a ha => absurd ha List.not_mem_nil, fun _ => ?_, ?_, ?_,
      fun a ha => absurd ha (Finset.notMem_empty a)⟩, rfl, rfl⟩⟩
  · exact (congrArg (TreeOf processTree) halloc).mpr htree
  · refine subset_trans ?_ halloc.symm.subset
    split
    · exact hsub
    · exact hsub
  · intro hfalse
    simp only [hfalse, Bool.false_eq_true, if_false]
    exact hnone hfalse

end Start

/-- The searchers hold the live states, but for the paused ones, the process tree carries them, and
one that is not paused is selected. Nothing waits, and no state that waits for features is
deleted. -/
structure Bookkept (scale : Span → Span) (featureExtract : Bool) (st : SearchState) : Prop where
  searcher : st.searcher.Holds st.states
  addedStates : st.addedStates = []
  removedStates : st.removedStates = []
  processTree : st.states.Nonempty → st.processTree.Consistent st.states
  featureStates : st.data.featureStates ⊆ st.states
  deleted : Disjoint st.deleted st.states
  selectState : st.states.Nonempty → ∀ inputs, ∃ es ∈ st.states, es ∉ st.searcher.pausedStates ∧
    ∃ searcher data, st.searcher.selectState (st.env featureExtract inputs) scale st.data =
      some (es, searcher, data)

theorem Settled.bookkept (h : Settled featureExtract st) : Bookkept scale featureExtract st where
  searcher := h.searcher
  addedStates := h.addedStates
  removedStates := h.removedStates
  processTree hne := by
    have htree := h.tree (hne.mono Finset.subset_union_left)
    have hcarried := htree.carried.consistent htree.linked
    rwa [allocated_eq_states h.addedStates] at hcarried
  featureStates := allocated_eq_states h.addedStates ▸ h.features
  deleted := Finset.disjoint_left.mpr fun es hdel hes =>
    h.deleted es hdel (Finset.mem_union_left _ hes)
  selectState hne inputs := by
    obtain ⟨es, hes, hpaused, searcher, data, hsel, -⟩ := h.selectState scale hne inputs
    exact ⟨es, hes, hpaused, searcher, data, hsel⟩

/-- In every run under any options, but for a random path below iterative deepening, no assertion
fails and no deleted state is accessed, and after every iteration the states are accounted for. -/
theorem run_bookkept (opts : SearchOptions)
    (hpath : opts.useIterativeDeepeningTimeSearch → .randomPath ∉ opts.coreSearch)
    {states : Finset StateId} {processTree : PTreeHeap} {data : SearchData}
    (htree : TreeOf processTree states) (hsub : data.featureStates ⊆ states)
    (hnone : opts.featureExtract = false → data.featureStates = ∅) (inputs : SearchInputs) :
    ∃ st₀, start opts inputs states processTree data = some st₀ ∧
      ∀ its, ProperRun opts.featureExtract scale st₀ its →
        ∃ st, run opts.featureExtract scale st₀ its = some st ∧
          Bookkept scale opts.featureExtract st := by
  obtain ⟨st₀, hst₀, h₀⟩ := start_settled hpath htree hsub hnone inputs
  refine ⟨st₀, hst₀, fun its hp => ?_⟩
  obtain ⟨st, hst, h⟩ := h₀.run hp
  exact ⟨st, hst, h.bookkept⟩

section Witness

/-- What `constructUserSearcher` takes by default. -/
def defaultOptions : SearchOptions where
  coreSearch := [.randomPath, .nursCovNew]
  featureExtract := true
  useBranchingSearch := false
  useBatchingSearch := false
  batchTime := 0
  batchInstructions := 0
  useIterativeDeepeningTimeSearch := false
  sampling := false
  coreSearch_ne_nil := List.cons_ne_nil _ _

def someInputs : SearchInputs where
  takenBranches _ := []
  getWeight _ _ := 1
  predict _ := 0
  sample _ := 0
  sample_lt h := List.length_pos_iff.mpr h
  getInt32 _ := 0
  wallTime := 0
  instructions := 0

def noData : SearchData := ⟨fun _ _ => 0, fun _ => none, ∅, fun _ => []⟩

theorem run_bookkept_default :
    ∃ st₀, start defaultOptions someInputs {0} (.new 0) noData = some st₀ ∧
      ∀ its, ProperRun true id st₀ its →
        ∃ st, run true id st₀ its = some st ∧ Bookkept id true st :=
  run_bookkept defaultOptions (fun h => nomatch h) (TreeOf.new 0) (Finset.empty_subset _)
    (fun h => nomatch h) someInputs

end Witness

end SearchState

end Klee

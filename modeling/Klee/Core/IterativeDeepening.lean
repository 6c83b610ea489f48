import Mathlib

/-! `IterativeDeepeningTimeSearcher`: a state that ran for too long is kept from the base searcher
until that searcher has no other. -/
namespace Klee

/-- `time::Point`, in nanoseconds of the steady clock. -/
abbrev Point := BitVec 64

abbrev Span := BitVec 64

def seconds (ticks : BitVec 64) : Span := ticks * 1000000000

/-- `Searcher`, over what it keeps. Nothing is selected where the source has an assertion fail. -/
structure Searcher (State σ : Type*) where
  selectState : σ → Option (State × σ)
  update : σ → Option State → (addedStates removedStates : List State) → σ
  empty : σ → Bool

namespace Searcher

variable {State σ : Type*}

def removeState (searcher : Searcher State σ) (b : σ) (es : State) : σ :=
  searcher.update b none [] [es]

/-- Every add and remove is honoured: new states are added, then states are removed. -/
structure Honours (searcher : Searcher State σ) (valid : σ → Prop) (states : σ → Set State) :
    Prop where
  selectState : ∀ {b res b'}, valid b → searcher.selectState b = some (res, b') →
    valid b' ∧ states b' = states b
  update : ∀ {b} current {addedStates} removedStates, valid b → addedStates.Nodup →
    (∀ es ∈ addedStates, es ∉ states b) →
    valid (searcher.update b current addedStates removedStates) ∧
      states (searcher.update b current addedStates removedStates) =
        (states b ∪ {es | es ∈ addedStates}) \ {es | es ∈ removedStates}
  empty : ∀ {b}, valid b → (searcher.empty b = true ↔ states b = ∅)

theorem Honours.empty_eq_false {searcher : Searcher State σ} {valid : σ → Prop}
    {states : σ → Set State} (h : searcher.Honours valid states) {b : σ} (hb : valid b) :
    searcher.empty b = false ↔ (states b).Nonempty := by
  rw [Bool.eq_false_iff, Ne, h.empty hb, Set.nonempty_iff_ne_empty]

end Searcher

/-- States are ordered by their addresses in `pausedStates`. -/
structure IterativeDeepeningTimeSearcher (State σ : Type*) where
  baseSearcher : σ
  startTime : Point
  time : Span
  pausedStates : Finset State

namespace DFSSearcher

variable {State : Type*} [DecidableEq State]

/-- An iteration of the loop over `removedStates`, built without its assertion. -/
def erase (states : List State) (es : State) : List State :=
  if states.getLast? = some es then states.dropLast else states.erase es

def searcher : Searcher State (List State) where
  selectState states := states.getLast?.map fun es => (es, states)
  update states _ addedStates removedStates := removedStates.foldl erase (states ++ addedStates)
  empty states := states.isEmpty

theorem erase_eq {states : List State} (h : states.Nodup) (es : State) :
    erase states es = states.erase es := by
  rw [erase]
  split
  · next hlast =>
    obtain ⟨l, rfl⟩ := List.getLast?_eq_some_iff.mp hlast
    have hnot : es ∉ l := fun hes =>
      List.disjoint_of_nodup_append h hes List.mem_cons_self
    rw [List.dropLast_concat, List.erase_append_right _ hnot, List.erase_cons_head,
      List.append_nil]
  · rfl

theorem foldl_erase {states : List State} (h : states.Nodup) (removedStates : List State) :
    (removedStates.foldl erase states).Nodup ∧
      ∀ es, es ∈ removedStates.foldl erase states ↔ es ∈ states ∧ es ∉ removedStates := by
  induction removedStates generalizing states with
  | nil => simp [h]
  | cons es l ih =>
    rw [List.foldl_cons, erase_eq h]
    refine ⟨(ih (h.erase es)).1, fun a => ?_⟩
    rw [(ih (h.erase es)).2, h.mem_erase_iff, List.mem_cons]
    tauto

theorem honours : (searcher : Searcher State _).Honours List.Nodup fun states => {es | es ∈ states}
    where
  selectState {states res states'} h hsel := by
    obtain ⟨es, -, heq⟩ := Option.map_eq_some_iff.mp hsel
    cases heq
    exact ⟨h, rfl⟩
  update {states} current {addedStates} removedStates h hnodup hnew := by
    have happend : (states ++ addedStates).Nodup :=
      List.nodup_append_comm.mp (hnodup.append h fun es hadd => hnew es hadd)
    refine ⟨(foldl_erase happend removedStates).1, ?_⟩
    ext es
    exact ((foldl_erase happend removedStates).2 es).trans (and_congr_left' List.mem_append)
  empty {states} _ := by
    rw [searcher, List.isEmpty_iff, Set.eq_empty_iff_forall_notMem, List.eq_nil_iff_forall_not_mem]
    rfl

end DFSSearcher

namespace IterativeDeepeningTimeSearcher

variable {State σ : Type*} [LinearOrder State] (base : Searcher State σ)

def ofBase (b : σ) : IterativeDeepeningTimeSearcher State σ where
  baseSearcher := b
  startTime := 0
  time := seconds 1
  pausedStates := ∅

def selectState (s : IterativeDeepeningTimeSearcher State σ) (wallTime : Point) :
    Option (State × IterativeDeepeningTimeSearcher State σ) := do
  let (res, b) ← base.selectState s.baseSearcher
  return (res, { s with baseSearcher := b, startTime := wallTime })

/-- An iteration of the loop over `removedStates`: `pausedStates` and `alt`. -/
def erasePaused (p : Finset State × List State) (es : State) : Finset State × List State :=
  if es ∈ p.1 then (p.1.erase es, p.2.filter (· ≠ es)) else p

def removeStates (s : IterativeDeepeningTimeSearcher State σ) (current : Option State)
    (addedStates removedStates : List State) : IterativeDeepeningTimeSearcher State σ :=
  if removedStates ≠ [] then
    let (pausedStates, alt) := removedStates.foldl erasePaused (s.pausedStates, removedStates)
    { s with pausedStates, baseSearcher := base.update s.baseSearcher current addedStates alt }
  else
    { s with baseSearcher := base.update s.baseSearcher current addedStates removedStates }

def pause (s : IterativeDeepeningTimeSearcher State σ) (current : Option State)
    (removedStates : List State) (elapsed : Span) : IterativeDeepeningTimeSearcher State σ :=
  match current with
  | none => s
  | some current =>
    if current ∉ removedStates ∧ s.time.slt elapsed then
      { s with pausedStates := insert current s.pausedStates
               baseSearcher := base.removeState s.baseSearcher current }
    else s

def refill (s : IterativeDeepeningTimeSearcher State σ) : IterativeDeepeningTimeSearcher State σ :=
  if base.empty s.baseSearcher then
    { s with time := s.time * 2
             baseSearcher := base.update s.baseSearcher none (s.pausedStates.sort (· ≤ ·)) []
             pausedStates := ∅ }
  else s

def update (s : IterativeDeepeningTimeSearcher State σ) (current : Option State)
    (addedStates removedStates : List State) (wallTime : Point) :
    IterativeDeepeningTimeSearcher State σ :=
  let elapsed := wallTime - s.startTime
  let s := removeStates base s current addedStates removedStates
  let s := pause base s current removedStates elapsed
  refill base s

inductive Call (State : Type*) where
  | selectState (wallTime : Point)
  | update (current : Option State) (addedStates removedStates : List State) (wallTime : Point)

def step (s : IterativeDeepeningTimeSearcher State σ) :
    Call State → IterativeDeepeningTimeSearcher State σ
  | .selectState wallTime => ((selectState base s wallTime).map Prod.snd).getD s
  | .update current addedStates removedStates wallTime =>
    update base s current addedStates removedStates wallTime

def Call.live (live : Set State) : Call State → Set State
  | .selectState _ => live
  | .update _ addedStates removedStates _ =>
    (live ∪ {es | es ∈ addedStates}) \ {es | es ∈ removedStates}

/-- The states added are new, and the state that has run, where there is one, was live. -/
def Call.Proper (live : Set State) : Call State → Prop
  | .selectState _ => True
  | .update current addedStates _ _ =>
    addedStates.Nodup ∧ (∀ es ∈ addedStates, es ∉ live) ∧ ∀ es ∈ current, es ∈ live

inductive ProperCalls : Set State → List (Call State) → Prop
  | nil (live : Set State) : ProperCalls live []
  | cons {live : Set State} {call : Call State} {calls : List (Call State)} :
    call.Proper live → ProperCalls (call.live live) calls → ProperCalls live (call :: calls)

section Invariant

variable {base} {valid : σ → Prop} {states : σ → Set State}
  {s : IterativeDeepeningTimeSearcher State σ} {live : Set State}

structure Partition (valid : σ → Prop) (states : σ → Set State)
    (s : IterativeDeepeningTimeSearcher State σ) (live : Set State) : Prop where
  valid : valid s.baseSearcher
  disjoint : Disjoint (states s.baseSearcher) (s.pausedStates : Set State)
  union : states s.baseSearcher ∪ (s.pausedStates : Set State) = live

theorem step_selectState (hbase : base.Honours valid states) (hs : valid s.baseSearcher)
    (wallTime : Point) :
    valid (step base s (.selectState wallTime)).baseSearcher ∧
      states (step base s (.selectState wallTime)).baseSearcher = states s.baseSearcher ∧
      (step base s (.selectState wallTime)).pausedStates = s.pausedStates := by
  rw [step, selectState]
  cases hsel : base.selectState s.baseSearcher with
  | none => exact ⟨hs, rfl, rfl⟩
  | some p =>
    obtain ⟨hvalid, hstates⟩ := hbase.selectState hs hsel
    exact ⟨hvalid, hstates, rfl⟩

theorem foldl_erasePaused (l : List State) (p : Finset State × List State) :
    l.foldl erasePaused p = (p.1 \ l.toFinset, p.2.filter fun es => es ∉ p.1 ∨ es ∉ l) := by
  induction l generalizing p with
  | nil => simp
  | cons es l ih =>
    rw [List.foldl_cons, ih, erasePaused]
    by_cases hes : es ∈ p.1
    · rw [if_pos hes, List.filter_filter]
      refine Prod.ext ?_ (List.filter_congr fun a _ => ?_)
      · ext a
        simp only [Finset.mem_sdiff, Finset.mem_erase, List.mem_toFinset, List.mem_cons]
        tauto
      · by_cases ha : a = es
        · simp [ha, hes]
        · simp [ha]
    · rw [if_neg hes]
      refine Prod.ext ?_ (List.filter_congr fun a _ => ?_)
      · ext a
        simp only [Finset.mem_sdiff, List.mem_toFinset, List.mem_cons]
        grind
      · by_cases ha : a = es
        · simp [ha, hes]
        · simp [ha]

theorem removeStates_eq (s : IterativeDeepeningTimeSearcher State σ) (current : Option State)
    (addedStates removedStates : List State) :
    removeStates base s current addedStates removedStates =
      { s with
        pausedStates := s.pausedStates \ removedStates.toFinset
        baseSearcher := base.update s.baseSearcher current addedStates
          (removedStates.filter fun es => es ∉ s.pausedStates) } := by
  rw [removeStates]
  split
  · rw [foldl_erasePaused]
    have halt : removedStates.filter (fun es => es ∉ s.pausedStates ∨ es ∉ removedStates) =
        removedStates.filter fun es => es ∉ s.pausedStates :=
      List.filter_congr fun es hes => by simp [hes]
    simp only [halt]
  · next hnil =>
    rw [not_not] at hnil
    subst hnil
    simp

theorem Partition.removeStates (hbase : base.Honours valid states)
    (h : Partition valid states s live) (current : Option State) {addedStates : List State}
    (removedStates : List State) (hnodup : addedStates.Nodup)
    (hnew : ∀ es ∈ addedStates, es ∉ live) :
    Partition valid states (removeStates base s current addedStates removedStates)
      ((live ∪ {es | es ∈ addedStates}) \ {es | es ∈ removedStates}) := by
  have hdisj := Set.disjoint_left.mp h.disjoint
  have hunion := h.union
  obtain ⟨hvalid, hstates⟩ := hbase.update current
    (removedStates.filter fun es => es ∉ s.pausedStates) h.valid hnodup
    fun es hes hmem => hnew es hes (hunion ▸ Or.inl hmem)
  rw [removeStates_eq]
  constructor
  · exact hvalid
  · rw [Set.disjoint_left, hstates]
    rintro es ⟨hes, hrem⟩ hp
    simp only [Finset.coe_sdiff, Set.mem_sdiff, Finset.mem_coe] at hp
    rcases hes with hes | hes
    · exact hdisj hes hp.1
    · exact hnew es hes (hunion ▸ Or.inr hp.1)
  · rw [hstates]
    ext es
    have := @hdisj es
    have := hnew es
    simp only [Set.mem_union, Set.mem_sdiff, Set.mem_ofPred_eq, List.mem_filter, Finset.mem_coe,
      decide_eq_true_eq, Finset.coe_sdiff, List.coe_toFinset, ← hunion] at *
    tauto

theorem Partition.pause (hbase : base.Honours valid states) (h : Partition valid states s live)
    (current : Option State) (removedStates : List State) (elapsed : Span)
    (hlive : ∀ es ∈ current, es ∉ removedStates → es ∈ live) :
    Partition valid states (pause base s current removedStates elapsed) live := by
  cases current with
  | none => exact h
  | some current =>
    rw [IterativeDeepeningTimeSearcher.pause]
    split
    · next hcond =>
      have hmem := hlive current rfl hcond.1
      rw [← h.union] at hmem
      obtain ⟨hvalid, hstates⟩ := hbase.update none [current] h.valid List.nodup_nil
        fun es hes => absurd hes List.not_mem_nil
      have hstates : states (base.removeState s.baseSearcher current) =
          states s.baseSearcher \ {current} := by
        rw [Searcher.removeState, hstates]
        simp
      constructor
      · exact hvalid
      · rw [hstates, Finset.coe_insert, Set.disjoint_insert_right]
        exact ⟨fun hes => hes.2 rfl, h.disjoint.mono_left Set.sdiff_subset⟩
      · rw [hstates, Finset.coe_insert, ← h.union]
        ext es
        by_cases hes : es = current
        · subst hes
          exact iff_of_true (Or.inr (Or.inl rfl)) hmem
        · simp [hes]
    · exact h

theorem Partition.refill (hbase : base.Honours valid states) (h : Partition valid states s live) :
    Partition valid states (refill base s) live := by
  rw [IterativeDeepeningTimeSearcher.refill]
  split
  · next hempty =>
    rw [hbase.empty h.valid] at hempty
    obtain ⟨hvalid, hstates⟩ := hbase.update none [] h.valid
      (Finset.sort_nodup s.pausedStates (· ≤ ·)) fun es _ hmem => by
        rw [hempty] at hmem
        exact hmem
    constructor
    · exact hvalid
    · rw [Finset.coe_empty]
      exact Set.disjoint_empty _
    · rw [Finset.coe_empty, Set.union_empty, hstates, ← h.union, hempty]
      ext es
      simp
  · exact h

theorem empty_refill (hbase : base.Honours valid states) (h : Partition valid states s live)
    (hlive : live.Nonempty) : base.empty (refill base s).baseSearcher = false := by
  have hpart := h.refill hbase
  by_cases hempty : base.empty s.baseSearcher
  · -- Nothing is paused any more.
    rw [IterativeDeepeningTimeSearcher.refill, if_pos hempty] at hpart ⊢
    rw [← hpart.union, Finset.coe_empty, Set.union_empty] at hlive
    exact (hbase.empty_eq_false hpart.valid).mpr hlive
  · rw [IterativeDeepeningTimeSearcher.refill, if_neg hempty]
    exact Bool.eq_false_iff.mpr hempty

structure Inv (base : Searcher State σ) (valid : σ → Prop) (states : σ → Set State)
    (s : IterativeDeepeningTimeSearcher State σ) (live : Set State) : Prop where
  partition : Partition valid states s live
  empty : live.Nonempty → base.empty s.baseSearcher = false

theorem Inv.step (hbase : base.Honours valid states) (h : Inv base valid states s live)
    {call : Call State} (hcall : call.Proper live) :
    Inv base valid states (step base s call) (call.live live) := by
  cases call with
  | selectState wallTime =>
    obtain ⟨hvalid, hstates, hpaused⟩ := step_selectState hbase h.partition.valid wallTime
    refine ⟨⟨hvalid, by rw [hstates, hpaused]; exact h.partition.disjoint,
      by rw [hstates, hpaused]; exact h.partition.union⟩, fun hlive => ?_⟩
    rw [hbase.empty_eq_false hvalid, hstates]
    exact (hbase.empty_eq_false h.partition.valid).mp (h.empty hlive)
  | update current addedStates removedStates wallTime =>
    obtain ⟨hnodup, hnew, hcurrent⟩ := hcall
    have hremoved := h.partition.removeStates hbase current removedStates hnodup hnew
    have hpaused := hremoved.pause hbase current removedStates (wallTime - s.startTime)
      fun es hes hrem => ⟨Or.inl (hcurrent es hes), hrem⟩
    exact ⟨hpaused.refill hbase, empty_refill hbase hpaused⟩

theorem Inv.run (hbase : base.Honours valid states) (h : Inv base valid states s live)
    {calls : List (Call State)} (hcalls : ProperCalls live calls) :
    Inv base valid states (calls.foldl (IterativeDeepeningTimeSearcher.step base) s)
      (calls.foldl Call.live live) := by
  induction hcalls generalizing s with
  | nil live => exact h
  | cons hcall _ ih => exact ih (h.step hbase hcall)

omit [LinearOrder State] in
theorem inv_ofBase (hbase : base.Honours valid states) {b : σ} (hb : valid b) :
    Inv base valid states (ofBase b) (states b) where
  partition := ⟨hb, by rw [ofBase, Finset.coe_empty]; exact Set.disjoint_empty _,
    by rw [ofBase, Finset.coe_empty]; exact Set.union_empty _⟩
  empty hne := (hbase.empty_eq_false hb).mpr hne

end Invariant

/-- The searcher after calls, from a base searcher that keeps `b`. -/
def run (b : σ) (calls : List (Call State)) : IterativeDeepeningTimeSearcher State σ :=
  calls.foldl (step base) (ofBase b)

/-- After any calls the live states are split between the base searcher, which has one if any is
live, and the paused ones; a state that was removed is on neither side. -/
theorem run_partition {base : Searcher State σ} {valid : σ → Prop} {states : σ → Set State}
    (hbase : base.Honours valid states) {b : σ} (hb : valid b) {calls : List (Call State)}
    (hcalls : ProperCalls (states b) calls) :
    let s := run base b calls
    let live := calls.foldl Call.live (states b)
    Disjoint (states s.baseSearcher) (s.pausedStates : Set State) ∧
      states s.baseSearcher ∪ (s.pausedStates : Set State) = live ∧
      (live.Nonempty → base.empty s.baseSearcher = false) ∧
      ∀ current addedStates removedStates wallTime,
        calls.getLast? = some (.update current addedStates removedStates wallTime) →
        ∀ es ∈ removedStates, es ∉ states s.baseSearcher ∧ es ∉ s.pausedStates := by
  intro s live
  have h : Inv base valid states s live := (inv_ofBase hbase hb).run hbase hcalls
  refine ⟨h.partition.disjoint, h.partition.union, h.empty, ?_⟩
  intro current addedStates removedStates wallTime hlast es hes
  obtain ⟨before, rfl⟩ := List.getLast?_eq_some_iff.mp hlast
  have hnot : es ∉ live := by
    rw [show live = _ from List.foldl_append, List.foldl_cons, List.foldl_nil]
    exact fun hmem => hmem.2 hes
  rw [← h.partition.union] at hnot
  exact ⟨fun hmem => hnot (Or.inl hmem), fun hmem => hnot (Or.inr hmem)⟩

/-- A state that ran for two seconds is paused, and comes back when the two it forked end. -/
theorem run_partition_dfs :
    let calls : List (Call ℕ) := [.update none [0] [] 0, .selectState 0,
      .update (some 0) [1, 2] [] (seconds 2), .selectState (seconds 3),
      .update (some 2) [] [2, 1] (seconds 3)]
    let s := run DFSSearcher.searcher [] calls
    Disjoint {es | es ∈ s.baseSearcher} (s.pausedStates : Set ℕ) ∧
      {es | es ∈ s.baseSearcher} ∪ (s.pausedStates : Set ℕ) = {0} ∧
      DFSSearcher.searcher.empty s.baseSearcher = false := by
  intro calls s
  have hproper : ProperCalls {es | es ∈ ([] : List ℕ)} calls := by
    refine .cons ?_ (.cons trivial (.cons ?_ (.cons trivial (.cons ?_ (.nil _)))))
    all_goals simp [Call.Proper, Call.live]
  have hlive : calls.foldl Call.live {es | es ∈ ([] : List ℕ)} = {0} := by
    ext es
    simp [calls, Call.live]
    omega
  obtain ⟨hdisjoint, hunion, hempty, -⟩ :=
    run_partition DFSSearcher.honours List.nodup_nil hproper
  rw [hlive] at hunion hempty
  exact ⟨hdisjoint, hunion, hempty (Set.singleton_nonempty 0)⟩

end IterativeDeepeningTimeSearcher

end Klee

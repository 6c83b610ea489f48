import Klee.Core.MergeHandlerSpec

/-! The merging searcher as its callers see it: every live state is selectable or paused. -/
namespace Klee.Merging

open Hoare

/-- The calls of the searcher and of the merge handlers. `addState` and `removeState` are updates
with one state; there may be no current state. -/
inductive SearcherOp where
  | update (current : Option StateId) (addedStates removedStates : List StateId)
  | pauseState (es : StateId)
  | continueState (es : StateId)
  | setHandler (h : HandlerId) (m : Option MergeHandler)
  | addClosedState (h : HandlerId) (es : StateId) (mp : Nat) (merges : StateId → Bool)
  | releaseStates (h : HandlerId)

/-- `MergingSearcher::update`; no state is paused under the null pointer. -/
def updateFrom : Option StateId → List StateId → List StateId → MergeM Unit
  | some current, addedStates, removedStates => update current addedStates removedStates
  | none, addedStates, removedStates => do
    modifySearcher fun q => { q with base := q.base ++ addedStates }
    removedStates.forM removeFromBase

namespace SearcherOp

def exec : SearcherOp → MergeM Unit
  | update current addedStates removedStates => do
    updateFrom current addedStates removedStates
    modifyExecutor fun x => { x with
      states := (x.states ++ addedStates).filter (· ∉ removedStates) }
  | pauseState es => Merging.pauseState es
  | continueState es => Merging.continueState es
  | setHandler h m => Merging.setHandler h m
  | addClosedState h es mp merges => Merging.addClosedState h es mp merges
  | releaseStates h => Merging.releaseStates h

/-- New states are added, and live states removed, paused and closed; paused ones go on. -/
def Legal (s : MergeState) : SearcherOp → Prop
  | update _ addedStates removedStates =>
    addedStates.Nodup ∧ (∀ x ∈ addedStates, x ∉ s.executor.states) ∧
      ∀ x ∈ removedStates, x ∈ s.executor.states
  | pauseState es => es ∈ s.executor.states ∧ es ∉ s.searcher.pausedStates
  | continueState es => es ∈ s.searcher.pausedStates
  | setHandler _ _ => True
  | addClosedState h es _ _ => es ∈ s.executor.states ∧ es ∉ s.searcher.pausedStates ∧
      ∃ m, s.handlers h = some m ∧ es ∈ m.openStates
  | releaseStates h => ∃ m, s.handlers h = some m ∧ m.closedStates.Nodup ∧
      ∀ x ∈ m.closedStates, x ∈ s.searcher.pausedStates

/-- An update of a paused current state has nothing to say, and no removed state is paused or
removed twice (`checkMemoryUsage` may end a state that its last instruction has ended). -/
def Heard (s : MergeState) : SearcherOp → Prop
  | update current addedStates removedStates =>
    (∀ es, current = some es → es ∈ s.searcher.pausedStates →
      addedStates = [] ∧ removedStates = []) ∧
    removedStates.Nodup ∧ ∀ x ∈ removedStates, x ∉ s.searcher.pausedStates
  | _ => True

end SearcherOp

/-- The states reached by legal calls that meet `P`, from a searcher without states. -/
inductive Calls (P : MergeState → SearcherOp → Prop) : MergeState → Prop
  | start (s : MergeState) (hstates : s.executor.states = []) (hadded : s.executor.addedStates = [])
      (hpaused : s.searcher.pausedStates = []) (hbase : s.searcher.base = []) : Calls P s
  | call (op : SearcherOp) {s s' : MergeState} (h : Calls P s) (hlegal : op.Legal s) (hop : P s op)
      (hexec : op.exec s = .ok ((), s')) : Calls P s'

structure Accounted (s : MergeState) : Prop where
  disjoint : ∀ x ∈ s.searcher.base, x ∉ s.searcher.pausedStates
  live : ∀ x, x ∈ s.executor.states ↔ x ∈ s.searcher.base ∨ x ∈ s.searcher.pausedStates

structure Balanced (s : MergeState) : Prop where
  accounted : Accounted s
  base : s.searcher.base.Nodup
  paused : s.searcher.pausedStates.Nodup
  added : s.executor.addedStates = []

section Calls

variable {s s' : MergeState} {h : HandlerId} {es : StateId} {op : SearcherOp}
variable {Q : Unit → MergeState → Prop} {E : MergeFault → Prop}

def MergeState.withBase (s : MergeState) (base : List StateId) : MergeState :=
  { s with searcher := { s.searcher with base := base } }

theorem wp_removeFromBase : wp (removeFromBase es) Q (fun _ => False) s ↔
    es ∈ s.searcher.base ∧ Q () (s.withBase (s.searcher.base.erase es)) := by
  unfold removeFromBase
  rw [wp_bind, wp_get, wp_ite]
  by_cases hmem : es ∈ s.searcher.base
  · exact ⟨fun hw => ⟨hmem, hw.1 hmem⟩, fun hw => ⟨fun _ => hw.2, fun hn => absurd hmem hn⟩⟩
  · exact ⟨fun hw => (wp_throw.mp (hw.2 hmem)).elim, fun hw => absurd hw.1 hmem⟩

/-- The removals succeed for the states that the base searcher holds, if each is removed once. -/
theorem wp_removeStates {l : List StateId} (hbase : s.searcher.base.Nodup) :
    wp (l.forM removeFromBase) Q (fun _ => False) s ↔
      l.Nodup ∧ (∀ x ∈ l, x ∈ s.searcher.base) ∧
        Q () (s.withBase (s.searcher.base.filter (· ∉ l))) := by
  induction l generalizing s with
  | nil =>
    have hsame : s.withBase (s.searcher.base.filter (· ∉ ([] : List StateId))) = s := by
      simp [MergeState.withBase]
    rw [hsame]
    exact ⟨fun hw => ⟨List.nodup_nil, fun x hx => absurd hx List.not_mem_nil, hw⟩, fun hw => hw.2.2⟩
  | cons x l ih =>
    have hfilter : (s.searcher.base.erase x).filter (· ∉ l) =
        s.searcher.base.filter (· ∉ x :: l) := by
      rw [hbase.erase_eq_filter, List.filter_filter]
      refine List.filter_congr fun y _ => ?_
      by_cases heq : y = x
      · simp [heq]
      · simp [heq]
    have hrest := ih (s := s.withBase (s.searcher.base.erase x)) (hbase.erase x)
    refine wp_bind.trans (wp_removeFromBase.trans ?_)
    refine (and_congr_right fun _ => hrest).trans ?_
    show _ ∧ l.Nodup ∧ (∀ y ∈ l, y ∈ s.searcher.base.erase x) ∧
      Q () (s.withBase ((s.searcher.base.erase x).filter (· ∉ l))) ↔ _
    rw [hfilter, List.forall_mem_cons, List.nodup_cons]
    simp only [hbase.mem_erase_iff]
    constructor
    · rintro ⟨hx, hl, hmem, hQ⟩
      exact ⟨⟨fun h => (hmem x h).1 rfl, hl⟩, ⟨hx, fun y hy => (hmem y hy).2⟩, hQ⟩
    · rintro ⟨⟨hnot, hl⟩, ⟨hx, hmem⟩, hQ⟩
      exact ⟨hx, hl, fun y hy => ⟨fun heq => hnot (heq ▸ hy), hmem y hy⟩, hQ⟩

variable {current : Option StateId} {addedStates removedStates : List StateId}

def MergeState.withStates (s : MergeState) (addedStates removedStates : List StateId) :
    MergeState :=
  { s with executor := { s.executor with
      states := (s.executor.states ++ addedStates).filter (· ∉ removedStates) } }

/-- The current state is not paused: the base searcher hears of the update. -/
theorem wp_update_heard (hb : Balanced s)
    (hlegal : (SearcherOp.update current addedStates removedStates).Legal s)
    (hcurrent : ∀ es, current = some es → es ∉ s.searcher.pausedStates) :
    wp (SearcherOp.update current addedStates removedStates).exec Q (fun _ => False) s ↔
      removedStates.Nodup ∧ (∀ x ∈ removedStates, x ∉ s.searcher.pausedStates) ∧
        Q () ((s.withBase ((s.searcher.base ++ addedStates).filter (· ∉ removedStates))).withStates
          addedStates removedStates) := by
  obtain ⟨hadded, hfresh, hlive⟩ := hlegal
  have hbase : (s.searcher.base ++ addedStates).Nodup := by
    refine List.nodup_append.mpr ⟨hb.base, hadded, fun a ha b hb' heq => ?_⟩
    exact hfresh b hb' ((hb.accounted.live b).mpr (.inl (heq ▸ ha)))
  have hmem (x : StateId) (hx : x ∈ removedStates) :
      x ∈ s.searcher.base ++ addedStates ↔ x ∉ s.searcher.pausedStates := by
    rw [List.mem_append]
    constructor
    · rintro (hx' | hx')
      · exact hb.accounted.disjoint x hx'
      · exact absurd (hlive x hx) (hfresh x hx')
    · intro hnot
      exact .inl (((hb.accounted.live x).mp (hlive x hx)).resolve_right hnot)
  have hup : updateFrom current addedStates removedStates s =
      (do modifySearcher fun q => { q with base := q.base ++ addedStates }
          removedStates.forM removeFromBase : MergeM Unit) s := by
    cases current with
    | none => rfl
    | some es =>
      show (if es ∈ s.searcher.pausedStates then _ else _ : MergeM Unit) s = _
      rw [if_neg (hcurrent es rfl)]
  have hwp {R : Unit → MergeState → Prop} : wp (updateFrom current addedStates removedStates) R
      (fun _ => False) s ↔ removedStates.Nodup ∧
        (∀ x ∈ removedStates, x ∉ s.searcher.pausedStates) ∧
        R () (s.withBase ((s.searcher.base ++ addedStates).filter (· ∉ removedStates))) := by
    rw [wp, hup, ← wp]
    refine wp_bind.trans ((wp_removeStates hbase).trans ?_)
    exact and_congr_right fun _ => and_congr_left fun _ => forall₂_congr hmem
  exact wp_bind.trans hwp

/-- The current state is paused: the update is lost. -/
theorem wp_update_lost (hcurrent : es ∈ s.searcher.pausedStates) :
    wp (SearcherOp.update (some es) addedStates removedStates).exec Q E s ↔
      Q () (s.withStates addedStates removedStates) := by
  have hup : updateFrom (some es) addedStates removedStates s = .ok ((), s) := by
    show (if es ∈ s.searcher.pausedStates then _ else _ : MergeM Unit) s = _
    rw [if_pos hcurrent]
    rfl
  refine wp_bind.trans ?_
  rw [wp, hup]
  exact Iff.rfl

theorem Balanced.heard (hb : Balanced s)
    (hlegal : (SearcherOp.update current addedStates removedStates).Legal s)
    (hremoved : ∀ x ∈ removedStates, x ∉ s.searcher.pausedStates) :
    Balanced ((s.withBase ((s.searcher.base ++ addedStates).filter (· ∉ removedStates))).withStates
      addedStates removedStates) := by
  obtain ⟨hadded, hfresh, -⟩ := hlegal
  have hnot (x : StateId) (hx : x ∈ addedStates) : x ∉ s.searcher.pausedStates := fun hp =>
    hfresh x hx ((hb.accounted.live x).mpr (.inr hp))
  refine ⟨⟨fun x hx => ?_, fun x => ?_⟩, ?_, hb.paused, hb.added⟩
  · have hx := (List.mem_filter.mp hx).1
    cases List.mem_append.mp hx with
    | inl hx => exact hb.accounted.disjoint x hx
    | inr hx => exact hnot x hx
  · show x ∈ (s.executor.states ++ addedStates).filter (· ∉ removedStates) ↔
      x ∈ (s.searcher.base ++ addedStates).filter (· ∉ removedStates) ∨ x ∈ s.searcher.pausedStates
    rw [List.mem_filter, List.mem_filter, List.mem_append, List.mem_append, hb.accounted.live,
      decide_eq_true_eq]
    have hp (hx : x ∈ s.searcher.pausedStates) : x ∉ removedStates := fun hr => hremoved x hr hx
    tauto
  · refine List.Nodup.filter _ (List.nodup_append.mpr ⟨hb.base, hadded, fun a ha b hb' heq => ?_⟩)
    exact hfresh b hb' ((hb.accounted.live b).mpr (.inl (heq ▸ ha)))

/-- What is lost is missed. -/
theorem Balanced.lost_iff (hb : Balanced s)
    (hlegal : (SearcherOp.update current addedStates removedStates).Legal s) :
    Accounted (s.withStates addedStates removedStates) ↔
      addedStates = [] ∧ removedStates = [] := by
  obtain ⟨-, hfresh, hlive⟩ := hlegal
  have hmem (x : StateId) : x ∈ (s.withStates addedStates removedStates).executor.states ↔
      (x ∈ s.executor.states ∨ x ∈ addedStates) ∧ x ∉ removedStates := by
    show x ∈ (s.executor.states ++ addedStates).filter (· ∉ removedStates) ↔ _
    rw [List.mem_filter, List.mem_append, decide_eq_true_eq]
  constructor
  · intro hacc
    have hsame (x : StateId) : x ∈ s.executor.states ↔
        (x ∈ s.executor.states ∨ x ∈ addedStates) ∧ x ∉ removedStates :=
      (hb.accounted.live x).trans ((hacc.live x).symm.trans (hmem x))
    constructor
    · refine List.eq_nil_iff_forall_not_mem.mpr fun x hx => hfresh x hx ((hsame x).mpr ?_)
      exact ⟨.inr hx, fun hr => hfresh x hx (hlive x hr)⟩
    · refine List.eq_nil_iff_forall_not_mem.mpr fun x hx => ?_
      exact ((hsame x).mp (hlive x hx)).2 hx
  · rintro ⟨rfl, rfl⟩
    refine ⟨hb.accounted.disjoint, fun x => ?_⟩
    rw [hmem]
    refine Iff.trans ?_ (hb.accounted.live x)
    simp

theorem wp_update_iff (hb : Balanced s)
    (hlegal : (SearcherOp.update current addedStates removedStates).Legal s) :
    wp (SearcherOp.update current addedStates removedStates).exec (fun _ s' => Accounted s')
      (fun _ => False) s ↔ (SearcherOp.update current addedStates removedStates).Heard s := by
  by_cases hcurrent : ∃ es, current = some es ∧ es ∈ s.searcher.pausedStates
  · obtain ⟨es, rfl, hp⟩ := hcurrent
    rw [wp_update_lost hp, hb.lost_iff hlegal]
    constructor
    · rintro ⟨rfl, rfl⟩
      exact ⟨fun _ _ _ => ⟨rfl, rfl⟩, List.nodup_nil, fun x hx => absurd hx List.not_mem_nil⟩
    · intro hheard
      exact hheard.1 es rfl hp
  · have hcurrent' : ∀ es, current = some es → es ∉ s.searcher.pausedStates :=
      fun es heq hp => hcurrent ⟨es, heq, hp⟩
    rw [wp_update_heard hb hlegal hcurrent']
    constructor
    · intro hw
      exact ⟨fun es heq hp => absurd hp (hcurrent' es heq), hw.1, hw.2.1⟩
    · intro hheard
      exact ⟨hheard.2.1, hheard.2.2, (hb.heard hlegal hheard.2.2).accounted⟩

/-- The calls that the base searcher hears of keep the balance. -/
theorem wp_update_balanced (hb : Balanced s)
    (hlegal : (SearcherOp.update current addedStates removedStates).Legal s)
    (hheard : (SearcherOp.update current addedStates removedStates).Heard s) :
    wp (SearcherOp.update current addedStates removedStates).exec (fun _ s' => Balanced s')
      (fun _ => False) s := by
  by_cases hcurrent : ∃ es, current = some es ∧ es ∈ s.searcher.pausedStates
  · obtain ⟨es, rfl, hp⟩ := hcurrent
    obtain ⟨rfl, rfl⟩ := hheard.1 es rfl hp
    refine (wp_update_lost hp).mpr ?_
    exact ⟨(hb.lost_iff hlegal).mpr ⟨rfl, rfl⟩, hb.base, hb.paused, hb.added⟩
  · refine (wp_update_heard hb hlegal fun es heq hp => hcurrent ⟨es, heq, hp⟩).mpr ?_
    exact ⟨hheard.2.1, hheard.2.2, hb.heard hlegal hheard.2.2⟩

theorem wp_pauseState_balanced (hb : Balanced s) (hlive : es ∈ s.executor.states)
    (hpaused : es ∉ s.searcher.pausedStates) :
    wp (pauseState es) (fun _ s' => Balanced s') (fun _ => False) s := by
  have hbase : es ∈ s.searcher.base :=
    ((hb.accounted.live es).mp hlive).resolve_right hpaused
  unfold pauseState
  rw [wp_bind, wp_get, if_neg hpaused, if_pos hbase]
  refine wp_modify.mpr ⟨⟨fun x hx => ?_, fun x => ?_⟩, hb.base.erase es, ?_, hb.added⟩
  · show x ∉ s.searcher.pausedStates ++ [es]
    obtain ⟨hne, hx⟩ := hb.base.mem_erase_iff.mp hx
    rw [List.mem_append, List.mem_singleton, not_or]
    exact ⟨hb.accounted.disjoint x hx, hne⟩
  · show x ∈ s.executor.states ↔ x ∈ s.searcher.base.erase es ∨ x ∈ s.searcher.pausedStates ++ [es]
    rw [hb.base.mem_erase_iff, List.mem_append, List.mem_singleton, hb.accounted.live]
    by_cases heq : x = es
    · simp [heq, hbase]
    · simp [heq]
  · refine List.nodup_append.mpr ⟨hb.paused, List.nodup_singleton _, fun a ha b hb' heq => ?_⟩
    exact hpaused (List.mem_singleton.mp hb' ▸ heq ▸ ha)

/-- The released states go back to the base searcher. -/
theorem Balanced.released {l : List StateId} (hb : Balanced s) (hl : l.Nodup)
    (hmem : ∀ x ∈ l, x ∈ s.searcher.pausedStates) (hrel : Released l s s') : Balanced s' where
  accounted := by
    refine ⟨fun x hx => ?_, fun x => ?_⟩
    · rw [hrel.paused]
      rw [hrel.base, List.mem_append] at hx
      rintro ⟨hp, hnot⟩
      cases hx with
      | inl hx => exact hb.accounted.disjoint x hx hp
      | inr hx => exact hnot hx
    · rw [hrel.executor, hb.accounted.live, hrel.base, hrel.paused, List.mem_append]
      have hp := hmem x
      tauto
  base := by
    rw [hrel.base]
    refine List.nodup_append.mpr ⟨hb.base, hl, fun a ha b hb' heq => ?_⟩
    exact hb.accounted.disjoint a ha (hmem a (heq ▸ hb'))
  paused := hrel.nodup
  added := by
    rw [hrel.executor]
    exact hb.added

theorem wp_continueState_balanced (hb : Balanced s) (hpaused : es ∈ s.searcher.pausedStates) :
    wp (continueState es) (fun _ s' => Balanced s') (fun _ => False) s := by
  unfold continueState
  rw [wp_bind, wp_get, if_pos hpaused]
  refine wp_modify.mpr ?_
  have hrel : Released [es] s { s with searcher := { s.searcher with
      pausedStates := s.searcher.pausedStates.erase es
      base := s.searcher.base ++ [es]
      inCloseMerge := s.searcher.inCloseMerge.erase es } } := by
    refine ⟨rfl, rfl, rfl, hb.paused.erase es, fun x => ?_, fun x => ?_, rfl⟩
    · show x ∈ s.searcher.pausedStates.erase es ↔ _
      rw [hb.paused.mem_erase_iff, List.mem_singleton, and_comm]
    · show x ∈ s.searcher.inCloseMerge.erase es ↔ _
      rw [Finset.mem_erase, List.mem_singleton, and_comm]
  have hbal := hb.released (List.nodup_singleton es) (fun x hx => List.mem_singleton.mp hx ▸ hpaused)
    hrel
  exact ⟨⟨hbal.accounted.disjoint, hbal.accounted.live⟩, hbal.base, hbal.paused, hbal.added⟩

/-- The handlers do not matter for the balance. -/
theorem Balanced.withHandler (hb : Balanced s) (h : HandlerId) (m : Option MergeHandler) :
    Balanced (s.withHandler h m) :=
  ⟨⟨hb.accounted.disjoint, hb.accounted.live⟩, hb.base, hb.paused, hb.added⟩

theorem wp_releaseStates_balanced (hb : Balanced s)
    (hlegal : (SearcherOp.releaseStates h).Legal s) :
    wp (releaseStates h) (fun _ s' => Balanced s') (fun _ => False) s := by
  obtain ⟨m, hm, hnodup, hmem⟩ := hlegal
  refine wp_releaseStates hm hnodup hmem hb.paused fun s' _ hrel => ?_
  have hbal := hb.released hnodup hmem hrel
  exact ⟨⟨hbal.accounted.disjoint, hbal.accounted.live⟩, hbal.base, hbal.paused, hbal.added⟩

theorem wp_addClosedState_balanced {mp : Nat} {merges : StateId → Bool} (hb : Balanced s)
    (hlegal : (SearcherOp.addClosedState h es mp merges).Legal s) :
    wp (addClosedState h es mp merges) (fun _ s' => Balanced s') (fun _ => False) s := by
  obtain ⟨hlive, hpaused, m, hm, hopen⟩ := hlegal
  unfold addClosedState removeOpenState
  rw [wp_bind, wp_bind]
  refine wp_readHandler hm ?_
  rw [if_pos hopen]
  refine wp_setHandler ?_
  rw [wp_bind]
  refine wp_readHandler handlers_withHandler_self ?_
  have hb₁ := hb.withHandler h (some { m with openStates := swapPop m.openStates es })
  cases (m.reachedCloseMerge.lookup mp).bind (·.find? merges) with
  | some _ =>
    have hadded : es ∉ s.executor.addedStates := by
      rw [hb.added]
      exact List.not_mem_nil
    dsimp only
    unfold terminateState
    rw [wp_bind, wp_bind, wp_get]
    rw [if_neg (show es ∉ (s.withHandler h _).executor.addedStates from hadded)]
    refine wp_modify.mpr (wp_modify.mpr ?_)
    exact ⟨⟨hb₁.accounted.disjoint, hb₁.accounted.live⟩, hb₁.base, hb₁.paused, hb₁.added⟩
  | none =>
    dsimp only
    unfold waitClosed
    rw [wp_bind]
    refine wp_modifyHandler handlers_withHandler_self ?_
    exact wp_pauseState_balanced (hb₁.withHandler h _) hlive hpaused

theorem wp_call_balanced (hb : Balanced s) (hlegal : op.Legal s) (hheard : op.Heard s) :
    wp op.exec (fun _ s' => Balanced s') (fun _ => False) s := by
  cases op with
  | update current addedStates removedStates => exact wp_update_balanced hb hlegal hheard
  | pauseState es => exact wp_pauseState_balanced hb hlegal.1 hlegal.2
  | continueState es => exact wp_continueState_balanced hb hlegal
  | setHandler h m => exact wp_setHandler (hb.withHandler h m)
  | addClosedState h es mp merges => exact wp_addClosedState_balanced hb hlegal
  | releaseStates h => exact wp_releaseStates_balanced hb hlegal

theorem Calls.balanced (hs : Calls SearcherOp.Heard s) : Balanced s := by
  induction hs with
  | start s hstates hadded hpaused hbase =>
    refine ⟨⟨fun x hx => ?_, fun x => ?_⟩, ?_, ?_, hadded⟩
    · rw [hbase] at hx
      cases hx
    · rw [hstates, hbase, hpaused]
      simp
    · rw [hbase]
      exact List.nodup_nil
    · rw [hpaused]
      exact List.nodup_nil
  | call op _ hlegal hop hexec ih => exact wp_ok (wp_call_balanced ih hlegal hop) hexec

/-- As long as every update is heard, every live state is selectable or paused and no other is;
and the next call keeps this exactly when it is heard, too. -/
theorem accounted_iff_heard (hs : Calls SearcherOp.Heard s) :
    Accounted s ∧ ∀ op : SearcherOp, op.Legal s →
      (wp op.exec (fun _ s' => Accounted s') (fun _ => False) s ↔ op.Heard s) := by
  have hb := hs.balanced
  refine ⟨hb.accounted, fun op hlegal => ?_⟩
  cases op with
  | update current addedStates removedStates => exact wp_update_iff hb hlegal
  | pauseState | continueState | setHandler | addClosedState | releaseStates =>
    refine iff_of_true (wp_post (wp_call_balanced hb hlegal trivial) fun _ _ h => h.accounted)
      trivial

def noStates : MergeState := ⟨⟨[], [], [], fun _ => [], 2, 0⟩, ⟨[], ∅, [], []⟩, fun _ => none⟩

theorem calls_noStates {P : MergeState → SearcherOp → Prop} : Calls P noStates :=
  .start _ rfl rfl rfl rfl

theorem legal_two : (SearcherOp.update none [0, 1] []).Legal noStates :=
  ⟨by decide, fun _ _ => List.not_mem_nil, fun _ hx => absurd hx List.not_mem_nil⟩

/-- Two states are added. -/
theorem accounted_iff_heard_two : ∃ s, s.executor.states = [0, 1] ∧ Accounted s ∧
    ∀ op : SearcherOp, op.Legal s →
      (wp op.exec (fun _ s' => Accounted s') (fun _ => False) s ↔ op.Heard s) := by
  have hheard : (SearcherOp.update none [0, 1] []).Heard noStates := by
    refine ⟨fun es heq => ?_, List.nodup_nil, fun _ hx => absurd hx List.not_mem_nil⟩
    cases heq
  have hadd := Calls.call (.update none [0, 1] []) calls_noStates legal_two hheard rfl
  exact ⟨_, rfl, accounted_iff_heard hadd⟩

/-- The current state 0 is paused, and in the same round 1 is terminated: the base searcher
still holds it. -/
theorem not_accounted_of_paused : ¬ ∀ s, Calls (fun _ _ => True) s → Accounted s := by
  intro hall
  have hstart : Calls (fun _ _ => True) noStates := calls_noStates
  have hadd := hstart.call (.update none [0, 1] []) legal_two trivial rfl
  have hpause := hadd.call (.pauseState 0) ⟨by decide, by decide⟩ trivial rfl
  have hlost := hpause.call (.update (some 0) [] [1]) ⟨List.nodup_nil,
    fun _ hx => absurd hx List.not_mem_nil, by decide⟩ trivial rfl
  have hone := ((hall _ hlost).live 1).mpr (.inl (by decide))
  revert hone
  decide

end Calls

end Klee.Merging
